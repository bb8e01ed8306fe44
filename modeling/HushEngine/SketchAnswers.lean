import HushEngine.Answers
import HushEngine.Reads

/-!
What the `hll` estimator estimates. In a fleet that keeps sketches every row
carries the sketch of the very users it counts, through replays, failed
batches and crashes. Merged over the partitions it is the sketch of one pass
over the cell's distinct users, whose number the exact estimator gives.
-/
namespace HushEngine

open Keyed Tally Runs Fallible Grouping HyperLogLog

/-- The sketch is one pass over the users of the cell. -/
def CellAgg.Sketched (agg : CellAgg) : Prop :=
  ∃ users : List String, users.toFinset = agg.users ∧ agg.hll = some (ofUsers users)

theorem CellAgg.sketched_add {agg : Option CellAgg} (h : ∀ a, agg = some a → a.Sketched)
    (user : String) : ((agg.getD CellAgg.empty).add user true).Sketched := by
  have hold : ∃ users : List String, users.toFinset = (agg.getD CellAgg.empty).users ∧
      (agg.getD CellAgg.empty).hll.getD withDefaultPrecision = ofUsers users := by
    cases agg with
    | none => exact ⟨[], rfl, rfl⟩
    | some a =>
      obtain ⟨users, husers, hhll⟩ := h a rfl
      exact ⟨users, husers, by rw [Option.getD_some, hhll, Option.getD_some]⟩
  obtain ⟨users, husers, hhll⟩ := hold
  refine ⟨users ++ [user], ?_, ?_⟩
  · rw [List.toFinset_append, husers, CellAgg.add]
    ext u
    simp
  · rw [CellAgg.hll_add, hhll, ofUsers_concat]

def Window.Sketched (win : Window) : Prop :=
  ∀ cell agg, win.cells.lookup cell = some agg → agg.Sketched

theorem Window.sketched_new (offset : Nat) : (Window.new offset).Sketched := by
  intro cell agg hlook
  cases hlook

theorem Window.Sketched.fold {win : Window} (h : win.Sketched) (e : Event) (offset : Nat) :
    (win.fold e offset true).Sketched := by
  intro cell agg hlook
  rw [fold_lookup] at hlook
  split_ifs at hlook with hcell
  · obtain rfl := Option.some.inj hlook
    exact CellAgg.sketched_add (h cell) e.user
  · exact h cell agg hlook

/-- The owner keeps sketches, and has in every window it holds. -/
structure Worker.Sketches (w : Worker) : Prop where
  enabled : w.mem.hllEnabled = true
  open_sketched : ∀ x win, w.mem.openWindows.lookup x = some win → win.Sketched
  batch_sketched : ∀ b, w.batch = some b → ∀ c ∈ b.closed, c.2.Sketched

namespace Owner

theorem sketches_boot (db : Db) (partition : Int) (now : Nat) (nowUtc : Int)
    (earlier : List Message) :
    (boot db partition true now nowUtc earlier).toWorker.Sketches where
  enabled := by
    change (PartitionState.postRebalance db partition true now nowUtc).hllEnabled = true
    unfold PartitionState.postRebalance
    cases db.loadProgress partition <;> rfl
  open_sketched x win hwin := by
    rw [show (boot db partition true now nowUtc earlier).mem.openWindows = ∅ from
      PartitionState.postRebalance_openWindows ..] at hwin
    cases hwin
  batch_sketched b hb := by cases hb

/-- Every step of an owner that keeps sketches keeps them. -/
theorem sketches_step {p : Int} {s t : Owner} {a : Action} (h : s.toWorker.Sketches)
    (hstep : step p s a = some t) : t.toWorker.Sketches := by
  cases a with
  | deliver m now =>
    obtain ⟨_, rfl⟩ := step_deliver hstep
    refine ⟨?_, fun x win hwin => ?_, h.batch_sketched⟩
    · exact (s.mem.processEvent_hllEnabled m.event m.offset now).trans h.enabled
    · have hlook : (s.mem.processEvent m.event m.offset now).1.openWindows.lookup x =
          some win := hwin
      rw [PartitionState.processEvent_lookup, h.enabled] at hlook
      split_ifs at hlook with hnew
      · obtain rfl := Option.some.inj hlook
        apply Window.Sketched.fold
        unfold PartitionState.windowFor
        cases hwin : s.mem.openWindows.lookup m.event.window with
        | none => exact Window.sketched_new _
        | some old => exact h.open_sketched _ old hwin
      · exact h.open_sketched x win hlook
  | tickIdle nowWall nowUtc =>
    obtain rfl := step_tickIdle hstep
    refine ⟨?_, fun x win hwin => ?_, h.batch_sketched⟩
    · change (s.mem.tickIdle nowWall nowUtc).hllEnabled = true
      unfold PartitionState.tickIdle
      split_ifs <;> exact h.enabled
    · exact h.open_sketched x win (by simpa using hwin)
  | collect =>
    obtain ⟨_, rfl⟩ := step_collect hstep
    refine ⟨?_, fun x win hwin => ?_, fun b hb c hc => ?_⟩
    · dsimp only
      rw [PartitionState.collectBatch_fst]
      exact h.enabled
    · dsimp only at hwin
      rw [PartitionState.collectBatch_fst] at hwin
      exact h.open_sketched x win (PartitionState.lookup_of_takeClosedWindows hwin).1
    · obtain ⟨_, rfl⟩ := PartitionState.collectBatch_snd_eq_some hb
      exact h.open_sketched _ _ ((s.mem.mem_takeClosedWindows c.1 c.2).mp hc).1
  | commit =>
    obtain ⟨_, _, rfl⟩ := step_commit hstep
    exact ⟨h.enabled, h.open_sketched, fun b hb => by cases hb⟩
  | fail =>
    obtain ⟨_, _, rfl⟩ := step_fail hstep
    exact ⟨h.enabled, h.open_sketched, fun b hb => by cases hb⟩
  | crash now nowUtc =>
    obtain rfl := step_crash hstep
    rw [h.enabled]
    exact sketches_boot ..

end Owner

/-- The partition's rows of the window carry the sketches of the users of the events. -/
def Db.SketchesOf (db : Db) (p x : Int) (events : Finset Event) : Prop :=
  ∀ key row, db.aggCells.lookup ⟨x, key, p⟩ = some row → ∃ users : List String,
    users.toFinset = usersIn events key ∧ row.usersHll = storedSketch (some users)

theorem Db.SketchesOf.of_lookup_eq {db db' : Db} {p x : Int} {events : Finset Event}
    (h : db.SketchesOf p x events)
    (hrows : ∀ key, db'.aggCells.lookup ⟨x, key, p⟩ = db.aggCells.lookup ⟨x, key, p⟩) :
    db'.SketchesOf p x events := by
  intro key row hrow
  rw [hrows] at hrow
  exact h key row hrow

/-- Rows with sketches merge into the sketch of the people behind all of them. -/
theorem exists_mergeSketches {rs : List (AggKey × AggRow)} (people : AggKey → Finset String)
    (hne : rs ≠ []) (h : ∀ r ∈ rs, ∃ users : List String, users.toFinset = people r.1 ∧
      r.2.usersHll = storedSketch (some users)) :
    ∃ users : List String, (∀ u, u ∈ users ↔ ∃ r ∈ rs, u ∈ people r.1) ∧
      mergeSketches (rs.map Prod.snd) = .ok (some (ofUsers users)) := by
  choose! stored hpeople hsketch using h
  have hcolumn : rs.map (fun r => r.2.usersHll) =
      (rs.map fun r => some (stored r)).map storedSketch := by
    rw [List.map_map]
    exact List.map_congr_left fun r hr => hsketch r hr
  obtain ⟨r, hr⟩ := List.exists_mem_of_ne_nil _ hne
  have hsome : ∃ us, some us ∈ rs.map fun r => some (stored r) :=
    ⟨stored r, List.mem_map.mpr ⟨r, hr, rfl⟩⟩
  have hmerged := foldlM_mergeHllBytes_none hsome
  refine ⟨usersOf (rs.map fun r => some (stored r)), fun u => ?_, ?_⟩
  · rw [mem_usersOf]
    constructor
    · intro hu
      obtain ⟨users, husers, hu⟩ := hu
      obtain ⟨r, hr, heq⟩ := List.mem_map.mp husers
      cases heq
      exact ⟨r, hr, by rwa [← hpeople r hr, List.mem_toFinset]⟩
    · intro hu
      obtain ⟨r, hr, hu⟩ := hu
      rw [← hpeople r hr, List.mem_toFinset] at hu
      exact ⟨stored r, List.mem_map.mpr ⟨r, hr, rfl⟩, hu⟩
  · rw [← hmerged, ← hcolumn, mergeSketches, List.foldlM_map, List.foldlM_map]

/-- A group of child rows is the rows of one cell. -/
theorem group_eq_cellRows {db : Db} {x : Int} {key : CellKey} {g : ChildLabel × List AggRow}
    (hg : g ∈ groupBy ownLabel (db.childRows x key)) :
    g.2 = (db.cellRows x (g.1.cell key)).map Prod.snd ∧ g.2 ≠ [] := by
  obtain ⟨⟨l, rs⟩, hgroup, rfl⟩ := List.mem_map.mp hg
  obtain ⟨⟨a, ha, rfl⟩, hrs⟩ := mem_groupOn.mp hgroup
  dsimp only at hrs ⊢
  have hmem : a ∈ rs := by
    rw [hrs]
    exact List.mem_filter.mpr ⟨ha, decide_eq_true rfl⟩
  refine ⟨?_, List.ne_nil_of_mem (List.mem_map_of_mem hmem)⟩
  rw [hrs, filter_childRows (fun _ => cell_ownLabel) ha, cell_ownLabel ha,
    group_of_mem_childRows ha, Db.cellRows]

/-- The children are read under the keys of their rows, each once. -/
theorem fetchedHll_cells {estimate : HyperLogLog → UInt64} {db : Db} {x : Int} {key : CellKey}
    {children : List RawCell} (hok : fetchChildrenHll estimate db x key = .ok children) :
    (children.map (RawCell.cell key)).Nodup ∧
      ∀ c, c ∈ children.map (RawCell.cell key) ↔ c ∈ db.childKeys x key := by
  have hcells : children.map (RawCell.cell key) =
      ((groupBy ownLabel (db.childRows x key)).map Prod.fst).map (ChildLabel.cell key) := by
    rw [List.map_map]
    refine map_eq_of_forall₂ (mapM_eq_ok.mp hok) fun g c hgc => ?_
    obtain ⟨_, _, hc⟩ := bind_eq_ok.mp hgc
    cases hc
    rfl
  constructor
  · rw [hcells]
    exact (nodup_groupBy _ _).map (ChildLabel.cell_injective key)
  · intro c
    rw [hcells, Db.childKeys, List.mem_toFinset, List.mem_map, List.mem_map]
    constructor
    · intro hc
      obtain ⟨l, hl, rfl⟩ := hc
      obtain ⟨g, hg, rfl⟩ := List.mem_map.mp hl
      obtain ⟨⟨l, rs⟩, hgroup, rfl⟩ := List.mem_map.mp hg
      obtain ⟨⟨r, hr, rfl⟩, _⟩ := mem_groupOn.mp hgroup
      exact ⟨r, hr, (cell_ownLabel hr).symm⟩
    · intro hc
      obtain ⟨r, hr, rfl⟩ := hc
      obtain ⟨g, hg, hlabel⟩ := exists_mem_groupBy ownLabel hr
      exact ⟨ownLabel r.1, List.mem_map.mpr ⟨g, hg, hlabel⟩, cell_ownLabel hr⟩

/-- What the `hll` reads of a window say of a set of events. -/
structure Estimates (estimate : HyperLogLog → UInt64) (db : Db) (x : Int)
    (events : Finset Event) : Prop where
  /-- One pass over the distinct users, in any order, is all that is estimated. -/
  cell : ∀ key users, users ≠ [] → users.toFinset = usersIn events key →
    fetchCellHll estimate db x key = .ok (some ⟨key.family, key.wiki, key.ns,
      UInt64.ofNat (contributors CellKey.cellsForEvent events key).card,
      estimate (ofUsers users)⟩)
  absent : ∀ key, usersIn events key = ∅ → fetchCellHll estimate db x key = .ok none
  /-- Every child that has users is read once, and as it would be by itself. -/
  children : ∀ parent, ∃ children, fetchChildrenHll estimate db x parent = .ok children ∧
    (children.map (RawCell.cell parent)).Nodup ∧
    (∀ key, key ∈ children.map (RawCell.cell parent) ↔
      isChildRow x parent ⟨x, key, 0⟩ = true ∧ (usersIn events key).Nonempty) ∧
    ∀ c ∈ children, fetchCellHll estimate db x (c.cell parent) = .ok (some c)

section Sketched

variable {estimate : HyperLogLog → UInt64} {db : Db} {x : Int} {route : String → Int}
  {events : Finset Event} (h : db.Tallied x (Tally.routed (fun e => route e.user) events))
  (hsketches : ∀ p, db.SketchesOf p x (Tally.routed (fun e => route e.user) events p))

include h

/-- A cell has rows where it has users. -/
theorem cellRows_ne_nil_of_users {key : CellKey} :
    (db.cellRows x key).map Prod.snd ≠ [] ↔ (usersIn events key).Nonempty := by
  rw [cellRows_ne_nil_iff, usersIn, Tally.users, Finset.image_nonempty,
    ← h.mem_groups_routed, Db.mem_groups]

/-- The users of a cell are those its rows stand for, partition by partition. -/
theorem mem_usersIn_iff {key : CellKey} {u : String} :
    u ∈ usersIn events key ↔ ∃ r ∈ db.cellRows x key,
      u ∈ usersIn (Tally.routed (fun e => route e.user) events r.1.kpartition) key := by
  simp only [usersIn, Tally.users, contributors_routed, Finset.mem_image, Finset.mem_filter]
  constructor
  · intro hu
    obtain ⟨e, he, rfl⟩ := hu
    have hrow : (db.aggCells.lookup ⟨x, key, route e.user⟩).isSome := by
      rw [h.isSome_iff, contributors_routed]
      exact ⟨e, Finset.mem_filter.mpr ⟨he, rfl⟩⟩
    obtain ⟨row, hrow⟩ := Option.isSome_iff_exists.mp hrow
    exact ⟨(⟨x, key, route e.user⟩, row), List.mem_filter.mpr
      ⟨(mem_rows _ _ _).mpr hrow, decide_eq_true rfl⟩, e, ⟨he, rfl⟩, rfl⟩
  · intro hu
    obtain ⟨_, _, e, ⟨he, _⟩, rfl⟩ := hu
    exact ⟨e, he, rfl⟩

include hsketches

theorem mergeSketches_cellRows {key : CellKey} {users : List String} (hne : users ≠ [])
    (husers : users.toFinset = usersIn events key) :
    mergeSketches ((db.cellRows x key).map Prod.snd) = .ok (some (ofUsers users)) := by
  have hpeople : ∀ r ∈ db.cellRows x key, ∃ users : List String,
      users.toFinset = usersIn (Tally.routed (fun e => route e.user) events r.1.kpartition) key ∧
        r.2.usersHll = storedSketch (some users) := by
    intro r hr
    obtain ⟨⟨start, cell, p⟩, row⟩ := r
    obtain ⟨hrow, hgroup⟩ := List.mem_filter.mp hr
    obtain ⟨rfl, rfl⟩ := GroupKey.mk.inj (of_decide_eq_true hgroup)
    exact hsketches p _ row ((mem_rows _ _ _).mp hrow)
  have hrows : db.cellRows x key ≠ [] := by
    obtain ⟨u, hu⟩ := List.exists_mem_of_ne_nil _ hne
    have hsome := (cellRows_ne_nil_of_users h).mpr ⟨u, husers ▸ List.mem_toFinset.mpr hu⟩
    exact fun hnil => hsome (by rw [hnil, List.map_nil])
  obtain ⟨merged, hmem, hmerged⟩ := exists_mergeSketches
    (fun k => usersIn (Tally.routed (fun e => route e.user) events k.kpartition) key)
    hrows hpeople
  have hsame : ofUsers merged = ofUsers users := by
    refine ofUsers_congr fun u => ?_
    rw [hmem, ← mem_usersIn_iff h, ← husers, List.mem_toFinset]
  rw [hmerged, hsame]

theorem estimates_of_sketches (estimate : HyperLogLog → UInt64) :
    Estimates estimate db x events := by
  have hcell : ∀ key users, users ≠ [] → users.toFinset = usersIn events key →
      fetchCellHll estimate db x key = .ok (some ⟨key.family, key.wiki, key.ns,
        UInt64.ofNat (contributors CellKey.cellsForEvent events key).card,
        estimate (ofUsers users)⟩) := by
    intro key users hne husers
    have hnonempty : (usersIn events key).Nonempty := by
      rw [← husers]
      exact (List.toFinset_nonempty_iff _).mpr hne
    refine fetchCellHll_eq_ok.mpr ⟨(cellRows_ne_nil_of_users h).mpr hnonempty, _,
      mergeSketches_cellRows h hsketches hne husers, ?_⟩
    rw [columnSum_cellRows, (h.groupSum_routed key).1]
    rfl
  refine ⟨hcell, fun key hempty => ?_, fun parent => ?_⟩
  · have hnil : (db.cellRows x key).map Prod.snd = [] := by
      by_contra hne
      have hsome := (cellRows_ne_nil_of_users h).mp hne
      rw [hempty] at hsome
      exact Finset.not_nonempty_empty hsome
    exact if_pos hnil
  · have hread : ∀ g ∈ groupBy ownLabel (db.childRows x parent), ∃ c,
        estimateGroup estimate g = .ok c ∧
          fetchCellHll estimate db x (c.cell parent) = .ok (some c) := by
      intro g hg
      obtain ⟨hrows, hne⟩ := group_eq_cellRows hg
      rw [hrows] at hne
      have husers : (usersIn events (g.1.cell parent)).toList ≠ [] := fun hnil =>
        ((cellRows_ne_nil_of_users h).mp hne).ne_empty (Finset.toList_eq_nil.mp hnil)
      have hmerged := mergeSketches_cellRows h hsketches husers (Finset.toList_toFinset _)
      refine ⟨_, bind_eq_ok.mpr ⟨_, hrows ▸ hmerged, rfl⟩, ?_⟩
      refine fetchCellHll_eq_ok.mpr ⟨hne, _, hmerged, ?_⟩
      rw [hrows]
      rfl
    have hok := exists_mapM_ok_iff.mpr fun g hg => (hread g hg).imp fun _ hc => hc.1
    obtain ⟨children, hchildren⟩ := hok
    obtain ⟨hnodup, hkeys⟩ := fetchedHll_cells hchildren
    refine ⟨children, hchildren, hnodup, fun key => ?_, fun c hc => ?_⟩
    · rw [hkeys, mem_childKeys_iff, h.mem_groups_routed, usersIn, Tally.users,
        Finset.image_nonempty]
    · obtain ⟨g, hg, hgc⟩ := exists_of_mem_mapM hchildren hc
      obtain ⟨c', hc', hfetch⟩ := hread g hg
      rw [hgc] at hc'
      cases hc'
      exact hfetch

end Sketched

namespace Fleet

/-- The rows count, and their sketches are of, one set of events delivered to the partition. -/
structure Sketching (delivered : Int → Event → Prop) (s : Fleet) : Prop where
  accounted : Accounted delivered s
  workers : ∀ p w, s.owners.lookup p = some w → w.Sketches
  rows : ∀ p x, ∃ events : Finset Event, (∀ e ∈ events, delivered p e ∧ e.window = x) ∧
    s.db.Counts p x events ∧ s.db.SketchesOf p x events

variable {delivered : Int → Event → Prop} {s t : Fleet}

theorem sketching_idle (delivered : Int → Event → Prop) :
    Sketching delivered (idle Db.empty) where
  accounted := accounted_idle delivered
  workers p w hw := by cases hw
  rows p x := ⟨∅, by simp, ⟨fun key => (cellTally_empty key).symm, by simp⟩,
    fun key row hrow => by cases hrow⟩

/-- A batch writes the sketches of what was accepted for its windows. -/
theorem Sketching.sketchesOf_batch (h : Sketching delivered s) {p : Int} {w : Worker} {b : Batch}
    (hw : s.owners.lookup p = some w) (hb : w.batch = some b) {c : Int × Window}
    (hc : c ∈ b.closed) : (b.flush s.db p).SketchesOf p c.1 (eventsIn w.accepted c.1) := by
  have hfits := (h.accounted.sound.steady p w hw).fits b hb
  have hholds := (h.accounted.owners p w hw).1.batch_holds b hb c hc
  intro key row hrow
  have hnone : s.db.aggCells.lookup ⟨c.1, key, p⟩ = none :=
    Option.map_eq_none_iff.mp
      ((h.accounted.sound.rows p).rowTotals_eq_none (hfits.not_settled hc) key)
  rw [Batch.flush, Db.flushWindows_lookup_window s.db p b.closed b.committedOffset
    b.flushedWatermark hfits.nodup hc key, hnone, Option.or_none, Window.rowOf,
    Option.map_eq_some_iff] at hrow
  obtain ⟨agg, hagg, rfl⟩ := hrow
  obtain ⟨users, husers, hhll⟩ := (h.workers p w hw).batch_sketched b hb c hc key agg hagg
  have hagg' := hholds.users key
  rw [hagg, Option.getD_some] at hagg'
  exact ⟨users, husers.trans hagg', by rw [CellAgg.toRow, hhll, storedSketch]; rfl⟩

theorem Sketching.step {a : FleetAction} (h : Sketching delivered s)
    (hdelivered : ∀ p m now, a = .act p (.deliver m now) → delivered p m.event)
    (hon : ∀ p hllEnabled now nowUtc, a = .start p hllEnabled now nowUtc → hllEnabled = true)
    (hstep : Fleet.step s a = some t) : Sketching delivered t where
  accounted := h.accounted.step hdelivered hstep
  workers := by
    refine lift_step (fun _ w _ => w.Sketches) ?_ ?_ (fun _ _ _ _ hw => hw) h.workers hstep
    · intro p hllEnabled now nowUtc ha
      rw [hon p hllEnabled now nowUtc ha]
      exact Owner.sketches_boot ..
    · exact fun p b w o _ _ hw ho => Owner.sketches_step hw ho
  rows q x := by
    obtain ⟨events, hevents, hcounts, hsketches⟩ := h.rows q x
    cases a with
    | start p hllEnabled now nowUtc =>
      obtain ⟨_, rfl⟩ := step_start hstep
      exact ⟨events, hevents, hcounts, hsketches⟩
    | act p b =>
      obtain ⟨w, o, hw, ho, rfl⟩ := step_act hstep
      by_cases hq : q = p
      · subst hq
        rcases Owner.step_db ho with hdb | ⟨_, batch, hbatch, hdb⟩ <;> rw [advance_db, hdb]
        · exact ⟨events, hevents, hcounts, hsketches⟩
        · by_cases hmem : x ∈ batch.closed.map Prod.fst
          · obtain ⟨c, hc, rfl⟩ := List.mem_map.mp hmem
            obtain ⟨hnew, hnewCounts⟩ := h.accounted.counts_of_batch hw hbatch hc
            exact ⟨_, hnew, hnewCounts, h.sketchesOf_batch hw hbatch hc⟩
          · exact ⟨events, hevents,
              hcounts.of_rowTotals_eq (batch.rowTotals_flush_of_not_mem s.db hmem),
              hsketches.of_lookup_eq fun key =>
                Db.flushWindows_lookup_of_not_mem _ _ _ _ _ ⟨x, key, q⟩ fun _ => hmem⟩
      · have hsame := samePartition_of_step hq ho
        exact ⟨events, hevents, hcounts.of_rowTotals_eq (hsame.rowTotals_eq x),
          hsketches.of_lookup_eq fun key => hsame.rows ⟨x, key, q⟩ rfl⟩

theorem sketching_of_run {actions : List FleetAction}
    (hon : ∀ p hllEnabled now nowUtc,
      FleetAction.start p hllEnabled now nowUtc ∈ actions → hllEnabled = true)
    (hrun : Run step free (idle Db.empty) actions s) : Sketching (Delivered actions) s := by
  have hguarded : Run step (fun _ a => a ∈ actions) (idle Db.empty) actions s := by
    refine hrun.strengthen fun pre a post _ _ hactions _ _ _ => ?_
    rw [hactions]
    exact List.mem_append_right _ (List.mem_cons_self ..)
  refine hguarded.invariant (fun u a v hu ha hstep => hu.step ?_ ?_ hstep) (sketching_idle _)
  · rintro p m now rfl
    exact ⟨m.offset, now, ha⟩
  · rintro p hllEnabled now nowUtc rfl
    exact hon p hllEnabled now nowUtc ha

/-- Where every owner keeps sketches, both estimators read one set of delivered events: the exact
one gives the number of its distinct users, the other estimates from one pass over them. -/
theorem estimate_of_delivered (estimate : HyperLogLog → UInt64) (route : String → Int)
    (actions : List FleetAction) (s : Fleet) (hrun : Run step free (idle Db.empty) actions s)
    (hrouted : ∀ p m now, FleetAction.act p (.deliver m now) ∈ actions → route m.event.user = p)
    (hon : ∀ p hllEnabled now nowUtc,
      FleetAction.start p hllEnabled now nowUtc ∈ actions → hllEnabled = true) (x : Int) :
    ∃ events : Finset Event,
      (∀ e ∈ events, Delivered actions (route e.user) e ∧ e.window = x) ∧
      (∀ key, s.db.groupSum ⟨x, key⟩ AggRow.users = (usersIn events key).card) ∧
      Estimates estimate s.db x events := by
  have h := sketching_of_run hon hrun
  choose share hshare hcounts hsketches using fun p => h.rows p x
  have hroute : ∀ p, ∀ e ∈ share p, route e.user = p := fun p e he =>
    Delivered.route_eq hrouted p e (hshare p e he).1
  have hshares := routed_shares hroute hcounts
  have htallied : s.db.Tallied x
      (Tally.routed (fun e => route e.user) (s.db.partitions.biUnion share)) := by
    intro p key
    rw [hshares]
    exact (hcounts p).rows key
  refine ⟨s.db.partitions.biUnion share, fun e he => ?_,
    fun key => (htallied.groupSum_routed key).2,
    estimates_of_sketches htallied (fun p => ?_) estimate⟩
  · obtain ⟨q, _, hq⟩ := Finset.mem_biUnion.mp he
    rw [hroute q e hq]
    exact hshare q e hq
  · rw [hshares]
    exact hsketches p

def partitionOf (user : String) : Int := if user = "u1" then 0 else 1

/-- Two partitions with a user each, one of them seen twice. -/
def sketchedPartitions : List FleetAction :=
  [.start 0 true 0 0, .start 1 true 0 0, .act 0 (.deliver ⟨0, evt 1000000000 1 "u1"⟩ 0),
    .act 1 (.deliver ⟨0, evt 2000000000 2 "u2"⟩ 0), .act 0 (.deliver ⟨1, evt 3000000000 3 "u1"⟩ 0),
    .act 0 (.tickIdle 20000000000 200000000000), .act 0 .collect, .act 0 .commit,
    .act 1 (.tickIdle 20000000000 200000000000), .act 1 .collect, .act 1 .commit]

theorem estimate_of_delivered_sketchedPartitions :
    ∃ s, Run step free (idle Db.empty) sketchedPartitions s ∧
      s.db.groupSum ⟨0, .global⟩ AggRow.users = 2 ∧
      ∃ events : Finset Event, (usersIn events .global).card = 2 ∧
        Estimates (fun h => UInt64.ofNat h.registers.length) s.db 0 events := by
  have hrun : ∃ s, Run step free (idle Db.empty) sketchedPartitions s ∧
      s.db.groupSum ⟨0, .global⟩ AggRow.users = 2 :=
    ⟨_, run_of_execute rfl, by decide⟩
  obtain ⟨s, hs, hsum⟩ := hrun
  have hrouted : ∀ p m now, FleetAction.act p (.deliver m now) ∈ sketchedPartitions →
      partitionOf m.event.user = p := by
    intro p m now hmem
    simp [sketchedPartitions] at hmem
    rcases hmem with ⟨rfl, rfl, _⟩ | ⟨rfl, rfl, _⟩ | ⟨rfl, rfl, _⟩ <;> rfl
  obtain ⟨events, _, husers, hestimates⟩ := estimate_of_delivered
    (fun h => UInt64.ofNat h.registers.length) partitionOf _ s hs hrouted
    (fun p hllEnabled now nowUtc hmem => by simp [sketchedPartitions] at hmem; grind) 0
  exact ⟨s, hs, hsum, events, by rw [← husers, hsum], hestimates⟩

end Fleet

end HushEngine
