import HushEngine.Pipeline
import HushEngine.Rollup

/-!
What the stored numbers stand for, whatever goes wrong. Late events, idle
clocks, lost batches, crashes and replays decide which events are counted. They
never make the rows of a window the tally of anything but one set of events
that have been delivered, each of them once.
-/
namespace HushEngine

open Keyed Tally Runs

section SamePartition

variable {p : Int} {w : Worker} {db db' : Db}

theorem Owner.Contents.of_samePartition (h : Owner.Contents p ⟨w, db⟩)
    (hsame : db.SamePartition p db') : Owner.Contents p ⟨w, db'⟩ where
  open_holds := h.open_holds
  batch_holds := h.batch_holds
  still_open := h.still_open
  accepted_below := h.accepted_below
  batch_offset := h.batch_offset
  progress_offset pr hpr := by
    dsimp only at hpr
    rw [hsame.progress] at hpr
    exact h.progress_offset pr hpr

end SamePartition

/-- The partition's rows of the window are the tally of the events. -/
structure Db.Counts (db : Db) (p x : Int) (events : Finset Event) : Prop where
  rows : ∀ key, db.rowTotals p x key = cellTally events key
  distinct : Set.InjOn Event.eventId (events : Set Event)

theorem Db.Counts.of_rowTotals_eq {db db' : Db} {p x : Int} {events : Finset Event}
    (h : db.Counts p x events) (hrows : ∀ key, db'.rowTotals p x key = db.rowTotals p x key) :
    db'.Counts p x events where
  rows key := (hrows key).trans (h.rows key)
  distinct := h.distinct

section Routed

variable {db : Db} {x : Int} {route : String → Int} {events : Finset Event}
  (h : db.Tallied x (Tally.routed (fun e => route e.user) events))

include h

theorem Db.Tallied.route_mem {key : CellKey} :
    ∀ e ∈ contributors CellKey.cellsForEvent events key, route e.user ∈ db.partitions := by
  intro e he
  have hmem : e ∈ contributors CellKey.cellsForEvent
      (Tally.routed (fun e => route e.user) events (route e.user)) key := by
    rw [contributors_routed]
    exact Finset.mem_filter.mpr ⟨he, rfl⟩
  exact mem_partitions ((h.isSome_iff _ key).mpr ⟨e, hmem⟩)

/-- Summed over the partitions, the rows are the tally of all the events. -/
theorem Db.Tallied.groupSum_routed (key : CellKey) :
    db.groupSum ⟨x, key⟩ AggRow.events =
        (totals CellKey.cellsForEvent Event.user events key).events ∧
      db.groupSum ⟨x, key⟩ AggRow.users =
        (totals CellKey.cellsForEvent Event.user events key).users := by
  rw [h.groupSum_events, h.groupSum_users]
  exact ⟨sum_events_routed _ _ _ _ _ _ h.route_mem, sum_users_routed _ _ route _ _ _ h.route_mem⟩

theorem Db.Tallied.mem_groups_routed (key : CellKey) :
    ⟨x, key⟩ ∈ db.groups ↔ (contributors CellKey.cellsForEvent events key).Nonempty := by
  rw [mem_groups]
  simp only [h.isSome_iff, contributors_routed]
  constructor
  · intro hrow
    obtain ⟨p, e, he⟩ := hrow
    exact ⟨e, (Finset.mem_filter.mp he).1⟩
  · intro hrow
    obtain ⟨e, he⟩ := hrow
    exact ⟨route e.user, e, Finset.mem_filter.mpr ⟨he, rfl⟩⟩

/-- What reconciliation reads of a cell is its tally. -/
theorem Db.Tallied.lookup_actualCells (key : CellKey) :
    (actualCells db).lookup ⟨x, key⟩ = cellTally events key := by
  obtain ⟨hevents, husers⟩ := h.groupSum_routed key
  rw [HushEngine.lookup_actualCells, hevents, husers, cellTally, tally]
  simp only [h.mem_groups_routed key]

end Routed

namespace Fleet

/-- What may be delivered, to which partition. -/
def Delivered (actions : List FleetAction) (p : Int) (e : Event) : Prop :=
  ∃ offset now, FleetAction.act p (.deliver ⟨offset, e⟩ now) ∈ actions

theorem Delivered.route_eq {route : String → Int} {actions : List FleetAction}
    (hrouted : ∀ p m now, FleetAction.act p (.deliver m now) ∈ actions → route m.event.user = p)
    (p : Int) (e : Event) (h : Delivered actions p e) : route e.user = p := by
  obtain ⟨offset, now, hmem⟩ := h
  exact hrouted p ⟨offset, e⟩ now hmem

/-- Owners have accepted, and rows have counted, only what was delivered to their partition. -/
structure Accounted (delivered : Int → Event → Prop) (s : Fleet) : Prop where
  sound : s.Sound
  owners : ∀ p w, s.owners.lookup p = some w →
    Owner.Contents p ⟨w, s.db⟩ ∧ ∀ m ∈ w.accepted, delivered p m.event
  rows : ∀ p x, ∃ events : Finset Event,
    (∀ e ∈ events, delivered p e ∧ e.window = x) ∧ s.db.Counts p x events

theorem accounted_idle (delivered : Int → Event → Prop) :
    Accounted delivered (idle Db.empty) where
  sound := ⟨steady_idle _, Db.rowsCovered_empty⟩
  owners p w hw := by cases hw
  rows p x := ⟨∅, by simp, fun key => (cellTally_empty key).symm, by simp⟩

variable {delivered : Int → Event → Prop} {s t : Fleet}

theorem Sound.owner (h : s.Sound) {p : Int} {w : Worker} (hw : s.owners.lookup p = some w) :
    Owner.Sound p ⟨w, s.db⟩ where
  toSteady := h.steady p w hw
  rows := h.rows p

/-- What an owner has accepted after its step was accepted before or has been delivered now. -/
theorem mem_accepted_of_step {p : Int} {w : Worker} {db : Db} {o : Owner} {b : Action}
    (hstep : Owner.step p ⟨w, db⟩ b = some o) {m : Message} (hm : m ∈ o.accepted) :
    m ∈ w.accepted ∨ ∃ now, b = .deliver m now := by
  cases b with
  | deliver m' now =>
    obtain ⟨_, rfl⟩ := Owner.step_deliver hstep
    rcases Owner.consume_cases ⟨w, db⟩ m' now with ⟨_, hacc, _⟩ | ⟨hacc, _, _, _⟩
    · exact Or.inl (by rwa [← hacc])
    · have hm : m ∈ (w.consume m' now).accepted := hm
      rw [hacc] at hm
      rcases List.mem_cons.mp hm with rfl | hold
      · exact Or.inr ⟨now, rfl⟩
      · exact Or.inl hold
  | tickIdle nowWall nowUtc =>
    obtain rfl := Owner.step_tickIdle hstep
    exact Or.inl hm
  | collect =>
    obtain ⟨_, rfl⟩ := Owner.step_collect hstep
    exact Or.inl hm
  | commit =>
    obtain ⟨_, _, rfl⟩ := Owner.step_commit hstep
    exact Or.inl hm
  | fail =>
    obtain ⟨_, _, rfl⟩ := Owner.step_fail hstep
    exact Or.inl hm
  | crash now nowUtc =>
    obtain rfl := Owner.step_crash hstep
    cases hm

/-- A window of the batch had no rows before and has those of what was accepted for it after. -/
theorem Accounted.counts_of_batch (h : Accounted delivered s) {p : Int} {w : Worker} {b : Batch}
    (hw : s.owners.lookup p = some w) (hb : w.batch = some b) {c : Int × Window}
    (hc : c ∈ b.closed) :
    (∀ e ∈ eventsIn w.accepted c.1, delivered p e ∧ e.window = c.1) ∧
      (b.flush s.db p).Counts p c.1 (eventsIn w.accepted c.1) := by
  have hfits := (h.sound.steady p w hw).fits b hb
  obtain ⟨hcontents, haccepted⟩ := h.owners p w hw
  have hholds := hcontents.batch_holds b hb c hc
  refine ⟨fun e he => ?_, hfits.rowTotals_flush (h.sound.rows p) hc hholds, hholds.inj⟩
  obtain ⟨m, hm, hwindow, rfl⟩ := (mem_eventsIn _ _ _).mp he
  exact ⟨haccepted m hm, hwindow⟩

/-- The other windows keep theirs. -/
theorem Accounted.rows_of_commit (h : Accounted delivered s) {p : Int} {w : Worker} {b : Batch}
    (hw : s.owners.lookup p = some w) (hb : w.batch = some b) (x : Int) :
    ∃ events : Finset Event, (∀ e ∈ events, delivered p e ∧ e.window = x) ∧
      (b.flush s.db p).Counts p x events := by
  by_cases hmem : x ∈ b.closed.map Prod.fst
  · obtain ⟨c, hc, rfl⟩ := List.mem_map.mp hmem
    exact ⟨_, h.counts_of_batch hw hb hc⟩
  · obtain ⟨events, hevents, hcounts⟩ := h.rows p x
    exact ⟨events, hevents, hcounts.of_rowTotals_eq (b.rowTotals_flush_of_not_mem s.db hmem)⟩

theorem Accounted.step {a : FleetAction} (h : Accounted delivered s)
    (hguard : ∀ p m now, a = .act p (.deliver m now) → delivered p m.event)
    (hstep : Fleet.step s a = some t) : Accounted delivered t where
  sound := h.sound.step hstep
  owners := by
    refine lift_step (fun p w db => Owner.Contents p ⟨w, db⟩ ∧ ∀ m ∈ w.accepted,
      delivered p m.event) ?_ ?_ ?_ h.owners hstep
    · exact fun p hllEnabled now nowUtc _ =>
        ⟨Owner.contents_boot .., fun m hm => by cases hm⟩
    · intro p b w o ha hw hinv ho
      refine ⟨hinv.1.step (h.sound.owner hw) ho, fun m hm => ?_⟩
      rcases mem_accepted_of_step ho hm with hold | ⟨now, rfl⟩
      · exact hinv.2 m hold
      · exact hguard p m now ha
    · exact fun q w db hsame hinv => ⟨hinv.1.of_samePartition hsame, hinv.2⟩
  rows q x := by
    obtain ⟨events, hevents, hcounts⟩ := h.rows q x
    cases a with
    | start p hllEnabled now nowUtc =>
      obtain ⟨_, rfl⟩ := step_start hstep
      exact ⟨events, hevents, hcounts⟩
    | act p b =>
      obtain ⟨w, o, hw, ho, rfl⟩ := step_act hstep
      by_cases hq : q = p
      · subst hq
        rcases Owner.step_db ho with hdb | ⟨_, batch, hbatch, hdb⟩ <;> rw [advance_db, hdb]
        · exact ⟨events, hevents, hcounts⟩
        · exact h.rows_of_commit hw hbatch x
      · exact ⟨events, hevents,
          hcounts.of_rowTotals_eq ((samePartition_of_step hq ho).rowTotals_eq x)⟩

theorem accounted_of_run {actions : List FleetAction}
    (hrun : Run step free (idle Db.empty) actions s) : Accounted (Delivered actions) s := by
  have hguarded : Run step (fun _ a => ∀ p m now, a = .act p (.deliver m now) →
      Delivered actions p m.event) (idle Db.empty) actions s := by
    refine hrun.strengthen fun pre a post _ _ hactions _ _ _ p m now ha => ?_
    exact ⟨m.offset, now, by rw [hactions, ha]; simp⟩
  exact hguarded.invariant (fun _ _ _ hx hg hy => hx.step hg hy) (accounted_idle _)

/-- The partitions' shares of a window, put together. -/
theorem routed_shares {db : Db} {route : String → Int} {x : Int} {share : Int → Finset Event}
    (hroute : ∀ p, ∀ e ∈ share p, route e.user = p) (hcounts : ∀ p, db.Counts p x (share p))
    (p : Int) : Tally.routed (fun e => route e.user) (db.partitions.biUnion share) p = share p := by
  have hnone : ∀ p, p ∉ db.partitions → share p = ∅ := by
    intro p hp
    rw [← contributors_global (share p), ← Finset.not_nonempty_iff_eq_empty, ← tally_isSome_iff
      CellKey.cellsForEvent Event.user, ← cellTally, ← (hcounts p).rows, Db.rowTotals,
      Option.isSome_map]
    exact fun hrow => hp (Db.mem_partitions hrow)
  ext e
  simp only [Tally.routed, Finset.mem_filter, Finset.mem_biUnion]
  constructor
  · intro hmem
    obtain ⟨⟨q, _, he⟩, heq⟩ := hmem
    rwa [← heq, hroute q e he]
  · intro he
    refine ⟨⟨p, ?_, he⟩, hroute p e he⟩
    by_contra hp
    rw [hnone p hp] at he
    cases he

theorem Accounted.exists_events {route : String → Int} (h : Accounted delivered s)
    (hrouted : ∀ p e, delivered p e → route e.user = p) (x : Int) :
    ∃ events : Finset Event, (∀ e ∈ events, delivered (route e.user) e ∧ e.window = x) ∧
      (∀ p, Set.InjOn Event.eventId
        (Tally.routed (fun e => route e.user) events p : Set Event)) ∧
      s.db.Tallied x (Tally.routed (fun e => route e.user) events) := by
  choose share hshare hcounts using fun p => h.rows p x
  have hroute : ∀ p, ∀ e ∈ share p, route e.user = p := fun p e he =>
    hrouted p e (hshare p e he).1
  have hshares := routed_shares hroute hcounts
  refine ⟨s.db.partitions.biUnion share, fun e he => ?_, fun p => ?_, fun p key => ?_⟩
  · obtain ⟨q, _, hq⟩ := Finset.mem_biUnion.mp he
    rw [hroute q e hq]
    exact hshare q e hq
  · rw [hshares]
    exact (hcounts p).distinct
  · rw [hshares]
    exact (hcounts p).rows key

/-- Whatever is late, lost, failed, replayed or delivered again, the rows of a window are the tally
of some of the events delivered for it, and no partition counts two of one id. -/
theorem counted_of_delivered (route : String → Int) (actions : List FleetAction) (s : Fleet)
    (hrun : Run step free (idle Db.empty) actions s)
    (hrouted : ∀ p m now, FleetAction.act p (.deliver m now) ∈ actions → route m.event.user = p)
    (x : Int) :
    ∃ events : Finset Event,
      (∀ e ∈ events, Delivered actions (route e.user) e ∧ e.window = x) ∧
      (∀ p, Set.InjOn Event.eventId
        (Tally.routed (fun e => route e.user) events p : Set Event)) ∧
      ∀ key,
        (s.db.groupSum ⟨x, key⟩ AggRow.events =
            (totals CellKey.cellsForEvent Event.user events key).events ∧
          s.db.groupSum ⟨x, key⟩ AggRow.users =
            (totals CellKey.cellsForEvent Event.user events key).users) ∧
        (⟨x, key⟩ ∈ s.db.groups ↔
          (contributors CellKey.cellsForEvent events key).Nonempty) := by
  obtain ⟨events, hevents, hdistinct, htallied⟩ :=
    (accounted_of_run hrun).exists_events (Delivered.route_eq hrouted) x
  exact ⟨events, hevents, hdistinct, fun key =>
    ⟨htallied.groupSum_routed key, htallied.mem_groups_routed key⟩⟩

/-- A batch fails after its window was taken, its event comes again too late, a crash forgets a
third, and what is delivered again after the restart is counted. -/
def lossyDelivery : List FleetAction :=
  [.start 0 false 0 0, .act 0 (.deliver ⟨0, evt 1000000000 1 "u1"⟩ 0),
    .act 0 (.deliver ⟨1, evt 95000000000 2 "u1"⟩ 0), .act 0 .collect, .act 0 .fail,
    .act 0 (.deliver ⟨2, evt 1000000000 1 "u1"⟩ 0), .act 0 (.deliver ⟨3, evt 96000000000 3 "u2"⟩ 0),
    .act 0 (.crash 0 0), .act 0 (.deliver ⟨4, evt 95000000000 2 "u1"⟩ 0),
    .act 0 (.deliver ⟨5, evt 185000000000 4 "u1"⟩ 0), .act 0 .collect, .act 0 .commit]

theorem counted_of_delivered_lossy :
    ∃ s, Run step free (idle Db.empty) lossyDelivery s ∧
      s.db.groupSum ⟨0, .global⟩ AggRow.events = 0 ∧
      s.db.groupSum ⟨60000000000, .global⟩ AggRow.events = 1 ∧
      ∃ events : Finset Event,
        (∀ e ∈ events, Delivered lossyDelivery 0 e ∧ e.window = 60000000000) ∧
        s.db.groupSum ⟨60000000000, .global⟩ AggRow.events =
          (totals CellKey.cellsForEvent Event.user events .global).events := by
  have hrun : ∃ s, Run step free (idle Db.empty) lossyDelivery s ∧
      s.db.groupSum ⟨0, .global⟩ AggRow.events = 0 ∧
      s.db.groupSum ⟨60000000000, .global⟩ AggRow.events = 1 :=
    ⟨_, run_of_execute rfl, by decide, by decide⟩
  obtain ⟨s, hs, hlost, hcounted⟩ := hrun
  have hrouted : ∀ p m now, FleetAction.act p (.deliver m now) ∈ lossyDelivery →
      (fun _ : String => (0 : Int)) m.event.user = p := by
    intro p m now hmem
    simp [lossyDelivery] at hmem
    grind
  obtain ⟨events, hevents, _, htotals⟩ :=
    counted_of_delivered (fun _ => 0) _ s hs hrouted 60000000000
  exact ⟨s, hs, hlost, hcounted, events, hevents, (htotals .global).1.1⟩
end Fleet

end HushEngine
