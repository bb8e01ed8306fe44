import HushEngine.Attribution

/-!
What a reconciliation report says. Its three counters are the sizes of three
sets of keys, whatever the order the maps are iterated in. After a run with
any losses nothing is unexpected, and the report is empty only if nothing was
lost.
-/
namespace HushEngine

open Keyed Tally Runs

namespace Drift

/-- The keys with a different entry in the other table. -/
def mismatched (expected actual : Table GroupKey Totals) : Finset GroupKey :=
  {g ∈ expected.keys.toFinset | g ∈ actual ∧ actual.lookup g ≠ expected.lookup g}

/-- The keys of the first table that the second does not have. -/
def absent (expected actual : Table GroupKey Totals) : Finset GroupKey :=
  {g ∈ expected.keys.toFinset | g ∉ actual}

theorem compare_eq (actual : Table GroupKey Totals) (d : Drift) (r : GroupKey × Totals) :
    compare actual d r =
      ⟨d.mismatches + if r.1 ∈ actual ∧ actual.lookup r.1 ≠ some r.2 then 1 else 0,
        d.missing + if r.1 ∉ actual then 1 else 0, d.unexpected⟩ := by
  unfold compare
  cases hlook : actual.lookup r.1 with
  | none => simp [AList.lookup_eq_none.mp hlook]
  | some act =>
    have hmem : r.1 ∈ actual := AList.lookup_isSome.mp (by rw [hlook]; rfl)
    have hdiffers : act.events ≠ r.2.events ∨ act.users ≠ r.2.users ↔ act ≠ r.2 := by
      obtain ⟨events, users⟩ := act
      obtain ⟨g, ⟨events', users'⟩⟩ := r
      simp only [ne_eq, Totals.mk.injEq]
      tauto
    by_cases hne : act = r.2
    · simp [hmem, hne]
    · simp [hdiffers, hmem, hne]

theorem foldl_compare (actual : Table GroupKey Totals) (rs : List (GroupKey × Totals))
    (d : Drift) : rs.foldl (compare actual) d =
      ⟨d.mismatches + rs.countP fun r => decide (r.1 ∈ actual ∧ actual.lookup r.1 ≠ some r.2),
        d.missing + rs.countP fun r => decide (r.1 ∉ actual), d.unexpected⟩ := by
  induction rs generalizing d with
  | nil => rfl
  | cons r rs ih =>
    rw [List.foldl_cons, ih, compare_eq]
    simp only [List.countP_cons, decide_eq_true_eq, Drift.mk.injEq, and_true]
    omega

theorem foldl_check (expected : Table GroupKey Totals) (ks : List GroupKey) (d : Drift) :
    ks.foldl (check expected) d =
      { d with unexpected := d.unexpected + ks.countP fun g => decide (g ∉ expected) } := by
  induction ks generalizing d with
  | nil => rfl
  | cons g ks ih =>
    rw [List.foldl_cons, ih, check, List.countP_cons]
    by_cases hg : g ∈ expected
    · simp [hg]
    · simp [hg, Nat.add_assoc, Nat.add_comm 1]

end Drift

/-- The counters do not depend on the order in which the maps are iterated. -/
theorem reconcile_eq (truth : List TruthCell) (db : Db) :
    reconcile truth db =
      ⟨(Drift.mismatched (expectedCells truth) (actualCells db)).card,
        (Drift.absent (expectedCells truth) (actualCells db)).card,
        (Drift.absent (actualCells db) (expectedCells truth)).card⟩ := by
  have hmismatches : (rows (expectedCells truth)).countP (fun r => decide (r.1 ∈ actualCells db ∧
      (actualCells db).lookup r.1 ≠ some r.2)) =
      (Drift.mismatched (expectedCells truth) (actualCells db)).card := by
    rw [Drift.mismatched, ← countP_rows]
    apply List.countP_congr
    intro r hr
    rw [(mem_rows _ r.1 r.2).mp hr]
  unfold reconcile
  dsimp only
  rw [Drift.foldl_check, Drift.foldl_compare, hmismatches,
    countP_rows _ fun g => g ∉ actualCells db,
    countP_keys _ fun g => g ∉ expectedCells truth]
  simp [Drift.zero, Drift.absent]

/-- The cells that have some of the events. -/
def cellsOf (events : Finset Event) : Finset GroupKey :=
  events.biUnion fun e => (CellKey.cellsForEvent e).toFinset.image fun cell => ⟨e.window, cell⟩

theorem mem_cellsOf {events : Finset Event} {g : GroupKey} : g ∈ cellsOf events ↔
    ∃ e ∈ events, e.window = g.windowStart ∧ g.cell ∈ CellKey.cellsForEvent e := by
  obtain ⟨x, key⟩ := g
  simp only [cellsOf, Finset.mem_biUnion, Finset.mem_image, List.mem_toFinset, GroupKey.mk.injEq]
  constructor
  · intro h
    obtain ⟨e, he, cell, hcell, hwindow, rfl⟩ := h
    exact ⟨e, he, hwindow, hcell⟩
  · intro h
    obtain ⟨e, he, hwindow, hcell⟩ := h
    exact ⟨e, he, key, hcell, hwindow, rfl⟩

theorem cellsOf_union (events events' : Finset Event) :
    cellsOf (events ∪ events') = cellsOf events ∪ cellsOf events' :=
  Finset.union_biUnion

theorem cellsOf_eq_empty_iff {events : Finset Event} : cellsOf events = ∅ ↔ events = ∅ := by
  constructor
  · intro hcells
    refine Finset.eq_empty_of_forall_notMem fun e he => ?_
    have hmem : (⟨e.window, .global⟩ : GroupKey) ∈ cellsOf events :=
      mem_cellsOf.mpr ⟨e, he, rfl, by simp [CellKey.cellsForEvent]⟩
    rw [hcells] at hmem
    cases hmem
  · rintro rfl
    rfl

/-- The part of the events in one window. -/
def within (events : Finset Event) (x : Int) : Finset Event := {e ∈ events | e.window = x}

theorem within_subset {events events' : Finset Event} (h : events ⊆ events') (x : Int) :
    within events x ⊆ within events' x :=
  Finset.filter_subset_filter _ h

theorem nonempty_contributors_within {events : Finset Event} {g : GroupKey} :
    (contributors CellKey.cellsForEvent (within events g.windowStart) g.cell).Nonempty ↔
      g ∈ cellsOf events := by
  simp only [Finset.Nonempty, mem_contributors, within, Finset.mem_filter, mem_cellsOf, and_assoc]

/-- Everything that is sent, in any window. -/
def Traffic.sent (tr : Traffic) : Finset Event := (tr.events.map tr.wire).toFinset

theorem Traffic.mem_sent (tr : Traffic) {e : Event} :
    e ∈ tr.sent ↔ ∃ e' ∈ tr.events, tr.wire e' = e := by
  rw [sent, List.mem_toFinset, List.mem_map]

theorem Traffic.within_sent (tr : Traffic) (x : Int) : within tr.sent x = tr.sentIn x := by
  ext e
  rw [within, Finset.mem_filter, tr.mem_sent, tr.mem_sentIn]
  simp only [← and_assoc, exists_and_right]

section Report

variable {tr : Traffic} {db : Db} {counted : Finset Event}
  (hactual : ∀ g, (actualCells db).lookup g = cellTally (within counted g.windowStart) g.cell)

theorem Traffic.lookup_expectedCells (tr : Traffic) (g : GroupKey) :
    (expectedCells (truthOf tr.events)).lookup g =
      cellTally (within tr.sent g.windowStart) g.cell := by
  rw [lookup_truthOf _ tr.unique.of_map, ← tr.tally_sentIn, tr.within_sent]

theorem mem_expectedCells {g : GroupKey} :
    g ∈ expectedCells (truthOf tr.events) ↔ g ∈ cellsOf tr.sent := by
  rw [← AList.lookup_isSome, tr.lookup_expectedCells, cellTally, tally_isSome_iff,
    nonempty_contributors_within]

include hactual

theorem mem_actualCells {g : GroupKey} : g ∈ actualCells db ↔ g ∈ cellsOf counted := by
  rw [← AList.lookup_isSome, hactual, cellTally, tally_isSome_iff, nonempty_contributors_within]

/-- A cell of the part differs when the rest has some of its events. -/
theorem lookup_ne_iff (hsub : counted ⊆ tr.sent) {g : GroupKey} :
    (actualCells db).lookup g ≠ (expectedCells (truthOf tr.events)).lookup g ↔
      g ∈ cellsOf (tr.sent \ counted) := by
  rw [hactual, tr.lookup_expectedCells, cellTally, cellTally, ne_eq,
    tally_eq_iff_of_subset _ _ (within_subset hsub _), mem_cellsOf]
  constructor
  · intro hne
    by_contra hnone
    refine hne (Finset.Subset.antisymm ?_ fun e he => ?_)
    · exact Finset.filter_subset_filter _ (within_subset hsub _)
    · obtain ⟨hsent, hcell⟩ := (mem_contributors _ _ _ _).mp he
      obtain ⟨hsent, hwindow⟩ := Finset.mem_filter.mp hsent
      refine (mem_contributors _ _ _ _).mpr ⟨Finset.mem_filter.mpr ⟨?_, hwindow⟩, hcell⟩
      by_contra hlost
      exact hnone ⟨e, Finset.mem_sdiff.mpr ⟨hsent, hlost⟩, hwindow, hcell⟩
  · intro hlost heq
    obtain ⟨e, he, hwindow, hcell⟩ := hlost
    obtain ⟨hsent, hnot⟩ := Finset.mem_sdiff.mp he
    have hmem : e ∈ contributors CellKey.cellsForEvent (within tr.sent g.windowStart) g.cell :=
      (mem_contributors _ _ _ _).mpr ⟨Finset.mem_filter.mpr ⟨hsent, hwindow⟩, hcell⟩
    rw [← heq] at hmem
    exact hnot (Finset.mem_filter.mp ((mem_contributors _ _ _ _).mp hmem).1).1

/-- The report counts the cells that lost some of their events and those that lost all. -/
theorem reconcile_of_part (hsub : counted ⊆ tr.sent) :
    reconcile (truthOf tr.events) db =
      ⟨(cellsOf counted ∩ cellsOf (tr.sent \ counted)).card,
        (cellsOf (tr.sent \ counted) \ cellsOf counted).card, 0⟩ := by
  have hcells : ∀ g, g ∈ cellsOf tr.sent ↔
      g ∈ cellsOf counted ∨ g ∈ cellsOf (tr.sent \ counted) := by
    intro g
    rw [← Finset.mem_union, ← cellsOf_union, Finset.union_sdiff_of_subset hsub]
  have hmismatched : Drift.mismatched (expectedCells (truthOf tr.events)) (actualCells db) =
      cellsOf counted ∩ cellsOf (tr.sent \ counted) := by
    ext g
    rw [Drift.mismatched, Finset.mem_filter, List.mem_toFinset, ← AList.mem_keys,
      mem_expectedCells, mem_actualCells hactual, lookup_ne_iff hactual hsub, hcells,
      Finset.mem_inter]
    tauto
  have hmissing : Drift.absent (expectedCells (truthOf tr.events)) (actualCells db) =
      cellsOf (tr.sent \ counted) \ cellsOf counted := by
    ext g
    rw [Drift.absent, Finset.mem_filter, List.mem_toFinset, ← AList.mem_keys, mem_expectedCells,
      mem_actualCells hactual, hcells, Finset.mem_sdiff]
    tauto
  have hunexpected : Drift.absent (actualCells db) (expectedCells (truthOf tr.events)) = ∅ := by
    ext g
    rw [Drift.absent, Finset.mem_filter, List.mem_toFinset, ← AList.mem_keys, mem_expectedCells,
      mem_actualCells hactual, hcells]
    exact iff_of_false (fun h => h.2 (Or.inl h.1)) (Finset.notMem_empty g)
  rw [reconcile_eq, hmismatched, hmissing, hunexpected, Finset.card_empty]

/-- It is empty when the part is everything. -/
theorem reconcile_of_part_eq_zero_iff (hsub : counted ⊆ tr.sent) :
    reconcile (truthOf tr.events) db = .zero ↔ counted = tr.sent := by
  rw [reconcile_of_part hactual hsub, Drift.zero, Drift.mk.injEq, Finset.card_eq_zero,
    Finset.card_eq_zero]
  constructor
  · intro hzero
    obtain ⟨hinter, hsdiff, _⟩ := hzero
    have hlost : cellsOf (tr.sent \ counted) = ∅ := by
      rw [← Finset.sdiff_union_inter (cellsOf (tr.sent \ counted)) (cellsOf counted), hsdiff,
        Finset.inter_comm, hinter, Finset.union_empty]
    rw [cellsOf_eq_empty_iff, Finset.sdiff_eq_empty_iff_subset] at hlost
    exact hsub.antisymm hlost
  · rintro rfl
    rw [Finset.sdiff_self, cellsOf_eq_empty_iff.mpr rfl, Finset.inter_empty, Finset.empty_sdiff]
    exact ⟨rfl, rfl, rfl⟩

end Report

namespace Fleet

/-- After a run with any losses, every cell is counted from part of what was sent, and the report
says how many cells lost some of their events and how many lost all. It is empty exactly when
nothing sent is missing from the rows. -/
theorem reconcile_lossy (tr : Traffic) (actions : List FleetAction) (s : Fleet)
    (hrun : Run step free (idle Db.empty) actions s)
    (hsent : ∀ p m now, FleetAction.act p (.deliver m now) ∈ actions →
      (∃ e ∈ tr.events, tr.wire e = m.event) ∧ tr.route m.event.user = p) :
    ∃ counted ⊆ tr.sent,
      (∀ x key, s.db.groupSum ⟨x, key⟩ AggRow.events =
          (totals CellKey.cellsForEvent Event.user (within counted x) key).events ∧
        s.db.groupSum ⟨x, key⟩ AggRow.users =
          (totals CellKey.cellsForEvent Event.user (within counted x) key).users) ∧
      reconcile (truthOf tr.events) s.db =
        ⟨(cellsOf counted ∩ cellsOf (tr.sent \ counted)).card,
          (cellsOf (tr.sent \ counted) \ cellsOf counted).card, 0⟩ ∧
      (reconcile (truthOf tr.events) s.db = .zero ↔ counted = tr.sent) := by
  choose rowsOf hrowsOf _ htallied using fun x => (accounted_of_run hrun).exists_events
    (Delivered.route_eq fun p m now hmem => (hsent p m now hmem).2) x
  have hmem : ∀ x, ∀ e ∈ rowsOf x, e ∈ tr.sent ∧ e.window = x := by
    intro x e he
    obtain ⟨⟨offset, now, hdelivered⟩, hwindow⟩ := hrowsOf x e he
    exact ⟨tr.mem_sent.mpr (hsent _ ⟨offset, e⟩ now hdelivered).1, hwindow⟩
  have hwithin : ∀ x, within {e ∈ tr.sent | e ∈ rowsOf e.window} x = rowsOf x := by
    intro x
    ext e
    simp only [within, Finset.mem_filter]
    constructor
    · intro h
      obtain ⟨⟨_, he⟩, rfl⟩ := h
      exact he
    · intro he
      obtain ⟨hsent, rfl⟩ := hmem x e he
      exact ⟨⟨hsent, he⟩, rfl⟩
  have hsub : {e ∈ tr.sent | e ∈ rowsOf e.window} ⊆ tr.sent := Finset.filter_subset _ _
  have hactual : ∀ g, (actualCells s.db).lookup g =
      cellTally (within {e ∈ tr.sent | e ∈ rowsOf e.window} g.windowStart) g.cell := by
    intro g
    rw [hwithin]
    exact (htallied g.windowStart).lookup_actualCells g.cell
  refine ⟨_, hsub, fun x key => ?_, reconcile_of_part hactual hsub,
    reconcile_of_part_eq_zero_iff hactual hsub⟩
  rw [hwithin]
  exact (htallied x).groupSum_routed key

/-- Both partitions close the window, and one of the two batches fails. -/
def halfDelivery : List FleetAction :=
  [.start 0 false 0 0, .start 1 false 0 0,
    .act 0 (.deliver ⟨0, evt 1000000000 1 "u1"⟩ 0), .act 1 (.deliver ⟨0, evt 2000000000 2 "u2"⟩ 0),
    .act 0 (.tickIdle 20000000000 200000000000), .act 0 .collect,
    .act 1 (.tickIdle 20000000000 200000000000), .act 1 .collect, .act 1 .fail, .act 0 .commit]

/-- The four cells of the two events are there, each with one event too few. -/
theorem reconcile_lossy_half :
    ∃ s, Run step free (idle Db.empty) halfDelivery s ∧
      reconcile (truthOf sampleTraffic.events) s.db = ⟨4, 0, 0⟩ ∧
      ∃ counted ⊂ sampleTraffic.sent,
        (cellsOf counted ∩ cellsOf (sampleTraffic.sent \ counted)).card = 4 := by
  have hrun : ∃ s, Run step free (idle Db.empty) halfDelivery s ∧
      reconcile (truthOf sampleTraffic.events) s.db = ⟨4, 0, 0⟩ :=
    ⟨_, run_of_execute rfl, by decide⟩
  obtain ⟨s, hs, hdrift⟩ := hrun
  have hsent : ∀ p m now, FleetAction.act p (.deliver m now) ∈ halfDelivery →
      (∃ e ∈ sampleTraffic.events, sampleTraffic.wire e = m.event) ∧
        sampleTraffic.route m.event.user = p := by
    intro p m now hmem
    have hcases : (p = 0 ∧ m = ⟨0, evt 1000000000 1 "u1"⟩) ∨
        (p = 1 ∧ m = ⟨0, evt 2000000000 2 "u2"⟩) := by
      simp [halfDelivery] at hmem
      tauto
    rcases hcases with ⟨rfl, rfl⟩ | ⟨rfl, rfl⟩ <;> decide
  obtain ⟨counted, hsub, _, hreport, hzero⟩ := reconcile_lossy sampleTraffic _ s hs hsent
  rw [hdrift] at hreport hzero
  refine ⟨s, hs, hdrift, counted, hsub.ssubset_of_ne fun hall => ?_, ?_⟩
  · cases hzero.mpr hall
  · exact (congrArg Drift.mismatches hreport).symm

end Fleet

end HushEngine
