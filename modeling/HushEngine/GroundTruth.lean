import HushEngine.Store
import HushEngine.Tally

/-!
The other side of the comparison. The load generator keeps one global map from
window and cell to an event counter and a user set; `reconcile` groups the rows
of `agg_cells` over the partitions and counts the keys on which the two differ.
Counts are natural numbers: a `bigint` sum of message counts does not overflow.
-/
namespace HushEngine

open Keyed Tally

/-- A row's key without its Kafka partition. -/
structure GroupKey where
  windowStart : Int
  cell : CellKey
deriving DecidableEq

def AggKey.group (k : AggKey) : GroupKey := ⟨k.windowStart, k.cell⟩

structure TruthCell where
  key : GroupKey
  events : Nat
  users : Nat
deriving DecidableEq

abbrev TruthMap := Table GroupKey (Nat × Finset String)

def recordTruth (truth : TruthMap) (event : Event) : TruthMap :=
  modifyAll truth ((CellKey.cellsForEvent event).map fun cell => ⟨windowStart event.ts, cell⟩)
    fun entry => ((entry.getD (0, ∅)).1 + 1, insert event.user (entry.getD (0, ∅)).2)

def intoTruth (truth : TruthMap) : List TruthCell :=
  (rows truth).map fun r => ⟨r.1, r.2.1, r.2.2.card⟩

/-- What the generator reports after recording the events. -/
def truthOf (events : List Event) : List TruthCell := intoTruth (events.foldl recordTruth ∅)

namespace Db

/-- The groups of `GROUP BY window_start, level, family, wiki, namespace`. -/
def groups (db : Db) : List GroupKey := ((rows db.aggCells).map fun r => r.1.group).dedup

/-- The sum of a column over the rows of a group. -/
def groupSum (db : Db) (g : GroupKey) (column : AggRow → Nat) : Nat :=
  (((rows db.aggCells).filter fun r => decide (r.1.group = g)).map fun r => column r.2).sum

theorem mem_groups (db : Db) (g : GroupKey) :
    g ∈ db.groups ↔ ∃ p, (db.aggCells.lookup ⟨g.windowStart, g.cell, p⟩).isSome := by
  unfold groups
  simp only [List.mem_dedup, List.mem_map, Prod.exists, mem_rows]
  constructor
  · intro h
    obtain ⟨k, row, hlook, rfl⟩ := h
    exact ⟨k.kpartition, Option.isSome_iff_exists.mpr ⟨row, hlook⟩⟩
  · intro h
    obtain ⟨p, hsome⟩ := h
    obtain ⟨row, hlook⟩ := Option.isSome_iff_exists.mp hsome
    exact ⟨_, row, hlook, rfl⟩

/-- A group's sum is the sum over any partitions that include those with a row. -/
theorem groupSum_eq (db : Db) (g : GroupKey) (column : AggRow → Nat) (partitions : Finset Int)
    (h : ∀ p, (db.aggCells.lookup ⟨g.windowStart, g.cell, p⟩).isSome → p ∈ partitions) :
    db.groupSum g column = ∑ p ∈ partitions,
      (db.aggCells.lookup ⟨g.windowStart, g.cell, p⟩).elim 0 column := by
  have hinj : Function.Injective fun p => (⟨g.windowStart, g.cell, p⟩ : AggKey) :=
    fun _ _ heq => congrArg AggKey.kpartition heq
  have hrows : db.groupSum g column = ∑ k ∈ db.aggCells.keys.toFinset with
      decide (k.group = g) = true, (db.aggCells.lookup k).elim 0 column :=
    sum_rows_filter db.aggCells (fun k => decide (k.group = g)) fun _ => column
  rw [hrows, ← Finset.sum_image (fun _ _ _ _ heq => hinj heq)
    (f := fun k => (db.aggCells.lookup k).elim 0 column)]
  apply Finset.sum_subset
  · intro k hk
    simp only [Finset.mem_filter, List.mem_toFinset, decide_eq_true_eq] at hk
    obtain ⟨hmem, rfl⟩ := hk
    exact Finset.mem_image.mpr ⟨k.kpartition, h _ (AList.lookup_isSome.mpr hmem), rfl⟩
  · intro k hk hnot
    obtain ⟨p, _, rfl⟩ := Finset.mem_image.mp hk
    have habsent : (⟨g.windowStart, g.cell, p⟩ : AggKey) ∉ db.aggCells := fun hmem =>
      hnot (Finset.mem_filter.mpr ⟨List.mem_toFinset.mpr hmem, by simp [AggKey.group]⟩)
    rw [AList.lookup_eq_none.mpr habsent]
    rfl

end Db

def expectedCells (truth : List TruthCell) : Table GroupKey Totals :=
  upserts ∅ (truth.map fun c => (c.key, ⟨c.events, c.users⟩))

def actualCells (db : Db) : Table GroupKey Totals :=
  upserts ∅ (db.groups.map fun g => (g, ⟨db.groupSum g AggRow.events, db.groupSum g AggRow.users⟩))

structure Drift where
  mismatches : Nat
  missing : Nat
  unexpected : Nat
deriving DecidableEq

def Drift.zero : Drift := ⟨0, 0, 0⟩

/-- The loop body over the expected cells. -/
def Drift.compare (actual : Table GroupKey Totals) (d : Drift) (r : GroupKey × Totals) : Drift :=
  match actual.lookup r.1 with
  | some act =>
    if act.events ≠ r.2.events ∨ act.users ≠ r.2.users then
      { d with mismatches := d.mismatches + 1 }
    else d
  | none => { d with missing := d.missing + 1 }

/-- The loop body over the actual keys. -/
def Drift.check (expected : Table GroupKey Totals) (d : Drift) (key : GroupKey) : Drift :=
  if key ∈ expected then d else { d with unexpected := d.unexpected + 1 }

def reconcile (truth : List TruthCell) (db : Db) : Drift :=
  let expected := expectedCells truth
  let actual := actualCells db
  actual.keys.foldl (Drift.check expected) ((rows expected).foldl (Drift.compare actual) .zero)

/-- Reconciliation passes when the two maps agree on every key. -/
theorem reconcile_eq_zero {truth : List TruthCell} {db : Db}
    (h : ∀ g, (actualCells db).lookup g = (expectedCells truth).lookup g) :
    reconcile truth db = .zero := by
  have hcompare : ∀ rs : List (GroupKey × Totals), (∀ r ∈ rs, r ∈ rows (expectedCells truth)) →
      rs.foldl (Drift.compare (actualCells db)) .zero = .zero := by
    intro rs
    induction rs with
    | nil => exact fun _ => rfl
    | cons r rs ih =>
      intro hall
      have hr := (mem_rows _ r.1 r.2).mp (hall r (List.mem_cons_self ..))
      have hsame : Drift.compare (actualCells db) .zero r = .zero := by
        simp [Drift.compare, h r.1, hr]
      rw [List.foldl_cons, hsame]
      exact ih fun x hx => hall x (List.mem_cons_of_mem _ hx)
  have hcheck : ∀ ks : List GroupKey, (∀ g ∈ ks, g ∈ actualCells db) →
      ks.foldl (Drift.check (expectedCells truth)) .zero = .zero := by
    intro ks
    induction ks with
    | nil => exact fun _ => rfl
    | cons g ks ih =>
      intro hall
      have hg := AList.lookup_isSome.mpr (hall g (List.mem_cons_self ..))
      rw [h g, AList.lookup_isSome] at hg
      rw [List.foldl_cons, Drift.check, if_pos hg]
      exact ih fun x hx => hall x (List.mem_cons_of_mem _ hx)
  unfold reconcile
  dsimp only
  rw [hcompare _ fun r hr => hr]
  exact hcheck _ fun g hg => hg

theorem lookup_actualCells (db : Db) (g : GroupKey) :
    (actualCells db).lookup g = if g ∈ db.groups then
      some ⟨db.groupSum g AggRow.events, db.groupSum g AggRow.users⟩ else none :=
  lookup_upserts_map _ (List.nodup_dedup _) _ g

theorem lookup_expectedCells (truth : TruthMap) (g : GroupKey) :
    (expectedCells (intoTruth truth)).lookup g =
      (truth.lookup g).map fun v => ⟨v.1, v.2.card⟩ := by
  have hrows : (intoTruth truth).map (fun c => (c.key, (⟨c.events, c.users⟩ : Totals))) =
      (rows truth).map fun r => (r.1, ⟨r.2.1, r.2.2.card⟩) := by
    simp [intoTruth, Function.comp_def]
  unfold expectedCells
  rw [hrows]
  exact lookup_upserts_rows truth (fun v => (⟨v.1, v.2.card⟩ : Totals)) g

theorem lookup_expectedCells_of_mem {events : List Event} {c : TruthCell}
    (h : c ∈ truthOf events) :
    (expectedCells (truthOf events)).lookup c.key = some ⟨c.events, c.users⟩ := by
  obtain ⟨⟨g, v⟩, hrow, rfl⟩ := List.mem_map.mp h
  unfold truthOf
  rw [lookup_expectedCells, (mem_rows _ _ _).mp hrow]
  rfl

theorem isSome_lookup_expectedCells (events : List Event) (g : GroupKey) :
    ((expectedCells (truthOf events)).lookup g).isSome ↔ ∃ c ∈ truthOf events, c.key = g := by
  unfold truthOf
  rw [lookup_expectedCells, Option.isSome_map, lookup_isSome_iff]
  simp [intoTruth]

/-- The events of a list that fall into a window. -/
def eventsOf (events : List Event) (w : Int) : Finset Event :=
  (events.filter fun e => decide (e.window = w)).toFinset

theorem mem_eventsOf (events : List Event) (w : Int) (e : Event) :
    e ∈ eventsOf events w ↔ e ∈ events ∧ e.window = w := by
  simp [eventsOf]

theorem eventsOf_append_of_eq (events : List Event) (e : Event) :
    eventsOf (events ++ [e]) e.window = insert e (eventsOf events e.window) := by
  ext x
  simp only [mem_eventsOf, Finset.mem_insert, List.mem_append, List.mem_singleton]
  constructor
  · intro h
    rcases h with ⟨hx | rfl, hw⟩
    · exact Or.inr ⟨hx, hw⟩
    · exact Or.inl rfl
  · rintro (rfl | ⟨hx, hw⟩)
    · exact ⟨Or.inr rfl, rfl⟩
    · exact ⟨Or.inl hx, hw⟩

theorem eventsOf_append_of_ne (events : List Event) (e : Event) (w : Int) (h : e.window ≠ w) :
    eventsOf (events ++ [e]) w = eventsOf events w := by
  simp [eventsOf, h]

/-- What a set of events puts into the generator's map under a cell. -/
def truthEntry (s : Finset Event) (key : CellKey) : Option (Nat × Finset String) :=
  if (contributors CellKey.cellsForEvent s key).Nonempty then
    some ((contributors CellKey.cellsForEvent s key).card,
      Tally.users CellKey.cellsForEvent Event.user s key)
  else none

theorem truthEntry_getD (s : Finset Event) (key : CellKey) :
    (truthEntry s key).getD (0, ∅) = ((contributors CellKey.cellsForEvent s key).card,
      Tally.users CellKey.cellsForEvent Event.user s key) := by
  unfold truthEntry
  split_ifs with h
  · rfl
  · have hempty : contributors CellKey.cellsForEvent s key = ∅ :=
      Finset.not_nonempty_iff_eq_empty.mp h
    simp [Tally.users, hempty]

theorem truthEntry_insert (s : Finset Event) (e : Event) (key : CellKey) (he : e ∉ s) :
    truthEntry (insert e s) key = if key ∈ CellKey.cellsForEvent e then
      some (((truthEntry s key).getD (0, ∅)).1 + 1,
        insert e.user ((truthEntry s key).getD (0, ∅)).2)
      else truthEntry s key := by
  split_ifs with hkey
  · rw [truthEntry_getD]
    have hnot : e ∉ contributors CellKey.cellsForEvent s key := fun h =>
      he ((mem_contributors _ _ _ _).mp h).1
    simp [truthEntry, contributors_insert_of_mem _ _ _ _ hkey, Tally.users,
      Finset.card_insert_of_notMem hnot, Finset.image_insert]
  · simp [truthEntry, contributors_insert_of_not_mem _ _ _ _ hkey, Tally.users]

theorem lookup_recordTruth (truth : TruthMap) (e : Event) (g : GroupKey) :
    (recordTruth truth e).lookup g =
      if e.window = g.windowStart ∧ g.cell ∈ CellKey.cellsForEvent e then
        some (((truth.lookup g).getD (0, ∅)).1 + 1,
          insert e.user ((truth.lookup g).getD (0, ∅)).2)
      else truth.lookup g := by
  have hnodup : ((CellKey.cellsForEvent e).map fun cell =>
      (⟨windowStart e.ts, cell⟩ : GroupKey)).Nodup :=
    (CellKey.nodup_cellsForEvent e).map fun a b hab => congrArg GroupKey.cell hab
  unfold recordTruth
  rw [lookup_modifyAll _ _ _ _ hnodup]
  have hmem : (g ∈ (CellKey.cellsForEvent e).map fun cell =>
      (⟨windowStart e.ts, cell⟩ : GroupKey)) ↔
      e.window = g.windowStart ∧ g.cell ∈ CellKey.cellsForEvent e := by
    rw [List.mem_map]
    constructor
    · intro h
      obtain ⟨cell, hcell, rfl⟩ := h
      exact ⟨rfl, hcell⟩
    · intro h
      obtain ⟨hw, hcell⟩ := h
      obtain ⟨w, cell⟩ := g
      dsimp only at hw hcell
      subst hw
      exact ⟨cell, hcell, rfl⟩
  simp only [hmem]

/-- The generator's map is the tally of the events it has recorded. -/
theorem lookup_recordAll (events : List Event) (hnodup : events.Nodup) (g : GroupKey) :
    (events.foldl recordTruth ∅).lookup g = truthEntry (eventsOf events g.windowStart) g.cell := by
  induction events using List.reverseRecOn with
  | nil => simp [truthEntry, eventsOf, contributors]
  | append_singleton events e ih =>
    obtain ⟨hevents, _, hdisjoint⟩ := List.nodup_append.mp hnodup
    have hnew : e ∉ events := fun h => hdisjoint e h e (List.mem_singleton_self e) rfl
    rw [List.foldl_append, List.foldl_cons, List.foldl_nil, lookup_recordTruth, ih hevents]
    by_cases hw : e.window = g.windowStart
    · have hmem : e ∉ eventsOf events g.windowStart := fun h =>
        hnew ((mem_eventsOf _ _ _).mp h).1
      rw [← hw] at hmem ⊢
      rw [eventsOf_append_of_eq, truthEntry_insert _ _ _ hmem]
      simp
    · rw [eventsOf_append_of_ne _ _ _ hw]
      simp [hw]

/-- What is reported for a key is what a tally of the recorded events has there. -/
theorem lookup_truthOf (events : List Event) (hnodup : events.Nodup) (g : GroupKey) :
    (expectedCells (truthOf events)).lookup g =
      tally CellKey.cellsForEvent Event.user (eventsOf events g.windowStart) g.cell := by
  unfold truthOf
  rw [lookup_expectedCells, lookup_recordAll events hnodup]
  unfold truthEntry tally
  split_ifs <;> rfl

end HushEngine
