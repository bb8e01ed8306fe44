import HushEngine.FlushedRows
import HushEngine.StatsQueries
import HushEngine.Suppression
import Mathlib.Algebra.BigOperators.Group.Finset.Sigma
import Mathlib.Algebra.Order.BigOperators.Group.Finset

/-!
The hierarchy read back. The parent of a cell is written down three times: in
the four keys of an event, in `CellKey::parent` and in the `WHERE` clauses of
the query for children. Over rows that are tallies of events the three agree,
so a parent and its children count the same events, and nearly the same users.
-/
namespace HushEngine

open Keyed Tally Fallible Grouping

namespace CellKey

/-- The cell of an event one level below a parent. -/
def childOf (parent : CellKey) (e : Event) : CellKey :=
  if parent.level = levelGlobal then ofFamily e.family
  else if parent.level = levelFamily then ofWiki e.family e.wiki
  else ⟨levelNamespace, e.family, e.wiki, e.ns⟩

theorem mem_cellsForEvent (c : CellKey) (e : Event) :
    c ∈ cellsForEvent e ↔ c = global ∨ c = ofFamily e.family ∨ c = ofWiki e.family e.wiki ∨
      c = ⟨levelNamespace, e.family, e.wiki, e.ns⟩ := by
  simp [cellsForEvent]

/-- The first two relations agree: `parent` goes up one step along the keys of an event. -/
theorem mem_cells_iff_of_parent {c key : CellKey} (hparent : c.parent = some key) (e : Event) :
    c ∈ cellsForEvent e ↔ key ∈ cellsForEvent e ∧ childOf key e = c := by
  obtain ⟨level, family, wiki, ns⟩ := c
  rw [mem_cellsForEvent, mem_cellsForEvent]
  rcases parent_cases hparent with ⟨hlevel, rfl⟩ | ⟨hlevel, rfl⟩ | ⟨hlevel, rfl⟩ <;>
    dsimp only at hlevel <;> subst hlevel <;>
    simp only [childOf, global, ofFamily, ofWiki, levelGlobal, levelFamily, levelWiki,
      levelNamespace] <;> grind

theorem parent_childOf {key : CellKey} {e : Event} (hkey : key ∈ cellsForEvent e)
    (hlevel : key.level ≤ levelWiki) : (childOf key e).parent = some key := by
  rcases (mem_cellsForEvent key e).mp hkey with rfl | rfl | rfl | rfl
  · rfl
  · rfl
  · rfl
  · simp [levelNamespace, levelWiki] at hlevel

end CellKey

/-- The key that a child row's label stands for. -/
def ChildLabel.cell (parent : CellKey) (l : ChildLabel) : CellKey :=
  ⟨parent.level + 1, l.family, l.wiki, l.ns⟩

theorem ChildLabel.cell_injective (parent : CellKey) :
    Function.Injective (ChildLabel.cell parent) := by
  intro l l' h
  obtain ⟨family, wiki, ns⟩ := l
  obtain ⟨family', wiki', ns'⟩ := l'
  simpa [ChildLabel.cell] using h

section ChildGroups

variable {db : Db} {w : Int} {key : CellKey} {label : AggKey → ChildLabel}

theorem group_of_mem_childRows {r : AggKey × AggRow} (hr : r ∈ db.childRows w key) :
    r.1.group = ⟨w, r.1.cell⟩ := by
  have hchild := (List.mem_filter.mp hr).2
  simp only [isChildRow, Bool.and_eq_true, decide_eq_true_eq] at hchild
  rw [AggKey.group, hchild.1.1]

/-- The clause looks at the window and the cell of a row only. -/
theorem isChildRow_congr {k k' : AggKey} (h : k.group = k'.group) (w : Int) (key : CellKey) :
    isChildRow w key k = isChildRow w key k' := by
  obtain ⟨hstart, hcell⟩ := GroupKey.mk.inj h
  unfold isChildRow
  rw [hstart, hcell]

/-- Where labels stand for the cells of the child rows, those under one label are the rows of one
cell. -/
theorem filter_childRows (hlabel : ∀ r ∈ db.childRows w key, (label r.1).cell key = r.1.cell)
    {a : AggKey × AggRow} (ha : a ∈ db.childRows w key) :
    (db.childRows w key).filter (fun r => decide (label r.1 = label a.1)) =
      (rows db.aggCells).filter fun r => decide (r.1.group = a.1.group) := by
  have hchild := (List.mem_filter.mp ha).2
  rw [Db.childRows, List.filter_filter]
  apply List.filter_congr
  intro r hr
  rw [Bool.eq_iff_iff, Bool.and_eq_true, decide_eq_true_iff, decide_eq_true_iff]
  constructor
  · intro h
    have hmem : r ∈ db.childRows w key := List.mem_filter.mpr ⟨hr, h.2⟩
    rw [group_of_mem_childRows hmem, group_of_mem_childRows ha, ← hlabel r hmem, ← hlabel a ha, h.1]
  · intro h
    have hrow : isChildRow w key r.1 = true := (isChildRow_congr h w key).trans hchild
    refine ⟨ChildLabel.cell_injective key ?_, hrow⟩
    rw [hlabel a ha, hlabel r (List.mem_filter.mpr ⟨hr, hrow⟩), (GroupKey.mk.inj h).2]

/-- A group of either query is the rows of one child key. -/
theorem columnSum_group (hlabel : ∀ r ∈ db.childRows w key, (label r.1).cell key = r.1.cell)
    {g : ChildLabel × List AggRow} (hg : g ∈ groupBy label (db.childRows w key))
    (column : AggRow → Nat) : columnSum column g.2 = db.groupSum ⟨w, g.1.cell key⟩ column := by
  obtain ⟨⟨l, rs⟩, hgroup, rfl⟩ := List.mem_map.mp hg
  obtain ⟨⟨a, ha, rfl⟩, hrs⟩ := mem_groupOn.mp hgroup
  dsimp only at hrs ⊢
  rw [columnSum_map_snd, hrs, filter_childRows hlabel ha, hlabel a ha, group_of_mem_childRows ha,
    Db.groupSum]

end ChildGroups

/-- The columns a child row is grouped by are the ones its key has beyond the parent's. -/
theorem cell_childLabel {key : CellKey} {k : AggKey} {e : Event}
    (hcell : k.cell ∈ CellKey.cellsForEvent e) (hparent : k.cell.parent = some key) :
    (childLabel key k).cell key = k.cell := by
  obtain ⟨hkey, heq⟩ := (CellKey.mem_cells_iff_of_parent hparent e).mp hcell
  obtain ⟨start, c, p⟩ := k
  dsimp only at heq hparent ⊢
  rcases CellKey.parent_cases hparent with ⟨_, rfl⟩ | ⟨_, rfl⟩ | ⟨_, rfl⟩ <;> rw [← heq] <;> rfl

namespace Db

/-- In the rows of a window, the cells of every partition are the tally of one set of events. -/
def Tallied (db : Db) (w : Int) (s : Int → Finset Event) : Prop :=
  ∀ p key, db.rowTotals p w key = cellTally (s p) key

/-- The partitions that have rows. -/
def partitions (db : Db) : Finset Int := ((rows db.aggCells).map fun r => r.1.kpartition).toFinset

/-- The keys of the rows that the query for children reads. -/
def childKeys (db : Db) (w : Int) (key : CellKey) : Finset CellKey :=
  ((db.childRows w key).map fun r => r.1.cell).toFinset

variable {db : Db} {w : Int} {s : Int → Finset Event}

theorem mem_partitions {w : Int} {key : CellKey} {p : Int}
    (h : (db.aggCells.lookup ⟨w, key, p⟩).isSome) : p ∈ db.partitions := by
  obtain ⟨row, hrow⟩ := Option.isSome_iff_exists.mp h
  exact List.mem_toFinset.mpr (List.mem_map.mpr ⟨_, (mem_rows _ _ _).mpr hrow, rfl⟩)

/-- A cell has a row where some event contributes to it. -/
theorem Tallied.isSome_iff (h : db.Tallied w s) (p : Int) (key : CellKey) :
    (db.aggCells.lookup ⟨w, key, p⟩).isSome ↔
      (contributors CellKey.cellsForEvent (s p) key).Nonempty := by
  rw [← tally_isSome_iff CellKey.cellsForEvent Event.user, ← cellTally, ← h p key, rowTotals,
    Option.isSome_map]

theorem Tallied.exists_event (h : db.Tallied w s) {p : Int} {key : CellKey}
    (hrow : (db.aggCells.lookup ⟨w, key, p⟩).isSome) :
    ∃ e ∈ s p, key ∈ CellKey.cellsForEvent e := by
  obtain ⟨e, he⟩ := (h.isSome_iff p key).mp hrow
  exact ⟨e, (mem_contributors _ _ _ _).mp he⟩

theorem Tallied.totals_eq (h : db.Tallied w s) (p : Int) (key : CellKey) :
    ((db.aggCells.lookup ⟨w, key, p⟩).map AggRow.totals).getD ⟨0, 0⟩ =
      totals CellKey.cellsForEvent Event.user (s p) key := by
  rw [← totals_of_tally, ← cellTally, ← h p key, rowTotals]

theorem Tallied.groupSum_events (h : db.Tallied w s) (key : CellKey) :
    db.groupSum ⟨w, key⟩ AggRow.events =
      ∑ p ∈ db.partitions, (totals CellKey.cellsForEvent Event.user (s p) key).events := by
  rw [groupSum_eq db ⟨w, key⟩ AggRow.events db.partitions fun p hp => mem_partitions hp]
  refine Finset.sum_congr rfl fun p _ => ?_
  rw [← h.totals_eq p key]
  cases db.aggCells.lookup ⟨w, key, p⟩ <;> rfl

theorem Tallied.groupSum_users (h : db.Tallied w s) (key : CellKey) :
    db.groupSum ⟨w, key⟩ AggRow.users =
      ∑ p ∈ db.partitions, (totals CellKey.cellsForEvent Event.user (s p) key).users := by
  rw [groupSum_eq db ⟨w, key⟩ AggRow.users db.partitions fun p hp => mem_partitions hp]
  refine Finset.sum_congr rfl fun p _ => ?_
  rw [← h.totals_eq p key]
  cases db.aggCells.lookup ⟨w, key, p⟩ <;> rfl

theorem Tallied.users_le_events (h : db.Tallied w s) (key : CellKey) :
    db.groupSum ⟨w, key⟩ AggRow.users ≤ db.groupSum ⟨w, key⟩ AggRow.events := by
  rw [h.groupSum_events, h.groupSum_users]
  exact Finset.sum_le_sum fun p _ => Tally.users_le_events _ _ _ _

section Children

variable {key : CellKey} (h : db.Tallied w s)
  (hkey : ∃ p, (db.aggCells.lookup ⟨w, key, p⟩).isSome) (hlevel : key.level ≤ levelWiki)

include h hkey hlevel

theorem Tallied.mem_childRows (r : AggKey × AggRow) :
    r ∈ db.childRows w key ↔
      r ∈ rows db.aggCells ∧ r.1.windowStart = w ∧ r.1.cell.parent = some key := by
  obtain ⟨p, hp⟩ := hkey
  obtain ⟨e, _, he⟩ := h.exists_event hp
  rw [childRows, List.mem_filter, isChildRow_iff (CellKey.parent_childOf he hlevel)]

/-- The query reads the durable keys that have the parent. -/
theorem Tallied.mem_childKeys (c : CellKey) :
    c ∈ db.childKeys w key ↔
      c.parent = some key ∧ ∃ p, (db.aggCells.lookup ⟨w, c, p⟩).isSome := by
  simp only [childKeys, List.mem_toFinset, List.mem_map, h.mem_childRows hkey hlevel]
  constructor
  · intro hc
    obtain ⟨⟨⟨start, cell, p⟩, row⟩, ⟨hrow, rfl, hparent⟩, rfl⟩ := hc
    exact ⟨hparent, p, Option.isSome_iff_exists.mpr ⟨row, (mem_rows _ _ _).mp hrow⟩⟩
  · intro hc
    obtain ⟨hparent, p, hp⟩ := hc
    obtain ⟨row, hrow⟩ := Option.isSome_iff_exists.mp hp
    exact ⟨(⟨w, c, p⟩, row), ⟨(mem_rows _ _ _).mpr hrow, rfl, hparent⟩, rfl⟩

theorem Tallied.childOf_mem (p : Int) : ∀ e ∈ contributors CellKey.cellsForEvent (s p) key,
      CellKey.childOf key e ∈ db.childKeys w key := by
  intro e he
  obtain ⟨hs, hcell⟩ := (mem_contributors _ _ _ _).mp he
  have hparent := CellKey.parent_childOf hcell hlevel
  refine (h.mem_childKeys hkey hlevel _).mpr ⟨hparent, p, (h.isSome_iff p _).mpr ⟨e, ?_⟩⟩
  refine (mem_contributors _ _ _ _).mpr ⟨hs, ?_⟩
  exact (CellKey.mem_cells_iff_of_parent hparent e).mpr ⟨hcell, rfl⟩

theorem Tallied.child_cells (p : Int) : ∀ e ∈ s p, ∀ c ∈ db.childKeys w key,
      c ∈ CellKey.cellsForEvent e ↔
        key ∈ CellKey.cellsForEvent e ∧ CellKey.childOf key e = c := fun e _ c hc =>
  CellKey.mem_cells_iff_of_parent ((h.mem_childKeys hkey hlevel c).mp hc).1 e

theorem Tallied.sum_events_childKeys :
    ∑ c ∈ db.childKeys w key, db.groupSum ⟨w, c⟩ AggRow.events =
      db.groupSum ⟨w, key⟩ AggRow.events := by
  simp only [h.groupSum_events]
  rw [Finset.sum_comm]
  exact Finset.sum_congr rfl fun p _ => sum_events_children Event.user
    (h.child_cells hkey hlevel p) (h.childOf_mem hkey hlevel p)

theorem Tallied.users_childKey_le {c : CellKey} (hc : c ∈ db.childKeys w key) :
    db.groupSum ⟨w, c⟩ AggRow.users ≤ db.groupSum ⟨w, key⟩ AggRow.users := by
  rw [h.groupSum_users, h.groupSum_users]
  exact Finset.sum_le_sum fun p _ =>
    users_child_le Event.user (h.child_cells hkey hlevel p) hc

theorem Tallied.users_le_childKeys :
    db.groupSum ⟨w, key⟩ AggRow.users ≤
      ∑ c ∈ db.childKeys w key, db.groupSum ⟨w, c⟩ AggRow.users := by
  simp only [h.groupSum_users]
  rw [Finset.sum_comm]
  exact Finset.sum_le_sum fun p _ => users_le_sum_children Event.user
    (h.child_cells hkey hlevel p) (h.childOf_mem hkey hlevel p)

theorem Tallied.cell_label {r : AggKey × AggRow} (hr : r ∈ db.childRows w key) :
    (childLabel key r.1).cell key = r.1.cell := by
  obtain ⟨hrow, hstart, hparent⟩ := (h.mem_childRows hkey hlevel r).mp hr
  obtain ⟨⟨start, cell, p⟩, row⟩ := r
  dsimp only at hstart hparent ⊢
  subst hstart
  obtain ⟨e, _, he⟩ := h.exists_event
    (Option.isSome_iff_exists.mpr ⟨row, (mem_rows _ _ _).mp hrow⟩)
  exact cell_childLabel (k := ⟨start, cell, p⟩) he hparent

theorem Tallied.columnSum_group {g : ChildLabel × List AggRow}
    (hg : g ∈ groupBy (childLabel key) (db.childRows w key)) (column : AggRow → Nat) :
    columnSum column g.2 = db.groupSum ⟨w, g.1.cell key⟩ column :=
  HushEngine.columnSum_group (fun _ hr => h.cell_label hkey hlevel hr) hg column

/-- There is one group for each child key. -/
theorem Tallied.groups_cells :
    ((groupBy (childLabel key) (db.childRows w key)).map fun g => g.1.cell key).Nodup ∧
      ((groupBy (childLabel key) (db.childRows w key)).map fun g => g.1.cell key).toFinset =
        db.childKeys w key := by
  have hlabels : (groupBy (childLabel key) (db.childRows w key)).map (fun g => g.1.cell key) =
      (((db.childRows w key).map fun r => childLabel key r.1).dedup).map (ChildLabel.cell key) := by
    simp [groupBy, groupOn, Function.comp_def]
  rw [hlabels]
  refine ⟨(List.nodup_dedup _).map (ChildLabel.cell_injective key), ?_⟩
  ext c
  simp only [childKeys, List.mem_toFinset, List.mem_map, List.mem_dedup]
  constructor
  · intro hc
    obtain ⟨l, ⟨r, hr, rfl⟩, rfl⟩ := hc
    exact ⟨r, hr, (h.cell_label hkey hlevel hr).symm⟩
  · intro hc
    obtain ⟨r, hr, rfl⟩ := hc
    exact ⟨_, ⟨r, hr, rfl⟩, h.cell_label hkey hlevel hr⟩

theorem Tallied.sum_groups (column : AggRow → Nat) :
    ((groupBy (childLabel key) (db.childRows w key)).map fun g => columnSum column g.2).sum =
      ∑ c ∈ db.childKeys w key, db.groupSum ⟨w, c⟩ column := by
  obtain ⟨hnodup, hset⟩ := h.groups_cells hkey hlevel
  rw [← hset, List.sum_toFinset _ hnodup, List.map_map]
  congr 1
  exact List.map_congr_left fun g hg => h.columnSum_group hkey hlevel hg column

end Children

end Db

/-- The key that a fetched child stands for. -/
def RawCell.cell (parent : CellKey) (c : RawCell) : CellKey :=
  ⟨parent.level + 1, c.family, c.wiki, c.ns⟩

theorem sumGroup_spec {g : ChildLabel × List AggRow} {c : RawCell} (hc : sumGroup g = .ok c)
    (parent : CellKey) :
    c.cell parent = g.1.cell parent ∧ c.events.toNat = columnSum AggRow.events g.2 ∧
      c.users.toNat = columnSum AggRow.users g.2 := by
  obtain ⟨events, hevents, hrest⟩ := bind_eq_ok.mp hc
  obtain ⟨users, husers, hok⟩ := bind_eq_ok.mp hrest
  cases hok
  exact ⟨rfl, toNat_of_toBigint hevents, toNat_of_toBigint husers⟩

/-- The children fetched are the groups, in their order and with their sums. -/
theorem forall_sumGroup {groups : List (ChildLabel × List AggRow)} {children : List RawCell}
    (h : List.Forall₂ (fun g c => sumGroup g = .ok c) groups children) (parent : CellKey) :
    children.map (RawCell.cell parent) = groups.map (fun g => g.1.cell parent) ∧
      natSumBy RawCell.events children =
        (groups.map fun g => columnSum AggRow.events g.2).sum ∧
      natSumBy RawCell.users children = (groups.map fun g => columnSum AggRow.users g.2).sum := by
  induction h with
  | nil => exact ⟨rfl, rfl, rfl⟩
  | cons hc _ ih =>
    obtain ⟨hcell, hevents, husers⟩ := sumGroup_spec hc parent
    obtain ⟨hcells, hsum, hsum'⟩ := ih
    refine ⟨by rw [List.map_cons, List.map_cons, hcell, hcells], ?_, ?_⟩
    · simpa [natSumBy, hevents] using hsum
    · simpa [natSumBy, husers] using hsum'

namespace Db

section Fetched

variable {db : Db} {w : Int} {s : Int → Finset Event} {key : CellKey} (h : db.Tallied w s)
  (hkey : ∃ p, (db.aggCells.lookup ⟨w, key, p⟩).isSome) (hlevel : key.level ≤ levelWiki)

include h hkey hlevel

/-- If the parent's events fit a `bigint`, so does every sum of its children. -/
theorem Tallied.fetchChildren_ok (hfits : db.groupSum ⟨w, key⟩ AggRow.events < 2 ^ 63) :
    ∃ children, fetchChildren db w key = .ok children := by
  refine exists_mapM_ok_iff.mpr fun g hg => ?_
  obtain ⟨_, hset⟩ := h.groups_cells hkey hlevel
  have hmem : g.1.cell key ∈ db.childKeys w key := by
    rw [← hset]
    exact List.mem_toFinset.mpr (List.mem_map.mpr ⟨g, hg, rfl⟩)
  have hevents : db.groupSum ⟨w, g.1.cell key⟩ AggRow.events ≤
      db.groupSum ⟨w, key⟩ AggRow.events := by
    rw [← h.sum_events_childKeys hkey hlevel]
    exact Finset.single_le_sum (f := fun c => db.groupSum ⟨w, c⟩ AggRow.events)
      (fun _ _ => Nat.zero_le _) hmem
  have husers := h.users_le_events (g.1.cell key)
  apply sumGroup_ok
  · rw [h.columnSum_group hkey hlevel hg]
    omega
  · rw [h.columnSum_group hkey hlevel hg]
    omega

variable {children : List RawCell} (hok : fetchChildren db w key = .ok children)

include hok

/-- Every child key is fetched once. -/
theorem Tallied.fetched_cells :
    (children.map (RawCell.cell key)).Nodup ∧
      ∀ c, c ∈ children.map (RawCell.cell key) ↔ c ∈ db.childKeys w key := by
  obtain ⟨hnodup, hset⟩ := h.groups_cells hkey hlevel
  rw [(forall_sumGroup (mapM_eq_ok.mp hok) key).1]
  refine ⟨hnodup, fun c => ?_⟩
  rw [← hset, List.mem_toFinset]

theorem Tallied.fetched_events :
    natSumBy RawCell.events children = db.groupSum ⟨w, key⟩ AggRow.events := by
  rw [(forall_sumGroup (mapM_eq_ok.mp hok) key).2.1, h.sum_groups hkey hlevel,
    h.sum_events_childKeys hkey hlevel]

theorem Tallied.le_fetched_users :
    db.groupSum ⟨w, key⟩ AggRow.users ≤ natSumBy RawCell.users children := by
  rw [(forall_sumGroup (mapM_eq_ok.mp hok) key).2.2, h.sum_groups hkey hlevel]
  exact h.users_le_childKeys hkey hlevel

theorem Tallied.fetched_child {c : RawCell} (hc : c ∈ children) :
    c.users.toNat ≤ db.groupSum ⟨w, key⟩ AggRow.users ∧ c.users.toNat ≤ c.events.toNat := by
  obtain ⟨g, hg, hgc⟩ : ∃ g ∈ groupBy (childLabel key) (db.childRows w key),
      sumGroup g = .ok c := by
    have hall := mapM_eq_ok.mp hok
    obtain ⟨i, hi, rfl⟩ := List.getElem_of_mem hc
    have hlen := hall.length_eq
    exact ⟨_, List.getElem_mem (by omega), hall.get (by omega) hi⟩
  obtain ⟨hcell, hevents, husers⟩ := sumGroup_spec hgc key
  have hmem := ((h.fetched_cells hkey hlevel hok).2 _).mp (List.mem_map_of_mem hc)
  rw [hevents, husers, h.columnSum_group hkey hlevel hg, h.columnSum_group hkey hlevel hg, ← hcell]
  exact ⟨h.users_childKey_le hkey hlevel hmem, h.users_le_events _⟩

end Fetched

end Db

end HushEngine
