import HushEngine.StoredRows

/-!
The two reads of a cell and of its children compared. One sums in the database
and lets it group by fixed columns, the other folds the rows and groups them by
their own columns. On rows that events have counted the columns are the same
and no merge fails, so the reads differ in users only, except for one thing: an
aggregate without `GROUP BY` has a row where there is nothing to aggregate.
-/
namespace HushEngine

open Keyed Runs Fallible Grouping

def RawCell.label (c : RawCell) : ChildLabel := ⟨c.family, c.wiki, c.ns⟩

/-- A cell as read, without its users. -/
def RawCell.counted (c : RawCell) : ChildLabel × UInt64 := (c.label, c.events)

/-- Both reads return, and return the same cell and the same children up to users and order, each
child once. -/
structure ReadsAgree (estimate : HyperLogLog → UInt64) (db : Db) (w : Int) (key : CellKey) :
    Prop where
  cell : ∃ exact hll, fetchCell db w key = .ok exact ∧
    fetchCellHll estimate db w key = .ok hll ∧
    exact.map RawCell.counted = hll.map RawCell.counted
  children : ∃ exact hll, fetchChildren db w key = .ok exact ∧
    fetchChildrenHll estimate db w key = .ok hll ∧
    (exact.map RawCell.counted).Perm (hll.map RawCell.counted) ∧
    (exact.map RawCell.label).Nodup ∧ (hll.map RawCell.label).Nodup

/-- Grouping looks at the labels of the rows there are. -/
theorem groupBy_congr {label label' : AggKey → ChildLabel} {rs : List (AggKey × AggRow)}
    (h : ∀ r ∈ rs, label r.1 = label' r.1) : groupBy label rs = groupBy label' rs := by
  have hlabels : (rs.map fun r => label r.1) = rs.map fun r => label' r.1 :=
    List.map_congr_left h
  have hgroup : ∀ l, rs.filter (fun r => decide (label r.1 = l)) =
      rs.filter fun r => decide (label' r.1 = l) := fun l =>
    List.filter_congr fun r hr => by rw [h r hr]
  simp only [groupBy, groupOn, hlabels, hgroup]

theorem nodup_groupBy (label : AggKey → ChildLabel) (rs : List (AggKey × AggRow)) :
    ((groupBy label rs).map Prod.fst).Nodup := by
  have hlabels : (groupBy label rs).map Prod.fst = (rs.map fun r => label r.1).dedup := by
    simp [groupBy, groupOn, Function.comp_def]
  rw [hlabels]
  exact List.nodup_dedup _

/-- What a step over a list says of each element, its results say in order. -/
theorem map_eq_of_forall₂ {A B C : Type*} {r : A → B → Prop} {as : List A} {bs : List B}
    (h : List.Forall₂ r as bs) {f : B → C} {g : A → C} (heq : ∀ a b, r a b → f b = g a) :
    bs.map f = as.map g := by
  induction h with
  | nil => rfl
  | cons hab _ ih => rw [List.map_cons, List.map_cons, heq _ _ hab, ih]

section Rows

variable {db : Db} {w : Int} {key : CellKey}

theorem level_of_mem_childRows {r : AggKey × AggRow} (hr : r ∈ db.childRows w key) :
    r.1.cell.level = key.level + 1 := by
  have hchild := (List.mem_filter.mp hr).2
  simp only [isChildRow, Bool.and_eq_true, decide_eq_true_eq] at hchild
  exact hchild.1.2

/-- The roll-up columns the query writes out are those the rows have. -/
theorem Db.RowsCounted.childLabel_eq (h : db.RowsCounted) {r : AggKey × AggRow}
    (hr : r ∈ db.childRows w key) : childLabel key r.1 = ownLabel r.1 := by
  obtain ⟨k, row⟩ := r
  have hrow := (List.mem_filter.mp hr).1
  obtain ⟨agg, hcounted, _⟩ := h k row ((mem_rows _ _ _).mp hrow)
  obtain ⟨e, he⟩ := hcounted.by_event
  have hlevel : k.cell.level = key.level + 1 := level_of_mem_childRows hr
  rw [CellKey.mem_cellsForEvent] at he
  unfold childLabel ownLabel
  rcases he with hcell | hcell | hcell | hcell <;> rw [hcell] at hlevel ⊢ <;>
    simp only [CellKey.global, CellKey.ofFamily, CellKey.ofWiki, levelGlobal, levelFamily,
      levelWiki, levelNamespace] at hlevel ⊢ <;> split_ifs <;> first | rfl | omega

/-- A child row's own columns are its cell's, and its level is the parent's and one. -/
theorem cell_ownLabel {r : AggKey × AggRow} (hr : r ∈ db.childRows w key) :
    (ownLabel r.1).cell key = r.1.cell := by
  rw [ChildLabel.cell, ← level_of_mem_childRows hr, ownLabel]

/-- The groups are those of the cells of the child rows. -/
theorem forall_columnSum_iff (p : Nat → Prop) (column : AggRow → Nat) :
    (∀ g ∈ groupBy ownLabel (db.childRows w key), p (columnSum column g.2)) ↔
      ∀ r ∈ db.childRows w key, p (db.groupSum r.1.group column) := by
  constructor
  · intro h r hr
    obtain ⟨g, hg, hlabel⟩ := exists_mem_groupBy ownLabel hr
    have hsum := h g hg
    rw [columnSum_group (fun _ => cell_ownLabel) hg, hlabel, cell_ownLabel hr] at hsum
    rw [group_of_mem_childRows hr]
    exact hsum
  · intro h g hg
    rw [columnSum_group (fun _ => cell_ownLabel) hg]
    obtain ⟨⟨l, rs⟩, hgroup, rfl⟩ := List.mem_map.mp hg
    obtain ⟨⟨r, hr, rfl⟩, _⟩ := mem_groupOn.mp hgroup
    dsimp only
    rw [cell_ownLabel hr, ← group_of_mem_childRows hr]
    exact h r hr

end Rows

/-- The row is of a cell that events have counted. -/
def AggRow.Counted (row : AggRow) : Prop :=
  ∃ (agg : CellAgg) (cell : CellKey), agg.Counted cell ∧ agg.toRow = row

theorem columnSum_users_le {rs : List AggRow} (h : ∀ row ∈ rs, row.Counted) :
    columnSum AggRow.users rs ≤ columnSum AggRow.events rs := by
  apply List.sum_le_sum
  intro row hrow
  obtain ⟨agg, cell, hcounted, rfl⟩ := h row hrow
  exact hcounted.users_le

/-- A counted row's sketch merges into one of default precision without a failing assertion. -/
theorem mergeHllBytes_ok {acc : Option HyperLogLog} {row : AggRow} (hrow : row.Counted)
    (hacc : ∀ s, acc = some s → s.precision = defaultPrecision) :
    ∃ acc', mergeHllBytes acc row.usersHll = .ok acc' ∧
      ∀ s, acc' = some s → s.precision = defaultPrecision := by
  obtain ⟨agg, cell, hcounted, rfl⟩ := hrow
  rw [CellAgg.toRow, mergeHllBytes]
  dsimp only
  cases hhll : agg.hll with
  | none => exact ⟨acc, rfl, hacc⟩
  | some sketch =>
    obtain ⟨hvalid, hprecision⟩ := hcounted.sketch sketch hhll
    rw [Option.map_some, Option.bind_some, hvalid.fromBytes_toBytes]
    cases acc with
    | none =>
      refine ⟨some sketch, rfl, fun s hs => ?_⟩
      rw [← Option.some.inj hs, hprecision]
    | some existing =>
      have hexisting := hacc existing rfl
      dsimp only
      rw [HyperLogLog.merge, if_pos (by rw [hexisting, hprecision])]
      refine ⟨_, rfl, fun s hs => ?_⟩
      rw [← Option.some.inj hs]
      exact hexisting

theorem mergeSketches_ok {rs : List AggRow} (h : ∀ row ∈ rs, row.Counted) :
    ∃ merged, mergeSketches rs = .ok merged := by
  obtain ⟨merged, hmerged, _⟩ := exists_foldlM_ok
    (fun row hrow _ hacc => mergeHllBytes_ok (h row hrow) hacc)
    (fun s (hs : none = some s) => by cases hs)
  exact ⟨merged, hmerged⟩

section Compare

variable {estimate : HyperLogLog → UInt64} {db : Db} {w : Int} {key : CellKey}

theorem Db.RowsCounted.counted (h : db.RowsCounted) {r : AggKey × AggRow}
    (hr : r ∈ rows db.aggCells) : r.2.Counted := by
  obtain ⟨agg, hcounted, hrow⟩ := h r.1 r.2 ((mem_rows _ _ _).mp hr)
  exact ⟨agg, r.1.cell, hcounted, hrow⟩

theorem cellRows_ne_nil_iff :
    (db.cellRows w key).map Prod.snd ≠ [] ↔ ∃ p, (db.aggCells.lookup ⟨w, key, p⟩).isSome := by
  rw [ne_eq, List.map_eq_nil_iff]
  constructor
  · intro h
    obtain ⟨⟨⟨start, cell, p⟩, row⟩, hr⟩ := List.exists_mem_of_ne_nil _ h
    obtain ⟨hrow, hgroup⟩ := List.mem_filter.mp hr
    obtain ⟨rfl, rfl⟩ := GroupKey.mk.inj (of_decide_eq_true hgroup)
    exact ⟨p, Option.isSome_iff_exists.mpr ⟨row, (mem_rows _ _ _).mp hrow⟩⟩
  · intro h
    obtain ⟨p, hp⟩ := h
    obtain ⟨row, hrow⟩ := Option.isSome_iff_exists.mp hp
    exact List.ne_nil_of_mem (a := (⟨w, key, p⟩, row)) (List.mem_filter.mpr
      ⟨(mem_rows _ _ _).mpr hrow, decide_eq_true rfl⟩)

theorem columnSum_cellRows (column : AggRow → Nat) :
    columnSum column ((db.cellRows w key).map Prod.snd) = db.groupSum ⟨w, key⟩ column :=
  columnSum_map_snd column _

/-- The reads of the cell agree just when it has a row and its events fit. -/
theorem Db.RowsCounted.cell_agree_iff (h : db.RowsCounted) (estimate : HyperLogLog → UInt64)
    (w : Int) (key : CellKey) :
    (∃ exact hll, fetchCell db w key = .ok exact ∧ fetchCellHll estimate db w key = .ok hll ∧
      exact.map RawCell.counted = hll.map RawCell.counted) ↔
    (∃ p, (db.aggCells.lookup ⟨w, key, p⟩).isSome) ∧
      db.groupSum ⟨w, key⟩ AggRow.events < 2 ^ 63 := by
  have hcounted : ∀ row ∈ (db.cellRows w key).map Prod.snd, row.Counted := by
    intro row hrow
    obtain ⟨r, hr, rfl⟩ := List.mem_map.mp hrow
    exact h.counted (List.mem_filter.mp hr).1
  constructor
  · intro hagree
    obtain ⟨exact, hll, hexact, hhll, hsame⟩ := hagree
    obtain ⟨c, rfl, _, _, _, hevents, _⟩ := fetchCell_eq_ok.mp hexact
    cases hll with
    | none => cases hsame
    | some c' =>
      exact ⟨cellRows_ne_nil_iff.mp (fetchCellHll_eq_ok.mp hhll).1, lt_of_toBigint hevents⟩
  · intro hcond
    obtain ⟨hrow, hevents⟩ := hcond
    have husers := columnSum_users_le hcounted
    rw [columnSum_cellRows, columnSum_cellRows] at husers
    obtain ⟨merged, hmerged⟩ := mergeSketches_ok hcounted
    have hexact := fetchCell_eq_ok.mpr ⟨⟨key.family, key.wiki, key.ns, _, _⟩, rfl, rfl, rfl, rfl,
      toBigint_ok hevents, toBigint_ok (husers.trans_lt hevents)⟩
    have hhll : fetchCellHll estimate db w key = .ok (some _) :=
      fetchCellHll_eq_ok.mpr ⟨cellRows_ne_nil_iff.mpr hrow, merged, hmerged, rfl⟩
    refine ⟨_, _, hexact, hhll, ?_⟩
    rw [columnSum_cellRows]
    rfl

theorem sumGroup_counted {g : ChildLabel × List AggRow} {c : RawCell} (h : sumGroup g = .ok c) :
    c.counted = (g.1, UInt64.ofNat (columnSum AggRow.events g.2)) := by
  obtain ⟨events, hevents, hrest⟩ := bind_eq_ok.mp h
  obtain ⟨users, _, hok⟩ := bind_eq_ok.mp hrest
  cases hok
  rw [toBigint_ok (lt_of_toBigint hevents)] at hevents
  cases hevents
  rfl

theorem estimateGroup_counted {g : ChildLabel × List AggRow} {c : RawCell}
    (h : estimateGroup estimate g = .ok c) :
    c.counted = (g.1, UInt64.ofNat (columnSum AggRow.events g.2)) := by
  obtain ⟨merged, _, hok⟩ := bind_eq_ok.mp h
  cases hok
  rfl

theorem Db.RowsCounted.counted_group (h : db.RowsCounted) {g : ChildLabel × List AggRow}
    (hg : g ∈ groupBy ownLabel (db.childRows w key)) : ∀ row ∈ g.2, row.Counted := by
  intro row hrow
  obtain ⟨⟨l, rs⟩, hgroup, rfl⟩ := List.mem_map.mp hg
  obtain ⟨r, hr, rfl⟩ := List.mem_map.mp hrow
  have hmem := (mem_groupOn.mp hgroup).2
  dsimp only at hmem hr
  rw [hmem] at hr
  exact h.counted (List.mem_filter.mp (List.mem_filter.mp hr).1).1

/-- The exact read groups by the rows' own columns too. -/
theorem Db.RowsCounted.fetchChildren_eq (h : db.RowsCounted) :
    fetchChildren db w key = (groupBy ownLabel (db.childRows w key)).mapM sumGroup := by
  unfold fetchChildren
  rw [groupBy_congr fun r hr => h.childLabel_eq hr]

/-- The exact read of the children returns when the events of each of them fit. -/
theorem Db.RowsCounted.exists_fetchChildren_iff (h : db.RowsCounted) :
    (∃ cells, fetchChildren db w key = .ok cells) ↔
      ∀ r ∈ db.childRows w key, db.groupSum r.1.group AggRow.events < 2 ^ 63 := by
  rw [h.fetchChildren_eq, exists_mapM_ok_iff,
    ← forall_columnSum_iff (fun events => events < 2 ^ 63) AggRow.events]
  constructor
  · intro hok g hg
    obtain ⟨c, hc⟩ := hok g hg
    exact (sumGroup_eq_ok hc).1
  · intro hfits g hg
    exact sumGroup_ok (hfits g hg) ((columnSum_users_le (h.counted_group hg)).trans_lt (hfits g hg))

theorem Db.RowsCounted.exists_fetchChildrenHll (h : db.RowsCounted)
    (estimate : HyperLogLog → UInt64) (w : Int) (key : CellKey) :
    ∃ cells, fetchChildrenHll estimate db w key = .ok cells := by
  refine exists_mapM_ok_iff.mpr fun g hg => ?_
  obtain ⟨merged, hmerged⟩ := mergeSketches_ok (h.counted_group hg)
  exact ⟨_, bind_eq_ok.mpr ⟨merged, hmerged, rfl⟩⟩

/-- Cells with the counts of the groups have their labels, each once. -/
theorem nodup_labels_of_counted {cells : List RawCell}
    (h : cells.map RawCell.counted = (groupBy ownLabel (db.childRows w key)).map fun g =>
      (g.1, UInt64.ofNat (columnSum AggRow.events g.2))) : (cells.map RawCell.label).Nodup := by
  have hlabels := congrArg (List.map Prod.fst) h
  rw [List.map_map, List.map_map] at hlabels
  exact hlabels ▸ nodup_groupBy ownLabel (db.childRows w key)

/-- The reads of the children agree just when the events of each of them fit. -/
theorem Db.RowsCounted.children_agree_iff (h : db.RowsCounted)
    (estimate : HyperLogLog → UInt64) (w : Int) (key : CellKey) :
    (∃ exact hll, fetchChildren db w key = .ok exact ∧
      fetchChildrenHll estimate db w key = .ok hll ∧
      (exact.map RawCell.counted).Perm (hll.map RawCell.counted) ∧
      (exact.map RawCell.label).Nodup ∧ (hll.map RawCell.label).Nodup) ↔
    ∀ r ∈ db.childRows w key, db.groupSum r.1.group AggRow.events < 2 ^ 63 := by
  rw [← h.exists_fetchChildren_iff]
  constructor
  · intro hagree
    obtain ⟨exact, _, hexact, _⟩ := hagree
    exact ⟨exact, hexact⟩
  · intro hread
    obtain ⟨exact, hexact⟩ := hread
    obtain ⟨hll, hhll⟩ := h.exists_fetchChildrenHll estimate w key
    have hmap := hexact
    rw [h.fetchChildren_eq] at hmap
    have hexact' := map_eq_of_forall₂ (mapM_eq_ok.mp hmap) fun _ _ => sumGroup_counted
    have hhll' := map_eq_of_forall₂ (mapM_eq_ok.mp hhll) fun _ _ => estimateGroup_counted
    refine ⟨exact, hll, hexact, hhll, ?_, nodup_labels_of_counted hexact',
      nodup_labels_of_counted hhll'⟩
    rw [hexact', hhll']

end Compare

namespace Deployment

/-- In every table that flushes can leave, the two reads of a cell and its children agree exactly
when the cell has a row and the sums of events fit a `bigint`. -/
theorem reads_agree_iff (estimate : HyperLogLog → UInt64) (actions : List DeploymentAction)
    (s : Deployment) (hrun : Run step free idle actions s) (w : Int) (key : CellKey) :
    ReadsAgree estimate s.db w key ↔
      (∃ p, (s.db.aggCells.lookup ⟨w, key, p⟩).isSome) ∧
      s.db.groupSum ⟨w, key⟩ AggRow.events < 2 ^ 63 ∧
      ∀ r ∈ s.db.childRows w key, s.db.groupSum r.1.group AggRow.events < 2 ^ 63 := by
  have h := rowsCounted_of_run hrun
  have hcell := h.cell_agree_iff estimate w key
  have hchildren := h.children_agree_iff estimate w key
  constructor
  · intro hagree
    obtain ⟨hrow, hevents⟩ := hcell.mp hagree.cell
    exact ⟨hrow, hevents, hchildren.mp hagree.children⟩
  · intro hcond
    obtain ⟨hrow, hevents, hchild⟩ := hcond
    exact ⟨hcell.mpr ⟨hrow, hevents⟩, hchildren.mpr hchild⟩

theorem reads_agree_twoFlushes :
    ∃ s, Run step free idle twoFlushes s ∧ ReadsAgree (fun _ => 0) s.db 0 .global := by
  have hrun : ∃ s, Run step free idle twoFlushes s ∧
      (s.db.aggCells.lookup ⟨0, .global, 0⟩).isSome ∧
      s.db.groupSum ⟨0, .global⟩ AggRow.events < 2 ^ 63 ∧
      ∀ r ∈ s.db.childRows 0 .global, s.db.groupSum r.1.group AggRow.events < 2 ^ 63 :=
    ⟨_, run_of_execute rfl, by decide, by decide, by decide⟩
  obtain ⟨s, hs, hpresent, hfits⟩ := hrun
  exact ⟨s, hs, (reads_agree_iff _ _ s hs 0 .global).mpr ⟨⟨0, hpresent⟩, hfits⟩⟩

/-- A family that no event was of has a cell without events in one read and none in the other. -/
theorem reads_disagree_twoFlushes :
    ∃ s, Run step free idle twoFlushes s ∧
      fetchCell s.db 0 (.ofFamily "commons") =
        .ok (some ⟨"commons", rollupStr, rollupNamespace, 0, 0⟩) ∧
      fetchCellHll (fun _ => 0) s.db 0 (.ofFamily "commons") = .ok none ∧
      ¬ ReadsAgree (fun _ => 0) s.db 0 (.ofFamily "commons") := by
  have hrun : ∃ s, Run step free idle twoFlushes s ∧
      fetchCell s.db 0 (.ofFamily "commons") =
        .ok (some ⟨"commons", rollupStr, rollupNamespace, 0, 0⟩) ∧
      fetchCellHll (fun _ => 0) s.db 0 (.ofFamily "commons") = .ok none :=
    ⟨_, run_of_execute rfl, by decide, by decide⟩
  obtain ⟨s, hs, hexact, hhll⟩ := hrun
  refine ⟨s, hs, hexact, hhll, fun hagree => ?_⟩
  obtain ⟨exact, hll, hexact', hhll', hsame⟩ := hagree.cell
  rw [hexact] at hexact'
  rw [hhll] at hhll'
  cases hexact'
  cases hhll'
  cases hsame

end Deployment

end HushEngine
