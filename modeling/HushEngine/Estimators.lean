import HushEngine.SketchRegisters
import HushEngine.StatsQueries
import Mathlib.Data.Finset.Dedup

/-!
What the sketches decide. Under the `hll` estimator the parent's and the
children's counts given to `suppress` are the sketches' own estimates, so a
window's visible children follow its `users_hll` column: none are visible when
no row has a sketch, and all are when every child row has a large one. Only a
parent without child rows is answered alike under every column.
-/
namespace HushEngine

open Keyed Fallible Grouping

/-- The table with its `users_hll` column replaced. -/
def Db.withSketches (db : Db) (column : AggKey → Option (List UInt8)) : Db :=
  { db with aggCells := mapValues (fun k row => { row with usersHll := column k }) db.aggCells }

/-- The rows of the children that a request asks about. -/
def Db.queriedRows (db : Db) (q : StatsQuery) : List (AggKey × AggRow) :=
  match parentKey q with
  | .ok parent => db.childRows q.window parent
  | .error _ => []

def ResultCell.visibleKey : ResultCell → Option ChildLabel
  | .visible family wiki ns _ _ => some ⟨family, wiki, ns⟩
  | .other _ _ => none

section Visible

variable (estimate : HyperLogLog → UInt64)

/-- The keys an answer under the estimator shows; a failing query shows none. -/
def visibleKeys (db : Db) (s : Settings) (q : StatsQuery) (estimator : Estimator) :
    Finset ChildLabel :=
  match computeStats estimate db s { q with estimator := estimator } with
  | .ok resp => (resp.cells.filterMap ResultCell.visibleKey).toFinset
  | .error _ => ∅

/-- The visible keys are the same under both estimators, and under every `users_hll` column. -/
def SketchBlind (db : Db) (s : Settings) (q : StatsQuery) : Prop :=
  visibleKeys estimate db s q .hll = visibleKeys estimate db s q .exact ∧
    ∀ column estimator, visibleKeys estimate (db.withSketches column) s q estimator =
      visibleKeys estimate db s q estimator

end Visible

/-- Rows that all have the same sketch merge into it. -/
theorem mergeSketches_const {rs : List AggRow} {content : Option (List UInt8)} (hne : rs ≠ [])
    (h : ∀ row ∈ rs, row.usersHll = content) :
    mergeSketches rs = .ok (content.bind HyperLogLog.fromBytes) := by
  have hstep : ∀ acc, acc = none ∨ acc = content.bind HyperLogLog.fromBytes →
      mergeHllBytes acc content = .ok (content.bind HyperLogLog.fromBytes) := by
    intro acc hacc
    unfold mergeHllBytes
    cases hdecode : content.bind HyperLogLog.fromBytes with
    | none => rcases hacc with rfl | rfl <;> simp [hdecode]
    | some sketch =>
      rcases hacc with rfl | rfl
      · rfl
      · simp [hdecode, HyperLogLog.merge_self]
  have hfold : ∀ rs : List AggRow, (∀ row ∈ rs, row.usersHll = content) →
      ∀ acc, acc = content.bind HyperLogLog.fromBytes →
      rs.foldlM (fun acc row => mergeHllBytes acc row.usersHll) acc = .ok acc := by
    intro rs
    induction rs with
    | nil => exact fun _ _ _ => rfl
    | cons row rs ih =>
      intro hrows acc hacc
      rw [List.foldlM_cons, hrows row (List.mem_cons_self ..), hstep acc (Or.inr hacc), ← hacc]
      exact ih (fun row' hrow' => hrows row' (List.mem_cons_of_mem _ hrow')) acc hacc
  cases rs with
  | nil => exact absurd rfl hne
  | cons row rs =>
    rw [mergeSketches, List.foldlM_cons, h row (List.mem_cons_self ..), hstep none (Or.inl rfl)]
    exact hfold rs (fun row' hrow' => h row' (List.mem_cons_of_mem _ hrow')) _ rfl

namespace Db

variable {db : Db} {w : Int} {parent : CellKey}

theorem childRows_withSketches (column : AggKey → Option (List UInt8)) :
    (db.withSketches column).childRows w parent =
      (db.childRows w parent).map fun r => (r.1, { r.2 with usersHll := column r.1 }) := by
  simp only [childRows, withSketches, rows_mapValues, List.filter_map]
  rfl

/-- The column that gives every child row of a parent one content, and no other row a sketch. -/
def childSketches (w : Int) (parent : CellKey) (content : Option (List UInt8)) (k : AggKey) :
    Option (List UInt8) :=
  if isChildRow w parent k then content else none

theorem usersHll_childRows (db : Db) (w : Int) (parent : CellKey)
    (content : Option (List UInt8)) :
    ∀ r ∈ (db.withSketches (childSketches w parent content)).childRows w parent,
      r.2.usersHll = content := by
  intro r hr
  rw [childRows_withSketches] at hr
  obtain ⟨r', hr', rfl⟩ := List.mem_map.mp hr
  exact if_pos (List.mem_filter.mp hr').2

theorem usersHll_cellRows (db : Db) (w : Int) (parent : CellKey)
    (content : Option (List UInt8)) :
    ∀ r ∈ (db.withSketches (childSketches w parent content)).cellRows w parent,
      r.2.usersHll = none := by
  intro r hr
  rw [cellRows, withSketches, rows_mapValues, List.mem_filter] at hr
  obtain ⟨r', hr', rfl⟩ := List.mem_map.mp hr.1
  have hcell : r'.1.cell = parent := congrArg GroupKey.cell (of_decide_eq_true hr.2)
  refine if_neg ?_
  simp [isChildRow, hcell]

end Db

section Blind

variable (estimate : HyperLogLog → UInt64) {db : Db} {s : Settings} {q : StatsQuery}
  {w : Int} {parent : CellKey}

/-- Children whose rows all have the same sketch are all estimated alike. -/
theorem fetchChildrenHll_const {content : Option (List UInt8)}
    (h : ∀ r ∈ db.childRows w parent, r.2.usersHll = content) :
    fetchChildrenHll estimate db w parent =
      .ok ((groupBy ownLabel (db.childRows w parent)).map fun g =>
        g.1.toCell (UInt64.ofNat (columnSum AggRow.events g.2))
          (estimateOf estimate (content.bind HyperLogLog.fromBytes))) := by
  apply mapM_eq_ok.mpr
  rw [List.forall₂_map_right_iff, List.forall₂_same]
  intro g hg
  obtain ⟨⟨l, group⟩, hgroup, rfl⟩ := List.mem_map.mp hg
  obtain ⟨⟨r, hr, hlabel⟩, hrows⟩ := mem_groupOn.mp hgroup
  dsimp only at hlabel hrows ⊢
  have hne : group.map Prod.snd ≠ [] := by
    have hmem : r ∈ group := by
      rw [hrows]
      exact List.mem_filter.mpr ⟨hr, decide_eq_true hlabel⟩
    exact List.ne_nil_of_mem (List.mem_map_of_mem hmem)
  have hcontent : ∀ row ∈ group.map Prod.snd, row.usersHll = content := by
    intro row hrow
    obtain ⟨r', hr', rfl⟩ := List.mem_map.mp hrow
    rw [hrows] at hr'
    exact h r' (List.mem_filter.mp hr').1
  exact bind_eq_ok.mpr ⟨_, mergeSketches_const hne hcontent, rfl⟩

/-- A cell without sketches is estimated at nobody. -/
theorem fetchCellHll_zero (h : ∀ r ∈ db.cellRows w parent, r.2.usersHll = none) :
    ∃ cell, fetchCellHll estimate db w parent = .ok cell ∧
      (cell.map RawCell.users).getD 0 = 0 := by
  by_cases hrows : (db.cellRows w parent).map Prod.snd = []
  · exact ⟨none, if_pos hrows, rfl⟩
  · have hnone : ∀ row ∈ (db.cellRows w parent).map Prod.snd, row.usersHll = none := by
      intro row hrow
      obtain ⟨r, hr, rfl⟩ := List.mem_map.mp hrow
      exact h r hr
    have hmerged := mergeSketches_const hrows hnone
    exact ⟨_, fetchCellHll_eq_ok.mpr ⟨hrows, none, hmerged, rfl⟩, rfl⟩

/-- A visible key labels a child that reaches the threshold. -/
theorem mem_visibleKeys (hdp : s.dpEnabled = false) (hlevel : q.level ≠ levelGlobal)
    {estimator : Estimator} {l : ChildLabel} (hl : l ∈ visibleKeys estimate db s q estimator) :
    ∃ parent children events users, parentKey q = .ok parent ∧
      readChildren estimate db estimator q.window parent = .ok children ∧
      l.toCell events users ∈ children ∧ s.k ≤ users := by
  unfold visibleKeys at hl
  cases hresp : computeStats estimate db s { q with estimator := estimator } with
  | error e =>
    rw [hresp] at hl
    cases Finset.notMem_empty _ hl
  | ok resp =>
    rw [hresp] at hl
    obtain ⟨cell, hcell, hkey⟩ := List.mem_filterMap.mp (List.mem_toFinset.mp hl)
    obtain ⟨parent, _, children, hparent, _, hchildren, hcells⟩ :=
      (computeCells_children estimate (q := { q with estimator := estimator }) hlevel).mp
        ((computeStats_eq_ok estimate hdp).mp hresp).1
    cases cell with
    | other events users => cases hkey
    | visible family wiki ns events users =>
      cases hkey
      rw [hcells] at hcell
      obtain ⟨hmem, hle⟩ := mem_of_visible_mem_suppress hcell
      exact ⟨parent, children, events, users, hparent, hchildren, hmem, hle⟩

/-- Without child rows nothing is visible. -/
theorem visibleKeys_eq_empty (hdp : s.dpEnabled = false) (hlevel : q.level ≠ levelGlobal)
    (hrows : db.queriedRows q = []) (estimator : Estimator) :
    visibleKeys estimate db s q estimator = ∅ := by
  apply Finset.eq_empty_of_forall_notMem
  intro l hl
  obtain ⟨parent, children, _, _, hparent, hchildren, hmem, _⟩ :=
    mem_visibleKeys estimate hdp hlevel hl
  have hnone : db.childRows q.window parent = [] := by
    simpa [Db.queriedRows, hparent] using hrows
  have hempty : children = [] := by
    cases estimator <;>
      simpa [readChildren, fetchChildren, fetchChildrenHll, hnone, groupBy, groupOn, pure,
        Except.pure, eq_comm] using hchildren
  rw [hempty] at hmem
  cases hmem

theorem queriedRows_withSketches (column : AggKey → Option (List UInt8)) :
    (db.withSketches column).queriedRows q =
      (db.queriedRows q).map fun r => (r.1, { r.2 with usersHll := column r.1 }) := by
  unfold Db.queriedRows
  cases parentKey q with
  | error e => rfl
  | ok parent => exact Db.childRows_withSketches column

/-- With no sketch on the child rows, the sketches show no child. -/
theorem visibleKeys_without_sketches (hdp : s.dpEnabled = false) (hk : 1 ≤ s.k)
    (hlevel : q.level ≠ levelGlobal) (hparent : parentKey q = .ok parent) :
    visibleKeys estimate (db.withSketches (Db.childSketches q.window parent none)) s q .hll =
      ∅ := by
  apply Finset.eq_empty_of_forall_notMem
  intro l hl
  obtain ⟨parent', children, events, users, hparent', hchildren, hmem, hle⟩ :=
    mem_visibleKeys estimate hdp hlevel hl
  obtain rfl : parent = parent' := Except.ok.inj (hparent.symm.trans hparent')
  have hconst := fetchChildrenHll_const estimate (db.usersHll_childRows q.window parent none)
  obtain rfl := Except.ok.inj (hchildren.symm.trans hconst)
  obtain ⟨g, _, hcell⟩ := List.mem_map.mp hmem
  have husers : (0 : UInt64) = users := congrArg RawCell.users hcell
  rw [← husers] at hle
  exact absurd (UInt64.le_trans hk hle) (by decide)

/-- Under a parent without sketches, children with one large sketch are all shown. -/
theorem mem_visibleKeys_of_const (hdp : s.dpEnabled = false) (hlevel : q.level ≠ levelGlobal)
    (hparent : parentKey q = .ok parent) {content : Option (List UInt8)}
    (hcell : ∀ r ∈ db.cellRows q.window parent, r.2.usersHll = none)
    (hchild : ∀ r ∈ db.childRows q.window parent, r.2.usersHll = content)
    (hreach : s.k ≤ estimateOf estimate (content.bind HyperLogLog.fromBytes))
    {r : AggKey × AggRow} (hr : r ∈ db.childRows q.window parent) :
    ownLabel r.1 ∈ visibleKeys estimate db s q .hll := by
  obtain ⟨cell, hcell, hzero⟩ := fetchCellHll_zero estimate hcell
  have hchildren := fetchChildrenHll_const estimate hchild
  have hcells := (computeCells_children estimate (k := s.k)
    (q := { q with estimator := .hll }) hlevel).mpr
      ⟨parent, cell, _, hparent, hcell, hchildren, rfl⟩
  rw [hzero] at hcells
  have hresp : computeStats estimate db s { q with estimator := .hll } =
      .ok ⟨q.window, q.level, suppress 0 _ s.k⟩ :=
    (computeStats_eq_ok estimate hdp).mpr ⟨hcells, rfl, rfl⟩
  have hall : ∀ c ∈ (groupBy ownLabel (db.childRows q.window parent)).map fun g => g.1.toCell
      (UInt64.ofNat (columnSum AggRow.events g.2))
      (estimateOf estimate (content.bind HyperLogLog.fromBytes)), s.k ≤ c.users := by
    intro c hc
    obtain ⟨g, _, rfl⟩ := List.mem_map.mp hc
    exact hreach
  obtain ⟨g, hg, hlabel⟩ := exists_mem_groupBy ownLabel hr
  have hvisible := visible_mem_suppress_zero hall (List.mem_map_of_mem hg)
  unfold visibleKeys
  rw [hresp]
  refine List.mem_toFinset.mpr (List.mem_filterMap.mpr ⟨_, hvisible, ?_⟩)
  rw [← hlabel]
  rfl

/-- With one large sketch on all the child rows, the sketches show every child. -/
theorem mem_visibleKeys_with_sketches (hdp : s.dpEnabled = false) (hlevel : q.level ≠ levelGlobal)
    (hparent : parentKey q = .ok parent) {bytes : List UInt8} {sketch : HyperLogLog}
    (hdecode : HyperLogLog.fromBytes bytes = some sketch) (hreach : s.k ≤ estimate sketch)
    {r : AggKey × AggRow} (hr : r ∈ db.childRows q.window parent) :
    ownLabel r.1 ∈ visibleKeys estimate
      (db.withSketches (Db.childSketches q.window parent (some bytes))) s q .hll := by
  have hmem := List.mem_map_of_mem (f := fun r : AggKey × AggRow =>
    (r.1, { r.2 with usersHll := Db.childSketches q.window parent (some bytes) r.1 })) hr
  rw [← Db.childRows_withSketches] at hmem
  apply mem_visibleKeys_of_const estimate hdp hlevel hparent
    (db.usersHll_cellRows q.window parent (some bytes))
    (db.usersHll_childRows q.window parent (some bytes)) _ hmem
  rw [Option.bind_some, hdecode]
  exact hreach

end Blind

/-- The sketches stay out of an answer exactly when it has no child rows to count. -/
theorem sketchBlind_iff (estimate : HyperLogLog → UInt64) (db : Db) (s : Settings) (q : StatsQuery)
    (hdp : s.dpEnabled = false) (hk : 1 ≤ s.k) (hlevel : q.level ≠ levelGlobal)
    (bytes : List UInt8) (sketch : HyperLogLog)
    (hdecode : HyperLogLog.fromBytes bytes = some sketch) (hreach : s.k ≤ estimate sketch) :
    SketchBlind estimate db s q ↔ db.queriedRows q = [] := by
  constructor
  · intro h
    obtain ⟨_, hcolumn⟩ := h
    unfold Db.queriedRows
    cases hparent : parentKey q with
    | error e => rfl
    | ok parent =>
      apply List.eq_nil_iff_forall_not_mem.mpr
      intro r hr
      have hmem := mem_visibleKeys_with_sketches estimate hdp hlevel hparent hdecode hreach hr
      rw [hcolumn, ← hcolumn (Db.childSketches q.window parent none),
        visibleKeys_without_sketches estimate hdp hk hlevel hparent] at hmem
      cases Finset.notMem_empty _ hmem
  · intro hrows
    have hempty := visibleKeys_eq_empty estimate hdp hlevel hrows
    refine ⟨by rw [hempty, hempty], ?_⟩
    intro column estimator
    have hcolumn : (db.withSketches column).queriedRows q = [] := by
      rw [queriedRows_withSketches, hrows]
      rfl
    rw [hempty, visibleKeys_eq_empty estimate hdp hlevel hcolumn]

/-- One family of twenty users, counted without sketches. -/
def unsketchedFamily : Db where
  aggCells := upserts ∅ [
    (⟨0, .global, 0⟩, ⟨60, 20, none⟩),
    (⟨0, .ofFamily "wikipedia", 0⟩, ⟨60, 20, none⟩)]
  partitionProgress := upserts ∅ [(0, ⟨2, 60000000000⟩)]

def familiesQuery : StatsQuery := ⟨0, 1, none, none, .exact⟩

theorem sketches_decide_release :
    familiesQuery.rejection = none ∧ unsketchedFamily.windowComplete 0 = true ∧ ∀ estimate,
      visibleKeys estimate unsketchedFamily defaultSettings familiesQuery .exact =
        {⟨"wikipedia", "*", -1⟩} ∧
      visibleKeys estimate unsketchedFamily defaultSettings familiesQuery .hll = ∅ ∧
      ¬ SketchBlind estimate unsketchedFamily defaultSettings familiesQuery := by
  refine ⟨by decide, by decide, fun estimate => ?_⟩
  have hexact : visibleKeys estimate unsketchedFamily defaultSettings familiesQuery .exact =
      {⟨"wikipedia", "*", -1⟩} := by rfl
  have hhll : visibleKeys estimate unsketchedFamily defaultSettings familiesQuery .hll = ∅ := by
    have hcells : computeCells estimate unsketchedFamily defaultK
        { familiesQuery with estimator := .hll } = .ok [] :=
      (computeCells_children estimate (by decide)).mpr
        ⟨.global, some ⟨"*", "*", -1, 60, 0⟩, [⟨"wikipedia", "*", -1, 60, 0⟩],
          by rfl, by rfl, by rfl, by rfl⟩
    have hresp : computeStats estimate unsketchedFamily defaultSettings
        { familiesQuery with estimator := .hll } = .ok ⟨0, 1, []⟩ :=
      (computeStats_eq_ok estimate rfl).mpr ⟨hcells, rfl, rfl⟩
    rw [visibleKeys, hresp]
    rfl
  refine ⟨hexact, hhll, ?_⟩
  intro h
  obtain ⟨hsame, _⟩ := h
  rw [hexact, hhll] at hsame
  exact absurd hsame.symm (Finset.singleton_ne_empty _)

/-- The estimate of a sketch whose registers are all full, cast to `u64`; zero for others. -/
def fullEstimate (h : HyperLogLog) : UInt64 :=
  if h.registers.all (fun r => decide (r = 255)) then 0xffffffffffffffff else 0

/-- A family that has no rows. -/
def otherFamilyQuery : StatsQuery := ⟨0, 2, some "wiktionary", none, .exact⟩

theorem sketchBlind_iff_otherFamily :
    otherFamilyQuery.rejection = none ∧ unsketchedFamily.windowComplete 0 = true ∧
      unsketchedFamily.queriedRows otherFamilyQuery = [] ∧
      SketchBlind fullEstimate unsketchedFamily defaultSettings otherFamilyQuery := by
  have hrows : unsketchedFamily.queriedRows otherFamilyQuery = [] := by decide
  exact ⟨by decide, by decide, hrows,
    (sketchBlind_iff fullEstimate unsketchedFamily defaultSettings otherFamilyQuery rfl (by decide)
      (by decide) (4 :: List.replicate 16 255) ⟨4, List.replicate 16 255⟩ (by decide)
      (by decide)).mpr hrows⟩

end HushEngine
