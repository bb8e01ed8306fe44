import HushEngine.Fallible
import HushEngine.Grouping
import HushEngine.GroundTruth
import HushEngine.Privacy

/-!
What the query service computes from the tables: the totals of a cell and of
its children under either estimator, and the suppressed answer to a request.
A failing query, an assertion and an `unwrap` of nothing end a computation
without an answer. The floating-point estimate of a sketch, rounded and cast to
`u64`, is a parameter throughout.
-/
namespace HushEngine

open Keyed Fallible Grouping

inductive QueryError
  /-- `bigint out of range`, raised by the cast of a sum. -/
  | outOfRange
  | panic
  | unsupportedLevel
deriving DecidableEq

inductive Estimator
  | exact
  | hll
deriving DecidableEq

structure StatsQuery where
  window : Int
  level : Int
  family : Option String
  wiki : Option String
  estimator : Estimator
deriving DecidableEq

/-- The checks on the request itself, with the text of the error. -/
def StatsQuery.rejection (q : StatsQuery) : Option String :=
  if ¬ (levelGlobal ≤ q.level ∧ q.level ≤ levelNamespace) then
    some "level must be between 0 and 3"
  else if levelWiki ≤ q.level ∧ q.family = none then some "family is required for level >= 2"
  else if levelNamespace ≤ q.level ∧ q.wiki = none then some "wiki is required for level >= 3"
  else none

structure StatsResponse where
  windowStart : Int
  level : Int
  cells : List ResultCell
deriving DecidableEq

/-- `SUM(..)::bigint`; the cast to `u64` that follows it keeps the value. -/
def toBigint (n : Nat) : Except QueryError UInt64 :=
  if n < 2 ^ 63 then .ok (UInt64.ofNat n) else .error .outOfRange

theorem toBigint_ok {n : Nat} (h : n < 2 ^ 63) : toBigint n = .ok (UInt64.ofNat n) := if_pos h

theorem lt_of_toBigint {n : Nat} {x : UInt64} (h : toBigint n = .ok x) : n < 2 ^ 63 := by
  unfold toBigint at h
  split_ifs at h with hlt
  exact hlt

theorem toNat_of_toBigint {n : Nat} {x : UInt64} (h : toBigint n = .ok x) : x.toNat = n := by
  unfold toBigint at h
  split_ifs at h with hlt
  cases h
  rw [UInt64.toNat_ofNat']
  omega

/-- The `WHERE` clause for the children of a parent. -/
def isChildRow (w : Int) (parent : CellKey) (k : AggKey) : Bool :=
  decide (k.windowStart = w) && decide (k.cell.level = parent.level + 1) &&
    (if parent.level = 0 then true
    else if parent.level = 1 then decide (k.cell.family = parent.family)
    else if parent.level = 2 then
      decide (k.cell.family = parent.family) && decide (k.cell.wiki = parent.wiki)
    else false)

/-- The clause selects the rows whose parent is the one asked about, if it is one. -/
theorem isChildRow_iff {parent c : CellKey} (hparent : c.parent = some parent) (w : Int)
    (k : AggKey) :
    isChildRow w parent k = true ↔ k.windowStart = w ∧ k.cell.parent = some parent := by
  obtain ⟨start, ⟨level, family, wiki, ns⟩, p⟩ := k
  rcases CellKey.parent_cases hparent with ⟨_, rfl⟩ | ⟨_, rfl⟩ | ⟨_, rfl⟩
  all_goals
    simp only [isChildRow, CellKey.parent, CellKey.ofFamily, CellKey.ofWiki, CellKey.global,
      levelGlobal, levelFamily, levelWiki, levelNamespace]
    grind

/-- The columns a child is grouped by and shown with. -/
structure ChildLabel where
  family : String
  wiki : String
  ns : Int
deriving DecidableEq

def childLabel (parent : CellKey) (k : AggKey) : ChildLabel :=
  if parent.level = 0 then ⟨k.cell.family, rollupStr, rollupNamespace⟩
  else if parent.level = 1 then ⟨k.cell.family, k.cell.wiki, rollupNamespace⟩
  else ⟨k.cell.family, k.cell.wiki, k.cell.ns⟩

/-- The cell's own columns, by which the rows with sketches are grouped. -/
def ownLabel (k : AggKey) : ChildLabel := ⟨k.cell.family, k.cell.wiki, k.cell.ns⟩

namespace Db

def cellRows (db : Db) (w : Int) (key : CellKey) : List (AggKey × AggRow) :=
  (rows db.aggCells).filter fun r => decide (r.1.group = ⟨w, key⟩)

def childRows (db : Db) (w : Int) (parent : CellKey) : List (AggKey × AggRow) :=
  (rows db.aggCells).filter fun r => isChildRow w parent r.1

end Db

/-- The groups of rows under a label, in some order. -/
def groupBy (label : AggKey → ChildLabel) (rs : List (AggKey × AggRow)) :
    List (ChildLabel × List AggRow) :=
  (groupOn (fun r => label r.1) rs).map fun g => (g.1, g.2.map Prod.snd)

def columnSum (column : AggRow → Nat) (rs : List AggRow) : Nat := (rs.map column).sum

theorem exists_mem_groupBy (label : AggKey → ChildLabel) {rs : List (AggKey × AggRow)}
    {r : AggKey × AggRow} (hr : r ∈ rs) : ∃ g ∈ groupBy label rs, g.1 = label r.1 := by
  have hg : (label r.1, rs.filter fun r' => decide (label r'.1 = label r.1)) ∈
      groupOn (fun r => label r.1) rs := mem_groupOn.mpr ⟨⟨r, hr, rfl⟩, rfl⟩
  exact ⟨_, List.mem_map_of_mem hg, rfl⟩

theorem columnSum_map_snd (column : AggRow → Nat) (rs : List (AggKey × AggRow)) :
    columnSum column (rs.map Prod.snd) = (rs.map fun r => column r.2).sum := by
  rw [columnSum, List.map_map]
  rfl

/-- The groups account for all the rows. -/
theorem sum_groupBy (label : AggKey → ChildLabel) (rs : List (AggKey × AggRow))
    (column : AggRow → Nat) :
    ((groupBy label rs).map fun g => columnSum column g.2).sum =
      (rs.map fun r => column r.2).sum := by
  rw [groupBy, List.map_map, ← sum_groupOn (fun r => label r.1) (fun r => column r.2) rs]
  congr 1
  apply List.map_congr_left
  intro g _
  exact columnSum_map_snd column g.2

theorem columnSum_group_le {label : AggKey → ChildLabel} {rs : List (AggKey × AggRow)}
    {g : ChildLabel × List AggRow} (hg : g ∈ groupBy label rs) (column : AggRow → Nat) :
    columnSum column g.2 ≤ (rs.map fun r => column r.2).sum := by
  obtain ⟨g', hg', rfl⟩ := List.mem_map.mp hg
  rw [columnSum_map_snd]
  exact sum_group_le (fun r => column r.2) hg'

def ChildLabel.toCell (l : ChildLabel) (events users : UInt64) : RawCell :=
  ⟨l.family, l.wiki, l.ns, events, users⟩

/-- One cell's totals, summed across partitions; there is a row even when there is nothing. -/
def fetchCell (db : Db) (w : Int) (key : CellKey) : Except QueryError (Option RawCell) := do
  let events ← toBigint (db.groupSum ⟨w, key⟩ AggRow.events)
  let users ← toBigint (db.groupSum ⟨w, key⟩ AggRow.users)
  return some ⟨key.family, key.wiki, key.ns, events, users⟩

def sumGroup (g : ChildLabel × List AggRow) : Except QueryError RawCell := do
  let events ← toBigint (columnSum AggRow.events g.2)
  let users ← toBigint (columnSum AggRow.users g.2)
  return g.1.toCell events users

def fetchChildren (db : Db) (w : Int) (parent : CellKey) : Except QueryError (List RawCell) :=
  (groupBy (childLabel parent) (db.childRows w parent)).mapM sumGroup

/-- Missing and undecodable sketches are skipped; different precisions fail an assertion. -/
def mergeHllBytes (acc : Option HyperLogLog) (bytes : Option (List UInt8)) :
    Except QueryError (Option HyperLogLog) :=
  match bytes.bind HyperLogLog.fromBytes with
  | none => .ok acc
  | some sketch =>
    match acc with
    | none => .ok (some sketch)
    | some existing =>
      match existing.merge sketch with
      | some merged => .ok (some merged)
      | none => .error .panic

def mergeSketches (rs : List AggRow) : Except QueryError (Option HyperLogLog) :=
  rs.foldlM (fun acc row => mergeHllBytes acc row.usersHll) none

section Estimate

variable (estimate : HyperLogLog → UInt64)

def estimateOf (merged : Option HyperLogLog) : UInt64 := (merged.map estimate).getD 0

def fetchCellHll (db : Db) (w : Int) (key : CellKey) : Except QueryError (Option RawCell) :=
  let rs := (db.cellRows w key).map Prod.snd
  if rs = [] then .ok none
  else do
    let merged ← mergeSketches rs
    return some ⟨key.family, key.wiki, key.ns, UInt64.ofNat (columnSum AggRow.events rs),
      estimateOf estimate merged⟩

def estimateGroup (g : ChildLabel × List AggRow) : Except QueryError RawCell := do
  let merged ← mergeSketches g.2
  return g.1.toCell (UInt64.ofNat (columnSum AggRow.events g.2)) (estimateOf estimate merged)

def fetchChildrenHll (db : Db) (w : Int) (parent : CellKey) :
    Except QueryError (List RawCell) :=
  (groupBy ownLabel (db.childRows w parent)).mapM (estimateGroup estimate)

end Estimate

/-- What `compute_stats` reads of the service's state; `noise` stands for the noisy counts. -/
structure Settings where
  k : UInt64
  dpEnabled : Bool
  noise : List ResultCell → List ResultCell

/-- The service's defaults. -/
def defaultSettings : Settings := ⟨defaultK, false, id⟩

def applyDpNoise (s : Settings) (cells : List ResultCell) : List ResultCell :=
  if s.dpEnabled then s.noise cells else cells

/-- The two `unwrap`s are the caller's obligation. -/
def parentKey (q : StatsQuery) : Except QueryError CellKey :=
  if q.level = levelFamily then .ok .global
  else if q.level = levelWiki then
    match q.family with
    | some family => .ok (.ofFamily family)
    | none => .error .panic
  else if q.level = levelNamespace then
    match q.family, q.wiki with
    | some family, some wiki => .ok (.ofWiki family wiki)
    | _, _ => .error .panic
  else .error .unsupportedLevel

/-- The released form of a cell without siblings. -/
def releaseSingle (c : RawCell) (k : UInt64) : ResultCell :=
  if suppressSingle c k then c.toVisible else .other c.events c.users

section Compute

variable (estimate : HyperLogLog → UInt64)

def readCell (db : Db) (estimator : Estimator) (w : Int) (key : CellKey) :
    Except QueryError (Option RawCell) :=
  match estimator with
  | .exact => fetchCell db w key
  | .hll => fetchCellHll estimate db w key

def readChildren (db : Db) (estimator : Estimator) (w : Int) (parent : CellKey) :
    Except QueryError (List RawCell) :=
  match estimator with
  | .exact => fetchChildren db w parent
  | .hll => fetchChildrenHll estimate db w parent

/-- The cells of the answer, before noise. -/
def computeCells (db : Db) (k : UInt64) (q : StatsQuery) : Except QueryError (List ResultCell) :=
  if q.level = levelGlobal then do
    let global ← readCell estimate db q.estimator q.window .global
    return (global.map fun c => releaseSingle c k).toList
  else do
    let parent ← parentKey q
    let parentCell ← readCell estimate db q.estimator q.window parent
    let children ← readChildren estimate db q.estimator q.window parent
    return suppress ((parentCell.map RawCell.users).getD 0) children k

def computeStats (db : Db) (s : Settings) (q : StatsQuery) : Except QueryError StatsResponse := do
  let cells ← computeCells estimate db s.k q
  return ⟨q.window, q.level, applyDpNoise s cells⟩

theorem computeStats_eq_ok {db : Db} {s : Settings} {q : StatsQuery} {resp : StatsResponse}
    (hdp : s.dpEnabled = false) :
    computeStats estimate db s q = .ok resp ↔
      computeCells estimate db s.k q = .ok resp.cells ∧
        resp.windowStart = q.window ∧ resp.level = q.level := by
  obtain ⟨windowStart, level, cells⟩ := resp
  unfold computeStats
  rw [bind_eq_ok]
  simp only [applyDpNoise, hdp]
  constructor
  · intro h
    obtain ⟨cells', hcells, hok⟩ := h
    cases hok
    exact ⟨hcells, rfl, rfl⟩
  · intro h
    obtain ⟨hcells, rfl, rfl⟩ := h
    exact ⟨cells, hcells, rfl⟩

theorem computeCells_global {db : Db} {k : UInt64} {q : StatsQuery} {cells : List ResultCell}
    (hlevel : q.level = levelGlobal) :
    computeCells estimate db k q = .ok cells ↔
      ∃ global, readCell estimate db q.estimator q.window .global = .ok global ∧
        cells = (global.map fun c => releaseSingle c k).toList := by
  unfold computeCells
  rw [if_pos hlevel, bind_eq_ok]
  constructor
  · intro h
    obtain ⟨global, hglobal, hok⟩ := h
    cases hok
    exact ⟨global, hglobal, rfl⟩
  · intro h
    obtain ⟨global, hglobal, rfl⟩ := h
    exact ⟨global, hglobal, rfl⟩

theorem computeCells_children {db : Db} {k : UInt64} {q : StatsQuery} {cells : List ResultCell}
    (hlevel : q.level ≠ levelGlobal) :
    computeCells estimate db k q = .ok cells ↔
      ∃ parent parentCell children, parentKey q = .ok parent ∧
        readCell estimate db q.estimator q.window parent = .ok parentCell ∧
        readChildren estimate db q.estimator q.window parent = .ok children ∧
        cells = suppress ((parentCell.map RawCell.users).getD 0) children k := by
  unfold computeCells
  rw [if_neg hlevel]
  simp only [bind_eq_ok]
  constructor
  · intro h
    obtain ⟨parent, hparent, parentCell, hcell, children, hchildren, hok⟩ := h
    cases hok
    exact ⟨parent, parentCell, children, hparent, hcell, hchildren, rfl⟩
  · intro h
    obtain ⟨parent, parentCell, children, hparent, hcell, hchildren, rfl⟩ := h
    exact ⟨parent, hparent, parentCell, hcell, children, hchildren, rfl⟩

end Compute

@[simp] theorem releaseSingle_users (c : RawCell) (k : UInt64) :
    (releaseSingle c k).users = c.users := by
  unfold releaseSingle
  split_ifs <;> rfl

/-- The exact totals of a cell, when the two sums fit a `bigint`. -/
theorem fetchCell_eq_ok {db : Db} {w : Int} {key : CellKey} {cell : Option RawCell} :
    fetchCell db w key = .ok cell ↔ ∃ c, cell = some c ∧ c.family = key.family ∧
      c.wiki = key.wiki ∧ c.ns = key.ns ∧
      toBigint (db.groupSum ⟨w, key⟩ AggRow.events) = .ok c.events ∧
      toBigint (db.groupSum ⟨w, key⟩ AggRow.users) = .ok c.users := by
  unfold fetchCell
  simp only [bind_eq_ok]
  constructor
  · intro h
    obtain ⟨events, hevents, users, husers, hok⟩ := h
    cases hok
    exact ⟨_, rfl, rfl, rfl, rfl, hevents, husers⟩
  · intro h
    obtain ⟨⟨family, wiki, ns, events, users⟩, rfl, rfl, rfl, rfl, hevents, husers⟩ := h
    exact ⟨events, hevents, users, husers, rfl⟩

theorem fetchCell_ok {db : Db} {w : Int} {key : CellKey}
    (hevents : db.groupSum ⟨w, key⟩ AggRow.events < 2 ^ 63)
    (husers : db.groupSum ⟨w, key⟩ AggRow.users < 2 ^ 63) :
    ∃ c, fetchCell db w key = .ok (some c) ∧ c.users.toNat = db.groupSum ⟨w, key⟩ AggRow.users := by
  have hcell := fetchCell_eq_ok.mpr ⟨⟨key.family, key.wiki, key.ns, _, _⟩, rfl, rfl, rfl, rfl,
    toBigint_ok hevents, toBigint_ok husers⟩
  exact ⟨_, hcell, toNat_of_toBigint (toBigint_ok husers)⟩

theorem fetchCellHll_eq_ok {estimate : HyperLogLog → UInt64} {db : Db} {w : Int} {key : CellKey}
    {c : RawCell} :
    fetchCellHll estimate db w key = .ok (some c) ↔
      (db.cellRows w key).map Prod.snd ≠ [] ∧
      ∃ merged, mergeSketches ((db.cellRows w key).map Prod.snd) = .ok merged ∧
        c = ⟨key.family, key.wiki, key.ns,
          UInt64.ofNat (columnSum AggRow.events ((db.cellRows w key).map Prod.snd)),
          estimateOf estimate merged⟩ := by
  unfold fetchCellHll
  dsimp only
  split_ifs with hrows
  · simp [hrows]
  · rw [bind_eq_ok]
    constructor
    · intro h
      obtain ⟨merged, hmerged, hok⟩ := h
      cases hok
      exact ⟨hrows, merged, hmerged, rfl⟩
    · intro h
      obtain ⟨_, merged, hmerged, rfl⟩ := h
      exact ⟨merged, hmerged, rfl⟩

theorem sumGroup_eq_ok {g : ChildLabel × List AggRow} {c : RawCell} (h : sumGroup g = .ok c) :
    columnSum AggRow.events g.2 < 2 ^ 63 ∧ c.users.toNat = columnSum AggRow.users g.2 := by
  obtain ⟨events, hevents, hrest⟩ := bind_eq_ok.mp h
  obtain ⟨users, husers, hok⟩ := bind_eq_ok.mp hrest
  cases hok
  exact ⟨lt_of_toBigint hevents, toNat_of_toBigint husers⟩

theorem sumGroup_ok {g : ChildLabel × List AggRow} (hevents : columnSum AggRow.events g.2 < 2 ^ 63)
    (husers : columnSum AggRow.users g.2 < 2 ^ 63) : ∃ c, sumGroup g = .ok c :=
  ⟨_, bind_eq_ok.mpr ⟨_, toBigint_ok hevents, bind_eq_ok.mpr ⟨_, toBigint_ok husers, rfl⟩⟩⟩

/-- The children read carry the users of all child rows. -/
theorem natSumBy_fetchChildren {db : Db} {w : Int} {parent : CellKey} {children : List RawCell}
    (h : fetchChildren db w parent = .ok children) :
    natSumBy RawCell.users children = ((db.childRows w parent).map fun r => r.2.users).sum := by
  rw [← sum_groupBy (childLabel parent) _ AggRow.users]
  replace h := mapM_eq_ok.mp h
  generalize groupBy (childLabel parent) (db.childRows w parent) = groups at h ⊢
  induction h with
  | nil => rfl
  | cons hc _ ih => simpa [natSumBy, (sumGroup_eq_ok hc).2] using ih

end HushEngine
