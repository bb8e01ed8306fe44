import HushEngine.StatsQueries

/-!
The threshold over a whole answer. The children of a parent leave the process
through `suppress`, which releases nothing below the threshold; the global cell
leaves it through `suppress_single`, whose verdict decides only under which name
the two counts are sent. An answer therefore keeps the threshold at every level
but the first, and at the first when the global cell itself reaches it.
-/
namespace HushEngine

open Keyed Fallible

/-- Every released cell, visible or merged, has at least `k` users. -/
def StatsResponse.Anonymous (k : UInt64) (resp : StatsResponse) : Prop :=
  ∀ cell ∈ resp.cells, k ≤ cell.users

/-- The global cell of the window reaches the threshold, unless the read of it fails or, for
the sketches, finds no row. -/
def Db.GlobalReaches (estimate : HyperLogLog → UInt64) (db : Db) (k : UInt64) (q : StatsQuery) :
    Prop :=
  match q.estimator with
  | .exact =>
    db.groupSum ⟨q.window, .global⟩ AggRow.events < 2 ^ 63 →
      db.groupSum ⟨q.window, .global⟩ AggRow.users < 2 ^ 63 →
      k.toNat ≤ db.groupSum ⟨q.window, .global⟩ AggRow.users
  | .hll =>
    (db.cellRows q.window .global).map Prod.snd ≠ [] →
      ∀ merged, mergeSketches ((db.cellRows q.window .global).map Prod.snd) = .ok merged →
        k ≤ estimateOf estimate merged

section Threshold

variable (estimate : HyperLogLog → UInt64) (db : Db)

/-- What the global read can return is at the threshold exactly under `GlobalReaches`. -/
theorem globalReaches_iff (k : UInt64) (q : StatsQuery) :
    db.GlobalReaches estimate k q ↔
      ∀ c, readCell estimate db q.estimator q.window .global = .ok (some c) → k ≤ c.users := by
  unfold Db.GlobalReaches readCell
  cases q.estimator with
  | exact =>
    constructor
    · intro hreaches c hc
      obtain ⟨_, heq, _, _, _, hevents, husers⟩ := fetchCell_eq_ok.mp hc
      cases heq
      rw [UInt64.le_iff_toNat_le, toNat_of_toBigint husers]
      exact hreaches (lt_of_toBigint hevents) (lt_of_toBigint husers)
    · intro hread hevents husers
      obtain ⟨c, hc, hsum⟩ := fetchCell_ok hevents husers
      exact (UInt64.le_iff_toNat_le.mp (hread c hc)).trans hsum.le
  | hll =>
    constructor
    · intro hreaches c hc
      obtain ⟨hrows, merged, hmerged, rfl⟩ := fetchCellHll_eq_ok.mp hc
      exact hreaches hrows merged hmerged
    · intro hread hrows merged hmerged
      exact hread _ (fetchCellHll_eq_ok.mpr ⟨hrows, merged, hmerged, rfl⟩)

/-- The answer for the global level carries the global cell's own count. -/
theorem anonymous_global_iff (k : UInt64) (q : StatsQuery) (hlevel : q.level = levelGlobal) :
    (∀ cells, computeCells estimate db k q = .ok cells → ∀ cell ∈ cells, k ≤ cell.users) ↔
      db.GlobalReaches estimate k q := by
  rw [globalReaches_iff]
  constructor
  · intro hcells c hc
    have hmem := hcells _ ((computeCells_global estimate hlevel).mpr ⟨_, hc, rfl⟩)
      (releaseSingle c k) (by simp)
    rwa [releaseSingle_users] at hmem
  · intro hread cells hcells cell hcell
    obtain ⟨global, hglobal, rfl⟩ := (computeCells_global estimate hlevel).mp hcells
    cases global with
    | none => cases hcell
    | some c =>
      obtain rfl := List.mem_singleton.mp hcell
      rw [releaseSingle_users]
      exact hread c hglobal

/-- The answer for a level below the global one is what `suppress` lets through. -/
theorem anonymous_children (k : UInt64) (q : StatsQuery) (hlevel : q.level ≠ levelGlobal)
    (cells : List ResultCell) (hcells : computeCells estimate db k q = .ok cells) :
    ∀ cell ∈ cells, k ≤ cell.users := by
  obtain ⟨_, _, _, _, _, _, rfl⟩ := (computeCells_children estimate hlevel).mp hcells
  intro cell hcell
  exact le_users_of_mem_suppress hcell

/-- Every answer keeps the threshold when and only when the global cell is not asked for or
reaches the threshold itself. -/
theorem anonymous_iff (s : Settings) (q : StatsQuery) (hdp : s.dpEnabled = false) :
    (∀ resp, computeStats estimate db s q = .ok resp → resp.Anonymous s.k) ↔
      (q.level = levelGlobal → db.GlobalReaches estimate s.k q) := by
  have hresponses : (∀ resp, computeStats estimate db s q = .ok resp → resp.Anonymous s.k) ↔
      ∀ cells, computeCells estimate db s.k q = .ok cells → ∀ cell ∈ cells, s.k ≤ cell.users := by
    constructor
    · intro h cells hcells
      exact h ⟨q.window, q.level, cells⟩ ((computeStats_eq_ok estimate hdp).mpr ⟨hcells, rfl, rfl⟩)
    · intro h resp hresp
      exact h resp.cells ((computeStats_eq_ok estimate hdp).mp hresp).1
  rw [hresponses]
  by_cases hlevel : q.level = levelGlobal
  · rw [anonymous_global_iff estimate db s.k q hlevel]
    exact ⟨fun h _ => h, fun h => h hlevel⟩
  · exact ⟨fun _ h => absurd h hlevel, fun _ => anonymous_children estimate db s.k q hlevel⟩

end Threshold

/-- One complete window with three users in one partition. -/
def smallGlobal : Db where
  aggCells := upserts ∅ [(⟨0, .global, 0⟩, ⟨5, 3, none⟩)]
  partitionProgress := upserts ∅ [(0, ⟨2, 60000000000⟩)]

def globalQuery : StatsQuery := ⟨0, 0, none, none, .exact⟩

theorem global_below_threshold_released :
    globalQuery.rejection = none ∧ smallGlobal.windowComplete globalQuery.window = true ∧
      ∀ estimate, ∃ resp, computeStats estimate smallGlobal defaultSettings globalQuery = .ok resp ∧
        ResultCell.other 5 3 ∈ resp.cells ∧ ¬ resp.Anonymous defaultSettings.k := by
  refine ⟨by decide, by decide, fun estimate => ⟨⟨0, 0, [.other 5 3]⟩, by rfl, by simp, ?_⟩⟩
  intro hanonymous
  exact absurd (hanonymous (.other 5 3) (by simp)) (by decide)

/-- One complete window with twelve users in two partitions. -/
def largeGlobal : Db where
  aggCells := upserts ∅ [(⟨0, .global, 0⟩, ⟨9, 7, none⟩), (⟨0, .global, 1⟩, ⟨6, 5, none⟩)]
  partitionProgress := upserts ∅ [(0, ⟨2, 60000000000⟩), (1, ⟨3, 60000000000⟩)]

theorem anonymous_iff_largeGlobal :
    largeGlobal.GlobalReaches (fun _ => 0) defaultSettings.k globalQuery ∧
    computeStats (fun _ => 0) largeGlobal defaultSettings globalQuery =
      .ok ⟨0, 0, [.visible "*" "*" (-1) 15 12]⟩ ∧
    ∀ resp, computeStats (fun _ => 0) largeGlobal defaultSettings globalQuery = .ok resp →
      resp.Anonymous defaultSettings.k := by
  have hreaches : largeGlobal.GlobalReaches (fun _ => 0) defaultSettings.k globalQuery := by
    intro _ _
    decide
  exact ⟨hreaches, by rfl,
    (anonymous_iff (fun _ => 0) largeGlobal defaultSettings globalQuery rfl).mpr fun _ => hreaches⟩

end HushEngine
