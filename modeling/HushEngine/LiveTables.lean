import HushEngine.Cache
import HushEngine.Finality

/-!
The query service while the aggregators write. A request reads the tables four
times, and other requests, evictions and commits fall between its reads; what
it puts into the cache stays there while the tables go on changing. All of it
rests on one thing: what is read of a complete window never changes again.
-/
namespace HushEngine

open Keyed Fallible Grouping Runs

namespace Db

/-- The rows of a window, of all partitions, as they lie in the table. -/
def rowsOf (db : Db) (w : Int) : List (AggKey × AggRow) :=
  (rows db.aggCells).filter fun r => decide (r.1.windowStart = w)

variable {db db' : Db} {w : Int}

/-- Clauses that fix the window select from its rows. -/
theorem filter_rows_congr (h : db'.rowsOf w = db.rowsOf w) {p : AggKey → Bool}
    (hp : ∀ k, p k = true → k.windowStart = w) :
    (rows db'.aggCells).filter (fun r => p r.1) = (rows db.aggCells).filter fun r => p r.1 := by
  have hsplit : ∀ db : Db, (rows db.aggCells).filter (fun r => p r.1) =
      (db.rowsOf w).filter fun r => p r.1 := by
    intro db
    rw [rowsOf, List.filter_filter]
    apply List.filter_congr
    intro r _
    cases hr : p r.1 with
    | false => simp
    | true => simp [hp r.1 hr]
  rw [hsplit, hsplit, h]

theorem cellRows_congr (h : db'.rowsOf w = db.rowsOf w) (key : CellKey) :
    db'.cellRows w key = db.cellRows w key :=
  filter_rows_congr h (p := fun k => decide (k.group = ⟨w, key⟩)) fun _ hk =>
    (GroupKey.mk.inj (of_decide_eq_true hk)).1

theorem childRows_congr (h : db'.rowsOf w = db.rowsOf w) (key : CellKey) :
    db'.childRows w key = db.childRows w key := by
  refine filter_rows_congr h (p := isChildRow w key) fun _ hk => ?_
  simp only [isChildRow, Bool.and_eq_true, decide_eq_true_eq] at hk
  exact hk.1.1

theorem groupSum_congr (h : db'.rowsOf w = db.rowsOf w) (key : CellKey) (column : AggRow → Nat) :
    db'.groupSum ⟨w, key⟩ column = db.groupSum ⟨w, key⟩ column :=
  congrArg (fun rs => (rs.map fun r => column r.2).sum) (cellRows_congr h key)

/-- A flush leaves the rows of every window alone that it does not write. -/
theorem rowsOf_flush (db : Db) (b : Batch) (partition : Int) (h : w ∉ b.closed.map Prod.fst) :
    (b.flush db partition).rowsOf w = db.rowsOf w := by
  rw [Batch.flush, rowsOf, rowsOf, flushWindows_aggCells]
  refine filter_rows_upserts _ _ (fun k : AggKey => decide (k.windowStart = w)) fun r hr => ?_
  obtain ⟨c, hc, hrow⟩ := List.mem_flatMap.mp hr
  obtain ⟨hstart, _⟩ := (mem_windowRows partition c r.1 r.2).mp hrow
  refine decide_eq_false fun hw => h ?_
  exact List.mem_map.mpr ⟨c, hc, hstart.symm.trans hw⟩

/-- Complete windows stay complete and keep their rows, whether they are aligned or not. -/
def Serves (u v : Db) : Prop :=
  ∀ w, u.windowComplete w = true → v.windowComplete w = true ∧ v.rowsOf w = u.rowsOf w

theorem Serves.refl (u : Db) : u.Serves u := fun _ hw => ⟨hw, rfl⟩

theorem Serves.trans {u v x : Db} (h : u.Serves v) (h' : v.Serves x) : u.Serves x := by
  intro w hw
  obtain ⟨hv, hrows⟩ := h w hw
  obtain ⟨hx, hrows'⟩ := h' w hv
  exact ⟨hx, hrows'.trans hrows⟩

end Db

theorem Fleet.serves_step {s t : Fleet} {a : FleetAction} (hs : s.Steady)
    (hguard : s.EntersAfterMin a) (hstep : Fleet.step s a = some t) : s.db.Serves t.db := by
  cases a with
  | start p hllEnabled now nowUtc =>
    obtain ⟨_, rfl⟩ := step_start hstep
    exact .refl _
  | act p a =>
    obtain ⟨w, o, hw, ho, rfl⟩ := step_act hstep
    rcases Owner.step_db ho with hdb | ⟨rfl, b, hb, hdb⟩ <;> rw [advance_db, hdb]
    · exact .refl _
    · intro x hx
      obtain ⟨hcomplete, hnot⟩ :=
        ((hs p w hw).fits b hb).complete_flush (hguard p w b rfl hw hb) hx
      exact ⟨hcomplete, Db.rowsOf_flush _ b p hnot⟩

section Reads

variable {estimate : HyperLogLog → UInt64} {db db' : Db} {w : Int}

theorem readCell_congr (h : db'.rowsOf w = db.rowsOf w) (estimator : Estimator) (key : CellKey) :
    readCell estimate db' estimator w key = readCell estimate db estimator w key := by
  cases estimator with
  | exact =>
    change fetchCell db' w key = fetchCell db w key
    rw [fetchCell, fetchCell, Db.groupSum_congr h, Db.groupSum_congr h]
  | hll =>
    change fetchCellHll estimate db' w key = fetchCellHll estimate db w key
    rw [fetchCellHll, fetchCellHll, Db.cellRows_congr h]

theorem readChildren_congr (h : db'.rowsOf w = db.rowsOf w) (estimator : Estimator)
    (key : CellKey) :
    readChildren estimate db' estimator w key = readChildren estimate db estimator w key := by
  cases estimator with
  | exact =>
    change fetchChildren db' w key = fetchChildren db w key
    rw [fetchChildren, fetchChildren, Db.childRows_congr h]
  | hll =>
    change fetchChildrenHll estimate db' w key = fetchChildrenHll estimate db w key
    rw [fetchChildrenHll, fetchChildrenHll, Db.childRows_congr h]

theorem Fleet.serves_of_run {s t : Fleet} {actions : List FleetAction}
    (hrun : Run Fleet.step EntersAfterMin s actions t) (hs : s.Steady) : s.db.Serves t.db :=
  hrun.related (r := fun x y => x.db.Serves y.db) (fun x => .refl x.db)
    (fun _ _ _ h h' => h.trans h') (fun _ _ _ hx _ hy => Fleet.Steady.step hx hy)
    (fun _ _ _ hx hg hy => serves_step hx hg hy) hs

/-- The window that `GET /v1/windows/latest` reports. -/
def getLatestWindow (db : Db) : Option Int :=
  db.minFlushedWatermark.map fun wm => windowStart wm - windowSize

theorem aligned_of_getLatestWindow {db : Db} {latest : Int}
    (h : getLatestWindow db = some latest) : Aligned latest := by
  obtain ⟨wm, _, rfl⟩ := Option.map_eq_some_iff.mp h
  unfold Aligned windowStart windowSize
  omega

/-- The reported window is the newest aligned one that passes the completeness check. -/
theorem windowComplete_iff_le_latest (db : Db) {w : Int} (hw : Aligned w) :
    db.windowComplete w = true ↔ ∃ latest, getLatestWindow db = some latest ∧ w ≤ latest := by
  unfold Db.windowComplete getLatestWindow
  cases db.minFlushedWatermark with
  | none => simp
  | some wm =>
    have hle : windowEnd w ≤ wm ↔ w ≤ windowStart wm - windowSize := by
      unfold Aligned at hw
      unfold windowStart windowSize at hw ⊢
      unfold windowEnd windowSize
      omega
    simp [hle]

/-- A window once reported as the latest stays queryable with the same rows, and the report does
not go back. -/
theorem latest_served (db : Db) (before after : List FleetAction) (u v : Fleet)
    (hu : Run Fleet.step Fleet.EntersAfterMin (Fleet.idle db) before u)
    (hv : Run Fleet.step Fleet.EntersAfterMin u after v) (latest : Int)
    (hlatest : getLatestWindow u.db = some latest) :
    (∀ w, Aligned w → (u.db.windowComplete w = true ↔ w ≤ latest)) ∧
    (v.db.windowComplete latest = true ∧ v.db.rowsOf latest = u.db.rowsOf latest) ∧
    ∃ later, getLatestWindow v.db = some later ∧ latest ≤ later := by
  have hcomplete : ∀ w, Aligned w → (u.db.windowComplete w = true ↔ w ≤ latest) := by
    intro w hw
    rw [windowComplete_iff_le_latest u.db hw, hlatest]
    simp
  have haligned := aligned_of_getLatestWindow hlatest
  have hsteady : u.Steady :=
    hu.invariant (fun _ _ _ hx _ hy => Fleet.Steady.step hx hy) (Fleet.steady_idle db)
  have hserved := Fleet.serves_of_run hv hsteady latest ((hcomplete latest haligned).mpr le_rfl)
  exact ⟨hcomplete, hserved, (windowComplete_iff_le_latest v.db haligned).mp hserved.1⟩

/-- Partition 0 goes on to its next window. -/
def nextWindow : List FleetAction :=
  [.act 0 (.deliver ⟨2, evt 185000000000 3 "u3"⟩ 2), .act 0 .collect, .act 0 .commit]

theorem latest_served_nextWindow :
    ∃ u v : Fleet,
      Run Fleet.step Fleet.EntersAfterMin (.idle Db.empty) Fleet.earlyPartition u ∧
      Run Fleet.step Fleet.EntersAfterMin u nextWindow v ∧
      getLatestWindow u.db = some 0 ∧ getLatestWindow v.db = some 60000000000 ∧
      v.db.windowComplete 0 = true ∧ v.db.rowsOf 0 = u.db.rowsOf 0 := by
  have hruns : ∃ u, Run Fleet.step Fleet.EntersAfterMin (.idle Db.empty) Fleet.earlyPartition u ∧
      getLatestWindow u.db = some 0 ∧
      ∃ v, Run Fleet.step Fleet.EntersAfterMin u nextWindow v ∧
        getLatestWindow v.db = some 60000000000 :=
    ⟨_, run_of_execute rfl, by decide, _, run_of_execute rfl, by decide⟩
  obtain ⟨u, hu, hlatest, v, hv, hlater⟩ := hruns
  obtain ⟨_, hserved, _⟩ := latest_served Db.empty _ _ u v hu hv 0 hlatest
  exact ⟨u, v, hu, hv, hlatest, hlater, hserved⟩

/-- The key of the first query of a computation. -/
def askedCell (q : StatsQuery) : Except QueryError CellKey :=
  if q.level = levelGlobal then .ok .global else parentKey q

def readAsked (estimate : HyperLogLog → UInt64) (db : Db) (q : StatsQuery) :
    Except QueryError (Option RawCell) := do
  let key ← askedCell q
  readCell estimate db q.estimator q.window key

/-- What is left to do once the first query has returned. -/
def finishCells (estimate : HyperLogLog → UInt64) (db : Db) (k : UInt64) (q : StatsQuery)
    (cell : Option RawCell) : Except QueryError (List ResultCell) :=
  if q.level = levelGlobal then .ok (cell.map fun c => releaseSingle c k).toList
  else do
    let parent ← parentKey q
    let children ← readChildren estimate db q.estimator q.window parent
    return suppress ((cell.map RawCell.users).getD 0) children k

theorem computeCells_eq (estimate : HyperLogLog → UInt64) (db : Db) (k : UInt64)
    (q : StatsQuery) :
    computeCells estimate db k q = readAsked estimate db q >>= finishCells estimate db k q := by
  unfold computeCells readAsked askedCell finishCells
  by_cases hlevel : q.level = levelGlobal
  · simp only [if_pos hlevel]
    rfl
  · simp only [if_neg hlevel]
    cases parentKey q <;> rfl

theorem readAsked_congr {q : StatsQuery} (h : db'.rowsOf q.window = db.rowsOf q.window) :
    readAsked estimate db' q = readAsked estimate db q := by
  unfold readAsked
  simp only [readCell_congr h]

theorem finishCells_congr {q : StatsQuery} (h : db'.rowsOf q.window = db.rowsOf q.window)
    (k : UInt64) (cell : Option RawCell) :
    finishCells estimate db' k q cell = finishCells estimate db k q cell := by
  unfold finishCells
  simp only [readChildren_congr h]

/-- A computation sees the rows of its window only. -/
theorem computeStats_congr_rows {q : StatsQuery}
    (h : db'.rowsOf q.window = db.rowsOf q.window) (s : Settings) :
    computeStats estimate db' s q = computeStats estimate db s q := by
  have hfinish : finishCells estimate db' s.k q = finishCells estimate db s.k q :=
    funext fun cell => finishCells_congr h s.k cell
  rw [computeStats, computeStats, computeCells_eq, computeCells_eq, readAsked_congr h, hfinish]

end Reads

/-- How far a request has come, and what it carries. -/
inductive Progress
  | complete
  | missed
  | cellRead (cell : Option RawCell)
  | computed (resp : StatsResponse)
deriving DecidableEq

structure Pending where
  query : StatsQuery
  progress : Progress
deriving DecidableEq

/-- The aggregators over the tables, the cache, the requests under way and the answers given. -/
structure LiveService where
  fleet : Fleet
  cache : ResponseCache
  pending : Table Nat Pending
  answers : List (StatsQuery × Outcome)

inductive LiveAction
  | aggregate (a : FleetAction)
  | check (id : Nat) (q : StatsQuery)
  | lookup (id : Nat)
  | readCell (id : Nat)
  | readChildren (id : Nat)
  | insert (id : Nat)
  | evict (key : String)
deriving DecidableEq

namespace LiveService

def start : LiveService := ⟨.idle Db.empty, ∅, ∅, []⟩

def incomplete : Outcome := .failure 409 "window is not yet fully flushed by every partition"

def advance (v : LiveService) (id : Nat) (q : StatsQuery) (progress : Progress) : LiveService :=
  { v with pending := v.pending.insert id ⟨q, progress⟩ }

def close (v : LiveService) (id : Nat) (q : StatsQuery) (out : Outcome) : LiveService :=
  { v with pending := v.pending.erase id, answers := (q, out) :: v.answers }

section Step

variable (toRfc3339 : Int → String) (estimate : HyperLogLog → UInt64) (s : Settings)

def step (v : LiveService) : LiveAction → Option LiveService
  | .aggregate a => (Fleet.step v.fleet a).map fun fleet => { v with fleet := fleet }
  | .check id q =>
    match v.pending.lookup id with
    | some _ => none
    | none =>
      match q.rejection with
      | some msg => some (v.close id q (badRequest msg))
      | none =>
        if v.fleet.db.windowComplete q.window = false then some (v.close id q incomplete)
        else some (v.advance id q .complete)
  | .lookup id =>
    match v.pending.lookup id with
    | some ⟨q, .complete⟩ =>
      match v.cache.lookup (cacheKey toRfc3339 q) with
      | some hit => some (v.close id q (.reply hit))
      | none => some (v.advance id q .missed)
    | _ => none
  | .readCell id =>
    match v.pending.lookup id with
    | some ⟨q, .missed⟩ =>
      match readAsked estimate v.fleet.db q with
      | .ok cell => some (v.advance id q (.cellRead cell))
      | .error e => some (v.close id q (.ofCompute (.error e)))
    | _ => none
  | .readChildren id =>
    match v.pending.lookup id with
    | some ⟨q, .cellRead cell⟩ =>
      match finishCells estimate v.fleet.db s.k q cell with
      | .ok cells => some (v.advance id q (.computed ⟨q.window, q.level, applyDpNoise s cells⟩))
      | .error e => some (v.close id q (.ofCompute (.error e)))
    | _ => none
  | .insert id =>
    match v.pending.lookup id with
    | some ⟨q, .computed resp⟩ =>
      some { v.close id q (.reply resp) with
        cache := v.cache.insert (cacheKey toRfc3339 q) resp }
    | _ => none
  | .evict key => some { v with cache := v.cache.erase key }

end Step

variable {toRfc3339 : Int → String} {estimate : HyperLogLog → UInt64} {s : Settings}
  {v u : LiveService}

/-- What a step has done, and what it has found. -/
inductive Stepped (toRfc3339 : Int → String) (estimate : HyperLogLog → UInt64) (s : Settings)
    (v : LiveService) : LiveAction → LiveService → Prop
  | aggregate {a fleet} (hfleet : Fleet.step v.fleet a = some fleet) :
      Stepped toRfc3339 estimate s v (.aggregate a) { v with fleet := fleet }
  | refuse {id q out} (hout : q.rejection.map badRequest = some out ∨ out = incomplete) :
      Stepped toRfc3339 estimate s v (.check id q) (v.close id q out)
  | pass {id q} (hq : q.rejection = none)
      (hcomplete : v.fleet.db.windowComplete q.window = true) :
      Stepped toRfc3339 estimate s v (.check id q) (v.advance id q .complete)
  | hit {id q resp} (hpending : v.pending.lookup id = some ⟨q, .complete⟩)
      (hlook : v.cache.lookup (cacheKey toRfc3339 q) = some resp) :
      Stepped toRfc3339 estimate s v (.lookup id) (v.close id q (.reply resp))
  | miss {id q} (hpending : v.pending.lookup id = some ⟨q, .complete⟩) :
      Stepped toRfc3339 estimate s v (.lookup id) (v.advance id q .missed)
  | readCell {id q cell} (hpending : v.pending.lookup id = some ⟨q, .missed⟩)
      (hread : readAsked estimate v.fleet.db q = .ok cell) :
      Stepped toRfc3339 estimate s v (.readCell id) (v.advance id q (.cellRead cell))
  | readCellFails {id q e} (hpending : v.pending.lookup id = some ⟨q, .missed⟩)
      (hread : readAsked estimate v.fleet.db q = .error e) :
      Stepped toRfc3339 estimate s v (.readCell id) (v.close id q (.ofCompute (.error e)))
  | readChildren {id q cell cells} (hpending : v.pending.lookup id = some ⟨q, .cellRead cell⟩)
      (hread : finishCells estimate v.fleet.db s.k q cell = .ok cells) :
      Stepped toRfc3339 estimate s v (.readChildren id)
        (v.advance id q (.computed ⟨q.window, q.level, applyDpNoise s cells⟩))
  | readChildrenFails {id q cell e} (hpending : v.pending.lookup id = some ⟨q, .cellRead cell⟩)
      (hread : finishCells estimate v.fleet.db s.k q cell = .error e) :
      Stepped toRfc3339 estimate s v (.readChildren id) (v.close id q (.ofCompute (.error e)))
  | insert {id q resp} (hpending : v.pending.lookup id = some ⟨q, .computed resp⟩) :
      Stepped toRfc3339 estimate s v (.insert id) { v.close id q (.reply resp) with
        cache := v.cache.insert (cacheKey toRfc3339 q) resp }
  | evict {key} : Stepped toRfc3339 estimate s v (.evict key)
      { v with cache := v.cache.erase key }

theorem step_cases {a : LiveAction} (h : step toRfc3339 estimate s v a = some u) :
    Stepped toRfc3339 estimate s v a u := by
  cases a with
  | aggregate a =>
    obtain ⟨fleet, hfleet, rfl⟩ := Option.map_eq_some_iff.mp h
    exact .aggregate hfleet
  | check id q =>
    simp only [step] at h
    split at h
    · cases h
    · split at h
      · next hq =>
        cases h
        exact .refuse (Or.inl (by rw [hq]; rfl))
      · next hq =>
        split_ifs at h with hcomplete <;> cases h
        · exact .refuse (Or.inr rfl)
        · exact .pass hq (by simpa using hcomplete)
  | lookup id =>
    simp only [step] at h
    split at h
    · next hpending =>
      split at h <;> cases h
      · exact .hit hpending ‹_›
      · exact .miss hpending
    · cases h
  | readCell id =>
    simp only [step] at h
    split at h
    · next hpending =>
      split at h <;> cases h
      · exact .readCell hpending ‹_›
      · exact .readCellFails hpending ‹_›
    · cases h
  | readChildren id =>
    simp only [step] at h
    split at h
    · next hpending =>
      split at h <;> cases h
      · exact .readChildren hpending ‹_›
      · exact .readChildrenFails hpending ‹_›
    · cases h
  | insert id =>
    simp only [step] at h
    split at h
    · next hpending =>
      cases h
      exact .insert hpending
    · cases h
  | evict key =>
    cases h
    exact .evict

/-- The request has passed the checks of `get_stats`, and would pass them now. -/
structure Admitted (asked : StatsQuery → Prop) (db : Db) (q : StatsQuery) : Prop where
  asked : asked q
  accepted : q.rejection = none
  complete : db.windowComplete q.window = true

/-- What a request carries is what reading the tables would give now. -/
def Reached (estimate : HyperLogLog → UInt64) (s : Settings) (db : Db) (q : StatsQuery) :
    Progress → Prop
  | .complete => True
  | .missed => True
  | .cellRead cell => readAsked estimate db q = .ok cell
  | .computed resp => computeStats estimate db s q = .ok resp

/-- Everything cached, carried or answered is what computing it would give now. -/
structure Current (toRfc3339 : Int → String) (estimate : HyperLogLog → UInt64) (s : Settings)
    (asked : StatsQuery → Prop) (v : LiveService) : Prop where
  steady : v.fleet.Steady
  cached : ∀ key hit, v.cache.lookup key = some hit → ∃ q, Admitted asked v.fleet.db q ∧
    cacheKey toRfc3339 q = key ∧ computeStats estimate v.fleet.db s q = .ok hit
  pending : ∀ id q progress, v.pending.lookup id = some ⟨q, progress⟩ →
    Admitted asked v.fleet.db q ∧ Reached estimate s v.fleet.db q progress
  answers : ∀ q out, (q, out) ∈ v.answers → q.rejection.map badRequest = some out ∨
    out = incomplete ∨ (v.fleet.db.windowComplete q.window = true ∧
      out = .ofCompute (computeStats estimate v.fleet.db s q))

variable {asked : StatsQuery → Prop}

theorem current_start : Current toRfc3339 estimate s asked start where
  steady := Fleet.steady_idle _
  cached key hit hlook := by cases hlook
  pending id q progress hlook := by cases hlook
  answers q out hmem := by cases hmem

/-- Whatever the aggregators write, nothing that the service holds becomes outdated. -/
theorem Current.of_serves (h : Current toRfc3339 estimate s asked v) {fleet : Fleet}
    (hsteady : fleet.Steady) (hserves : v.fleet.db.Serves fleet.db) :
    Current toRfc3339 estimate s asked { v with fleet := fleet } where
  steady := hsteady
  cached key hit hlook := by
    obtain ⟨q, hadmitted, hkey, hcompute⟩ := h.cached key hit hlook
    obtain ⟨hcomplete, hrows⟩ := hserves _ hadmitted.complete
    exact ⟨q, ⟨hadmitted.asked, hadmitted.accepted, hcomplete⟩, hkey,
      (computeStats_congr_rows hrows s).trans hcompute⟩
  pending id q progress hlook := by
    obtain ⟨hadmitted, hreached⟩ := h.pending id q progress hlook
    obtain ⟨hcomplete, hrows⟩ := hserves _ hadmitted.complete
    refine ⟨⟨hadmitted.asked, hadmitted.accepted, hcomplete⟩, ?_⟩
    cases progress with
    | complete => trivial
    | missed => trivial
    | cellRead cell => exact (readAsked_congr hrows).trans hreached
    | computed resp => exact (computeStats_congr_rows hrows s).trans hreached
  answers q out hmem := by
    rcases h.answers q out hmem with hrefused | hincomplete | ⟨hcomplete, hout⟩
    · exact Or.inl hrefused
    · exact Or.inr (Or.inl hincomplete)
    · obtain ⟨hcomplete, hrows⟩ := hserves _ hcomplete
      rw [← computeStats_congr_rows hrows s] at hout
      exact Or.inr (Or.inr ⟨hcomplete, hout⟩)

theorem Current.advance (h : Current toRfc3339 estimate s asked v) (id : Nat) {q : StatsQuery}
    {progress : Progress} (hadmitted : Admitted asked v.fleet.db q)
    (hreached : Reached estimate s v.fleet.db q progress) :
    Current toRfc3339 estimate s asked (v.advance id q progress) where
  steady := h.steady
  cached := h.cached
  pending id' q' progress' hlook := by
    rcases lookup_of_insert hlook with ⟨_, heq⟩ | ⟨_, hlook⟩
    · obtain ⟨rfl, rfl⟩ := Pending.mk.inj heq
      exact ⟨hadmitted, hreached⟩
    · exact h.pending id' q' progress' hlook
  answers := h.answers

theorem Current.close (h : Current toRfc3339 estimate s asked v) (id : Nat) {q : StatsQuery}
    {out : Outcome} (hout : q.rejection.map badRequest = some out ∨ out = incomplete ∨
      (v.fleet.db.windowComplete q.window = true ∧
        out = .ofCompute (computeStats estimate v.fleet.db s q))) :
    Current toRfc3339 estimate s asked (v.close id q out) where
  steady := h.steady
  cached := h.cached
  pending id' q' progress' hlook := h.pending id' q' progress' (lookup_of_erase hlook).2
  answers q' out' hmem := by
    rcases List.mem_cons.mp hmem with heq | hmem
    · obtain ⟨rfl, rfl⟩ := Prod.mk.inj heq
      exact hout
    · exact h.answers q' out' hmem

/-- Commits enter after the minimum, and only these requests come in. -/
def Orderly (asked : StatsQuery → Prop) (v : LiveService) : LiveAction → Prop
  | .aggregate a => v.fleet.EntersAfterMin a
  | .check _ q => asked q
  | .lookup _ | .readCell _ | .readChildren _ | .insert _ | .evict _ => True

theorem Current.step (h : Current toRfc3339 estimate s asked v)
    (hsame : ∀ q q', asked q → asked q' → q.rejection = none → q'.rejection = none →
      cacheKey toRfc3339 q = cacheKey toRfc3339 q' →
      ∀ db, computeStats estimate db s q = computeStats estimate db s q')
    {a : LiveAction} (hguard : Orderly asked v a)
    (hstep : LiveService.step toRfc3339 estimate s v a = some u) :
    Current toRfc3339 estimate s asked u := by
  cases step_cases hstep with
  | aggregate hfleet =>
    exact h.of_serves (h.steady.step hfleet) (Fleet.serves_step h.steady hguard hfleet)
  | refuse hout => exact h.close _ (hout.imp_right Or.inl)
  | pass hq hcomplete => exact h.advance _ ⟨hguard, hq, hcomplete⟩ trivial
  | hit hpending hlook =>
    obtain ⟨hadmitted, _⟩ := h.pending _ _ _ hpending
    obtain ⟨q', hadmitted', hkey, hcompute⟩ := h.cached _ _ hlook
    refine h.close _ (Or.inr (Or.inr ⟨hadmitted.complete, ?_⟩))
    rw [hsame _ _ hadmitted.asked hadmitted'.asked hadmitted.accepted hadmitted'.accepted
      hkey.symm, hcompute]
    rfl
  | miss hpending => exact h.advance _ (h.pending _ _ _ hpending).1 trivial
  | readCell hpending hread => exact h.advance _ (h.pending _ _ _ hpending).1 hread
  | readCellFails hpending hread =>
    refine h.close _ (Or.inr (Or.inr ⟨(h.pending _ _ _ hpending).1.complete, ?_⟩))
    rw [computeStats, computeCells_eq, hread]
    rfl
  | readChildren hpending hread =>
    obtain ⟨hadmitted, hcell⟩ := h.pending _ _ _ hpending
    refine h.advance _ hadmitted ?_
    have hcell : readAsked estimate v.fleet.db _ = .ok _ := hcell
    rw [Reached, computeStats, computeCells_eq, hcell]
    exact bind_eq_ok.mpr ⟨_, hread, rfl⟩
  | readChildrenFails hpending hread =>
    obtain ⟨hadmitted, hcell⟩ := h.pending _ _ _ hpending
    have hcell : readAsked estimate v.fleet.db _ = .ok _ := hcell
    refine h.close _ (Or.inr (Or.inr ⟨hadmitted.complete, ?_⟩))
    rw [computeStats, computeCells_eq, hcell]
    change _ = Outcome.ofCompute (finishCells _ _ _ _ _ >>= _)
    rw [hread]
    rfl
  | insert hpending =>
    obtain ⟨hadmitted, hcompute⟩ := h.pending _ _ _ hpending
    have hcompute : computeStats estimate v.fleet.db s _ = .ok _ := hcompute
    refine { h.close _ (Or.inr (Or.inr ⟨hadmitted.complete, by rw [hcompute]; rfl⟩)) with
      cached := fun key hit hlook => ?_ }
    rcases lookup_of_insert hlook with ⟨rfl, rfl⟩ | ⟨_, hlook⟩
    · exact ⟨_, hadmitted, rfl, hcompute⟩
    · exact h.cached key hit hlook
  | evict =>
    exact { h with cached := fun key hit hlook => h.cached key hit (lookup_of_erase hlook).2 }

/-- However requests, evictions and the aggregators' commits interleave, every answer ever given is
what computing its request on the present tables gives. -/
theorem answers_current (toRfc3339 : Int → String) (estimate : HyperLogLog → UInt64)
    (s : Settings) (requests : List StatsQuery)
    (hcolons : ∀ q ∈ requests, (toRfc3339 q.window).toList.count ':' = 3)
    (hinj : ∀ q ∈ requests, ∀ q' ∈ requests,
      toRfc3339 q.window = toRfc3339 q'.window → q.window = q'.window)
    (hfree : ∀ q ∈ requests, ∀ q' ∈ requests, ¬ q.Collides q')
    (actions : List LiveAction) (v : LiveService)
    (hrun : Run (step toRfc3339 estimate s) (Orderly (· ∈ requests)) start actions v)
    (q : StatsQuery) (out : Outcome) (hanswer : (q, out) ∈ v.answers) :
    q.rejection.map badRequest = some out ∨ out = incomplete ∨
      (v.fleet.db.windowComplete q.window = true ∧
        out = .ofCompute (computeStats estimate v.fleet.db s q)) := by
  have hsame : ∀ q q', q ∈ requests → q' ∈ requests → q.rejection = none → q'.rejection = none →
      cacheKey toRfc3339 q = cacheKey toRfc3339 q' →
      ∀ db, computeStats estimate db s q = computeStats estimate db s q' := by
    intro q q' hq hq' haccepted haccepted' hkey db
    obtain ⟨hrendered, hlevel, hestimator, hjoined⟩ := cacheKey_eq haccepted haccepted'
      (hcolons q hq) (hcolons q' hq') hkey
    have hwindow := hinj q hq q' hq' hrendered
    refine computeStats_congr estimate db s hwindow hlevel hestimator ?_
    by_contra hparents
    exact hfree q hq q' hq' ⟨hwindow, hlevel, hestimator, hjoined, hparents⟩
  exact (hrun.invariant (fun _ _ _ hx hg hy => hx.step hsame hg hy)
    current_start).answers q out hanswer

instance (asked : StatsQuery → Prop) [DecidablePred asked] (v : LiveService) (a : LiveAction) :
    Decidable (Orderly asked v a) :=
  match a with
  | .aggregate a => inferInstanceAs (Decidable (v.fleet.EntersAfterMin a))
  | .check _ q => inferInstanceAs (Decidable (asked q))
  | .lookup _ | .readCell _ | .readChildren _ | .insert _ | .evict _ =>
    inferInstanceAs (Decidable True)

def familiesQuery : StatsQuery := ⟨0, 1, none, none, .exact⟩

/-- The next window is flushed between the two reads of the first request, and the second request
is answered from the cache. -/
def flushBetweenReads : List LiveAction :=
  (Fleet.earlyPartition.map .aggregate) ++
  [.check 0 familiesQuery, .lookup 0, .readCell 0,
    .aggregate (.act 0 (.deliver ⟨2, evt 185000000000 3 "u3"⟩ 2)), .aggregate (.act 0 .collect),
    .aggregate (.act 0 .commit), .readChildren 0, .insert 0, .check 1 familiesQuery, .lookup 1]

theorem answers_current_flushBetweenReads :
    ∃ v, Run (step epochRfc3339 (fun _ => 0) ⟨1, false, id⟩) (Orderly (· ∈ [familiesQuery])) start
        flushBetweenReads v ∧
      v.answers = List.replicate 2 (familiesQuery,
        .reply ⟨0, 1, [.visible "wikipedia" rollupStr rollupNamespace 1 1]⟩) ∧
      .reply ⟨0, 1, [.visible "wikipedia" rollupStr rollupNamespace 1 1]⟩ =
        Outcome.ofCompute (computeStats (fun _ => 0) v.fleet.db ⟨1, false, id⟩ familiesQuery) := by
  have hexec : (execute (step epochRfc3339 (fun _ => 0) ⟨1, false, id⟩)
      (Orderly (· ∈ [familiesQuery])) start flushBetweenReads).map (fun v => v.answers) =
        some (List.replicate 2 (familiesQuery,
          .reply ⟨0, 1, [.visible "wikipedia" rollupStr rollupNamespace 1 1]⟩)) := by decide
  obtain ⟨v, hv, hanswers⟩ := Option.map_eq_some_iff.mp hexec
  refine ⟨v, run_of_execute hv, hanswers, ?_⟩
  have hcurrent := answers_current epochRfc3339 (fun _ => 0) ⟨1, false, id⟩ [familiesQuery]
    (by decide) (by decide) (by simp [StatsQuery.Collides]) _ v (run_of_execute hv) familiesQuery _
    (by rw [hanswers]; exact List.mem_cons_self ..)
  rcases hcurrent with hrefused | hincomplete | ⟨_, hout⟩
  · cases hrefused
  · cases hincomplete
  · exact hout

end LiveService

end HushEngine
