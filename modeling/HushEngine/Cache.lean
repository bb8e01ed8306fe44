import HushEngine.Runs
import HushEngine.StatsQueries

/-!
The response cache of the query service. Its key joins the request's fields
with colons, and a family or a wiki may itself contain colons, so the key tells
two requests apart only up to the place where the family ends. The rendering of
a timestamp is the chrono library's and is a parameter; what the key rests on is
that it is injective and always contains three colons.
-/
namespace HushEngine

/-!
Lists cut at a separator. A cut can be read back when both sides agree on how
many separators stand before it, or when none stands after it; what lies
between two such cuts is determined, however many separators it contains.
-/
namespace Separated

variable {α : Type*} [DecidableEq α] {sep : α}

/-- With equally many separators before the cut, the cut is at one place. -/
theorem eq_of_count_eq {xs ys xs' ys' : List α} (h : xs ++ sep :: ys = xs' ++ sep :: ys')
    (hcount : xs.count sep = xs'.count sep) : xs = xs' ∧ ys = ys' := by
  induction xs generalizing xs' with
  | nil =>
    cases xs' with
    | nil => exact ⟨rfl, (List.cons.inj h).2⟩
    | cons x' xs' =>
      obtain ⟨rfl, _⟩ := List.cons.inj h
      simp at hcount
  | cons x xs ih =>
    cases xs' with
    | nil =>
      obtain ⟨rfl, _⟩ := List.cons.inj h
      simp at hcount
    | cons x' xs' =>
      obtain ⟨rfl, hrest⟩ := List.cons.inj h
      rw [List.count_cons, List.count_cons, Nat.add_right_cancel_iff] at hcount
      obtain ⟨rfl, rfl⟩ := ih hrest hcount
      exact ⟨rfl, rfl⟩

/-- With no separator after the cut, the cut is at one place. -/
theorem eq_of_not_mem {xs ys xs' ys' : List α} (h : xs ++ sep :: ys = xs' ++ sep :: ys')
    (hys : sep ∉ ys) (hys' : sep ∉ ys') : xs = xs' ∧ ys = ys' := by
  have hreverse : ys.reverse ++ sep :: xs.reverse = ys'.reverse ++ sep :: xs'.reverse := by
    have := congrArg List.reverse h
    simpa using this
  have hcount : ys.reverse.count sep = ys'.reverse.count sep := by
    rw [List.count_eq_zero_of_not_mem (by simpa using hys),
      List.count_eq_zero_of_not_mem (by simpa using hys')]
  obtain ⟨hright, hleft⟩ := eq_of_count_eq hreverse hcount
  exact ⟨List.reverse_injective hleft, List.reverse_injective hright⟩

end Separated

open Keyed Fallible Runs

/-- What a client gets; after a panic there is no answer. -/
inductive Outcome
  | reply (resp : StatsResponse)
  | failure (status : Nat) (error : String)
  | aborted
deriving DecidableEq

def badRequest (msg : String) : Outcome := .failure 400 msg

def internalError : Outcome := .failure 500 "internal error"

def Outcome.ofCompute : Except QueryError StatsResponse → Outcome
  | .ok resp => .reply resp
  | .error .panic => .aborted
  | .error .outOfRange => internalError
  | .error .unsupportedLevel => internalError

def Estimator.debug : Estimator → String
  | .exact => "Exact"
  | .hll => "Hll"

/-- The family and the wiki as they stand in the key. -/
def StatsQuery.joined (q : StatsQuery) : String := q.family.getD "" ++ ":" ++ q.wiki.getD ""

section GetStats

variable (toRfc3339 : Int → String) (estimate : HyperLogLog → UInt64)

def cacheKey (q : StatsQuery) : String :=
  toRfc3339 q.window ++ ":" ++ toString q.level ++ ":" ++ q.family.getD "" ++ ":" ++
    q.wiki.getD "" ++ ":" ++ q.estimator.debug

abbrev ResponseCache := Table String StatsResponse

def getStats (db : Db) (s : Settings) (cache : ResponseCache) (q : StatsQuery) :
    Outcome × ResponseCache :=
  match q.rejection with
  | some msg => (badRequest msg, cache)
  | none =>
    if db.windowComplete q.window = false then
      (.failure 409 "window is not yet fully flushed by every partition", cache)
    else
      match cache.lookup (cacheKey toRfc3339 q) with
      | some hit => (.reply hit, cache)
      | none =>
        match computeStats estimate db s q with
        | .ok resp => (.reply resp, cache.insert (cacheKey toRfc3339 q) resp)
        | .error e => (.ofCompute (.error e), cache)

/-- The service over unchanging tables: its cache, and the answers given so far. -/
structure Service where
  cache : ResponseCache
  answers : List (StatsQuery × Outcome)

inductive ServiceAction
  | request (q : StatsQuery)
  | evict (key : String)
deriving DecidableEq

def ServiceAction.query : ServiceAction → Option StatsQuery
  | .request q => some q
  | .evict _ => none

namespace Service

def start : Service := ⟨∅, []⟩

def step (db : Db) (s : Settings) (v : Service) : ServiceAction → Option Service
  | .request q =>
    let r := getStats toRfc3339 estimate db s v.cache q
    some ⟨r.2, (q, r.1) :: v.answers⟩
  | .evict key => some { v with cache := v.cache.erase key }

/-- Every answer is what computing that very request on the tables gives. -/
def Transparent (db : Db) (s : Settings) (v : Service) : Prop :=
  ∀ entry ∈ v.answers, entry.2 = .ofCompute (computeStats estimate db s entry.1)

end Service

end GetStats

/-- The two requests have one key but ask about different parents. -/
def StatsQuery.Collides (q q' : StatsQuery) : Prop :=
  q.window = q'.window ∧ q.level = q'.level ∧ q.estimator = q'.estimator ∧
    q.joined = q'.joined ∧ parentKey q ≠ parentKey q'

namespace StatsQuery

variable {q q' : StatsQuery}

/-- An accepted request has one of the four levels. -/
theorem level_of_accepted (hq : q.rejection = none) :
    q.level = 0 ∨ q.level = 1 ∨ q.level = 2 ∨ q.level = 3 := by
  unfold rejection levelGlobal levelNamespace at hq
  split_ifs at hq with hrange
  omega

theorem count_level (hq : q.rejection = none) : (toString q.level).toList.count ':' = 0 := by
  rcases level_of_accepted hq with h | h | h | h <;> rw [h] <;> decide

theorem level_eq_of_toString (hq : q.rejection = none) (hq' : q'.rejection = none)
    (h : toString q.level = toString q'.level) : q.level = q'.level := by
  rcases level_of_accepted hq with h1 | h1 | h1 | h1 <;>
    rcases level_of_accepted hq' with h2 | h2 | h2 | h2 <;>
    rw [h1, h2] at h ⊢ <;> exact absurd h (by decide)

theorem debug_injective {e e' : Estimator} (h : e.debug = e'.debug) : e = e' := by
  cases e <;> cases e' <;> first | rfl | exact absurd h (by decide)

theorem colon_not_mem_debug (e : Estimator) : ':' ∉ e.debug.toList := by
  cases e <;> decide

end StatsQuery

theorem toList_cacheKey (toRfc3339 : Int → String) (q : StatsQuery) :
    (cacheKey toRfc3339 q).toList = ((toRfc3339 q.window).toList ++ ':' ::
      ((toString q.level).toList ++ ':' :: q.joined.toList)) ++
        ':' :: q.estimator.debug.toList := by
  simp [cacheKey, StatsQuery.joined, String.toList_append]

/-- The key determines everything but where the family ends and the wiki begins. -/
theorem cacheKey_eq {toRfc3339 : Int → String} {q q' : StatsQuery} (hq : q.rejection = none)
    (hq' : q'.rejection = none) (hcolons : (toRfc3339 q.window).toList.count ':' = 3)
    (hcolons' : (toRfc3339 q'.window).toList.count ':' = 3)
    (h : cacheKey toRfc3339 q = cacheKey toRfc3339 q') :
    toRfc3339 q.window = toRfc3339 q'.window ∧ q.level = q'.level ∧
      q.estimator = q'.estimator ∧ q.joined = q'.joined := by
  have hlist := congrArg String.toList h
  rw [toList_cacheKey, toList_cacheKey] at hlist
  obtain ⟨hfields, hdebug⟩ := Separated.eq_of_not_mem hlist
    (StatsQuery.colon_not_mem_debug _) (StatsQuery.colon_not_mem_debug _)
  obtain ⟨hwindow, hrest⟩ := Separated.eq_of_count_eq hfields (hcolons.trans hcolons'.symm)
  obtain ⟨hlevel, hjoined⟩ := Separated.eq_of_count_eq hrest
    ((StatsQuery.count_level hq).trans (StatsQuery.count_level hq').symm)
  exact ⟨String.toList_inj.mp hwindow,
    StatsQuery.level_eq_of_toString hq hq' (String.toList_inj.mp hlevel),
    StatsQuery.debug_injective (String.toList_inj.mp hdebug), String.toList_inj.mp hjoined⟩

theorem cacheKey_congr {toRfc3339 : Int → String} {q q' : StatsQuery}
    (hwindow : q.window = q'.window)
    (hlevel : q.level = q'.level) (hestimator : q.estimator = q'.estimator)
    (hjoined : q.joined = q'.joined) : cacheKey toRfc3339 q = cacheKey toRfc3339 q' := by
  apply String.toList_inj.mp
  rw [toList_cacheKey, toList_cacheKey, hwindow, hlevel, hestimator, hjoined]

/-- The computation sees the family and the wiki only through the parent. -/
theorem computeStats_congr (estimate : HyperLogLog → UInt64) (db : Db) (s : Settings)
    {q q' : StatsQuery} (hwindow : q.window = q'.window) (hlevel : q.level = q'.level)
    (hestimator : q.estimator = q'.estimator) (hparent : parentKey q = parentKey q') :
    computeStats estimate db s q = computeStats estimate db s q' := by
  simp only [computeStats, computeCells, hwindow, hlevel, hestimator, hparent]

section GetStats

variable {toRfc3339 : Int → String} {estimate : HyperLogLog → UInt64} {db : Db} {s : Settings}

/-- An accepted request for a complete window is answered from the cache, or computed and, if
that succeeds, cached. -/
theorem getStats_accepted (toRfc3339 : Int → String) (estimate : HyperLogLog → UInt64) {db : Db}
    (s : Settings) (cache : ResponseCache) {q : StatsQuery} (hq : q.rejection = none)
    (hcomplete : db.windowComplete q.window = true) :
    (∃ hit, cache.lookup (cacheKey toRfc3339 q) = some hit ∧
      getStats toRfc3339 estimate db s cache q = (.reply hit, cache)) ∨
    (∃ resp, computeStats estimate db s q = .ok resp ∧
      getStats toRfc3339 estimate db s cache q =
        (.reply resp, cache.insert (cacheKey toRfc3339 q) resp)) ∨
    (∃ e, computeStats estimate db s q = .error e ∧
      getStats toRfc3339 estimate db s cache q = (.ofCompute (.error e), cache)) := by
  unfold getStats
  rw [hq, hcomplete]
  cases hlook : cache.lookup (cacheKey toRfc3339 q) with
  | some hit => exact Or.inl ⟨hit, rfl, rfl⟩
  | none =>
    cases hcompute : computeStats estimate db s q with
    | ok resp => exact Or.inr (Or.inl ⟨resp, rfl, rfl⟩)
    | error e => exact Or.inr (Or.inr ⟨e, rfl, rfl⟩)

theorem getStats_hit (estimate : HyperLogLog → UInt64) (s : Settings) {cache : ResponseCache}
    {q : StatsQuery} (hq : q.rejection = none)
    (hcomplete : db.windowComplete q.window = true) (hkey : cacheKey toRfc3339 q ∈ cache) :
    ∃ hit, (getStats toRfc3339 estimate db s cache q).1 = .reply hit := by
  obtain ⟨hit, hlook⟩ := Option.isSome_iff_exists.mp (AList.lookup_isSome.mpr hkey)
  refine ⟨hit, ?_⟩
  simp [getStats, hq, hcomplete, hlook]

theorem mem_getStats_of_ok {cache : ResponseCache} {q : StatsQuery} (hq : q.rejection = none)
    (hcomplete : db.windowComplete q.window = true) {resp : StatsResponse}
    (hcompute : computeStats estimate db s q = .ok resp) :
    cacheKey toRfc3339 q ∈ (getStats toRfc3339 estimate db s cache q).2 := by
  rcases getStats_accepted toRfc3339 estimate s cache hq hcomplete with
    ⟨hit, hlook, hget⟩ | ⟨resp', _, hget⟩ | ⟨e, herror, _⟩
  · rw [hget]
    exact AList.lookup_isSome.mp (Option.isSome_iff_exists.mpr ⟨hit, hlook⟩)
  · rw [hget]
    exact (AList.mem_insert _).mpr (Or.inl rfl)
  · rw [hcompute] at herror
    cases herror

namespace Service

/-- Everything cached was computed for a request with that key, and no answer differs from the
computation. -/
structure Faithful (toRfc3339 : Int → String) (estimate : HyperLogLog → UInt64) (db : Db)
    (s : Settings) (requests : List StatsQuery) (v : Service) : Prop where
  cached : ∀ key hit, v.cache.lookup key = some hit →
    ∃ q ∈ requests, cacheKey toRfc3339 q = key ∧ computeStats estimate db s q = .ok hit
  transparent : v.Transparent estimate db s

variable {requests : List StatsQuery}

theorem faithful_start : start.Faithful toRfc3339 estimate db s requests :=
  ⟨fun _ _ h => (by cases h), fun _ h => (by cases h)⟩

/-- If requests with one key compute alike, a request keeps the service faithful. -/
theorem Faithful.request {v : Service} (hv : v.Faithful toRfc3339 estimate db s requests)
    (hsame : ∀ q ∈ requests, ∀ q' ∈ requests, cacheKey toRfc3339 q = cacheKey toRfc3339 q' →
      computeStats estimate db s q = computeStats estimate db s q')
    {q : StatsQuery} (hmem : q ∈ requests) (hq : q.rejection = none)
    (hcomplete : db.windowComplete q.window = true) {r : Outcome × ResponseCache}
    (hr : getStats toRfc3339 estimate db s v.cache q = r) :
    (⟨r.2, (q, r.1) :: v.answers⟩ : Service).Faithful toRfc3339 estimate db s requests := by
  rcases getStats_accepted toRfc3339 estimate s v.cache hq hcomplete with
    ⟨hit, hlook, hget⟩ | ⟨resp, hcompute, hget⟩ | ⟨e, hcompute, hget⟩
  all_goals
    rw [hget] at hr
    subst hr
  · refine ⟨hv.cached, List.forall_mem_cons.mpr ⟨?_, hv.transparent⟩⟩
    obtain ⟨q', hmem', hkey, hcompute⟩ := hv.cached _ _ hlook
    rw [hsame q hmem q' hmem' hkey.symm, hcompute]
    rfl
  · refine ⟨?_, List.forall_mem_cons.mpr ⟨by rw [hcompute]; rfl, hv.transparent⟩⟩
    intro key hit hlook
    rcases lookup_of_insert hlook with ⟨rfl, rfl⟩ | ⟨_, hlook⟩
    · exact ⟨q, hmem, rfl, hcompute⟩
    · exact hv.cached key hit hlook
  · exact ⟨hv.cached, List.forall_mem_cons.mpr ⟨by rw [hcompute], hv.transparent⟩⟩

theorem Faithful.evict {v : Service} (hv : v.Faithful toRfc3339 estimate db s requests)
    (key : String) :
    ({ v with cache := v.cache.erase key } : Service).Faithful toRfc3339 estimate db s
      requests := by
  refine ⟨?_, hv.transparent⟩
  intro key' hit hlook
  exact hv.cached key' hit (lookup_of_erase hlook).2

/-- A run over requests of which those with one key compute alike is faithful throughout. -/
theorem faithful_of_run (hsame : ∀ q ∈ requests, ∀ q' ∈ requests,
      cacheKey toRfc3339 q = cacheKey toRfc3339 q' →
      computeStats estimate db s q = computeStats estimate db s q')
    (haccepted : ∀ q ∈ requests, q.rejection = none)
    (hcomplete : ∀ q ∈ requests, db.windowComplete q.window = true)
    {actions : List ServiceAction} (hactions : actions.filterMap ServiceAction.query = requests)
    {v : Service} (hrun : Run (step toRfc3339 estimate db s) free start actions v) :
    v.Faithful toRfc3339 estimate db s requests := by
  have hguarded : Run (step toRfc3339 estimate db s)
      (fun _ a => ∀ q, a.query = some q → q ∈ requests) start actions v := by
    apply hrun.strengthen
    rintro pre a post _ _ rfl _ _ _ q hq
    rw [← hactions]
    exact List.mem_filterMap.mpr ⟨a, by simp, hq⟩
  refine hguarded.invariant ?_ faithful_start
  intro u a t hu hmem hstep
  cases a with
  | request q =>
    obtain rfl := Option.some.inj hstep
    exact hu.request hsame (hmem q rfl) (haccepted q (hmem q rfl))
      (hcomplete q (hmem q rfl)) rfl
  | evict key =>
    obtain rfl := Option.some.inj hstep
    exact hu.evict key

theorem exists_run (toRfc3339 : Int → String) (estimate : HyperLogLog → UInt64) (db : Db)
    (s : Settings) (v : Service) (qs : List StatsQuery) :
    ∃ u, Run (step toRfc3339 estimate db s) free v (qs.map .request) u := by
  induction qs generalizing v with
  | nil => exact ⟨v, .nil v⟩
  | cons q qs ih =>
    obtain ⟨u, hu⟩ := ih ⟨_, _⟩
    exact ⟨u, .cons trivial rfl hu⟩

/-- Without evictions the cache only grows, and answers are never withdrawn. -/
theorem request_grows {v u : Service} {q : StatsQuery}
    (h : step toRfc3339 estimate db s v (.request q) = some u) :
    (∀ key ∈ v.cache, key ∈ u.cache) ∧ ∀ entry ∈ v.answers, entry ∈ u.answers := by
  obtain rfl := Option.some.inj h
  refine ⟨?_, fun entry hentry => List.mem_cons_of_mem _ hentry⟩
  intro key hkey
  unfold getStats
  dsimp only
  split
  · exact hkey
  · split_ifs
    · exact hkey
    · split
      · exact hkey
      · split
        · exact (AList.mem_insert _).mpr (Or.inr hkey)
        · exact hkey

theorem requests_grow {v u : Service} {qs : List StatsQuery}
    (h : Run (step toRfc3339 estimate db s) free v (qs.map .request) u) :
    (∀ key ∈ v.cache, key ∈ u.cache) ∧ ∀ entry ∈ v.answers, entry ∈ u.answers := by
  induction qs generalizing v with
  | nil =>
    cases h
    exact ⟨fun _ hkey => hkey, fun _ hentry => hentry⟩
  | cons q qs ih =>
    cases h with
    | cons _ hstep hrest =>
      obtain ⟨hcache, hanswers⟩ := request_grows hstep
      obtain ⟨hcache', hanswers'⟩ := ih hrest
      exact ⟨fun key hkey => hcache' key (hcache key hkey),
        fun entry hentry => hanswers' entry (hanswers entry hentry)⟩

/-- A request that computes leaves its key in the cache; a later one with the same key is then
answered from it, whatever its own computation would give. -/
theorem answered_from_cache {q q' : StatsQuery} (hq : q.rejection = none)
    (hq' : q'.rejection = none) (hcomplete : db.windowComplete q.window = true)
    (hcomplete' : db.windowComplete q'.window = true) {resp : StatsResponse}
    (hcompute : computeStats estimate db s q = .ok resp)
    (hkey : cacheKey toRfc3339 q = cacheKey toRfc3339 q') (pre mid post : List StatsQuery) :
    ∃ v hit, Run (step toRfc3339 estimate db s) free start
        ((pre ++ q :: mid ++ q' :: post).map .request) v ∧ (q', .reply hit) ∈ v.answers := by
  obtain ⟨v₁, hpre⟩ := exists_run toRfc3339 estimate db s start pre
  obtain ⟨v₂, hstep⟩ : ∃ v₂, step toRfc3339 estimate db s v₁ (.request q) = some v₂ := ⟨_, rfl⟩
  obtain ⟨v₃, hmid⟩ := exists_run toRfc3339 estimate db s v₂ mid
  obtain ⟨v₄, hstep'⟩ : ∃ v₄, step toRfc3339 estimate db s v₃ (.request q') = some v₄ := ⟨_, rfl⟩
  obtain ⟨v₅, hpost⟩ := exists_run toRfc3339 estimate db s v₄ post
  have hcached : cacheKey toRfc3339 q ∈ v₂.cache := by
    obtain rfl := Option.some.inj hstep
    exact mem_getStats_of_ok hq hcomplete hcompute
  have hstill : cacheKey toRfc3339 q' ∈ v₃.cache := by
    rw [← hkey]
    exact (requests_grow hmid).1 _ hcached
  obtain ⟨hit, hget⟩ := getStats_hit estimate s hq' hcomplete' hstill
  refine ⟨v₅, hit, ?_, (requests_grow hpost).2 _ ?_⟩
  · rw [List.map_append, List.map_append, List.map_cons, List.map_cons]
    exact (hpre.append (.cons trivial hstep hmid)).append (.cons trivial hstep' hpost)
  · obtain rfl := Option.some.inj hstep'
    exact List.mem_cons.mpr (Or.inl (by rw [hget]))

end Service

end GetStats

/-- A table whose only cell cannot be read: its users overflow a `bigint`, and its two
partitions' sketches have different precisions. -/
def Db.unreadable (w : Int) (key : CellKey) (flushed : Int) : Db where
  aggCells := ⟨[⟨⟨w, key, 0⟩, ⟨1, 2 ^ 62, some [0, 0]⟩⟩,
    ⟨⟨w, key, 1⟩, ⟨1, 2 ^ 62, some [1, 0, 0]⟩⟩], by simp [List.NodupKeys, List.keys]⟩
  partitionProgress := upserts ∅ [(0, ⟨0, flushed⟩)]

namespace Db

variable {w : Int} {key : CellKey} {flushed : Int}

theorem windowComplete_unreadable {w' : Int} (h : windowEnd w' ≤ flushed) :
    (unreadable w key flushed).windowComplete w' = true := by
  have hmin : (unreadable w key flushed).minFlushedWatermark = some flushed := rfl
  simp [windowComplete, hmin, h]

theorem cellRows_unreadable_self : (unreadable w key flushed).cellRows w key =
    [(⟨w, key, 0⟩, ⟨1, 2 ^ 62, some [0, 0]⟩), (⟨w, key, 1⟩, ⟨1, 2 ^ 62, some [1, 0, 0]⟩)] := by
  simp [cellRows, unreadable, rows, AggKey.group]

theorem cellRows_unreadable_ne {key' : CellKey} (hne : key' ≠ key) :
    (unreadable w key flushed).cellRows w key' = [] := by
  simp [cellRows, unreadable, rows, AggKey.group, hne.symm]

theorem childRows_unreadable {parent : CellKey} (hlevel : parent.level = key.level) :
    (unreadable w key flushed).childRows w parent = [] := by
  simp [childRows, unreadable, rows, isChildRow, hlevel]

end Db

/-- Neither estimator can compute an answer about the unreadable cell. -/
theorem readCell_unreadable (estimate : HyperLogLog → UInt64) (estimator : Estimator) (w : Int)
    (key : CellKey) (flushed : Int) (cell : Option RawCell) :
    readCell estimate (.unreadable w key flushed) estimator w key ≠ .ok cell := by
  intro h
  cases estimator with
  | exact =>
    obtain ⟨c, rfl, _, _, _, _, husers⟩ := fetchCell_eq_ok.mp h
    have hlt := lt_of_toBigint husers
    have hsum : (Db.unreadable w key flushed).groupSum ⟨w, key⟩ AggRow.users =
        (((Db.unreadable w key flushed).cellRows w key).map fun r => r.2.users).sum := rfl
    rw [hsum, Db.cellRows_unreadable_self] at hlt
    simp at hlt
  | hll =>
    unfold readCell fetchCellHll at h
    rw [Db.cellRows_unreadable_self] at h
    dsimp only at h
    rw [if_neg (by simp), bind_eq_ok] at h
    obtain ⟨merged, hmerged, _⟩ := h
    have hpanic : mergeSketches [⟨1, 2 ^ 62, some [0, 0]⟩, ⟨1, 2 ^ 62, some [1, 0, 0]⟩] =
        .error .panic := rfl
    cases hpanic.symm.trans hmerged

/-- Both estimators find nothing about any other cell of its level. -/
theorem computeStats_unreadable_ne (estimate : HyperLogLog → UInt64) (s : Settings)
    {q : StatsQuery} {key parent : CellKey} (flushed : Int) (hlevel : q.level ≠ levelGlobal)
    (hparent : parentKey q = .ok parent) (hne : parent ≠ key) (hsame : parent.level = key.level) :
    ∃ resp, computeStats estimate (.unreadable q.window key flushed) s q = .ok resp := by
  have hcell : ∃ cell, readCell estimate (.unreadable q.window key flushed) q.estimator q.window
      parent = .ok cell := by
    unfold readCell
    cases q.estimator with
    | exact =>
      have hsum : ∀ column, (Db.unreadable q.window key flushed).groupSum ⟨q.window, parent⟩
          column = (((Db.unreadable q.window key flushed).cellRows q.window parent).map
            fun r => column r.2).sum := fun _ => rfl
      have hlt : ∀ column, (Db.unreadable q.window key flushed).groupSum ⟨q.window, parent⟩
          column < 2 ^ 63 := by
        intro column
        rw [hsum, Db.cellRows_unreadable_ne hne]
        exact Nat.two_pow_pos 63
      obtain ⟨c, hc, _⟩ := fetchCell_ok (hlt AggRow.events) (hlt AggRow.users)
      exact ⟨_, hc⟩
    | hll => exact ⟨none, by simp [fetchCellHll, Db.cellRows_unreadable_ne hne]⟩
  have hchildren : readChildren estimate (.unreadable q.window key flushed) q.estimator q.window
      parent = .ok [] := by
    unfold readChildren fetchChildren fetchChildrenHll
    rw [Db.childRows_unreadable hsame]
    cases q.estimator <;> rfl
  obtain ⟨cell, hcell⟩ := hcell
  have hcells := (computeCells_children estimate (k := s.k) hlevel).mpr
    ⟨parent, cell, [], hparent, hcell, hchildren, rfl⟩
  exact ⟨_, bind_eq_ok.mpr ⟨_, hcells, rfl⟩⟩

namespace StatsQuery

variable {q q' : StatsQuery}

/-- An accepted request below the global level has the parent's parameters. -/
theorem parentKey_of_accepted (hq : q.rejection = none) (hlevel : q.level ≠ levelGlobal) :
    ∃ parent, parentKey q = .ok parent ∧ parent.level + 1 = q.level := by
  obtain ⟨window, level, family, wiki, estimator⟩ := q
  rcases level_of_accepted hq with rfl | rfl | rfl | rfl
  · exact absurd rfl hlevel
  · exact ⟨_, rfl, rfl⟩
  · cases family with
    | none => exact absurd hq (by simp [rejection, levelGlobal, levelNamespace, levelWiki])
    | some family => exact ⟨_, rfl, rfl⟩
  · cases family with
    | none => exact absurd hq (by simp [rejection, levelGlobal, levelNamespace, levelWiki])
    | some family =>
      cases wiki with
      | none => exact absurd hq (by simp [rejection, levelGlobal, levelNamespace, levelWiki])
      | some wiki => exact ⟨_, rfl, rfl⟩

theorem Collides.symm (h : q.Collides q') : q'.Collides q :=
  ⟨h.1.symm, h.2.1.symm, h.2.2.1.symm, h.2.2.2.1.symm, h.2.2.2.2.symm⟩

/-- Colliding requests ask about two cells of one level. -/
theorem Collides.parents (h : q.Collides q') (hq : q.rejection = none)
    (hq' : q'.rejection = none) : q.level ≠ levelGlobal ∧ ∃ parent parent',
      parentKey q = .ok parent ∧ parentKey q' = .ok parent' ∧ parent ≠ parent' ∧
        parent.level = parent'.level := by
  obtain ⟨_, hlevel, _, _, hparents⟩ := h
  have hglobal : q.level ≠ levelGlobal := by
    intro hglobal
    refine hparents ?_
    rw [parentKey, parentKey, ← hlevel, hglobal]
    rfl
  obtain ⟨parent, hparent, hbelow⟩ := parentKey_of_accepted hq hglobal
  obtain ⟨parent', hparent', hbelow'⟩ := parentKey_of_accepted hq' (hlevel ▸ hglobal)
  refine ⟨hglobal, parent, parent', hparent, hparent', ?_, by omega⟩
  rintro rfl
  exact hparents (hparent.trans hparent'.symm)

end StatsQuery

/-- Some flush point is past the end of every request's window. -/
theorem exists_flushed (requests : List StatsQuery) :
    ∃ flushed, ∀ q ∈ requests, windowEnd q.window ≤ flushed := by
  induction requests with
  | nil => exact ⟨0, fun _ h => absurd h List.not_mem_nil⟩
  | cons q requests ih =>
    obtain ⟨flushed, hflushed⟩ := ih
    refine ⟨max (windowEnd q.window) flushed, List.forall_mem_cons.mpr ⟨le_max_left _ _, ?_⟩⟩
    exact fun q' hq' => (hflushed q' hq').trans (le_max_right _ _)

section Transparency

variable (toRfc3339 : Int → String) (estimate : HyperLogLog → UInt64) (s : Settings)

/-- Over any tables on which the requests' windows are complete, in any run of the requests with
any evictions between them, every answer is the computed one. -/
def TransparentFor (requests : List StatsQuery) : Prop :=
  ∀ db actions v, (∀ q ∈ requests, db.windowComplete q.window = true) →
    actions.filterMap ServiceAction.query = requests →
    Run (Service.step toRfc3339 estimate db s) free Service.start actions v →
    v.Transparent estimate db s

/-- A collision answers the later request from the earlier one's entry on some tables. -/
theorem not_transparentFor {q q' : StatsQuery} (hcollides : q.Collides q')
    {pre mid post : List StatsQuery}
    (haccepted : ∀ r ∈ pre ++ q :: mid ++ q' :: post, r.rejection = none) :
    ¬ TransparentFor toRfc3339 estimate s (pre ++ q :: mid ++ q' :: post) := by
  intro htransparent
  have hq := haccepted q (by simp)
  have hq' := haccepted q' (by simp)
  obtain ⟨hglobal, parent, key, hparent, hkey, hne, hsame⟩ := hcollides.parents hq hq'
  obtain ⟨flushed, hflushed⟩ := exists_flushed (pre ++ q :: mid ++ q' :: post)
  have hcomplete : ∀ r ∈ pre ++ q :: mid ++ q' :: post,
      (Db.unreadable q.window key flushed).windowComplete r.window = true :=
    fun r hr => Db.windowComplete_unreadable (hflushed r hr)
  obtain ⟨resp, hcompute⟩ :=
    computeStats_unreadable_ne estimate s flushed hglobal hparent hne hsame
  obtain ⟨hwindow, hlevel, hestimator, hjoined, _⟩ := hcollides
  obtain ⟨v, hit, hrun, hanswer⟩ := Service.answered_from_cache hq hq'
    (hcomplete q (by simp)) (hcomplete q' (by simp)) hcompute
    (cacheKey_congr hwindow hlevel hestimator hjoined) pre mid post
  have hcomputed := htransparent _ _ v hcomplete (by
    rw [List.filterMap_map]
    exact List.filterMap_some) hrun _ hanswer
  cases hresult : computeStats estimate (.unreadable q.window key flushed) s q' with
  | error e =>
    rw [hresult] at hcomputed
    cases e <;> cases hcomputed
  | ok resp' =>
    obtain ⟨cells, hcells, _⟩ := bind_eq_ok.mp hresult
    obtain ⟨_, cell, _, hparent', hcell, _⟩ :=
      (computeCells_children estimate (hlevel ▸ hglobal)).mp hcells
    obtain rfl := Except.ok.inj (hkey.symm.trans hparent')
    rw [← hwindow] at hcell
    exact readCell_unreadable estimate q'.estimator q.window key flushed cell hcell

/-- The cache is transparent for a sequence of accepted requests exactly when no two of them
share a window, a level, an estimator and the joined family and wiki, but not the parent. -/
theorem transparentFor_iff (requests : List StatsQuery)
    (haccepted : ∀ q ∈ requests, q.rejection = none)
    (hcolons : ∀ q ∈ requests, (toRfc3339 q.window).toList.count ':' = 3)
    (hinj : ∀ q ∈ requests, ∀ q' ∈ requests,
      toRfc3339 q.window = toRfc3339 q'.window → q.window = q'.window) :
    (TransparentFor toRfc3339 estimate s requests ∧
      ∀ q ∈ requests, ∀ q' ∈ requests, cacheKey toRfc3339 q = cacheKey toRfc3339 q' →
        ∀ db, computeStats estimate db s q = computeStats estimate db s q') ↔
      ∀ q ∈ requests, ∀ q' ∈ requests, ¬ q.Collides q' := by
  constructor
  · intro h q hq q' hq' hcollides
    obtain ⟨htransparent, _⟩ := h
    obtain ⟨pre, rest, rfl⟩ := List.append_of_mem hq
    rcases List.mem_append.mp hq' with hbefore | hafter
    · obtain ⟨pre', mid, rfl⟩ := List.append_of_mem hbefore
      exact not_transparentFor toRfc3339 estimate s hcollides.symm haccepted htransparent
    · have hne : q' ≠ q := fun heq => hcollides.2.2.2.2 (by rw [heq])
      obtain ⟨mid, post, rfl⟩ :=
        List.append_of_mem ((List.mem_cons.mp hafter).resolve_left hne)
      have hshape : pre ++ q :: (mid ++ q' :: post) = pre ++ q :: mid ++ q' :: post := by simp
      rw [hshape] at haccepted htransparent
      exact not_transparentFor toRfc3339 estimate s hcollides haccepted htransparent
  · intro hfree
    have hsame : ∀ q ∈ requests, ∀ q' ∈ requests,
        cacheKey toRfc3339 q = cacheKey toRfc3339 q' →
        ∀ db, computeStats estimate db s q = computeStats estimate db s q' := by
      intro q hq q' hq' hkey db
      obtain ⟨hrendered, hlevel, hestimator, hjoined⟩ := cacheKey_eq (haccepted q hq)
        (haccepted q' hq') (hcolons q hq) (hcolons q' hq') hkey
      have hwindow := hinj q hq q' hq' hrendered
      refine computeStats_congr estimate db s hwindow hlevel hestimator ?_
      by_contra hparents
      exact hfree q hq q' hq' ⟨hwindow, hlevel, hestimator, hjoined, hparents⟩
    refine ⟨?_, hsame⟩
    intro db actions v hcomplete hactions hrun
    have hcongr := fun q hq q' hq' hkey => hsame q hq q' hq' hkey db
    exact (Service.faithful_of_run hcongr haccepted hcomplete hactions hrun).transparent

end Transparency

/-- The rendering of the start of the first window. -/
def epochRfc3339 (_ : Int) : String := "1970-01-01T00:00:00+00:00"

/-- Twenty users of a wiki whose name contains a colon. -/
def colonWiki : Db where
  aggCells := upserts ∅ [
    (⟨0, .global, 0⟩, ⟨60, 20, none⟩),
    (⟨0, .ofFamily "wiki", 0⟩, ⟨60, 20, none⟩),
    (⟨0, .ofWiki "wiki" "media:commons", 0⟩, ⟨60, 20, none⟩),
    (⟨0, ⟨3, "wiki", "media:commons", 0⟩, 0⟩, ⟨60, 20, none⟩)]
  partitionProgress := upserts ∅ [(0, ⟨4, 60000000000⟩)]

def absentWikiQuery : StatsQuery := ⟨0, 3, some "wiki:media", some "commons", .exact⟩

def colonWikiQuery : StatsQuery := ⟨0, 3, some "wiki", some "media:commons", .exact⟩

theorem colliding_key_served :
    absentWikiQuery.rejection = none ∧ colonWikiQuery.rejection = none ∧
    colonWiki.windowComplete 0 = true ∧
    computeStats (fun _ => 0) colonWiki defaultSettings colonWikiQuery =
      .ok ⟨0, 3, [.visible "wiki" "media:commons" 0 60 20]⟩ ∧
    ∃ v, Run (Service.step epochRfc3339 (fun _ => 0) colonWiki defaultSettings) free Service.start
        [.request absentWikiQuery, .request colonWikiQuery] v ∧
      v.answers.head? = some (colonWikiQuery, .reply ⟨0, 3, []⟩) ∧
      ¬ v.Transparent (fun _ => 0) colonWiki defaultSettings := by
  have hcompute : computeStats (fun _ => 0) colonWiki defaultSettings colonWikiQuery =
      .ok ⟨0, 3, [.visible "wiki" "media:commons" 0 60 20]⟩ := by rfl
  refine ⟨by decide, by decide, by decide, hcompute, ?_⟩
  have hanswers : (execute (Service.step epochRfc3339 (fun _ => 0) colonWiki defaultSettings) free
      Service.start [.request absentWikiQuery, .request colonWikiQuery]).map
        (fun v => v.answers.head?) = some (some (colonWikiQuery, .reply ⟨0, 3, []⟩)) := by
    decide
  obtain ⟨v, hv, hhead⟩ := Option.map_eq_some_iff.mp hanswers
  refine ⟨v, run_of_execute hv, hhead, fun htransparent => ?_⟩
  have hsame := htransparent _ (List.mem_of_head? hhead)
  rw [hcompute] at hsame
  exact absurd hsame (by decide)

theorem transparentFor_iff_colonWikiQuery :
    (TransparentFor epochRfc3339 (fun _ => 0) defaultSettings [absentWikiQuery, colonWikiQuery] ∧
      ∀ q ∈ [absentWikiQuery, colonWikiQuery], ∀ q' ∈ [absentWikiQuery, colonWikiQuery],
        cacheKey epochRfc3339 q = cacheKey epochRfc3339 q' → ∀ db,
          computeStats (fun _ => 0) db defaultSettings q =
            computeStats (fun _ => 0) db defaultSettings q') ↔
      ∀ q ∈ [absentWikiQuery, colonWikiQuery], ∀ q' ∈ [absentWikiQuery, colonWikiQuery],
        ¬ q.Collides q' :=
  transparentFor_iff epochRfc3339 (fun _ => 0) defaultSettings [absentWikiQuery, colonWikiQuery]
    (by decide) (by decide) (by decide)

end HushEngine
