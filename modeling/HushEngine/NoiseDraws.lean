import HushEngine.Cache

/-!
Requests in flight together. Looking into the cache, computing and filling it
are separate steps, and every computation draws its own noise. The cache joins
two requests into one draw only if their keys are equal and the first has
finished; the key also holds parameters the computation does not look at.
-/
namespace HushEngine

open Keyed Fallible Runs

def ResultCell.mapUsers (f : UInt64 → UInt64) : ResultCell → ResultCell
  | visible family wiki ns events users => .visible family wiki ns events (f users)
  | other events users => .other events (f users)

/-- The samples of one computation: what `noisy_count` makes of the users of each cell in turn. -/
abbrev Draw := Nat → UInt64 → UInt64

def noised (draw : Draw) (cells : List ResultCell) : List ResultCell :=
  cells.mapIdx fun i cell => cell.mapUsers (draw i)

def Settings.withDraw (s : Settings) (draw : Draw) : Settings := { s with noise := noised draw }

/-- The requests ask for the same cells; at the global level neither has a parent. -/
structure StatsQuery.SameQuestion (q q' : StatsQuery) : Prop where
  window : q.window = q'.window
  level : q.level = q'.level
  estimator : q.estimator = q'.estimator
  parent : parentKey q = parentKey q'

instance (q q' : StatsQuery) : Decidable (q.SameQuestion q') :=
  decidable_of_iff (q.window = q'.window ∧ q.level = q'.level ∧ q.estimator = q'.estimator ∧
      parentKey q = parentKey q')
    ⟨fun h => ⟨h.1, h.2.1, h.2.2.1, h.2.2.2⟩, fun h => ⟨h.window, h.level, h.estimator, h.parent⟩⟩

theorem StatsQuery.SameQuestion.symm {q q' : StatsQuery} (h : q.SameQuestion q') :
    q'.SameQuestion q := ⟨h.window.symm, h.level.symm, h.estimator.symm, h.parent.symm⟩

/-- The response of an answer, unless it is a failure. -/
def Outcome.reply? : Outcome → Option StatsResponse
  | .reply resp => some resp
  | .failure _ _ => none
  | .aborted => none

/-- The response of a request that has no cells. -/
def StatsQuery.noCells (q : StatsQuery) : StatsResponse := ⟨q.window, q.level, []⟩

/-- A request that found nothing in the cache, and its response once it is computed. -/
structure Flight where
  query : StatsQuery
  response : Option StatsResponse
deriving DecidableEq

/-- The cache, the requests in flight, and the answers given. -/
structure Handlers where
  cache : ResponseCache
  flights : Table Nat Flight
  answers : List (StatsQuery × Outcome)

inductive HandlerAction
  | lookup (id : Nat) (q : StatsQuery)
  | compute (id : Nat) (draw : Draw)
  | insert (id : Nat)

namespace Handlers

def start : Handlers := ⟨∅, ∅, []⟩

def answer (v : Handlers) (q : StatsQuery) (out : Outcome) : Handlers :=
  { v with answers := (q, out) :: v.answers }

section Step

variable (toRfc3339 : Int → String) (estimate : HyperLogLog → UInt64) (db : Db) (s : Settings)

/-- `get_stats` up to its look into the cache. -/
def lookUp (v : Handlers) (id : Nat) (q : StatsQuery) : Handlers :=
  match q.rejection with
  | some msg => v.answer q (badRequest msg)
  | none =>
    if db.windowComplete q.window = false then
      v.answer q (.failure 409 "window is not yet fully flushed by every partition")
    else
      match v.cache.lookup (cacheKey toRfc3339 q) with
      | some hit => v.answer q (.reply hit)
      | none => { v with flights := v.flights.insert id ⟨q, none⟩ }

def step (v : Handlers) : HandlerAction → Option Handlers
  | .lookup id q =>
    if v.flights.lookup id = none then some (lookUp toRfc3339 db v id q) else none
  | .compute id draw =>
    match v.flights.lookup id with
    | some ⟨q, none⟩ =>
      match computeStats estimate db (s.withDraw draw) q with
      | .ok resp => some { v with flights := v.flights.insert id ⟨q, some resp⟩ }
      | .error e =>
        some ({ v with flights := v.flights.erase id }.answer q (.ofCompute (.error e)))
    | _ => none
  | .insert id =>
    match v.flights.lookup id with
    | some ⟨q, some resp⟩ =>
      some ({ v with
        cache := v.cache.insert (cacheKey toRfc3339 q) resp
        flights := v.flights.erase id }.answer q (.reply resp))
    | _ => none

/-- The tables give the request no cells to draw noise for. -/
def NothingToDraw (q : StatsQuery) : Prop :=
  ∀ cells, computeCells estimate db s.k q = .ok cells → cells = []

instance (q : StatsQuery) : Decidable (NothingToDraw estimate db s q) :=
  match h : computeCells estimate db s.k q with
  | .ok [] => isTrue fun _ heq => (Except.ok.inj (h.symm.trans heq)).symm
  | .ok (_ :: _) => isFalse fun hnone => List.cons_ne_nil _ _ (hnone _ h)
  | .error _ => isTrue fun _ heq => nomatch h.symm.trans heq

/-- The request has nothing to draw for, and the cache has no cells under its key. -/
def Undrawn (v : Handlers) (q : StatsQuery) : Prop :=
  NothingToDraw estimate db s q ∧
    ∀ hit ∈ v.cache.lookup (cacheKey toRfc3339 q), hit = q.noCells

instance (v : Handlers) (q : StatsQuery) : Decidable (v.Undrawn toRfc3339 estimate db s q) :=
  inferInstanceAs (Decidable (_ ∧ _))

/-- A request that is not refused looks into the cache only when no request with its key or its
question is in flight, and only under the key of the earlier replies to its question; requests
without cells do not count against each other. -/
def Coalesced (v : Handlers) : HandlerAction → Prop
  | .lookup _ q => q.rejection = none → db.windowComplete q.window = true →
    (∀ r ∈ rows v.flights,
      cacheKey toRfc3339 r.2.query = cacheKey toRfc3339 q ∨ r.2.query.SameQuestion q →
      NothingToDraw estimate db s r.2.query ∧ r.2.query.noCells = q.noCells ∧
        v.Undrawn toRfc3339 estimate db s q) ∧
    ∀ a ∈ v.answers, a.1.SameQuestion q → ∀ resp ∈ a.2.reply?,
      cacheKey toRfc3339 a.1 = cacheKey toRfc3339 q ∨
        (resp = q.noCells ∧ v.Undrawn toRfc3339 estimate db s q)
  | .compute _ _ => True
  | .insert _ => True

instance (v : Handlers) (a : HandlerAction) :
    Decidable (v.Coalesced toRfc3339 estimate db s a) :=
  match a with
  | .lookup _ q => inferInstanceAs (Decidable (q.rejection = none →
      db.windowComplete q.window = true →
      (∀ r ∈ rows v.flights,
        cacheKey toRfc3339 r.2.query = cacheKey toRfc3339 q ∨ r.2.query.SameQuestion q →
        NothingToDraw estimate db s r.2.query ∧ r.2.query.noCells = q.noCells ∧
          v.Undrawn toRfc3339 estimate db s q) ∧
      ∀ a ∈ v.answers, a.1.SameQuestion q → ∀ resp ∈ a.2.reply?,
        cacheKey toRfc3339 a.1 = cacheKey toRfc3339 q ∨
          (resp = q.noCells ∧ v.Undrawn toRfc3339 estimate db s q)))
  | .compute _ _ => inferInstanceAs (Decidable True)
  | .insert _ => inferInstanceAs (Decidable True)

end Step

variable {toRfc3339 : Int → String} {estimate : HyperLogLog → UInt64} {db : Db} {s : Settings}
  {v u : Handlers} {id : Nat}

/-- A look into the cache ends in a refusal, in a reply from the cache, or in a flight. -/
theorem lookup_cases {q : StatsQuery}
    (h : step toRfc3339 estimate db s v (.lookup id q) = some u) :
    (∃ out, out.reply? = none ∧ u = { v with answers := (q, out) :: v.answers }) ∨
    (q.rejection = none ∧ db.windowComplete q.window = true ∧
      ((∃ hit, v.cache.lookup (cacheKey toRfc3339 q) = some hit ∧
          u = { v with answers := (q, .reply hit) :: v.answers }) ∨
        (v.cache.lookup (cacheKey toRfc3339 q) = none ∧
          u = { v with flights := v.flights.insert id ⟨q, none⟩ }))) := by
  unfold step at h
  dsimp only at h
  split_ifs at h
  obtain rfl := Option.some.inj h
  unfold lookUp
  split
  · exact Or.inl ⟨_, rfl, rfl⟩
  · next haccepted =>
    split_ifs with hincomplete
    · exact Or.inl ⟨_, rfl, rfl⟩
    · refine Or.inr ⟨haccepted, by simpa using hincomplete, ?_⟩
      split
      · exact Or.inl ⟨_, ‹_›, rfl⟩
      · exact Or.inr ⟨‹_›, rfl⟩

theorem compute_cases {draw : Draw}
    (h : step toRfc3339 estimate db s v (.compute id draw) = some u) :
    ∃ q, v.flights.lookup id = some ⟨q, none⟩ ∧
      ((∃ resp, computeStats estimate db (s.withDraw draw) q = .ok resp ∧
          u = { v with flights := v.flights.insert id ⟨q, some resp⟩ }) ∨
        ∃ e, computeStats estimate db (s.withDraw draw) q = .error e ∧
          u = { v with
            flights := v.flights.erase id
            answers := (q, .ofCompute (.error e)) :: v.answers }) := by
  unfold step at h
  dsimp only at h
  split at h
  · rename_i q hlook
    refine ⟨q, hlook, ?_⟩
    split at h
    · exact Or.inl ⟨_, ‹_›, (Option.some.inj h).symm⟩
    · exact Or.inr ⟨_, ‹_›, (Option.some.inj h).symm⟩
  · cases h

theorem insert_cases (h : step toRfc3339 estimate db s v (.insert id) = some u) :
    ∃ q resp, v.flights.lookup id = some ⟨q, some resp⟩ ∧
      u = { v with
        cache := v.cache.insert (cacheKey toRfc3339 q) resp
        flights := v.flights.erase id
        answers := (q, .reply resp) :: v.answers } := by
  unfold step at h
  dsimp only at h
  split at h
  · exact ⟨_, _, ‹_›, (Option.some.inj h).symm⟩
  · cases h

/-- Where the tables give no cells the response has none, whatever is drawn. -/
theorem computeStats_of_nothingToDraw {q : StatsQuery} {draw : Draw} {resp : StatsResponse}
    (hnothing : NothingToDraw estimate db s q)
    (h : computeStats estimate db (s.withDraw draw) q = .ok resp) : resp = q.noCells := by
  obtain ⟨cells, hcells, hresp⟩ := bind_eq_ok.mp h
  obtain rfl := hnothing cells hcells
  rw [← Except.ok.inj hresp]
  unfold applyDpNoise
  split_ifs <;> rfl

/-- Every reply is the entry under its key. But for requests without cells, a key or a question is
in one flight at most, and what is in flight is neither cached nor answered. -/
structure Settled (toRfc3339 : Int → String) (estimate : HyperLogLog → UInt64) (db : Db)
    (s : Settings) (v : Handlers) : Prop where
  answered : ∀ q resp, (q, Outcome.reply resp) ∈ v.answers →
    v.cache.lookup (cacheKey toRfc3339 q) = some resp
  one_reply : ∀ q resp q' resp', (q, Outcome.reply resp) ∈ v.answers →
    (q', Outcome.reply resp') ∈ v.answers → q.SameQuestion q' → resp = resp'
  missed : ∀ id f, v.flights.lookup id = some f →
    ∀ hit ∈ v.cache.lookup (cacheKey toRfc3339 f.query),
      hit = f.query.noCells ∧ NothingToDraw estimate db s f.query
  alone : ∀ id id' f f', v.flights.lookup id = some f → v.flights.lookup id' = some f' →
    cacheKey toRfc3339 f.query = cacheKey toRfc3339 f'.query ∨ f.query.SameQuestion f'.query →
    id = id' ∨ (f.query.noCells = f'.query.noCells ∧ NothingToDraw estimate db s f.query ∧
      NothingToDraw estimate db s f'.query)
  outdone : ∀ id f q resp, v.flights.lookup id = some f → (q, Outcome.reply resp) ∈ v.answers →
    q.SameQuestion f.query → resp = f.query.noCells ∧ NothingToDraw estimate db s f.query
  carried : ∀ id q resp, v.flights.lookup id = some ⟨q, some resp⟩ →
    NothingToDraw estimate db s q → resp = q.noCells

theorem settled_start : start.Settled toRfc3339 estimate db s where
  answered _ _ h := by cases h
  one_reply _ _ _ _ h := by cases h
  missed _ _ h := by cases h
  alone _ _ _ _ h := by cases h
  outdone _ _ _ _ h := by cases h
  carried _ _ _ h := by cases h

/-- An answer that is not a reply changes nothing. -/
theorem Settled.of_no_reply (h : v.Settled toRfc3339 estimate db s) {flights : Table Nat Flight}
    (hflights : ∀ id f, flights.lookup id = some f → v.flights.lookup id = some f)
    {q : StatsQuery} {out : Outcome} (hout : out.reply? = none) :
    Settled toRfc3339 estimate db s
      { v with flights := flights, answers := (q, out) :: v.answers } := by
  have hmem : ∀ q' resp, (q', Outcome.reply resp) ∈ (q, out) :: v.answers →
      (q', Outcome.reply resp) ∈ v.answers := by
    intro q' resp hmem
    rcases List.mem_cons.mp hmem with heq | hold
    · obtain ⟨rfl, rfl⟩ := Prod.mk.inj heq
      cases hout
    · exact hold
  exact {
    answered := fun q' resp hq' => h.answered q' resp (hmem q' resp hq')
    one_reply := fun q₁ resp₁ q₂ resp₂ h₁ h₂ =>
      h.one_reply q₁ resp₁ q₂ resp₂ (hmem q₁ resp₁ h₁) (hmem q₂ resp₂ h₂)
    missed := fun id f hf => h.missed id f (hflights id f hf)
    alone := fun id id' f f' hf hf' =>
      h.alone id id' f f' (hflights id f hf) (hflights id' f' hf')
    outdone := fun id f q' resp hf hq' =>
      h.outdone id f q' resp (hflights id f hf) (hmem q' resp hq')
    carried := fun id q' resp hf => h.carried id q' resp (hflights id _ hf) }

/-- A reply that agrees with the earlier ones, and with what is in flight. -/
theorem Settled.of_reply (h : v.Settled toRfc3339 estimate db s) {q : StatsQuery}
    {resp : StatsResponse} (hhit : v.cache.lookup (cacheKey toRfc3339 q) = some resp)
    (hsame : ∀ q' resp', (q', Outcome.reply resp') ∈ v.answers → q'.SameQuestion q →
      resp' = resp)
    (hflights : ∀ id f, v.flights.lookup id = some f → f.query.SameQuestion q →
      resp = f.query.noCells ∧ NothingToDraw estimate db s f.query) :
    Settled toRfc3339 estimate db s { v with answers := (q, .reply resp) :: v.answers } where
  answered q' resp' hmem := by
    rcases List.mem_cons.mp hmem with heq | hmem
    · cases heq
      exact hhit
    · exact h.answered q' resp' hmem
  one_reply q₁ resp₁ q₂ resp₂ h₁ h₂ hq := by
    rcases List.mem_cons.mp h₁ with heq₁ | hold₁ <;> rcases List.mem_cons.mp h₂ with heq₂ | hold₂
    · cases heq₁
      cases heq₂
      rfl
    · cases heq₁
      exact (hsame q₂ resp₂ hold₂ hq.symm).symm
    · cases heq₂
      exact hsame q₁ resp₁ hold₁ hq
    · exact h.one_reply q₁ resp₁ q₂ resp₂ hold₁ hold₂ hq
  missed := h.missed
  alone := h.alone
  outdone id f q' resp' hf hmem hq := by
    rcases List.mem_cons.mp hmem with heq | hmem
    · cases heq
      exact hflights id f hf hq.symm
    · exact h.outdone id f q' resp' hf hmem hq
  carried := h.carried

/-- A flight that has the key and the question to itself, or has no cells. -/
theorem Settled.of_flight (h : v.Settled toRfc3339 estimate db s) {q : StatsQuery}
    (hmiss : v.cache.lookup (cacheKey toRfc3339 q) = none)
    (hother : ∀ id f, v.flights.lookup id = some f →
      cacheKey toRfc3339 f.query = cacheKey toRfc3339 q ∨ f.query.SameQuestion q →
      f.query.noCells = q.noCells ∧ NothingToDraw estimate db s f.query ∧
        NothingToDraw estimate db s q)
    (houtdone : ∀ q' resp, (q', Outcome.reply resp) ∈ v.answers → q'.SameQuestion q →
      resp = q.noCells ∧ NothingToDraw estimate db s q) (id : Nat) :
    Settled toRfc3339 estimate db s { v with flights := v.flights.insert id ⟨q, none⟩ } where
  answered := h.answered
  one_reply := h.one_reply
  missed id' f hf := by
    rcases lookup_of_insert hf with ⟨_, rfl⟩ | ⟨_, hf⟩
    · intro hit hhit
      rw [hmiss] at hhit
      cases hhit
    · exact h.missed id' f hf
  alone id₁ id₂ f₁ f₂ hf₁ hf₂ hsame := by
    rcases lookup_of_insert hf₁ with ⟨rfl, rfl⟩ | ⟨_, hold₁⟩ <;>
      rcases lookup_of_insert hf₂ with ⟨rfl, rfl⟩ | ⟨_, hold₂⟩
    · exact Or.inl rfl
    · obtain ⟨hcells, hnone₂, hnone⟩ :=
        hother id₂ f₂ hold₂ (hsame.imp Eq.symm StatsQuery.SameQuestion.symm)
      exact Or.inr ⟨hcells.symm, hnone, hnone₂⟩
    · exact Or.inr (hother id₁ f₁ hold₁ hsame)
    · exact h.alone id₁ id₂ f₁ f₂ hold₁ hold₂ hsame
  outdone id' f q' resp hf hmem hq := by
    rcases lookup_of_insert hf with ⟨_, rfl⟩ | ⟨_, hf⟩
    · exact houtdone q' resp hmem hq
    · exact h.outdone id' f q' resp hf hmem hq
  carried id' q' resp hf hnothing := by
    rcases lookup_of_insert hf with ⟨_, heq⟩ | ⟨_, hf⟩
    · cases heq
    · exact h.carried id' q' resp hf hnothing

theorem Settled.lookup (h : v.Settled toRfc3339 estimate db s) {q : StatsQuery}
    (hguard : v.Coalesced toRfc3339 estimate db s (.lookup id q))
    (hstep : step toRfc3339 estimate db s v (.lookup id q) = some u) :
    u.Settled toRfc3339 estimate db s := by
  rcases lookup_cases hstep with ⟨out, hout, rfl⟩ | ⟨haccepted, hcomplete, hlook⟩
  · exact h.of_no_reply (fun _ _ hf => hf) hout
  · obtain ⟨hflights, hanswers⟩ := hguard haccepted hcomplete
    have hother : ∀ id f, v.flights.lookup id = some f →
        cacheKey toRfc3339 f.query = cacheKey toRfc3339 q ∨ f.query.SameQuestion q →
        NothingToDraw estimate db s f.query ∧ f.query.noCells = q.noCells ∧
          v.Undrawn toRfc3339 estimate db s q :=
      fun id f hf => hflights (id, f) ((mem_rows _ _ _).mpr hf)
    rcases hlook with ⟨hit, hhit, rfl⟩ | ⟨hmiss, rfl⟩
    · refine h.of_reply hhit (fun q' resp' hmem hq => ?_) fun id f hf hq => ?_
      · rcases hanswers _ hmem hq resp' rfl with hkey | ⟨rfl, _, hcached⟩
        · have hold := h.answered q' resp' hmem
          rw [hkey, hhit] at hold
          exact (Option.some.inj hold).symm
        · exact (hcached hit hhit).symm
      · obtain ⟨hnone, hcells, _, hcached⟩ := hother id f hf (Or.inr hq)
        exact ⟨(hcached hit hhit).trans hcells.symm, hnone⟩
    · refine h.of_flight hmiss (fun id f hf hsame => ?_) (fun q' resp hmem hq => ?_) id
      · obtain ⟨hnone, hcells, hundrawn⟩ := hother id f hf hsame
        exact ⟨hcells, hnone, hundrawn.1⟩
      · rcases hanswers _ hmem hq resp rfl with hkey | ⟨hresp, hundrawn⟩
        · have hold := h.answered q' resp hmem
          rw [hkey, hmiss] at hold
          cases hold
        · exact ⟨hresp, hundrawn.1⟩

theorem Settled.compute (h : v.Settled toRfc3339 estimate db s) {draw : Draw}
    (hstep : step toRfc3339 estimate db s v (.compute id draw) = some u) :
    u.Settled toRfc3339 estimate db s := by
  obtain ⟨q, hq, ⟨resp, hcompute, rfl⟩ | ⟨e, _, rfl⟩⟩ := compute_cases hstep
  · -- The flight keeps its query, so every flight has one of the old queries.
    have hlook : ∀ id' f, (v.flights.insert id ⟨q, some resp⟩).lookup id' = some f →
        ∃ f', v.flights.lookup id' = some f' ∧ f'.query = f.query := by
      intro id' f hf
      rcases lookup_of_insert hf with ⟨rfl, rfl⟩ | ⟨_, hf⟩
      · exact ⟨_, hq, rfl⟩
      · exact ⟨f, hf, rfl⟩
    refine ⟨h.answered, h.one_reply, ?_, ?_, ?_, ?_⟩
    · intro id' f hf
      obtain ⟨f', hf', hquery⟩ := hlook id' f hf
      rw [← hquery]
      exact h.missed id' f' hf'
    · intro id₁ id₂ f₁ f₂ hf₁ hf₂ hsame
      obtain ⟨f₁', hf₁', hquery₁⟩ := hlook id₁ f₁ hf₁
      obtain ⟨f₂', hf₂', hquery₂⟩ := hlook id₂ f₂ hf₂
      rw [← hquery₁, ← hquery₂] at hsame ⊢
      exact h.alone id₁ id₂ f₁' f₂' hf₁' hf₂' hsame
    · intro id' f q' resp' hf hmem hquestion
      obtain ⟨f', hf', hquery⟩ := hlook id' f hf
      rw [← hquery] at hquestion ⊢
      exact h.outdone id' f' q' resp' hf' hmem hquestion
    · intro id' q' resp' hf hnothing
      rcases lookup_of_insert hf with ⟨_, heq⟩ | ⟨_, hf⟩
      · cases heq
        exact computeStats_of_nothingToDraw hnothing hcompute
      · exact h.carried id' q' resp' hf hnothing
  · refine h.of_no_reply (fun id' f hf => (lookup_of_erase hf).2) ?_
    cases e <;> rfl

theorem Settled.insert (h : v.Settled toRfc3339 estimate db s)
    (hstep : step toRfc3339 estimate db s v (.insert id) = some u) :
    u.Settled toRfc3339 estimate db s := by
  obtain ⟨q, resp, hq, rfl⟩ := insert_cases hstep
  have hothers : ∀ id' f, (v.flights.erase id).lookup id' = some f →
      cacheKey toRfc3339 f.query = cacheKey toRfc3339 q ∨ f.query.SameQuestion q →
      resp = f.query.noCells ∧ NothingToDraw estimate db s f.query := by
    intro id' f hf hsame
    obtain ⟨hne, hf⟩ := lookup_of_erase hf
    rcases h.alone id' id f _ hf hq hsame with heq | ⟨hcells, hnone, hnoneq⟩
    · exact absurd heq hne
    · exact ⟨(h.carried id q resp hq hnoneq).trans hcells.symm, hnone⟩
  -- An entry already under the key is the response again, so the earlier replies keep theirs.
  have hkept : Settled toRfc3339 estimate db s
      { v with
        cache := v.cache.insert (cacheKey toRfc3339 q) resp
        flights := v.flights.erase id } := {
    answered := fun q' resp' hmem => by
      have hhit := h.answered q' resp' hmem
      by_cases hkey : cacheKey toRfc3339 q' = cacheKey toRfc3339 q
      · rw [hkey] at hhit ⊢
        obtain ⟨hcells, hnothing⟩ := h.missed id _ hq resp' hhit
        rw [AList.lookup_insert, hcells, h.carried id q resp hq hnothing]
      · rw [AList.lookup_insert_ne hkey]
        exact hhit
    one_reply := h.one_reply
    missed := fun id' f hf hit hhit => by
      by_cases hkey : cacheKey toRfc3339 f.query = cacheKey toRfc3339 q
      · rw [hkey, AList.lookup_insert] at hhit
        obtain rfl := Option.some.inj hhit
        exact hothers id' f hf (Or.inl hkey)
      · rw [AList.lookup_insert_ne hkey] at hhit
        exact h.missed id' f (lookup_of_erase hf).2 hit hhit
    alone := fun id₁ id₂ f₁ f₂ hf₁ hf₂ =>
      h.alone id₁ id₂ f₁ f₂ (lookup_of_erase hf₁).2 (lookup_of_erase hf₂).2
    outdone := fun id' f q' resp' hf => h.outdone id' f q' resp' (lookup_of_erase hf).2
    carried := fun id' q' resp' hf => h.carried id' q' resp' (lookup_of_erase hf).2 }
  refine hkept.of_reply (AList.lookup_insert _) (fun q' resp' hmem hquestion => ?_)
    fun id' f hf hquestion => hothers id' f hf (Or.inr hquestion)
  obtain ⟨rfl, hnothing⟩ := h.outdone id _ q' resp' hq hmem hquestion
  exact (h.carried id q resp hq hnothing).symm

theorem settled_of_run {as : List HandlerAction}
    (h : Run (step toRfc3339 estimate db s) (Coalesced toRfc3339 estimate db s) start as v) :
    v.Settled toRfc3339 estimate db s := by
  refine h.invariant ?_ settled_start
  intro v a u hv hguard hstep
  cases a with
  | lookup id q => exact hv.lookup hguard hstep
  | compute id draw => exact hv.compute hstep
  | insert id => exact hv.insert hstep

theorem step_lookup_miss {q : StatsQuery} (hq : q.rejection = none)
    (hcomplete : db.windowComplete q.window = true) (hfree : v.flights.lookup id = none)
    (hmiss : v.cache.lookup (cacheKey toRfc3339 q) = none) :
    step toRfc3339 estimate db s v (.lookup id q) =
      some { v with flights := v.flights.insert id ⟨q, none⟩ } := by
  simp [step, lookUp, hfree, hq, hcomplete, hmiss]

theorem step_compute_ok {q : StatsQuery} {draw : Draw} {resp : StatsResponse}
    (hflight : v.flights.lookup id = some ⟨q, none⟩)
    (hcompute : computeStats estimate db (s.withDraw draw) q = .ok resp) :
    step toRfc3339 estimate db s v (.compute id draw) =
      some { v with flights := v.flights.insert id ⟨q, some resp⟩ } := by
  simp [step, hflight, hcompute]

theorem step_compute_error {q : StatsQuery} {draw : Draw} {e : QueryError}
    (hflight : v.flights.lookup id = some ⟨q, none⟩)
    (hcompute : computeStats estimate db (s.withDraw draw) q = .error e) :
    step toRfc3339 estimate db s v (.compute id draw) =
      some { v with
        flights := v.flights.erase id
        answers := (q, .ofCompute (.error e)) :: v.answers } := by
  simp [step, hflight, hcompute, answer]

theorem step_insert {q : StatsQuery} {resp : StatsResponse}
    (hflight : v.flights.lookup id = some ⟨q, some resp⟩) :
    step toRfc3339 estimate db s v (.insert id) =
      some { v with
        cache := v.cache.insert (cacheKey toRfc3339 q) resp
        flights := v.flights.erase id
        answers := (q, .reply resp) :: v.answers } := by
  simp [step, hflight, answer]

theorem lookup_erase_insert {flights : Table Nat Flight} (hfree : flights.lookup id = none)
    (f : Flight) (id' : Nat) :
    ((flights.insert id f).erase id).lookup id' = flights.lookup id' := by
  by_cases hid : id' = id
  · subst hid
    rw [AList.lookup_erase, hfree]
  · rw [AList.lookup_erase_ne hid, AList.lookup_insert_ne hid]

/-- A request that nothing interrupts is `get_stats` in one step. -/
theorem exists_run_getStats (v : Handlers) {id : Nat} (hfree : v.flights.lookup id = none)
    (q : StatsQuery) (draw : Draw) :
    ∃ as u, Run (step toRfc3339 estimate db s) free v as u ∧
      u.cache = (getStats toRfc3339 estimate db (s.withDraw draw) v.cache q).2 ∧
      u.answers =
        (q, (getStats toRfc3339 estimate db (s.withDraw draw) v.cache q).1) :: v.answers ∧
      ∀ id', u.flights.lookup id' = v.flights.lookup id' := by
  have hlookup : step toRfc3339 estimate db s v (.lookup id q) =
      some (lookUp toRfc3339 db v id q) := by
    simp [step, hfree]
  cases hq : q.rejection with
  | some msg =>
    refine ⟨_, _, .cons trivial hlookup (.nil _), ?_⟩
    simp [lookUp, getStats, hq, answer]
  | none =>
    cases hcomplete : db.windowComplete q.window with
    | false =>
      refine ⟨_, _, .cons trivial hlookup (.nil _), ?_⟩
      simp [lookUp, getStats, hq, hcomplete, answer]
    | true =>
      cases hlook : v.cache.lookup (cacheKey toRfc3339 q) with
      | some hit =>
        refine ⟨_, _, .cons trivial hlookup (.nil _), ?_⟩
        simp [lookUp, getStats, hq, hcomplete, hlook, answer]
      | none =>
        have hmiss : step toRfc3339 estimate db s v (.lookup id q) = _ :=
          step_lookup_miss hq hcomplete hfree hlook
        cases hcompute : computeStats estimate db (s.withDraw draw) q with
        | error e =>
          refine ⟨_, _, .cons trivial hmiss (.cons trivial
            (step_compute_error (AList.lookup_insert _) hcompute) (.nil _)), ?_⟩
          simp [getStats, hq, hcomplete, hlook, hcompute, lookup_erase_insert hfree]
        | ok resp =>
          refine ⟨_, _, .cons trivial hmiss (.cons trivial
            (step_compute_ok (AList.lookup_insert _) hcompute) (.cons trivial
            (step_insert (AList.lookup_insert _)) (.nil _))), ?_⟩
          simp [getStats, hq, hcomplete, hlook, hcompute, lookup_erase_insert hfree]

theorem computeStats_withDraw (hdp : s.dpEnabled = true) {q : StatsQuery} {cells : List ResultCell}
    (hcells : computeCells estimate db s.k q = .ok cells) (draw : Draw) :
    computeStats estimate db (s.withDraw draw) q =
      .ok ⟨q.window, q.level, noised draw cells⟩ := by
  unfold computeStats
  refine bind_eq_ok.mpr ⟨cells, hcells, ?_⟩
  simp only [applyDpNoise, Settings.withDraw, hdp, if_true]
  rfl

theorem computeCells_congr {q q' : StatsQuery} (h : q.SameQuestion q') (k : UInt64) :
    computeCells estimate db k q = computeCells estimate db k q' := by
  simp only [computeCells, h.window, h.level, h.estimator, h.parent]

section TwoDraws

variable {q q' : StatsQuery} {cells : List ResultCell}

/-- Two spellings of a question with different keys are answered with two draws. -/
theorem separate_draws (hdp : s.dpEnabled = true) (hq : q.rejection = none)
    (hq' : q'.rejection = none) (hcomplete : db.windowComplete q.window = true)
    (hsame : q.SameQuestion q') (hcells : computeCells estimate db s.k q = .ok cells)
    (hkey : cacheKey toRfc3339 q' ≠ cacheKey toRfc3339 q) (draw draw' : Draw) :
    ∃ v, Run (step toRfc3339 estimate db s) free start
        [.lookup 0 q, .compute 0 draw, .insert 0, .lookup 1 q', .compute 1 draw', .insert 1] v ∧
      v.answers = [(q', .reply ⟨q'.window, q'.level, noised draw' cells⟩),
        (q, .reply ⟨q.window, q.level, noised draw cells⟩)] := by
  have hcompute := computeStats_withDraw hdp hcells draw
  have hcompute' := computeStats_withDraw hdp (computeCells_congr hsame _ ▸ hcells) draw'
  refine ⟨_, .cons trivial (step_lookup_miss hq hcomplete rfl rfl) <|
    .cons trivial (step_compute_ok (AList.lookup_insert _) hcompute) <|
    .cons trivial (step_insert (AList.lookup_insert _)) <|
    .cons trivial (step_lookup_miss hq' (hsame.window ▸ hcomplete) rfl ?_) <|
    .cons trivial (step_compute_ok (AList.lookup_insert _) hcompute') <|
    .cons trivial (step_insert (AList.lookup_insert _)) (.nil _), rfl⟩
  rw [AList.lookup_insert_ne hkey]
  rfl

/-- Two requests in flight together are answered with two draws, whatever their keys. -/
theorem overlapping_draws (hdp : s.dpEnabled = true) (hq : q.rejection = none)
    (hq' : q'.rejection = none) (hcomplete : db.windowComplete q.window = true)
    (hsame : q.SameQuestion q') (hcells : computeCells estimate db s.k q = .ok cells)
    (draw draw' : Draw) :
    ∃ v, Run (step toRfc3339 estimate db s) free start
        [.lookup 0 q, .lookup 1 q', .compute 0 draw, .compute 1 draw', .insert 0, .insert 1] v ∧
      v.answers = [(q', .reply ⟨q'.window, q'.level, noised draw' cells⟩),
        (q, .reply ⟨q.window, q.level, noised draw cells⟩)] := by
  have hcompute := computeStats_withDraw hdp hcells draw
  have hcompute' := computeStats_withDraw hdp (computeCells_congr hsame _ ▸ hcells) draw'
  refine ⟨_, .cons trivial (step_lookup_miss hq hcomplete rfl rfl) <|
    .cons trivial (step_lookup_miss hq' (hsame.window ▸ hcomplete) ?_ rfl) <|
    .cons trivial (step_compute_ok ?_ hcompute) <|
    .cons trivial (step_compute_ok ?_ hcompute') <|
    .cons trivial (step_insert ?_) <|
    .cons trivial (step_insert ?_) (.nil _), rfl⟩
  all_goals rfl

end TwoDraws

/-- In a coalesced run two replies to one question are one response, with one draw of noise. -/
theorem one_draw (toRfc3339 : Int → String) (estimate : HyperLogLog → UInt64) (db : Db)
    (s : Settings) (actions : List HandlerAction) (v : Handlers)
    (hrun : Run (step toRfc3339 estimate db s) (Coalesced toRfc3339 estimate db s) start
      actions v) :
    ∀ q resp q' resp', (q, Outcome.reply resp) ∈ v.answers → (q', Outcome.reply resp') ∈ v.answers →
      q.SameQuestion q' → resp = resp' :=
  (settled_of_run hrun).one_reply

end Handlers

/-- The request leaves out what the computation would not look at. -/
def StatsQuery.Plain (q : StatsQuery) : Prop :=
  (q.level < levelWiki → q.family = none) ∧ (q.level < levelNamespace → q.wiki = none)

theorem StatsQuery.parentKey_wiki {q : StatsQuery} (hq : q.rejection = none)
    (hlevel : q.level = levelWiki) :
    ∃ family, q.family = some family ∧ parentKey q = .ok (.ofFamily family) := by
  cases hfamily : q.family with
  | none => exact absurd hq (by
      simp [rejection, hlevel, hfamily, levelGlobal, levelWiki, levelNamespace])
  | some family =>
    exact ⟨family, rfl, by simp [parentKey, hlevel, hfamily, levelFamily, levelWiki]⟩

theorem StatsQuery.parentKey_namespace {q : StatsQuery} (hq : q.rejection = none)
    (hlevel : q.level = levelNamespace) :
    ∃ family wiki, q.family = some family ∧ q.wiki = some wiki ∧
      parentKey q = .ok (.ofWiki family wiki) := by
  cases hfamily : q.family with
  | none => exact absurd hq (by
      simp [rejection, hlevel, hfamily, levelGlobal, levelWiki, levelNamespace])
  | some family =>
    cases hwiki : q.wiki with
    | none => exact absurd hq (by
        simp [rejection, hlevel, hfamily, hwiki, levelGlobal, levelWiki, levelNamespace])
    | some wiki =>
      exact ⟨family, wiki, rfl, rfl,
        by simp [parentKey, hlevel, hfamily, hwiki, levelFamily, levelWiki, levelNamespace]⟩

/-- Plain spellings of one question have one key. -/
theorem cacheKey_eq_of_plain (toRfc3339 : Int → String) {q q' : StatsQuery}
    (h : q.SameQuestion q') (hq : q.rejection = none) (hq' : q'.rejection = none)
    (hplain : q.Plain) (hplain' : q'.Plain) : cacheKey toRfc3339 q = cacheKey toRfc3339 q' := by
  have hparent := h.parent
  refine cacheKey_congr h.window h.level h.estimator ?_
  unfold StatsQuery.Plain at hplain hplain'
  rw [← h.level] at hplain'
  unfold StatsQuery.joined
  have hlevels : q.level < levelWiki ∨ q.level = levelWiki ∨ q.level = levelNamespace := by
    have haccepted := StatsQuery.level_of_accepted hq
    unfold levelWiki levelNamespace
    omega
  rcases hlevels with hlevel | hlevel | hlevel
  · have hlevel' : q.level < levelNamespace := hlevel.trans (by decide)
    rw [hplain.1 hlevel, hplain.2 hlevel', hplain'.1 hlevel, hplain'.2 hlevel']
  · obtain ⟨family, hfamily, hkey⟩ := StatsQuery.parentKey_wiki hq hlevel
    obtain ⟨family', hfamily', hkey'⟩ := StatsQuery.parentKey_wiki hq' (h.level ▸ hlevel)
    rw [hkey, hkey'] at hparent
    obtain rfl := congrArg CellKey.family (Except.ok.inj hparent)
    rw [hfamily, hfamily', hplain.2 (by rw [hlevel]; decide),
      hplain'.2 (by rw [hlevel]; decide)]
    rfl
  · obtain ⟨family, wiki, hfamily, hwiki, hkey⟩ := StatsQuery.parentKey_namespace hq hlevel
    obtain ⟨family', wiki', hfamily', hwiki', hkey'⟩ :=
      StatsQuery.parentKey_namespace hq' (h.level ▸ hlevel)
    rw [hkey, hkey'] at hparent
    obtain rfl := congrArg CellKey.family (Except.ok.inj hparent)
    obtain rfl := congrArg CellKey.wiki (Except.ok.inj hparent)
    rw [hfamily, hfamily', hwiki, hwiki']
    rfl

/-- Twenty users of one family. -/
def oneFamily : Db where
  aggCells := upserts ∅ [
    (⟨0, .global, 0⟩, ⟨60, 20, none⟩),
    (⟨0, .ofFamily "wikipedia", 0⟩, ⟨60, 20, none⟩)]
  partitionProgress := upserts ∅ [(0, ⟨4, 60000000000⟩)]

def noisySettings : Settings := ⟨defaultK, true, id⟩

/-- The samples of a computation that adds one number throughout. -/
def drawPlus (n : UInt64) : Draw := fun _ users => users + n

def plainQuery : StatsQuery := ⟨0, 1, none, none, .exact⟩

/-- The same question with a family, which level 1 does not look at. -/
def spelledQuery : StatsQuery := ⟨0, 1, some "wikipedia", none, .exact⟩

/-- A family without wikis. -/
def emptyQuery : StatsQuery := ⟨0, 2, some "wikinews", none, .exact⟩

namespace Handlers

/-- The question asked twice, once in two spellings and once at the same time. -/
theorem two_draws_served :
    plainQuery.SameQuestion spelledQuery ∧
    (∃ v, Run (step epochRfc3339 (fun _ => 0) oneFamily noisySettings) free start
        [.lookup 0 plainQuery, .compute 0 (drawPlus 1), .insert 0,
          .lookup 1 spelledQuery, .compute 1 (drawPlus 2), .insert 1] v ∧
      v.answers = [(spelledQuery, .reply ⟨0, 1, [.visible "wikipedia" "*" (-1) 60 22]⟩),
        (plainQuery, .reply ⟨0, 1, [.visible "wikipedia" "*" (-1) 60 21]⟩)]) ∧
    ∃ v, Run (step epochRfc3339 (fun _ => 0) oneFamily noisySettings) free start
        [.lookup 0 plainQuery, .lookup 1 plainQuery, .compute 0 (drawPlus 1),
          .compute 1 (drawPlus 2), .insert 0, .insert 1] v ∧
      v.answers = [(plainQuery, .reply ⟨0, 1, [.visible "wikipedia" "*" (-1) 60 22]⟩),
        (plainQuery, .reply ⟨0, 1, [.visible "wikipedia" "*" (-1) 60 21]⟩)] := by
  have hcells : computeCells (fun _ => 0) oneFamily noisySettings.k plainQuery =
      .ok [.visible "wikipedia" "*" (-1) 60 20] := by rfl
  exact ⟨by decide,
    separate_draws rfl (by decide) (by decide) (by decide) (by decide) hcells (by decide) _ _,
    overlapping_draws rfl (by decide) (by decide) (by decide) (by decide) hcells _ _⟩

/-- One question after another, and a question without cells twice at once. -/
def repeatedRequests : List HandlerAction :=
  [.lookup 0 plainQuery, .compute 0 (drawPlus 1), .insert 0, .lookup 0 plainQuery,
    .lookup 1 emptyQuery, .lookup 2 emptyQuery, .compute 1 (drawPlus 2), .compute 2 (drawPlus 3),
    .insert 1, .insert 2]

theorem one_draw_repeated :
    ∃ v, Run (step epochRfc3339 (fun _ => 0) oneFamily noisySettings)
        (Coalesced epochRfc3339 (fun _ => 0) oneFamily noisySettings) start repeatedRequests v ∧
      v.answers.length = 4 ∧
      ∀ q resp q' resp', (q, Outcome.reply resp) ∈ v.answers →
        (q', Outcome.reply resp') ∈ v.answers → q.SameQuestion q' → resp = resp' := by
  have hanswers : (execute (step epochRfc3339 (fun _ => 0) oneFamily noisySettings)
      (Coalesced epochRfc3339 (fun _ => 0) oneFamily noisySettings) start repeatedRequests).map
        (fun v => v.answers.length) = some 4 := by
    decide
  obtain ⟨v, hv, hlength⟩ := Option.map_eq_some_iff.mp hanswers
  have hrun := run_of_execute hv
  exact ⟨v, hrun, hlength,
    one_draw epochRfc3339 (fun _ => 0) oneFamily noisySettings _ v hrun⟩

end Handlers

end HushEngine
