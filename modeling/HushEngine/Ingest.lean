import HushEngine.Channel
import HushEngine.Gateway
import Mathlib.Data.List.Forall2

/-!
`POST /v1/events`. A batch is checked as a whole before anything is queued, but
it is queued one message at a time, and what is already queued when the channel
fills up stays queued. The loop looks for a full channel only; a channel that
is closed takes nothing and the batch is answered as accepted.
-/
namespace HushEngine

/-- `key` is the pseudonym and `payload` the event as JSON. -/
structure QueuedMessage where
  key : String
  payload : List UInt8
deriving DecidableEq

/-- The codes the handler answers with: 202, 400 and 503. -/
inductive StatusCode
  | accepted
  | badRequest
  | serviceUnavailable
deriving DecidableEq

structure Refusal where
  status : StatusCode
  headers : List (String × String)
  error : String
deriving DecidableEq

def Refusal.badRequest (msg : String) : Refusal := ⟨.badRequest, [], msg⟩

/-- The answer of a gateway whose channel is full. -/
def Refusal.backpressure : Refusal :=
  ⟨.serviceUnavailable, [("Retry-After", "1")], "ingest channel full, retry shortly"⟩

/-- `AppState` but for the channel, with what other libraries do for the handler: the keyed hash
of a user, an event as JSON, and the ids and times in the texts of errors. -/
structure AppState where
  pseudonymize : String → String
  toVec : Event → List UInt8
  showUuid : Uuid → String
  showTs : Int → String
  maxBatchEvents : Nat

def EventValidationError.eventId : EventValidationError → Uuid
  | emptyUser id | emptyWiki id | emptyFamily id | negativeNamespace id _
  | timestampInFuture id _ => id

/-- The first event that is not valid decides. -/
def validateEach (now : Int) : List Event → Except EventValidationError Unit
  | [] => .ok ()
  | e :: rest =>
    match e.validate now with
    | .error err => .error err
    | .ok () => validateEach now rest

theorem validateEach_ok_iff {now : Int} {batch : List Event} :
    validateEach now batch = .ok () ↔ ∀ e ∈ batch, e.validate now = .ok () := by
  induction batch with
  | nil => simp [validateEach]
  | cons e rest ih =>
    rw [List.forall_mem_cons, ← ih]
    cases hvalid : e.validate now with
    | error err => simp [validateEach, hvalid]
    | ok => simp [validateEach, hvalid]

/-- An error is about an event of the batch. -/
theorem validateEach_error {now : Int} {batch : List Event} {err : EventValidationError}
    (h : validateEach now batch = .error err) : ∃ e ∈ batch, e.validate now = .error err := by
  induction batch with
  | nil => cases h
  | cons e rest ih =>
    unfold validateEach at h
    cases hvalid : e.validate now with
    | error err' =>
      rw [hvalid] at h
      exact ⟨e, List.mem_cons_self .., hvalid.trans h⟩
    | ok =>
      rw [hvalid] at h
      obtain ⟨e', he', herror⟩ := ih h
      exact ⟨e', List.mem_cons_of_mem _ he', herror⟩

namespace AppState

def message (state : AppState) (err : EventValidationError) : String :=
  "event " ++ state.showUuid err.eventId ++ " " ++ err.reason state.showTs

def pseudonymizeAndSerialize (state : AppState) (e : Event) : QueuedMessage :=
  let key := state.pseudonymize e.user
  ⟨key, state.toVec { e with user := key }⟩

def enqueue (state : AppState) : List Event → Channel QueuedMessage →
    Except Refusal StatusCode × Channel QueuedMessage
  | [], tx => (.ok .accepted, tx)
  | e :: rest, tx =>
    match tx.trySend (state.pseudonymizeAndSerialize e) with
    | .ok tx => state.enqueue rest tx
    | .error (.full _) => (.error .backpressure, tx)
    -- `if let Err(TrySendError::Full(_))` does not match
    | .error (.closed _) => state.enqueue rest tx

def postEvents (state : AppState) (now : Int) (batch : List Event) (tx : Channel QueuedMessage) :
    Except Refusal StatusCode × Channel QueuedMessage :=
  if batch.isEmpty then (.error (.badRequest "event batch must not be empty"), tx)
  else if batch.length > state.maxBatchEvents then
    (.error (.badRequest ("batch of " ++ toString batch.length ++ " events exceeds max of " ++
      toString state.maxBatchEvents)), tx)
  else
    match validateEach now batch with
    | .error err => (.error (.badRequest (state.message err)), tx)
    | .ok () => state.enqueue batch tx

variable {state : AppState} {now : Int} {batch : List Event} {tx : Channel QueuedMessage}

theorem enqueue_of_closed (hclosed : tx.closed = true) :
    state.enqueue batch tx = (.ok .accepted, tx) := by
  induction batch with
  | nil => rfl
  | cons e rest ih =>
    unfold enqueue
    rw [Channel.trySend_of_closed hclosed]
    exact ih

/-- What fits is queued, in the order of the batch; the answer says whether that is all of it. -/
theorem enqueue_of_open (state : AppState) (batch : List Event) (hopen : tx.closed = false) :
    (state.enqueue batch tx).1 =
        (if batch.length ≤ tx.free then .ok .accepted else .error .backpressure) ∧
      (state.enqueue batch tx).2.queued =
        tx.queued ++ (batch.take tx.free).map state.pseudonymizeAndSerialize := by
  induction batch generalizing tx with
  | nil => simp [enqueue]
  | cons e rest ih =>
    unfold enqueue
    rcases Nat.eq_zero_or_pos tx.free with hfull | hfree
    · rw [Channel.trySend_of_full hopen hfull, hfull]
      simp
    · obtain ⟨tx', hsend, hqueued, hfree', hopen'⟩ :=
        Channel.trySend_of_free hopen hfree (state.pseudonymizeAndSerialize e)
      obtain ⟨hanswer, hrest⟩ := ih hopen'
      rw [hsend, ← hfree', List.take_succ_cons, List.map_cons, List.length_cons]
      constructor
      · simp only [hanswer, Nat.add_le_add_iff_right]
      · simp only [hrest, hqueued, List.append_assoc, List.singleton_append]

variable (state now batch)

/-- What the handler answers with 400. -/
def Malformed : Prop :=
  batch = [] ∨ state.maxBatchEvents < batch.length ∨ ∃ e ∈ batch, e.validate now ≠ .ok ()

variable {state now batch}

theorem postEvents_of_malformed (h : state.Malformed now batch) (tx : Channel QueuedMessage) :
    ∃ msg, state.postEvents now batch tx = (.error (.badRequest msg), tx) := by
  unfold postEvents
  split_ifs with hempty hlen
  · exact ⟨_, rfl⟩
  · exact ⟨_, rfl⟩
  · cases hvalid : validateEach now batch with
    | error err => exact ⟨_, rfl⟩
    | ok =>
      rcases h with rfl | hmax | ⟨e, he, herror⟩
      · exact absurd rfl hempty
      · exact absurd hmax hlen
      · exact absurd (validateEach_ok_iff.mp hvalid e he) herror

theorem postEvents_of_wellFormed (h : ¬ state.Malformed now batch) :
    state.postEvents now batch tx = state.enqueue batch tx := by
  unfold Malformed at h
  push Not at h
  obtain ⟨hne, hlen, hvalid⟩ := h
  unfold postEvents
  rw [if_neg (by simpa using hne), if_neg (by omega), validateEach_ok_iff.mpr hvalid]

/-- A refusal is about the batch, or it is the one that asks the caller to come back. -/
theorem postEvents_refusal {refusal : Refusal}
    (h : (state.postEvents now batch tx).1 = .error refusal) :
    (state.Malformed now batch ∧ ∃ msg, refusal = .badRequest msg) ∨
      (tx.closed = false ∧ tx.free < batch.length ∧ refusal = .backpressure) := by
  by_cases hbad : state.Malformed now batch
  · obtain ⟨msg, hpost⟩ := postEvents_of_malformed hbad tx
    rw [hpost] at h
    exact Or.inl ⟨hbad, msg, (Except.error.inj h).symm⟩
  · rw [postEvents_of_wellFormed hbad] at h
    cases hclosed : tx.closed with
    | true =>
      rw [enqueue_of_closed hclosed] at h
      cases h
    | false =>
      rw [(enqueue_of_open state batch hclosed).1] at h
      split_ifs at h with hroom
      exact Or.inr ⟨rfl, by omega, (Except.error.inj h).symm⟩

variable (state)

/-- What the message of an event has to be. -/
def Carries (e : Event) (m : QueuedMessage) : Prop :=
  m.key = state.pseudonymize e.user ∧
    m.payload = state.toVec { e with user := state.pseudonymize e.user }

variable {state}

theorem carries_iff {e : Event} {m : QueuedMessage} :
    state.Carries e m ↔ state.pseudonymizeAndSerialize e = m := by
  constructor
  · intro h
    obtain ⟨hkey, hpayload⟩ := h
    cases m
    cases hkey
    cases hpayload
    rfl
  · rintro rfl
    exact ⟨rfl, rfl⟩

theorem forall₂_carries_iff {placed : List QueuedMessage} :
    List.Forall₂ state.Carries batch placed ↔
      batch.map state.pseudonymizeAndSerialize = placed := by
  rw [← List.forall₂_eq_eq_eq, List.forall₂_map_left_iff]
  exact ⟨List.Forall₂.imp fun _ _ => carries_iff.mp, List.Forall₂.imp fun _ _ => carries_iff.mpr⟩

variable (state now batch tx)

/-- The batch is accepted when all of it has been queued, in its order, and otherwise none of it
is. There is nothing to queue of an empty batch, which is not accepted. -/
structure AllOrNothing : Prop where
  accepted_iff : (state.postEvents now batch tx).1 = .ok .accepted ↔
    batch ≠ [] ∧ ∃ placed, List.Forall₂ state.Carries batch placed ∧
      (state.postEvents now batch tx).2.queued = tx.queued ++ placed
  untouched : (state.postEvents now batch tx).1 ≠ .ok .accepted →
    (state.postEvents now batch tx).2.queued = tx.queued

variable {state now batch tx}

/-- A batch whose messages leave the queue as it was has none. -/
theorem eq_nil_of_carried {placed queued : List QueuedMessage}
    (hplaced : List.Forall₂ state.Carries batch placed) (hqueued : queued = queued ++ placed) :
    batch = [] := by
  have hnil : placed = [] := List.append_right_eq_self.mp hqueued.symm
  rw [← forall₂_carries_iff.mp hplaced] at hnil
  exact List.map_eq_nil_iff.mp hnil

theorem allOrNothing_of_refused {r : Refusal}
    (hanswer : (state.postEvents now batch tx).1 = .error r)
    (hqueued : (state.postEvents now batch tx).2.queued = tx.queued) :
    state.AllOrNothing now batch tx := by
  refine ⟨⟨fun h => ?_, fun h => ?_⟩, fun _ => hqueued⟩
  · rw [hanswer] at h
    cases h
  · obtain ⟨hne, placed, hplaced, hall⟩ := h
    exact absurd (eq_nil_of_carried hplaced (hqueued.symm.trans hall)) hne

theorem allOrNothing_of_accepted (hne : batch ≠ [])
    (hanswer : (state.postEvents now batch tx).1 = .ok .accepted)
    (hqueued : (state.postEvents now batch tx).2.queued =
      tx.queued ++ batch.map state.pseudonymizeAndSerialize) :
    state.AllOrNothing now batch tx :=
  ⟨⟨fun _ => ⟨hne, _, forall₂_carries_iff.mpr rfl, hqueued⟩, fun _ => hanswer⟩,
    fun h => absurd hanswer h⟩

/-- A closed channel takes nothing of a batch that is answered as accepted. -/
theorem not_allOrNothing_of_closed (hok : ¬ state.Malformed now batch)
    (hclosed : tx.closed = true) : ¬ state.AllOrNothing now batch tx := by
  intro h
  have hpost : state.postEvents now batch tx = (.ok .accepted, tx) :=
    (postEvents_of_wellFormed hok).trans (enqueue_of_closed hclosed)
  obtain ⟨hne, placed, hplaced, hqueued⟩ := h.accepted_iff.mp (by rw [hpost])
  rw [hpost] at hqueued
  exact hne (eq_nil_of_carried hplaced hqueued)

/-- An open channel with room for some of the batch but not for all of it keeps what it took. -/
theorem allOrNothing_iff_of_open (hok : ¬ state.Malformed now batch) (hopen : tx.closed = false) :
    state.AllOrNothing now batch tx ↔ tx.free = 0 ∨ batch.length ≤ tx.free := by
  have hne : batch ≠ [] := fun hnil => hok (Or.inl hnil)
  obtain ⟨hanswer, hqueued⟩ := enqueue_of_open state batch hopen
  rw [← postEvents_of_wellFormed hok] at hanswer hqueued
  by_cases hroom : batch.length ≤ tx.free
  · rw [if_pos hroom] at hanswer
    rw [List.take_of_length_le hroom] at hqueued
    exact iff_of_true (allOrNothing_of_accepted hne hanswer hqueued) (Or.inr hroom)
  · rw [if_neg hroom] at hanswer
    constructor
    · intro h
      have hkept := h.untouched (by rw [hanswer]; nofun)
      rw [hqueued, List.append_right_eq_self, List.map_eq_nil_iff, List.take_eq_nil_iff] at hkept
      exact Or.inl (hkept.resolve_right hne)
    · intro h
      have hfull : tx.free = 0 := h.resolve_right hroom
      rw [hfull, List.take_zero, List.map_nil, List.append_nil] at hqueued
      exact allOrNothing_of_refused hanswer hqueued

/-- Nothing is left half done when the batch is turned away before the loop, or finds an open
channel with room for all of it or for none of it. -/
theorem postEvents_allOrNothing_iff (state : AppState) (now : Int) (batch : List Event)
    (tx : Channel QueuedMessage) :
    state.AllOrNothing now batch tx ↔
      state.Malformed now batch ∨
        (tx.closed = false ∧ (tx.free = 0 ∨ batch.length ≤ tx.free)) := by
  by_cases hbad : state.Malformed now batch
  · obtain ⟨msg, hpost⟩ := postEvents_of_malformed hbad tx
    refine iff_of_true (allOrNothing_of_refused (r := .badRequest msg) ?_ ?_) (Or.inl hbad)
    · rw [hpost]
    · rw [hpost]
  · rw [or_iff_right hbad]
    cases hclosed : tx.closed with
    | true => exact iff_of_false (not_allOrNothing_of_closed hbad hclosed) (by simp)
    | false => simpa using allOrNothing_iff_of_open hbad hclosed

/-- A gateway with the salt `salt1`, as it is for Alice's edits at the epoch. -/
def aliceGateway : AppState where
  pseudonymize _ := "6452e4c6223f22e9ef3e9754e5030ca67d52210dc71c78e066e3717b3406e03e"
  toVec e := ("\x7b\"event_id\":\"00000000-0000-0000-0000-00000000000" ++
    toString e.eventId.toNat ++ "\",\"user\":\"" ++ e.user ++
    "\",\"ts\":\"1970-01-01T00:00:00Z\",\"family\":\"" ++ e.family ++ "\",\"wiki\":\"" ++ e.wiki ++
    "\",\"namespace\":" ++ toString e.ns ++ ",\"kind\":\"edit\",\"is_bot\":false\x7d").toUTF8.toList
  showUuid id := "00000000-0000-0000-0000-00000000000" ++ toString id.toNat
  showTs _ := "1970-01-01 00:00:00 UTC"
  maxBatchEvents := 5000

def aliceBatch : List Event := [evt 0 1 "Alice", evt 0 2 "Alice"]

theorem aliceBatch_wellFormed : ¬ aliceGateway.Malformed 0 aliceBatch := by
  unfold Malformed aliceBatch
  decide

/-- Two events find one free place: the first is queued and the answer is 503. On a channel that
is closed neither is queued and the answer is 202. -/
theorem postEvents_halfDone :
    ¬ aliceGateway.AllOrNothing 0 aliceBatch ⟨1, [], false, Nat.zero_le 1⟩ ∧
      ¬ aliceGateway.AllOrNothing 0 aliceBatch ⟨1, [], true, Nat.zero_le 1⟩ := by
  constructor
  · intro h
    rcases (allOrNothing_iff_of_open aliceBatch_wellFormed rfl).mp h with hfull | hroom
    · exact absurd hfull (by decide)
    · exact absurd hroom (by decide)
  · exact not_allOrNothing_of_closed aliceBatch_wellFormed rfl

end AppState

end HushEngine
