import HushEngine.Ingest
import HushEngine.Keyed
import HushEngine.Runs
import Mathlib.Algebra.Order.Group.Multiset
import Mathlib.Tactic.Abel

/-!
From accepted batches to the topic. Handlers put messages on the channel one at a
time and side by side; the producer loop takes each one and leaves it to a task
of its own, and Kafka appends what the tasks send in any order. A message that
was placed is at every moment in exactly one of four places.
-/
namespace HushEngine

open Keyed Runs

/-- What `post_events` does before it enqueues. -/
def AppState.check (state : AppState) (now : Int) (batch : List Event) : Except Refusal Unit :=
  if batch.isEmpty then .error (.badRequest "event batch must not be empty")
  else if batch.length > state.maxBatchEvents then
    .error (.badRequest ("batch of " ++ toString batch.length ++ " events exceeds max of " ++
      toString state.maxBatchEvents))
  else
    match validateEach now batch with
    | .error err => .error (.badRequest (state.message err))
    | .ok () => .ok ()

/-- The handler without anything in between is the check and then the loop. -/
theorem AppState.postEvents_eq_check (state : AppState) (now : Int) (batch : List Event)
    (tx : Channel QueuedMessage) : state.postEvents now batch tx =
      match state.check now batch with
      | .error r => (.error r, tx)
      | .ok () => state.enqueue batch tx := by
  unfold postEvents check
  split_ifs
  · rfl
  · rfl
  · cases validateEach now batch <;> rfl

theorem AppState.check_error {state : AppState} {now : Int} {batch : List Event} {r : Refusal}
    (h : state.check now batch = .error r) : ∃ msg, r = .badRequest msg := by
  unfold check at h
  split_ifs at h
  · exact ⟨_, (Except.error.inj h).symm⟩
  · exact ⟨_, (Except.error.inj h).symm⟩
  · split at h
    · exact ⟨_, (Except.error.inj h).symm⟩
    · cases h

theorem AppState.check_eq_ok {state : AppState} {now : Int} {batch : List Event}
    (h : ¬ state.Malformed now batch) : state.check now batch = .ok () := by
  unfold Malformed at h
  push Not at h
  obtain ⟨hne, hlen, hvalid⟩ := h
  unfold check
  rw [if_neg (by simpa using hne), if_neg (by omega), validateEach_ok_iff.mpr hvalid]

/-- A batch whose first events have been tried. -/
structure Posting where
  batch : List Event
  rest : List Event

structure Answer where
  id : Nat
  batch : List Event
  result : Except Refusal StatusCode

/-- The gateway process and the topic it writes to. `placed` records what went on the channel and
for which request, `lost` what was on its way when it was given up. -/
structure IngestGateway where
  tx : Channel QueuedMessage
  nextId : Nat
  postings : Table Nat Posting
  answers : List Answer
  placed : List (Nat × Event)
  /-- With a task, and not yet in the topic. -/
  sending : List QueuedMessage
  /-- In the topic, and its task has not been told. -/
  unconfirmed : List QueuedMessage
  topic : List QueuedMessage
  lost : List QueuedMessage
  produced : Nat
  produceErrors : Nat

inductive IngestAction
  | post (now : Int) (batch : List Event)
  | enqueue (id : Nat)
  | recv
  /-- Kafka appends a message; its idempotent producer does so once. -/
  | append (m : QueuedMessage)
  /-- `send` returns `Ok`. -/
  | confirm (m : QueuedMessage)
  /-- `send` returns `Err`, for a message that is not in the topic or for one that is. -/
  | expire (m : QueuedMessage)
  | expireWritten (m : QueuedMessage)
  | crash

namespace IngestGateway

def start (capacity : Nat) : IngestGateway where
  tx := ⟨capacity, [], false, Nat.zero_le _⟩
  nextId := 0
  postings := ∅
  answers := []
  placed := []
  sending := []
  unconfirmed := []
  topic := []
  lost := []
  produced := 0
  produceErrors := 0

def answer (s : IngestGateway) (id : Nat) (batch : List Event)
    (result : Except Refusal StatusCode) : IngestGateway :=
  { s with postings := s.postings.erase id, answers := ⟨id, batch, result⟩ :: s.answers }

/-- One round of the enqueue loop of a request, or its end. -/
def tryNext (state : AppState) (s : IngestGateway) (id : Nat) (q : Posting) : IngestGateway :=
  match q.rest with
  | [] => s.answer id q.batch (.ok .accepted)
  | e :: rest =>
    match s.tx.trySend (state.pseudonymizeAndSerialize e) with
    | .ok tx =>
      { s with
        tx, postings := s.postings.insert id ⟨q.batch, rest⟩, placed := s.placed ++ [(id, e)] }
    | .error (.full _) => s.answer id q.batch (.error .backpressure)
    | .error (.closed _) => { s with postings := s.postings.insert id ⟨q.batch, rest⟩ }

def step (state : AppState) (s : IngestGateway) : IngestAction → Option IngestGateway
  | .post now batch =>
    match state.check now batch with
    | .error r => some
        { s with nextId := s.nextId + 1, answers := ⟨s.nextId, batch, .error r⟩ :: s.answers }
    | .ok () => some
        { s with nextId := s.nextId + 1, postings := s.postings.insert s.nextId ⟨batch, batch⟩ }
  | .enqueue id => (s.postings.lookup id).map (s.tryNext state id)
  | .recv => s.tx.recv.map fun r => { s with tx := r.2, sending := s.sending ++ [r.1] }
  | .append m =>
    if m ∈ s.sending then some { s with
      sending := s.sending.erase m, unconfirmed := s.unconfirmed ++ [m], topic := s.topic ++ [m] }
    else none
  | .confirm m =>
    if m ∈ s.unconfirmed then
      some { s with unconfirmed := s.unconfirmed.erase m, produced := s.produced + 1 }
    else none
  | .expire m =>
    if m ∈ s.sending then some { s with
      sending := s.sending.erase m, lost := s.lost ++ [m], produceErrors := s.produceErrors + 1 }
    else none
  | .expireWritten m =>
    if m ∈ s.unconfirmed then
      some { s with unconfirmed := s.unconfirmed.erase m, produceErrors := s.produceErrors + 1 }
    else none
  | .crash => some { start s.tx.capacity with
      nextId := s.nextId, answers := s.answers, placed := s.placed, topic := s.topic,
      lost := s.lost ++ s.sending ++ s.tx.queued }

/-- What a request has placed, in its order. -/
def placedBy (s : IngestGateway) (id : Nat) : List Event :=
  (s.placed.filter fun r => decide (r.1 = id)).map Prod.snd

end IngestGateway

/-- An accepted batch has been placed, all of it; one that met a full channel up to some event; a
malformed one not at all. -/
def Answer.Truthful (a : Answer) (placed : List Event) : Prop :=
  match a.result with
  | .ok _ => placed = a.batch
  | .error r => (∃ msg, r = .badRequest msg ∧ placed = []) ∨
      (r = .backpressure ∧ ∃ e rest, placed ++ e :: rest = a.batch)

namespace IngestGateway

/-- Every placed message is in one place, and every request stands where it says. -/
structure Sound (state : AppState) (s : IngestGateway) : Prop where
  conserved : ((s.placed.map fun r => state.pseudonymizeAndSerialize r.2 : List QueuedMessage) :
    Multiset QueuedMessage) = s.topic + s.lost + s.sending + s.tx.queued
  opened : s.tx.closed = false
  placed : ∀ r ∈ s.placed, r.1 < s.nextId
  postings : ∀ id q, s.postings.lookup id = some q →
    id < s.nextId ∧ s.placedBy id ++ q.rest = q.batch
  answers : ∀ a ∈ s.answers, a.id < s.nextId ∧ s.postings.lookup a.id = none ∧
    a.Truthful (s.placedBy a.id)

theorem sound_start (state : AppState) (capacity : Nat) : Sound state (start capacity) where
  conserved := rfl
  opened := rfl
  placed r hr := by cases hr
  postings id q hq := by cases hq
  answers a ha := by cases ha

theorem placedBy_of_unused {s : IngestGateway} {id : Nat} (h : ∀ r ∈ s.placed, r.1 < id) :
    s.placedBy id = [] := by
  unfold placedBy
  rw [List.filter_eq_nil_iff.mpr fun r hr => by simpa using (h r hr).ne, List.map_nil]

section Steps

variable {state : AppState} {s t : IngestGateway}

/-- What a request adds is its own. -/
theorem Sound.place (h : Sound state s) {id : Nat} {q : Posting} {e : Event} {rest : List Event}
    (hq : s.postings.lookup id = some q) (hrest : q.rest = e :: rest) {tx : Channel QueuedMessage}
    (htx : tx.queued = s.tx.queued ++ [state.pseudonymizeAndSerialize e])
    (hopen : tx.closed = false) : Sound state { s with
      tx, postings := s.postings.insert id ⟨q.batch, rest⟩, placed := s.placed ++ [(id, e)] } := by
  obtain ⟨hid, hplaced⟩ := h.postings id q hq
  have hself : ∀ id', ((s.placed ++ [(id, e)]).filter fun r => decide (r.1 = id')).map Prod.snd =
      s.placedBy id' ++ if id = id' then [e] else [] := by
    intro id'
    rw [List.filter_append, List.map_append]
    by_cases hsame : id = id' <;> simp [placedBy, hsame]
  refine ⟨?_, hopen, ?_, fun id' q' hq' => ?_, fun a ha => ?_⟩
  · rw [htx, List.map_append, ← Multiset.coe_add, ← Multiset.coe_add, h.conserved]
    simp only [List.map_cons, List.map_nil, add_assoc]
  · intro r hr
    rcases List.mem_append.mp hr with hold | hnew
    · exact h.placed r hold
    · obtain rfl := List.mem_singleton.mp hnew
      exact hid
  · unfold placedBy
    dsimp only at hq' ⊢
    rw [hself]
    by_cases hsame : id = id'
    · subst hsame
      rw [AList.lookup_insert] at hq'
      cases hq'
      rw [if_pos rfl, List.append_assoc, List.singleton_append, ← hrest]
      exact ⟨hid, hplaced⟩
    · rw [AList.lookup_insert_ne (Ne.symm hsame)] at hq'
      rw [if_neg hsame, List.append_nil]
      exact h.postings id' q' hq'
  · obtain ⟨ha', hnone, htruthful⟩ := h.answers a ha
    have hne : id ≠ a.id := by
      rintro rfl
      rw [hq] at hnone
      cases hnone
    unfold placedBy
    dsimp only
    rw [hself, if_neg hne, List.append_nil, AList.lookup_insert_ne hne.symm]
    exact ⟨ha', hnone, htruthful⟩

theorem Sound.answer (h : Sound state s) {id : Nat} {q : Posting}
    (hq : s.postings.lookup id = some q) {result : Except Refusal StatusCode}
    (htruthful : Answer.Truthful ⟨id, q.batch, result⟩ (s.placedBy id)) :
    Sound state (s.answer id q.batch result) := by
  refine ⟨h.conserved, h.opened, h.placed, fun id' q' hq' => ?_, fun a ha => ?_⟩
  · exact h.postings id' q' (lookup_of_erase hq').2
  · rcases List.mem_cons.mp ha with rfl | hold
    · exact ⟨(h.postings id q hq).1, AList.lookup_erase _ _, htruthful⟩
    · obtain ⟨ha', hnone, hrest⟩ := h.answers a hold
      refine ⟨ha', ?_, hrest⟩
      by_cases hsame : a.id = id
      · unfold IngestGateway.answer
        rw [hsame]
        exact AList.lookup_erase _ _
      · exact (AList.lookup_erase_ne hsame).trans hnone

theorem Sound.tryNext (h : Sound state s) {id : Nat} {q : Posting}
    (hq : s.postings.lookup id = some q) : Sound state (s.tryNext state id q) := by
  obtain ⟨_, hplaced⟩ := h.postings id q hq
  unfold IngestGateway.tryNext
  cases hrest : q.rest with
  | nil =>
    rw [hrest, List.append_nil] at hplaced
    exact h.answer hq hplaced
  | cons e rest =>
    dsimp only
    rcases Nat.eq_zero_or_pos s.tx.free with hfull | hfree
    · rw [Channel.trySend_of_full h.opened hfull]
      rw [hrest] at hplaced
      exact h.answer hq (Or.inr ⟨rfl, e, rest, hplaced⟩)
    · obtain ⟨tx, hsend, hqueued, _, hopen⟩ :=
        Channel.trySend_of_free h.opened hfree (state.pseudonymizeAndSerialize e)
      rw [hsend]
      exact h.place hq hrest hqueued hopen

theorem Sound.post (h : Sound state s) {now : Int} {batch : List Event}
    (hstep : step state s (.post now batch) = some t) : Sound state t := by
  have hold : ∀ a ∈ s.answers, a.id < s.nextId + 1 ∧ a.id ≠ s.nextId := fun a ha =>
    have hlt := (h.answers a ha).1
    ⟨hlt.trans (Nat.lt_succ_self _), hlt.ne⟩
  simp only [step] at hstep
  split at hstep
  · next r hcheck =>
    obtain ⟨msg, rfl⟩ := AppState.check_error hcheck
    cases hstep
    refine ⟨h.conserved, h.opened, fun r hr => (h.placed r hr).trans (Nat.lt_succ_self _),
      fun id q hq => ?_, fun a ha => ?_⟩
    · obtain ⟨hid, hplaced⟩ := h.postings id q hq
      exact ⟨hid.trans (Nat.lt_succ_self _), hplaced⟩
    · rcases List.mem_cons.mp ha with rfl | hmem
      · refine ⟨Nat.lt_succ_self _, ?_, Or.inl ⟨msg, rfl, placedBy_of_unused h.placed⟩⟩
        cases hlook : s.postings.lookup s.nextId with
        | none => rfl
        | some q => exact absurd (h.postings _ q hlook).1 (lt_irrefl _)
      · exact ⟨(hold a hmem).1, (h.answers a hmem).2⟩
  · cases hstep
    refine ⟨h.conserved, h.opened, fun r hr => (h.placed r hr).trans (Nat.lt_succ_self _),
      fun id q hq => ?_, fun a ha => ?_⟩
    · rcases lookup_of_insert hq with ⟨rfl, rfl⟩ | ⟨_, hq⟩
      · refine ⟨Nat.lt_succ_self _, ?_⟩
        exact congrArg (· ++ batch) (placedBy_of_unused h.placed)
      · obtain ⟨hid, hplaced⟩ := h.postings id q hq
        exact ⟨hid.trans (Nat.lt_succ_self _), hplaced⟩
    · obtain ⟨hlt, hne⟩ := hold a ha
      exact ⟨hlt, (AList.lookup_insert_ne hne).trans (h.answers a ha).2.1, (h.answers a ha).2.2⟩

theorem coe_snoc (ms : List QueuedMessage) (m : QueuedMessage) :
    ((ms ++ [m] : List QueuedMessage) : Multiset QueuedMessage) = ms + {m} := rfl

theorem coe_eq_add_erase {ms : List QueuedMessage} {m : QueuedMessage} (hm : m ∈ ms) :
    (ms : Multiset QueuedMessage) = ms.erase m + {m} := by
  rw [← coe_snoc, Multiset.coe_eq_coe]
  exact (List.perm_cons_erase hm).trans (List.perm_append_singleton m _).symm

/-- What moves between the four places stays among them. -/
theorem Sound.moved (h : Sound state s) {tx : Channel QueuedMessage}
    {sending unconfirmed topic lost : List QueuedMessage} (produced produceErrors : Nat)
    (hopen : tx.closed = s.tx.closed)
    (hmoved : (topic + lost + sending + tx.queued : Multiset QueuedMessage) =
      s.topic + s.lost + s.sending + s.tx.queued) :
    Sound state { s with tx, sending, unconfirmed, topic, lost, produced, produceErrors } :=
  ⟨h.conserved.trans hmoved.symm, hopen.trans h.opened, h.placed, h.postings, h.answers⟩

theorem Sound.step {a : IngestAction} (h : Sound state s)
    (hstep : IngestGateway.step state s a = some t) : Sound state t := by
  cases a with
  | post now batch => exact h.post hstep
  | enqueue id =>
    obtain ⟨q, hq, rfl⟩ := Option.map_eq_some_iff.mp hstep
    exact h.tryNext hq
  | recv =>
    obtain ⟨⟨m, tx⟩, hrecv, rfl⟩ := Option.map_eq_some_iff.mp hstep
    obtain ⟨hqueued, hclosed, _⟩ := Channel.recv_eq_some hrecv
    refine h.moved _ _ hclosed ?_
    have hhead : (s.tx.queued : Multiset QueuedMessage) = {m} + tx.queued := by
      rw [hqueued]
      rfl
    rw [hhead, coe_snoc]
    abel
  | append m =>
    simp only [IngestGateway.step] at hstep
    split_ifs at hstep with hm
    cases hstep
    refine h.moved _ _ rfl ?_
    rw [coe_eq_add_erase hm, coe_snoc]
    abel
  | confirm m =>
    simp only [IngestGateway.step] at hstep
    split_ifs at hstep
    cases hstep
    exact h.moved _ _ rfl rfl
  | expire m =>
    simp only [IngestGateway.step] at hstep
    split_ifs at hstep with hm
    cases hstep
    refine h.moved _ _ rfl ?_
    rw [coe_eq_add_erase hm, coe_snoc]
    abel
  | expireWritten m =>
    simp only [IngestGateway.step] at hstep
    split_ifs at hstep
    cases hstep
    exact h.moved _ _ rfl rfl
  | crash =>
    cases hstep
    refine ⟨?_, rfl, h.placed, fun id q hq => (by cases hq), fun a ha => ?_⟩
    · simp only [start, h.conserved, ← Multiset.coe_add, Multiset.coe_nil]
      abel
    · exact ⟨(h.answers a ha).1, rfl, (h.answers a ha).2.2⟩

end Steps

/-- The metrics account for what left the sending tasks, since the process started. -/
structure Counted (s : IngestGateway) : Prop where
  settled : s.topic.length + s.lost.length = s.produced + s.produceErrors + s.unconfirmed.length
  lost_le : s.lost.length ≤ s.produceErrors

theorem Counted.step {state : AppState} {s t : IngestGateway} {a : IngestAction} (h : Counted s)
    (hlive : a ≠ .crash) (hstep : IngestGateway.step state s a = some t) : Counted t := by
  obtain ⟨hsettled, hlost⟩ := h
  cases a with
  | post now batch =>
    simp only [IngestGateway.step] at hstep
    split at hstep <;> cases hstep <;> exact ⟨hsettled, hlost⟩
  | enqueue id =>
    obtain ⟨q, _, rfl⟩ := Option.map_eq_some_iff.mp hstep
    unfold tryNext
    split
    · exact ⟨hsettled, hlost⟩
    · split <;> exact ⟨hsettled, hlost⟩
  | recv =>
    obtain ⟨r, _, rfl⟩ := Option.map_eq_some_iff.mp hstep
    exact ⟨hsettled, hlost⟩
  | append m =>
    simp only [IngestGateway.step] at hstep
    split_ifs at hstep
    cases hstep
    refine ⟨?_, hlost⟩
    simp only [List.length_append, List.length_singleton]
    omega
  | confirm m =>
    simp only [IngestGateway.step] at hstep
    split_ifs at hstep with hm
    cases hstep
    have hlen := List.length_erase_add_one hm
    exact ⟨by dsimp only; omega, hlost⟩
  | expire m =>
    simp only [IngestGateway.step] at hstep
    split_ifs at hstep
    cases hstep
    constructor
    all_goals
      simp only [List.length_append, List.length_singleton]
      omega
  | expireWritten m =>
    simp only [IngestGateway.step] at hstep
    split_ifs at hstep with hm
    cases hstep
    have hlen := List.length_erase_add_one hm
    exact ⟨by dsimp only; omega, by dsimp only; omega⟩
  | crash => exact absurd rfl hlive

theorem counted_of_run {state : AppState} {capacity : Nat} {actions : List IngestAction}
    {s : IngestGateway} (hrun : Run (step state) free (start capacity) actions s)
    (hlive : ∀ a ∈ actions, a ≠ .crash) : Counted s := by
  have hguarded : Run (step state) (fun _ a => a ≠ .crash) (start capacity) actions s :=
    hrun.strengthen fun pre a post _ _ heq _ _ _ => hlive a (by rw [heq]; simp)
  exact hguarded.invariant (fun _ _ _ hs hguard hstep => hs.step hguard hstep) ⟨rfl, le_rfl⟩

/-- Whatever the handlers, the producer and Kafka do in between, each message that was placed is
waiting, with a task, in the topic or lost, and in one of them only. What was placed is what the
answers say, and what is lost has been counted unless the process has died. -/
theorem placed_once (state : AppState) (capacity : Nat) (actions : List IngestAction)
    (s : IngestGateway) (hrun : Run (step state) free (start capacity) actions s) :
    (s.placed.map fun r => state.pseudonymizeAndSerialize r.2).Perm
      (s.topic ++ s.lost ++ s.sending ++ s.tx.queued) ∧
    (∀ a ∈ s.answers, a.Truthful (s.placedBy a.id)) ∧
    ((∀ a ∈ actions, a ≠ .crash) → s.lost.length ≤ s.produceErrors ∧
      s.topic.length + s.lost.length = s.produced + s.produceErrors + s.unconfirmed.length) := by
  have hsound := hrun.invariant (fun _ _ _ hs _ hstep => Sound.step hs hstep)
    (sound_start state capacity)
  refine ⟨Multiset.coe_eq_coe.mp hsound.conserved, fun a ha => (hsound.answers a ha).2.2, ?_⟩
  intro hlive
  have hcounted := counted_of_run hrun hlive
  exact ⟨hcounted.lost_le, hcounted.settled⟩

/-- Two batches of two events on a channel with two places: one is refused halfway. -/
def sampleIngest : List IngestAction :=
  [.post 0 AppState.aliceBatch, .post 0 AppState.aliceBatch, .enqueue 0, .enqueue 1, .enqueue 0,
    .recv, .recv, .enqueue 1, .enqueue 1]

theorem placed_once_sample :
    ∃ s, Run (step AppState.aliceGateway) free (start 2) sampleIngest s ∧
      s.answers.map (fun a => (a.id, a.result.isOk)) = [(1, true), (0, false)] ∧
      s.sending.length + s.tx.queued.length = 3 ∧
      ∀ a ∈ s.answers, a.Truthful (s.placedBy a.id) := by
  have hexec : (execute (step AppState.aliceGateway) free (start 2) sampleIngest).map
      (fun s => (s.answers.map (fun a => (a.id, a.result.isOk)),
        s.sending.length + s.tx.queued.length)) = some ([(1, true), (0, false)], 3) := by
    decide
  obtain ⟨s, hs, hdone⟩ := Option.map_eq_some_iff.mp hexec
  obtain ⟨hanswers, hlength⟩ := Prod.mk.inj hdone
  exact ⟨s, run_of_execute hs, hanswers, hlength,
    (placed_once AppState.aliceGateway 2 sampleIngest s (run_of_execute hs)).2.1⟩

section Unhurried

variable {state : AppState} {s : IngestGateway}

variable (state) in
/-- A handler that nothing comes in between does what `enqueue` does. -/
theorem run_enqueue {id : Nat} {batch rest : List Event}
    (hq : s.postings.lookup id = some ⟨batch, rest⟩) :
    ∃ k t, Run (step state) free s (List.replicate k (.enqueue id)) t ∧
      t.tx = (state.enqueue rest s.tx).2 ∧
      t.answers = ⟨id, batch, (state.enqueue rest s.tx).1⟩ :: s.answers ∧
      t.sending = s.sending := by
  induction rest generalizing s with
  | nil =>
    refine ⟨1, s.answer id batch (.ok .accepted), .cons trivial ?_ (.nil _), rfl, rfl, rfl⟩
    simp only [step, hq, Option.map_some, tryNext]
  | cons e rest ih =>
    unfold AppState.enqueue
    cases hsend : s.tx.trySend (state.pseudonymizeAndSerialize e) with
    | ok tx =>
      obtain ⟨k, t, hrun, htx, hanswers, hsending⟩ := ih (s := { s with
        tx, postings := s.postings.insert id ⟨batch, rest⟩, placed := s.placed ++ [(id, e)] })
        (AList.lookup_insert _)
      refine ⟨k + 1, t, .cons trivial ?_ hrun, htx, hanswers, hsending⟩
      simp only [step, hq, Option.map_some, tryNext, hsend]
    | error err =>
      cases err with
      | full m =>
        refine ⟨1, s.answer id batch (.error .backpressure), .cons trivial ?_ (.nil _), rfl, rfl,
          rfl⟩
        simp only [step, hq, Option.map_some, tryNext, hsend]
      | closed m =>
        obtain ⟨k, t, hrun, htx, hanswers, hsending⟩ := ih (s := { s with
          postings := s.postings.insert id ⟨batch, rest⟩ }) (AList.lookup_insert _)
        refine ⟨k + 1, t, .cons trivial ?_ hrun, htx, hanswers, hsending⟩
        simp only [step, hq, Option.map_some, tryNext, hsend]

/-- A batch of one event, accepted and taken off the channel before the next comes. -/
theorem run_accept_one {now : Int} {e : Event} (hcheck : state.check now [e] = .ok ())
    (hopen : s.tx.closed = false) (hempty : s.tx.queued = []) (hcapacity : 0 < s.tx.capacity) :
    ∃ actions t, Run (step state) free s actions t ∧ t.tx.closed = false ∧ t.tx.queued = [] ∧
      t.tx.capacity = s.tx.capacity ∧ t.sending.length = s.sending.length + 1 ∧
      t.answers = ⟨s.nextId, [e], .ok .accepted⟩ :: s.answers := by
  have hfree : 0 < s.tx.free := by
    unfold Channel.free
    rw [hempty]
    exact hcapacity
  obtain ⟨tx, hsend, hqueued, _, hopen'⟩ :=
    Channel.trySend_of_free hopen hfree (state.pseudonymizeAndSerialize e)
  have henqueue : state.enqueue [e] s.tx = (.ok .accepted, tx) := by
    simp only [AppState.enqueue, hsend]
  have hpost : step state s (.post now [e]) = some { s with
      nextId := s.nextId + 1, postings := s.postings.insert s.nextId ⟨[e], [e]⟩ } := by
    simp only [step, hcheck]
  obtain ⟨k, u, hrun, htx, hanswers, hsending⟩ := run_enqueue state (s := { s with
      nextId := s.nextId + 1, postings := s.postings.insert s.nextId ⟨[e], [e]⟩ })
    (AList.lookup_insert _)
  rw [henqueue] at htx hanswers
  rw [hempty, List.nil_append] at hqueued
  obtain ⟨tx', hrecv⟩ := Channel.recv_of_cons hqueued
  obtain ⟨hrest, hclosed, hcap⟩ := Channel.recv_eq_some hrecv
  rw [hqueued] at hrest
  refine ⟨.post now [e] :: (List.replicate k (.enqueue s.nextId) ++ [.recv]), { u with
      tx := tx', sending := u.sending ++ [state.pseudonymizeAndSerialize e] },
    .cons trivial hpost (hrun.append (.cons trivial ?_ (.nil _))), hclosed.trans hopen',
    (List.cons.inj hrest).2.symm, hcap.trans (Channel.trySend_capacity hsend), ?_, hanswers⟩
  · simp only [step, htx, hrecv, Option.map_some]
  · rw [List.length_append, hsending, List.length_singleton]

end Unhurried

/-- The channel bounds what waits in it and nothing else: with a single place, any number of
batches can be accepted and any number of tasks be sending at once. -/
theorem sending_unbounded (state : AppState) (capacity : Nat) (hcapacity : 0 < capacity)
    (now : Int) (e : Event) (hvalid : ¬ state.Malformed now [e]) (n : Nat) :
    ∃ actions s, Run (step state) free (start capacity) actions s ∧ s.tx.queued = [] ∧
      s.sending.length = n ∧ s.answers.length = n ∧ ∀ a ∈ s.answers, a.result = .ok .accepted := by
  have hruns : ∃ actions s, Run (step state) free (start capacity) actions s ∧
      s.tx.closed = false ∧ s.tx.queued = [] ∧ s.tx.capacity = capacity ∧ s.sending.length = n ∧
      s.answers.length = n ∧ ∀ a ∈ s.answers, a.result = .ok .accepted := by
    induction n with
    | zero => exact ⟨[], _, .nil _, rfl, rfl, rfl, rfl, rfl, by simp [start]⟩
    | succ n ih =>
      obtain ⟨actions, s, hrun, hopen, hempty, hcap, hsending, hlength, haccepted⟩ := ih
      obtain ⟨actions', t, hrun', hopen', hempty', hcap', hsending', hanswers⟩ :=
        run_accept_one (AppState.check_eq_ok hvalid) hopen hempty (by rw [hcap]; exact hcapacity)
      refine ⟨actions ++ actions', t, hrun.append hrun', hopen', hempty', hcap'.trans hcap,
        by omega, by rw [hanswers, List.length_cons, hlength], ?_⟩
      rw [hanswers]
      exact List.forall_mem_cons.mpr ⟨rfl, haccepted⟩
  obtain ⟨actions, s, hrun, _, hempty, _, hrest⟩ := hruns
  exact ⟨actions, s, hrun, hempty, hrest⟩

/-- A thousand tasks behind a channel with one place. -/
theorem sending_unbounded_thousand :
    ∃ actions s, Run (step AppState.aliceGateway) free (start 1) actions s ∧
      s.sending.length = 1000 := by
  have hvalid : ¬ AppState.aliceGateway.Malformed 0 [evt 0 1 "Alice"] := by
    unfold AppState.Malformed
    decide
  obtain ⟨actions, s, hrun, _, hsending, _⟩ :=
    sending_unbounded AppState.aliceGateway 1 Nat.one_pos 0 (evt 0 1 "Alice") hvalid 1000
  exact ⟨actions, s, hrun, hsending⟩

end IngestGateway

end HushEngine
