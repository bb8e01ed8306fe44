import HushEngine.Mapping
import HushEngine.Runs

/-!
The wiki source's connections to the stream. The position to resume from moves
when a message is read; the batch that holds its event belongs to one
connection, is emptied by a POST whatever the answer, and is dropped with the
connection when the stream fails.
-/
namespace HushEngine

open Runs

/-- A server-sent event as the client library yields it. -/
structure SseMessage where
  id : String
  data : String
deriving DecidableEq

/-- `None` for every message that is skipped; `parse` is the JSON library's. -/
def readMessage (parse : String → Option RecentChange) (uuid : Uuid) (m : SseMessage) :
    Option Event :=
  if isBlank m.data then none else (parse m.data).bind fun rc => (toEvent uuid rc).toOption

/-- The stream: its messages, and the position at which it resumes after an id. -/
structure Upstream where
  log : Nat → SseMessage
  parse : String → Option RecentChange
  resume : String → Nat
  resumes : ∀ i, (log i).id ≠ "" → resume (log i).id = i + 1
  identified : ∀ i uuid e, readMessage parse uuid (log i) = some e → (log i).id ≠ ""

def Upstream.Mappable (up : Upstream) (i : Nat) : Prop :=
  ∃ uuid e, readMessage up.parse uuid (up.log i) = some e

/-- A message is read as an event when it has data that parses and is mapped. -/
theorem readMessage_eq_some_iff {parse : String → Option RecentChange} {uuid : Uuid}
    {m : SseMessage} {e : Event} : readMessage parse uuid m = some e ↔
      isBlank m.data = false ∧ ∃ rc, parse m.data = some rc ∧ toEvent uuid rc = .ok e := by
  unfold readMessage
  split_ifs with hblank
  · simp [hblank]
  · rw [Option.bind_eq_some_iff]
    simp only [Bool.not_eq_true] at hblank
    simp only [hblank, true_and]
    refine exists_congr fun rc => and_congr_right' ?_
    cases toEvent uuid rc with
    | error err => exact iff_of_false nofun nofun
    | ok e' =>
      exact ⟨fun h => congrArg _ (Option.some.inj h), fun h => congrArg _ (Except.ok.inj h)⟩

theorem readMessage_uuid {parse : String → Option RecentChange} {uuid : Uuid} {m : SseMessage}
    {e : Event} (h : readMessage parse uuid m = some e) (uuid' : Uuid) :
    readMessage parse uuid' m = some { e with eventId := uuid' } := by
  obtain ⟨hdata, rc, hrc, hmap⟩ := readMessage_eq_some_iff.mp h
  exact readMessage_eq_some_iff.mpr ⟨hdata, rc, hrc, toEvent_uuid hmap uuid'⟩

theorem Upstream.mappable_iff (up : Upstream) (uuid : Uuid) (i : Nat) :
    up.Mappable i ↔ ∃ e, readMessage up.parse uuid (up.log i) = some e := by
  constructor
  · rintro ⟨_, _, h⟩
    exact ⟨_, readMessage_uuid h uuid⟩
  · rintro ⟨e, h⟩
    exact ⟨uuid, e, h⟩

theorem Upstream.Mappable.identified {up : Upstream} {i : Nat} (h : up.Mappable i) :
    (up.log i).id ≠ "" := by
  obtain ⟨uuid, e, hread⟩ := h
  exact up.identified i uuid e hread

/-- What comes of a POST: a status of success, another status, or an error. -/
inductive GatewayReply
  | success
  | rejected
  | failed
deriving DecidableEq

/-- `BACKOFF_INITIAL`, in seconds. -/
def backoffInitial : Nat := 1

/-- `BACKOFF_MAX`, in seconds. -/
def backoffMax : Nat := 30

/-- One attempt of `connect_and_consume`: the position it reads next and its batch, in which every
event is listed with the position it was read at. -/
structure Connection where
  cursor : Nat
  batch : List (Nat × Event)
deriving DecidableEq

/-- What `run` keeps, the attempt it is in, the position at which the server first let it in, and
the positions whose events were in a batch answered with success. -/
structure Source where
  lastEventId : Option String
  backoff : Nat
  connection : Option Connection
  origin : Nat
  acked : List Nat
deriving DecidableEq

/-- `connect start`: `start` is where the server begins for a client that sends no id. -/
inductive SourceAction
  | connect (start : Nat)
  | connectFailed
  | message (uuid : Uuid) (reply : GatewayReply)
  | tick (reply : GatewayReply)
  | streamError
  | streamEnd (reply : GatewayReply)
deriving DecidableEq

namespace Source

def new : Source := ⟨none, backoffInitial, none, 0, []⟩

/-- What `run` does after an attempt that failed. -/
def backOff (s : Source) : Source :=
  { s with connection := none, backoff := min (s.backoff * 2) backoffMax }

/-- `flush`: the batch is taken before it is sent, and an empty one is not sent. -/
def flush (s : Source) (c : Connection) (reply : GatewayReply) : Source :=
  if c.batch.isEmpty then { s with connection := some c }
  else
    let taken := { s with connection := some { c with batch := [] } }
    match reply with
    | .success => { taken with acked := s.acked ++ c.batch.map Prod.fst }
    | .rejected => taken
    | .failed => taken

/-- The resume position after the message has been read. -/
def advance (s : Source) (m : SseMessage) : Source :=
  if m.id = "" then s else { s with lastEventId := some m.id }

def receive (up : Upstream) (batchMaxEvents : Nat) (s : Source) (c : Connection) (uuid : Uuid)
    (reply : GatewayReply) : Source :=
  let s := s.advance (up.log c.cursor)
  match readMessage up.parse uuid (up.log c.cursor) with
  | none => { s with connection := some { c with cursor := c.cursor + 1 } }
  | some e =>
    let c := ⟨c.cursor + 1, c.batch ++ [(c.cursor, e)]⟩
    if batchMaxEvents ≤ c.batch.length then s.flush c reply
    else { s with connection := some c }

def step (up : Upstream) (batchMaxEvents : Nat) (s : Source) : SourceAction → Option Source
  | .connect start =>
    match s.connection, s.lastEventId with
    | some _, _ => none
    | none, none => some { s with connection := some ⟨start, []⟩, origin := start }
    | none, some id => some { s with connection := some ⟨up.resume id, []⟩ }
  | .connectFailed => if s.connection = none then some s.backOff else none
  | .message uuid reply => s.connection.map fun c => s.receive up batchMaxEvents c uuid reply
  | .tick reply => s.connection.map fun c => s.flush c reply
  | .streamError => s.connection.map fun _ => s.backOff
  | .streamEnd reply => s.connection.map fun c =>
    { s.flush c reply with connection := none, backoff := backoffInitial }

/-- The events read but not yet sent. -/
def pending (s : Source) : List (Nat × Event) :=
  match s.connection with
  | none => []
  | some c => c.batch

/-- The first position past the current `last_event_id`. -/
def frontier (up : Upstream) (s : Source) : Nat :=
  match s.lastEventId with
  | none => s.origin
  | some id => up.resume id

/-- The next message is mapped and its event fills the batch. -/
def Fills (up : Upstream) (batchMaxEvents : Nat) (s : Source) (uuid : Uuid) : Prop :=
  ∃ c ∈ s.connection, (readMessage up.parse uuid (up.log c.cursor)).isSome ∧
    batchMaxEvents ≤ c.batch.length + 1

variable {up : Upstream} {batchMaxEvents : Nat} {s t : Source} {c : Connection}

/-- Whatever the answer, the batch is gone; its positions are kept on success. -/
theorem flush_eq (s : Source) (c : Connection) (reply : GatewayReply) :
    s.flush c reply = { s with
      connection := some ⟨c.cursor, []⟩
      acked := s.acked ++ if reply = .success then c.batch.map Prod.fst else [] } := by
  obtain ⟨cursor, batch⟩ := c
  unfold flush
  split_ifs with hempty hreply hreply
  · obtain rfl : batch = [] := List.isEmpty_iff.mp hempty
    simp
  · obtain rfl : batch = [] := List.isEmpty_iff.mp hempty
    simp
  · rw [hreply]
  · cases reply with
    | success => exact absurd rfl hreply
    | rejected => simp
    | failed => simp

@[simp] theorem flush_lastEventId (reply : GatewayReply) :
    (s.flush c reply).lastEventId = s.lastEventId := by rw [flush_eq]

@[simp] theorem flush_origin (reply : GatewayReply) :
    (s.flush c reply).origin = s.origin := by rw [flush_eq]

@[simp] theorem flush_connection (reply : GatewayReply) :
    (s.flush c reply).connection = some ⟨c.cursor, []⟩ := by rw [flush_eq]

@[simp] theorem flush_backoff (reply : GatewayReply) :
    (s.flush c reply).backoff = s.backoff := by rw [flush_eq]

@[simp] theorem flush_pending (reply : GatewayReply) : (s.flush c reply).pending = [] := by
  unfold pending
  rw [flush_connection]

@[simp] theorem flush_frontier (reply : GatewayReply) :
    (s.flush c reply).frontier up = s.frontier up := by
  simp only [frontier, flush_lastEventId, flush_origin]

theorem mem_flush_acked {reply : GatewayReply} {i : Nat} :
    i ∈ (s.flush c reply).acked ↔
      i ∈ s.acked ∨ (reply = .success ∧ i ∈ c.batch.map Prod.fst) := by
  rw [flush_eq, List.mem_append]
  split_ifs with hreply <;> simp [hreply]

theorem pending_eq (hc : s.connection = some c) : s.pending = c.batch := by
  unfold pending
  rw [hc]

theorem ne_nil_iff_exists_position {l : List (Nat × Event)} : l ≠ [] ↔ ∃ i, i ∈ l.map Prod.fst := by
  constructor
  · intro h
    obtain ⟨p, hp⟩ := List.exists_mem_of_ne_nil l h
    exact ⟨p.1, List.mem_map_of_mem hp⟩
  · rintro ⟨i, hi⟩ rfl
    cases hi

theorem pending_eq_nil (hc : s.connection = none) : s.pending = [] := by
  unfold pending
  rw [hc]

/-- The state after a message has been read and before the size of the batch is looked at. -/
def read (up : Upstream) (s : Source) (c : Connection) (uuid : Uuid) : Source :=
  { s.advance (up.log c.cursor) with
    connection := some ⟨c.cursor + 1, c.batch ++
      ((readMessage up.parse uuid (up.log c.cursor)).map fun e => (c.cursor, e)).toList⟩ }

theorem receive_eq (up : Upstream) (batchMaxEvents : Nat) (hc : s.connection = some c)
    (uuid : Uuid) (reply : GatewayReply) :
    (¬ s.Fills up batchMaxEvents uuid ∧
      s.receive up batchMaxEvents c uuid reply = s.read up c uuid) ∨
    (s.Fills up batchMaxEvents uuid ∧ ∃ c', (s.read up c uuid).connection = some c' ∧
      c'.batch ≠ [] ∧
      s.receive up batchMaxEvents c uuid reply = (s.read up c uuid).flush c' reply) := by
  have hfills : s.Fills up batchMaxEvents uuid ↔
      (readMessage up.parse uuid (up.log c.cursor)).isSome ∧
        batchMaxEvents ≤ c.batch.length + 1 := by
    unfold Fills
    rw [hc]
    simp
  unfold receive read
  cases hread : readMessage up.parse uuid (up.log c.cursor) with
  | none =>
    rw [hread] at hfills
    refine Or.inl ⟨fun h => absurd (hfills.mp h).1 (by simp), ?_⟩
    simp
  | some e =>
    rw [hread] at hfills
    simp only [Option.isSome_some, true_and] at hfills
    by_cases hfull : batchMaxEvents ≤ c.batch.length + 1
    · refine Or.inr ⟨hfills.mpr hfull, _, rfl, by simp, ?_⟩
      simp only [List.length_append, List.length_singleton, hfull, if_true, Option.map_some,
        Option.toList_some]
      rfl
    · refine Or.inl ⟨fun h => hfull (hfills.mp h), ?_⟩
      simp [hfull]

theorem advance_eq (s : Source) (m : SseMessage) :
    s.advance m = { s with lastEventId := if m.id = "" then s.lastEventId else some m.id } := by
  unfold advance
  split_ifs <;> rfl

theorem read_lastEventId (uuid : Uuid) : (s.read up c uuid).lastEventId =
    if (up.log c.cursor).id = "" then s.lastEventId else some (up.log c.cursor).id := by
  rw [read, advance_eq]

@[simp] theorem read_origin (uuid : Uuid) : (s.read up c uuid).origin = s.origin := by
  rw [read, advance_eq]

@[simp] theorem read_acked (uuid : Uuid) : (s.read up c uuid).acked = s.acked := by
  rw [read, advance_eq]

@[simp] theorem read_backoff (uuid : Uuid) : (s.read up c uuid).backoff = s.backoff := by
  rw [read, advance_eq]

theorem frontier_read (up : Upstream) (s : Source) (c : Connection) (uuid : Uuid) :
    (s.read up c uuid).frontier up =
      if (up.log c.cursor).id = "" then s.frontier up else c.cursor + 1 := by
  unfold frontier
  rw [read_lastEventId, read_origin]
  split_ifs with hid
  · rfl
  · exact up.resumes c.cursor hid

theorem mem_pending_read (hc : s.connection = some c) (uuid : Uuid) (i : Nat) :
    i ∈ (s.read up c uuid).pending.map Prod.fst ↔
      i ∈ s.pending.map Prod.fst ∨ (i = c.cursor ∧ up.Mappable i) := by
  have hnew : i = c.cursor ∧ up.Mappable i ↔
      i ∈ ((readMessage up.parse uuid (up.log c.cursor)).map fun e =>
        (c.cursor, e)).toList.map Prod.fst := by
    cases hread : readMessage up.parse uuid (up.log c.cursor) with
    | none =>
      simp only [Option.map_none, Option.toList_none, List.map_nil, List.not_mem_nil, iff_false]
      rintro ⟨rfl, hmap⟩
      obtain ⟨e, he⟩ := (up.mappable_iff uuid _).mp hmap
      rw [hread] at he
      cases he
    | some e =>
      simp only [Option.map_some, Option.toList_some, List.map_cons, List.map_nil,
        List.mem_singleton, and_iff_left_iff_imp]
      rintro rfl
      exact (up.mappable_iff uuid _).mpr ⟨e, hread⟩
  rw [hnew, pending_eq hc, ← List.mem_append, ← List.map_append]
  rfl

theorem connect_cases {start : Nat}
    (h : step up batchMaxEvents s (.connect start) = some t) :
    s.connection = none ∧
      ((s.lastEventId = none ∧ t = { s with connection := some ⟨start, []⟩, origin := start }) ∨
      ∃ id, s.lastEventId = some id ∧ t = { s with connection := some ⟨up.resume id, []⟩ }) := by
  unfold step at h
  dsimp only at h
  split at h
  · cases h
  · exact ⟨‹_›, Or.inl ⟨‹_›, (Option.some.inj h).symm⟩⟩
  · exact ⟨‹_›, Or.inr ⟨_, ‹_›, (Option.some.inj h).symm⟩⟩

/-- What is in the batch after a step was there before or has just been read. -/
theorem mem_pending_step {a : SourceAction} (h : step up batchMaxEvents s a = some t)
    {x : Nat × Event} (hx : x ∈ t.pending) :
    x ∈ s.pending ∨ ∃ uuid, readMessage up.parse uuid (up.log x.1) = some x.2 := by
  cases a with
  | connect start =>
    obtain ⟨_, ⟨_, rfl⟩ | ⟨_, _, rfl⟩⟩ := connect_cases h
    · cases hx
    · cases hx
  | connectFailed =>
    unfold step at h
    split_ifs at h
    obtain rfl := Option.some.inj h
    cases hx
  | message uuid reply =>
    obtain ⟨c, hc, rfl⟩ := Option.map_eq_some_iff.mp h
    rcases receive_eq up batchMaxEvents hc uuid reply with ⟨_, heq⟩ | ⟨_, _, _, _, heq⟩
    · rw [heq] at hx
      rcases List.mem_append.mp hx with hold | hnew
      · exact Or.inl (pending_eq hc ▸ hold)
      · obtain ⟨e, hread, rfl⟩ := Option.map_eq_some_iff.mp (Option.mem_toList.mp hnew)
        exact Or.inr ⟨uuid, hread⟩
    · rw [heq, flush_pending] at hx
      cases hx
  | tick reply =>
    obtain ⟨c, _, rfl⟩ := Option.map_eq_some_iff.mp h
    rw [flush_pending] at hx
    cases hx
  | streamError =>
    obtain ⟨_, _, rfl⟩ := Option.map_eq_some_iff.mp h
    cases hx
  | streamEnd reply =>
    obtain ⟨_, _, rfl⟩ := Option.map_eq_some_iff.mp h
    cases hx

theorem backoff_cases {a : SourceAction} (h : step up batchMaxEvents s a = some t) :
    t.backoff = s.backoff ∨ t.backoff = min (s.backoff * 2) backoffMax ∨
      t.backoff = backoffInitial := by
  cases a with
  | connect start =>
    obtain ⟨_, ⟨_, rfl⟩ | ⟨_, _, rfl⟩⟩ := connect_cases h
    · exact Or.inl rfl
    · exact Or.inl rfl
  | connectFailed =>
    unfold step at h
    split_ifs at h
    obtain rfl := Option.some.inj h
    exact Or.inr (Or.inl rfl)
  | message uuid reply =>
    obtain ⟨c, hc, rfl⟩ := Option.map_eq_some_iff.mp h
    refine Or.inl ?_
    rcases receive_eq up batchMaxEvents hc uuid reply with ⟨_, heq⟩ | ⟨_, _, _, _, heq⟩ <;>
      rw [heq] <;> simp
  | tick reply =>
    obtain ⟨c, _, rfl⟩ := Option.map_eq_some_iff.mp h
    exact Or.inl (flush_backoff reply)
  | streamError =>
    obtain ⟨c, _, rfl⟩ := Option.map_eq_some_iff.mp h
    exact Or.inr (Or.inl rfl)
  | streamEnd reply =>
    obtain ⟨c, _, rfl⟩ := Option.map_eq_some_iff.mp h
    exact Or.inr (Or.inr rfl)

/-- However often it fails, the source waits no less than the first wait and no more than the
longest. -/
theorem backoff_of_run {as : List SourceAction}
    (h : Run (Source.step up batchMaxEvents) free new as s) :
    backoffInitial ≤ s.backoff ∧ s.backoff ≤ backoffMax := by
  have hinv : ∀ v a t, backoffInitial ≤ v.backoff ∧ v.backoff ≤ backoffMax → free v a →
      step up batchMaxEvents v a = some t →
      backoffInitial ≤ t.backoff ∧ t.backoff ≤ backoffMax := by
    intro v a t hv _ hstep
    unfold backoffInitial backoffMax at *
    rcases backoff_cases hstep with heq | heq | heq <;> rw [heq]
    · exact hv
    · unfold backoffMax
      omega
    · decide
  exact h.invariant hinv ⟨le_rfl, by decide⟩

end Source

end HushEngine
