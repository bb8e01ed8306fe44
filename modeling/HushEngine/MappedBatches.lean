import HushEngine.Ingest
import HushEngine.WikiSource

/-!
What the gateway makes of the wiki source's batches. The mapping copies the
user, the wiki and the namespace as they come; the gateway wants the first two
to show something and the third not to be negative, and one message that fails
it there takes the whole batch with it.
-/
namespace HushEngine

open Runs

/-- What the gateway asks of a message and the mapping does not. -/
def RecentChange.Acceptable (rc : RecentChange) : Prop :=
  isBlank rc.user = false ∧ isBlank rc.wiki = false ∧ 0 ≤ rc.ns

/-- The source's batches: each message was mapped, under the id that was drawn for it. -/
def Mapped (ms : List (Uuid × RecentChange)) (batch : List Event) : Prop :=
  List.Forall₂ (fun m e => toEvent m.1 m.2 = .ok e) ms batch

theorem validate_iff_acceptable {uuid : Uuid} {rc : RecentChange} {e : Event} {now : Int}
    (h : toEvent uuid rc = .ok e) (hts : rc.timestamp * 1000000000 ≤ now + maxFutureSkew) :
    e.validate now = .ok () ↔ rc.Acceptable := by
  rw [validate_toEvent h]
  unfold RecentChange.Acceptable
  simp only [hts, and_true]

theorem Mapped.validate_iff {ms : List (Uuid × RecentChange)} {batch : List Event} {now : Int}
    (h : Mapped ms batch) (hts : ∀ m ∈ ms, m.2.timestamp * 1000000000 ≤ now + maxFutureSkew) :
    List.Forall₂ (fun m e => e.validate now = .ok () ↔ m.2.Acceptable) ms batch := by
  unfold Mapped at h
  induction h with
  | nil => exact .nil
  | cons hmap _ ih =>
    obtain ⟨hm, hrest⟩ := List.forall_mem_cons.mp hts
    exact .cons (validate_iff_acceptable hmap hm) (ih hrest)

/-- A batch is valid when all of its messages are acceptable. -/
theorem Mapped.forall_validate_iff {ms : List (Uuid × RecentChange)} {batch : List Event}
    {now : Int} (h : Mapped ms batch)
    (hts : ∀ m ∈ ms, m.2.timestamp * 1000000000 ≤ now + maxFutureSkew) :
    (∀ e ∈ batch, e.validate now = .ok ()) ↔ ∀ m ∈ ms, m.2.Acceptable := by
  have hvalid := h.validate_iff hts
  induction hvalid with
  | nil => simp
  | cons hm _ ih =>
    cases h with
    | cons _ hrest =>
      rw [List.forall_mem_cons, List.forall_mem_cons]
      exact and_congr hm (ih hrest (List.forall_mem_cons.mp hts).2)

/-- Events that were mapped from something make up such a batch. -/
theorem exists_mapped {batch : List Event}
    (h : ∀ e ∈ batch, ∃ uuid rc, toEvent uuid rc = .ok e) : ∃ ms, Mapped ms batch := by
  induction batch with
  | nil => exact ⟨[], .nil⟩
  | cons e batch ih =>
    obtain ⟨⟨uuid, rc, hmap⟩, hrest⟩ := List.forall_mem_cons.mp h
    obtain ⟨ms, hms⟩ := ih hrest
    exact ⟨(uuid, rc) :: ms, .cons hmap hms⟩

/-- Every event of the batch was read from the message it is listed with. -/
def Source.FromMessages (up : Upstream) (s : Source) : Prop :=
  ∀ x ∈ s.pending, ∃ uuid, readMessage up.parse uuid (up.log x.1) = some x.2

theorem Source.fromMessages_new (up : Upstream) : Source.new.FromMessages up := by
  intro x hx
  cases hx

theorem Source.FromMessages.step {up : Upstream} {batchMaxEvents : Nat} {s t : Source}
    {a : SourceAction} (h : s.FromMessages up)
    (hstep : Source.step up batchMaxEvents s a = some t) : t.FromMessages up := by
  intro x hx
  rcases Source.mem_pending_step hstep hx with hold | hread
  · exact h x hold
  · exact hread

/-- In every run of the source, the batch it is about to send is one of mapped messages. -/
theorem Source.exists_mapped_of_run {up : Upstream} {batchMaxEvents : Nat}
    {as : List SourceAction} {s : Source}
    (hrun : Run (Source.step up batchMaxEvents) free Source.new as s) :
    ∃ ms, Mapped ms (s.pending.map Prod.snd) := by
  have h : s.FromMessages up :=
    hrun.invariant (fun _ _ _ hs _ hstep => hs.step hstep) (Source.fromMessages_new up)
  apply exists_mapped
  intro e he
  obtain ⟨x, hx, rfl⟩ := List.mem_map.mp he
  obtain ⟨uuid, hread⟩ := h x hx
  obtain ⟨_, rc, _, hmap⟩ := readMessage_eq_some_iff.mp hread
  exact ⟨uuid, rc, hmap⟩

namespace AppState

variable {state : AppState} {now : Int} {batch : List Event} {tx : Channel QueuedMessage}

variable (state now batch tx) in
/-- The answer is a 400 about one event of the batch. -/
def RefusedForOne : Prop :=
  ∃ e ∈ batch, ∃ err, e.validate now = .error err ∧
    (state.postEvents now batch tx).1 = .error (.badRequest (state.message err))

theorem refusedForOne_iff (hlen : batch.length ≤ state.maxBatchEvents) :
    state.RefusedForOne now batch tx ↔ ∃ e ∈ batch, e.validate now ≠ .ok () := by
  constructor
  · intro h
    obtain ⟨e, he, err, herror, _⟩ := h
    exact ⟨e, he, by rw [herror]; nofun⟩
  · intro h
    obtain ⟨e, he, hinvalid⟩ := h
    cases heach : validateEach now batch with
    | ok => exact absurd (validateEach_ok_iff.mp heach e he) hinvalid
    | error err =>
      obtain ⟨e', he', herror⟩ := validateEach_error heach
      refine ⟨e', he', err, herror, ?_⟩
      have hne : ¬ batch.isEmpty = true := fun hnil =>
        List.ne_nil_of_mem he (List.isEmpty_iff.mp hnil)
      unfold postEvents
      rw [if_neg hne, if_neg (by omega), heach]

/-- The gateway accepts exactly the mapped messages with a user, a wiki and a namespace that is
not negative, and refuses a batch for one message exactly when some message is not like that. -/
theorem mapped_accepted_iff (state : AppState) (tx : Channel QueuedMessage) {now : Int}
    {ms : List (Uuid × RecentChange)} {batch : List Event} (hmapped : Mapped ms batch)
    (hts : ∀ m ∈ ms, m.2.timestamp * 1000000000 ≤ now + maxFutureSkew)
    (hlen : batch.length ≤ state.maxBatchEvents) :
    List.Forall₂ (fun m e => e.validate now = .ok () ↔ m.2.Acceptable) ms batch ∧
      (¬ state.RefusedForOne now batch tx ↔ ∀ m ∈ ms, m.2.Acceptable) := by
  refine ⟨hmapped.validate_iff hts, ?_⟩
  rw [refusedForOne_iff hlen, ← hmapped.forall_validate_iff hts]
  push Not
  rfl

/-- Alice edits an article. -/
def articleEdit : RecentChange := ⟨"edit", 0, "Alice", false, "enwiki", 0⟩

/-- A log entry about a page of the `Special` namespace. -/
def specialLog : RecentChange := ⟨"log", -1, "Alice", false, "enwiki", 0⟩

def specialLogEvent : Event := { evt 0 2 "Alice" with ns := -1, kind := .log }

theorem mapped_specialLog :
    Mapped [(1, articleEdit), (2, specialLog)] [evt 0 1 "Alice", specialLogEvent] :=
  .cons (by decide) (.cons (by decide) .nil)

def idleChannel : Channel QueuedMessage := ⟨10000, [], false, Nat.zero_le _⟩

/-- Two messages are mapped; the second is not valid, and the gateway turns away both. -/
theorem specialLog_refuses_batch :
    Mapped [(1, articleEdit), (2, specialLog)] [evt 0 1 "Alice", specialLogEvent] ∧
      specialLogEvent.validate 0 ≠ .ok () ∧
      aliceGateway.RefusedForOne 0 [evt 0 1 "Alice", specialLogEvent] idleChannel ∧
      (aliceGateway.postEvents 0 [evt 0 1 "Alice", specialLogEvent] idleChannel).2.queued = [] := by
  have hinvalid : specialLogEvent.validate 0 ≠ .ok () := by decide
  have hmem : specialLogEvent ∈ [evt 0 1 "Alice", specialLogEvent] := by simp
  have hbad : aliceGateway.Malformed 0 [evt 0 1 "Alice", specialLogEvent] :=
    Or.inr (Or.inr ⟨_, hmem, hinvalid⟩)
  obtain ⟨msg, hpost⟩ := postEvents_of_malformed hbad idleChannel
  refine ⟨mapped_specialLog, hinvalid, (refusedForOne_iff (by decide)).mpr ⟨_, hmem, hinvalid⟩, ?_⟩
  rw [hpost]
  rfl

/-- An edit of an article is accepted. -/
theorem mapped_accepted_articleEdit :
    (evt 0 1 "Alice").validate 0 = .ok () ∧
      ¬ aliceGateway.RefusedForOne 0 [evt 0 1 "Alice"] idleChannel := by
  have hmapped : Mapped [(1, articleEdit)] [evt 0 1 "Alice"] := .cons (by decide) .nil
  have hts : ∀ m ∈ [((1 : Uuid), articleEdit)],
      m.2.timestamp * 1000000000 ≤ 0 + maxFutureSkew := by decide
  have hacceptable : articleEdit.Acceptable := ⟨by decide, by decide, by decide⟩
  obtain ⟨heach, hbatch⟩ := mapped_accepted_iff aliceGateway idleChannel hmapped hts (by decide)
  obtain ⟨hvalid, _⟩ := List.forall₂_cons.mp heach
  exact ⟨hvalid.mpr hacceptable, hbatch.mpr (by simpa using hacceptable)⟩

end AppState

end HushEngine
