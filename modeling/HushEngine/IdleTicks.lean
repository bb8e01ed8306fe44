import HushEngine.Replay

/-!
Idle ticks and restarts. A tick replaces event time by the wall clock, so after
a restart it can carry the watermark past windows whose messages have been
accepted once and are still to be delivered again. Such a message survives
exactly when no flush turn runs in between, and when a restart without a
progress row does not already start beyond it.
-/
namespace HushEngine

open Tally Runs

/-- The log delivers in order and commits succeed; ticks and crashes come at any time. -/
def Log.Feeds (log : Log) (s : Owner) : Action → Prop
  | .deliver m _ => log.nextAt s.mem.nextOffset = some m
  | .fail => False
  | _ => True

instance (log : Log) (s : Owner) (a : Action) : Decidable (log.Feeds s a) :=
  match a with
  | .deliver m _ => inferInstanceAs (Decidable (log.nextAt s.mem.nextOffset = some m))
  | .fail => inferInstanceAs (Decidable False)
  | .tickIdle _ _ | .collect | .commit | .crash _ _ => inferInstanceAs (Decidable True)

namespace Owner

/-- No flush turn while the watermark has passed a window that is not durable and has a message
to be delivered again; no restart from scratch beyond such a window. -/
def Waits (partition : Int) (s : Owner) : Action → Prop
  | .collect => ∀ m ∈ s.earlier, s.mem.nextOffset ≤ m.offset →
      ¬ s.db.Durable partition m.window → s.mem.watermark < windowEnd m.window
  | .crash _ nowUtc => s.db.loadProgress partition = none →
      ∀ m ∈ s.accepted ++ s.earlier, nowUtc - oneDay < windowEnd m.window
  | _ => True

instance (partition : Int) (s : Owner) (a : Action) : Decidable (Waits partition s a) :=
  match a with
  | .collect => inferInstanceAs (Decidable (∀ m ∈ s.earlier, s.mem.nextOffset ≤ m.offset →
      ¬ s.db.Durable partition m.window → s.mem.watermark < windowEnd m.window))
  | .crash _ nowUtc => inferInstanceAs (Decidable (s.db.loadProgress partition = none →
      ∀ m ∈ s.accepted ++ s.earlier, nowUtc - oneDay < windowEnd m.window))
  | .deliver _ _ | .tickIdle _ _ | .commit | .fail => inferInstanceAs (Decidable True)

/-- The state of an owner whose restarts wait for the replay. -/
structure Replaying (log : Log) (partition : Int) (s : Owner) : Prop where
  intact : Intact partition s
  caught : Caught partition s.earlier s
  logged : ∀ m ∈ s.accepted ++ s.earlier, m ∈ log.entries

section Replaying

variable {log : Log} {partition : Int} {s t : Owner} {a : Action}

theorem logged_consume {m : Message} {now : Nat}
    (h : ∀ m' ∈ s.accepted ++ s.earlier, m' ∈ log.entries) (hm : m ∈ log.entries) :
    ∀ m' ∈ (s.toWorker.consume m now).accepted ++ s.earlier, m' ∈ log.entries := by
  intro m' hm'
  rcases consume_cases s m now with ⟨_, hacc, _⟩ | ⟨hacc, _, _, _⟩
  · exact h m' (by rwa [← hacc])
  · rw [hacc] at hm'
    rcases List.mem_cons.mp hm' with rfl | hold
    · exact hm
    · exact h m' hold

/-- Everything ever accepted is covered by the checkpoint only if it is durable. -/
theorem Replaying.durable_of_covered (h : Replaying log partition s) {pr : PartitionProgress}
    (hpr : s.db.loadProgress partition = some pr) {m : Message}
    (hm : m ∈ s.accepted ++ s.earlier)
    (hcovered : m.offset < pr.committedOffset ∨ windowEnd m.window ≤ pr.flushedWatermark) :
    s.db.Durable partition m.window := by
  rcases List.mem_append.mp hm with hnow | hearlier
  · have hend := hcovered.elim (h.intact.contents.progress_offset pr hpr m hnow) id
    exact h.intact.durable_of_settled hnow ⟨pr, hpr, hend⟩
  · exact h.caught.progress pr hpr m hearlier hcovered

theorem Replaying.step (h : Replaying log partition s) (hfeeds : log.Feeds s a)
    (hwaits : Waits partition s a) (hstep : Owner.step partition s a = some t) :
    Replaying log partition t := by
  have hintact : a ≠ .fail → Intact partition t := fun hne => h.intact.step hne hstep
  cases a with
  | deliver m now =>
    obtain ⟨hoffset, rfl⟩ := step_deliver hstep
    obtain ⟨hm, hfirst⟩ := log.nextAt_spec hfeeds
    refine ⟨hintact (by simp), ?_, logged_consume h.logged hm⟩
    exact h.caught.deliver h.intact.contents m now hoffset fun m' hm' =>
      hfirst m' (h.logged m' (List.mem_append_right _ hm'))
  | tickIdle nowWall nowUtc =>
    obtain rfl := step_tickIdle hstep
    exact ⟨hintact (by simp), h.caught.tickIdle nowWall nowUtc, h.logged⟩
  | collect =>
    obtain ⟨_, rfl⟩ := step_collect hstep
    exact ⟨hintact (by simp), h.caught.collect hwaits, h.logged⟩
  | commit =>
    obtain ⟨b, hb, rfl⟩ := step_commit hstep
    exact ⟨hintact (by simp), h.caught.commit h.intact hb, h.logged⟩
  | fail => exact hfeeds.elim
  | crash now nowUtc =>
    obtain rfl := step_crash hstep
    refine ⟨hintact (by simp), ?_, by simpa [boot] using h.logged⟩
    exact caught_boot _ now nowUtc _ (fun pr hpr m hm => h.durable_of_covered hpr hm) hwaits

/-- A message accepted before the restart, whose window is closed only after its delivery. -/
structure Awaited (log : Log) (partition : Int) (m : Message) (s : Owner) : Prop where
  replaying : Replaying log partition s
  earlier : m ∈ s.earlier
  not_closed : s.mem.nextOffset ≤ m.offset → s.mem.flushedWatermark < windowEnd m.window

theorem awaited_of_crash (h : Replaying log partition s) {now : Nat} {nowUtc : Int}
    (hwaits : Waits partition s (.crash now nowUtc))
    (hstep : Owner.step partition s (.crash now nowUtc) = some t) {m : Message}
    (hm : m ∈ s.accepted ++ s.earlier) (hnot : ¬ s.db.Durable partition m.window) :
    Awaited log partition m t := by
  have hfeeds : log.Feeds s (.crash now nowUtc) := trivial
  have hreplaying : Replaying log partition t := h.step hfeeds hwaits hstep
  obtain rfl := step_crash hstep
  refine ⟨hreplaying, hm, fun hle => ?_⟩
  exact (hreplaying.caught.unseen m hm hle).resolve_left hnot

theorem Awaited.step {m : Message} (h : Awaited log partition m s) (hfeeds : log.Feeds s a)
    (hwaits : Waits partition s a) (hlive : a.isCrash = false)
    (hstep : Owner.step partition s a = some t) : Awaited log partition m t := by
  have hreplaying := h.replaying.step hfeeds hwaits hstep
  cases a with
  | deliver m' now =>
    obtain ⟨hoffset, rfl⟩ := step_deliver hstep
    have hnext : (s.toWorker.consume m' now).mem.nextOffset = m'.offset + 1 :=
      s.mem.processEvent_nextOffset m'.event m'.offset now
    have hwm : (s.toWorker.consume m' now).mem.flushedWatermark = s.mem.flushedWatermark :=
      s.mem.processEvent_flushedWatermark m'.event m'.offset now
    refine ⟨hreplaying, h.earlier, fun hle => ?_⟩
    dsimp only at hle ⊢
    rw [hwm]
    exact h.not_closed (by omega)
  | tickIdle nowWall nowUtc =>
    obtain rfl := step_tickIdle hstep
    exact ⟨hreplaying, h.earlier, by simpa using h.not_closed⟩
  | collect =>
    obtain ⟨_, rfl⟩ := step_collect hstep
    refine ⟨hreplaying, h.earlier, fun hle => ?_⟩
    dsimp only at hle ⊢
    rw [PartitionState.collectBatch_fst] at hle ⊢
    rw [PartitionState.takeClosedWindows_flushedWatermark]
    have hopen := h.not_closed hle
    have hdurable : ¬ s.db.Durable partition m.window := fun hd =>
      h.replaying.intact.sound.not_settled_of_lt hopen
        (h.replaying.intact.sound.rows.settled hd)
    have := hwaits m h.earlier hle hdurable
    omega
  | commit =>
    obtain ⟨b, _, rfl⟩ := step_commit hstep
    exact ⟨hreplaying, h.earlier, h.not_closed⟩
  | fail => exact hfeeds.elim
  | crash now nowUtc => cases hlive

/-- A message held in memory or in the rows of its window. -/
structure Kept (log : Log) (partition : Int) (m : Message) (s : Owner) : Prop where
  replaying : Replaying log partition s
  held : ∃ m' ∈ s.accepted, m'.event.eventId = m.event.eventId ∧ m'.window = m.window

theorem Kept.step {m : Message} (h : Kept log partition m s) (hfeeds : log.Feeds s a)
    (hwaits : Waits partition s a) (hlive : a.isCrash = false)
    (hstep : Owner.step partition s a = some t) : Kept log partition m t := by
  refine ⟨h.replaying.step hfeeds hwaits hstep, ?_⟩
  obtain ⟨m', hm', hsame⟩ := h.held
  exact ⟨m', accepted_step hlive hstep hm', hsame⟩

end Replaying

/-- What every step of a schedule without the defect satisfies. -/
def Patient (log : Log) (partition : Int) (s : Owner) (a : Action) : Prop :=
  log.Feeds s a ∧ Waits partition s a

/-- The same, within one incarnation. -/
def PatientAlive (log : Log) (partition : Int) (s : Owner) (a : Action) : Prop :=
  Patient log partition s a ∧ a.isCrash = false

instance (log : Log) (partition : Int) (s : Owner) (a : Action) :
    Decidable (Patient log partition s a) :=
  inferInstanceAs (Decidable (_ ∧ _))

instance (log : Log) (partition : Int) (s : Owner) (a : Action) :
    Decidable (PatientAlive log partition s a) :=
  inferInstanceAs (Decidable (_ ∧ _))

/-- An event accepted before a crash, not durable at the crash, is not late when it is replayed,
and once its window is flushed it is in the rows. -/
theorem replayed_not_late (log : Log) (partition : Int) (db : Db)
    (hrows : db.RowsCovered partition) (hllEnabled : Bool) (now : Nat) (nowUtc : Int)
    (before after : List Action) (s s' t : Owner) (crashNow : Nat) (crashUtc : Int)
    (hbefore : Run (step partition) (Patient log partition)
      (boot db partition hllEnabled now nowUtc []) before s)
    (hcrash : Run (step partition) (Patient log partition) s [.crash crashNow crashUtc] s')
    (hafter : Run (step partition) (PatientAlive log partition) s' after t)
    (m : Message) (hm : m ∈ s.accepted ++ s.earlier)
    (hnot : ¬ s.db.Durable partition m.window)
    (hnext : log.nextAt t.mem.nextOffset = some m) (replayNow : Nat) :
    (t.mem.processEvent m.event m.offset replayNow).2 ≠ .late ∧
    ∀ later u, Run (step partition) (PatientAlive log partition) t
        (.deliver m replayNow :: later) u →
      u.db.Settled partition m.window →
      ∃ m' ∈ u.accepted, m'.event.eventId = m.event.eventId ∧ m'.window = m.window ∧
        ∀ key, u.db.rowTotals partition m.window key =
          cellTally (eventsIn u.accepted m.window) key := by
  have hboot : Replaying log partition (boot db partition hllEnabled now nowUtc []) :=
    ⟨intact_boot hrows .., ⟨fun m hm => (by cases hm), fun m hm => (by cases hm),
      fun _ _ m hm => (by cases hm)⟩, fun m hm => (by cases hm)⟩
  have hreplaying := hbefore.invariant (fun _ _ _ hx hg hy => hx.step hg.1 hg.2 hy) hboot
  have hawaited : Awaited log partition m s' := by
    cases hcrash with
    | cons hguard hstep hrest =>
      cases hrest
      exact awaited_of_crash hreplaying hguard.2 hstep hm hnot
  have hlast := hafter.invariant
    (fun _ _ _ hx hg hy => Awaited.step hx hg.1.1 hg.1.2 hg.2 hy) hawaited
  have hoffset := log.le_of_nextAt hnext
  have hopen := hlast.not_closed hoffset
  constructor
  · rw [Ne, PartitionState.processEvent_late_iff]
    unfold Message.window at hopen
    omega
  · intro later u hlater hsettled
    cases hlater with
    | cons hguard hstep hrest =>
      have hstart := hlast.replaying.step hguard.1.1 hguard.1.2 hstep
      obtain ⟨_, rfl⟩ := step_deliver hstep
      obtain ⟨m', hm', hid, hw, _⟩ :=
        consume_holds hlast.replaying.intact.contents m replayNow hoffset hopen
      have hkept := hrest.invariant
        (fun _ _ _ hx hg hy => Kept.step hx hg.1.1 hg.1.2 hg.2 hy)
        (⟨hstart, m', hm', hid, hw⟩ : Kept log partition m _)
      obtain ⟨m'', hm'', hid', hw'⟩ := hkept.held
      refine ⟨m'', hm'', hid', hw', fun key => ?_⟩
      rw [← hw'] at hsettled ⊢
      exact hkept.replaying.intact.exact_rows m'' hm'' hsettled key

def firstEdit : Message := ⟨0, evt 1000000000 1 "u1"⟩

def firstEditLog : Log where
  entries := [firstEdit]
  sorted := by decide
  onTime := by decide

/-- A tick eleven seconds after the restart closes the window before the event is delivered
again. -/
theorem replayed_late_after_tick :
    ∃ s t : Owner,
      Run (step 0) firstEditLog.Feeds (boot Db.empty 0 false 0 0 []) [.deliver firstEdit 0] s ∧
      firstEdit ∈ s.accepted ∧ ¬ s.db.Durable 0 firstEdit.window ∧
      Run (step 0) firstEditLog.Feeds s
        [.crash 1 3000000000, .tickIdle 12000000000 200000000000, .collect] t ∧
      firstEditLog.nextAt t.mem.nextOffset = some firstEdit ∧
      (t.mem.processEvent firstEdit.event firstEdit.offset 12000000001).2 = .late := by
  refine ⟨_, _, .cons ?_ rfl (.nil _), ?_, ?_,
    .cons ?_ rfl (.cons ?_ rfl (.cons ?_ rfl (.nil _))), ?_, ?_⟩ <;> decide

/-- A tick that leaves the window open is harmless. -/
theorem replayed_not_late_firstEdit :
    ∃ s s' t : Owner,
      Run (step 0) (Patient firstEditLog 0) (boot Db.empty 0 false 0 0 [])
        [.deliver firstEdit 0] s ∧
      firstEdit ∈ s.accepted ∧ ¬ s.db.Durable 0 firstEdit.window ∧
      Run (step 0) (Patient firstEditLog 0) s [.crash 1 3000000000] s' ∧
      Run (step 0) (PatientAlive firstEditLog 0) s'
        [.tickIdle 12000000000 50000000000, .collect] t ∧
      firstEditLog.nextAt t.mem.nextOffset = some firstEdit ∧
      (t.mem.processEvent firstEdit.event firstEdit.offset 12000000001).2 ≠ .late := by
  have hexec : ∃ s, execute (step 0) (Patient firstEditLog 0) (boot Db.empty 0 false 0 0 [])
      [.deliver firstEdit 0] = some s ∧ firstEdit ∈ s.accepted ∧
      ¬ s.db.Durable 0 firstEdit.window ∧
      ∃ s', execute (step 0) (Patient firstEditLog 0) s [.crash 1 3000000000] = some s' ∧
        ∃ t, execute (step 0) (PatientAlive firstEditLog 0) s'
          [.tickIdle 12000000000 50000000000, .collect] = some t ∧
          firstEditLog.nextAt t.mem.nextOffset = some firstEdit :=
    ⟨_, rfl, by decide, by decide, _, rfl, _, rfl, by decide⟩
  obtain ⟨s, hs, hm, hnot, s', hs', t, ht, hnext⟩ := hexec
  have hbefore := run_of_execute hs
  have hcrash := run_of_execute hs'
  have hafter := run_of_execute ht
  exact ⟨s, s', t, hbefore, hm, hnot, hcrash, hafter, hnext,
    (replayed_not_late firstEditLog 0 Db.empty (Db.rowsCovered_empty 0) false 0 0 _ _ s s' t _ _
      hbefore hcrash hafter firstEdit (List.mem_append_left _ hm) hnot hnext 12000000001).1⟩

end Owner

end HushEngine
