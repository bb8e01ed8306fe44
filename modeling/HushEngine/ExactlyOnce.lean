import HushEngine.Replay

/-!
Exactly-once aggregation. A log whose events are on time is delivered under any
schedule of flush turns, commits and crashes, starting from empty tables. In
every reachable state the rows of the windows the durable watermark has passed
are the tallies of the whole log, and no other window has rows.
-/
namespace HushEngine

open Tally Runs

namespace Log

/-- Every window of the log ends after the instant. -/
def EndsAfter (log : Log) (t : Int) : Prop := ∀ m ∈ log.entries, t < windowEnd m.window

/-- The next message of the log, the flush loop, commits and crashes; no idle ticks, no failed
commits. An incarnation that finds no progress row starts before the log's windows end. -/
def Schedule (log : Log) (partition : Int) (s : Owner) : Action → Prop
  | .deliver m _ => log.nextAt s.mem.nextOffset = some m
  | .tickIdle _ _ => False
  | .collect => True
  | .commit => True
  | .fail => False
  | .crash _ nowUtc => s.db.loadProgress partition = none → log.EndsAfter (nowUtc - oneDay)

instance (log : Log) (partition : Int) (s : Owner) (a : Action) :
    Decidable (log.Schedule partition s a) :=
  match a with
  | .deliver m _ => inferInstanceAs (Decidable (log.nextAt s.mem.nextOffset = some m))
  | .tickIdle _ _ => inferInstanceAs (Decidable False)
  | .collect => inferInstanceAs (Decidable True)
  | .commit => inferInstanceAs (Decidable True)
  | .fail => inferInstanceAs (Decidable False)
  | .crash _ nowUtc => inferInstanceAs (Decidable (s.db.loadProgress partition = none →
      ∀ m ∈ log.entries, nowUtc - oneDay < windowEnd m.window))

end Log

namespace Owner

/-- The rows and the checkpoint of an owner that has followed the log. -/
structure OnLog (log : Log) (partition : Int) (s : Owner) : Prop where
  intact : Intact partition s
  caught : Caught partition log.entries s
  logged : ∀ m ∈ s.accepted, m ∈ log.entries
  in_time : ∀ m ∈ log.entries, s.mem.nextOffset ≤ m.offset →
    s.db.Durable partition m.window ∨ s.mem.watermark < windowEnd m.window
  rows : ∀ w, s.db.Settled partition w → ∀ key,
    s.db.rowTotals partition w key = cellTally (eventsIn log.entries w) key

theorem onLog_boot {log : Log} {partition : Int} {db : Db} (hrows : db.RowsCovered partition)
    (hllEnabled : Bool) (now : Nat) (nowUtc : Int) (earlier : List Message)
    (hprogress : ∀ pr, db.loadProgress partition = some pr → ∀ m ∈ log.entries,
      m.offset < pr.committedOffset ∨ windowEnd m.window ≤ pr.flushedWatermark →
      db.Durable partition m.window)
    (hfresh : db.loadProgress partition = none → log.EndsAfter (nowUtc - oneDay))
    (hexact : ∀ w, db.Settled partition w → ∀ key,
      db.rowTotals partition w key = cellTally (eventsIn log.entries w) key) :
    OnLog log partition (boot db partition hllEnabled now nowUtc earlier) where
  intact := intact_boot hrows ..
  caught := caught_boot hllEnabled now nowUtc earlier hprogress hfresh
  logged m hm := by cases hm
  in_time m hm hle := by
    rcases (caught_boot hllEnabled now nowUtc earlier hprogress hfresh).unseen m hm hle with
      hdurable | hend
    · exact Or.inl hdurable
    · right
      unfold PartitionState.watermark allowedLateness
      cases hload : db.loadProgress partition with
      | none =>
        obtain ⟨_, hwm, hmax⟩ := boot_fresh hload hllEnabled now nowUtc earlier
        omega
      | some pr =>
        obtain ⟨_, hwm, hmax⟩ := boot_progress hload hllEnabled now nowUtc earlier
        omega
  rows := hexact

theorem onLog_boot_empty {log : Log} {nowUtc : Int} (hstart : log.EndsAfter (nowUtc - oneDay))
    (partition : Int) (hllEnabled : Bool) (now : Nat) :
    OnLog log partition (boot Db.empty partition hllEnabled now nowUtc []) := by
  refine onLog_boot (Db.rowsCovered_empty partition) _ _ _ _ ?_ (fun _ => hstart) ?_
  · intro pr hpr
    cases hpr
  · intro w hw
    obtain ⟨pr, hpr, _⟩ := hw
    cases hpr

section Steps

variable {log : Log} {partition : Int} {s : Owner}

theorem OnLog.deliver (h : OnLog log partition s) {m : Message} {now : Nat}
    (hoffset : s.mem.nextOffset ≤ m.offset) (hnext : log.nextAt s.mem.nextOffset = some m)
    (hintact : Intact partition { s with toWorker := s.toWorker.consume m now }) :
    OnLog log partition { s with toWorker := s.toWorker.consume m now } := by
  obtain ⟨hmem, hfirst⟩ := log.nextAt_spec hnext
  refine ⟨hintact, h.caught.deliver h.intact.contents m now hoffset hfirst, ?_, ?_, h.rows⟩
  · intro m' hm'
    rcases consume_cases s m now with ⟨_, hacc, _⟩ | ⟨hacc, _, _, _⟩
    · exact h.logged m' (by rwa [← hacc])
    · have hm' : m' ∈ (s.toWorker.consume m now).accepted := hm'
      rw [hacc] at hm'
      rcases List.mem_cons.mp hm' with rfl | hold
      · exact hmem
      · exact h.logged m' hold
  · intro m' hm' hle
    have hnew : (s.toWorker.consume m now).mem.nextOffset = m.offset + 1 :=
      s.mem.processEvent_nextOffset m.event m.offset now
    have hmax : (s.toWorker.consume m now).mem.maxEventTs = max s.mem.maxEventTs m.event.ts :=
      s.mem.processEvent_maxEventTs m.event m.offset now
    dsimp only at hle ⊢
    rw [hnew] at hle
    have hontime := log.onTime m hmem m' hm' (by omega)
    refine (h.in_time m' hm' (by omega)).imp id fun hlt => ?_
    unfold PartitionState.watermark at hlt ⊢
    omega

theorem OnLog.collect (h : OnLog log partition s)
    (hintact : Intact partition
      { s with mem := s.mem.collectBatch.1, batch := s.mem.collectBatch.2 }) :
    OnLog log partition
      { s with mem := s.mem.collectBatch.1, batch := s.mem.collectBatch.2 } := by
  have hcaught := h.caught.collect fun m hm hle hnot => (h.in_time m hm hle).resolve_left hnot
  refine ⟨hintact, hcaught, h.logged, ?_, h.rows⟩
  intro m hm hle
  dsimp only at hle ⊢
  rw [PartitionState.collectBatch_fst] at hle ⊢
  exact h.in_time m hm hle

/-- A window that is closed but not settled holds every event the log has for it. -/
theorem OnLog.eventsIn_accepted (h : OnLog log partition s) (hcopies : log.CopiesAgree) {w : Int}
    (hend : windowEnd w ≤ s.mem.flushedWatermark) (hnot : ¬ s.db.Settled partition w) :
    eventsIn s.accepted w = eventsIn log.entries w := by
  have hdurable : ¬ s.db.Durable partition w := fun hd =>
    hnot (h.intact.sound.rows.settled hd)
  ext e
  rw [mem_eventsIn, mem_eventsIn]
  constructor
  · intro hparts
    obtain ⟨m, hm, hw, rfl⟩ := hparts
    exact ⟨m, h.logged m hm, hw, rfl⟩
  · intro hparts
    obtain ⟨m, hm, rfl, rfl⟩ := hparts
    by_cases hlt : m.offset < s.mem.nextOffset
    · obtain ⟨m', hm', hid, hw, _⟩ := (h.caught.seen m hm hlt).resolve_left hdurable
      exact ⟨m', hm', hw, hcopies m' (h.logged m' hm') m hm hid⟩
    · have := (h.caught.unseen m hm (by omega)).resolve_left hdurable
      omega

theorem OnLog.commit (h : OnLog log partition s) (hcopies : log.CopiesAgree) {b : Batch}
    (hb : s.batch = some b)
    (hintact : Intact partition { s with db := b.flush s.db partition, batch := none }) :
    OnLog log partition { s with db := b.flush s.db partition, batch := none } := by
  have hfits := h.intact.sound.fits b hb
  refine ⟨hintact, h.caught.commit h.intact hb, h.logged, ?_, ?_⟩
  · intro m hm hle
    exact (h.in_time m hm hle).imp b.durable_flush id
  · intro w hsettled key
    dsimp only at hsettled ⊢
    by_cases hbefore : s.db.Settled partition w
    · rw [hfits.rowTotals_of_settled hbefore]
      exact h.rows w hbefore key
    · rw [Batch.settled_flush_iff, (h.intact.sound.taken b hb).watermark] at hsettled
      rw [← h.eventsIn_accepted hcopies hsettled hbefore]
      exact h.intact.rowTotals_flush hb hsettled hbefore key

theorem OnLog.step (h : OnLog log partition s) (hcopies : log.CopiesAgree) {t : Owner}
    {a : Action} (hguard : log.Schedule partition s a)
    (hstep : Owner.step partition s a = some t) : OnLog log partition t := by
  have hintact : a ≠ .fail → Intact partition t := fun hne => h.intact.step hne hstep
  cases a with
  | deliver m now =>
    obtain ⟨hoffset, rfl⟩ := step_deliver hstep
    exact h.deliver hoffset hguard (hintact (by simp))
  | tickIdle nowWall nowUtc => exact hguard.elim
  | collect =>
    obtain ⟨_, rfl⟩ := step_collect hstep
    exact h.collect (hintact (by simp))
  | commit =>
    obtain ⟨b, hb, rfl⟩ := step_commit hstep
    exact h.commit hcopies hb (hintact (by simp))
  | fail => exact hguard.elim
  | crash now nowUtc =>
    obtain rfl := step_crash hstep
    exact onLog_boot h.intact.sound.rows _ _ _ _ h.caught.progress hguard h.rows

end Steps

/-- Nothing is lost and nothing is counted twice, whatever the crashes. -/
theorem exactly_once (log : Log) (hcopies : log.CopiesAgree) (partition : Int)
    (hllEnabled : Bool) (now : Nat) (nowUtc : Int) (hstart : log.EndsAfter (nowUtc - oneDay))
    (actions : List Action) (s : Owner)
    (hrun : Run (step partition) (log.Schedule partition)
      (boot Db.empty partition hllEnabled now nowUtc []) actions s) :
    (∀ w key, s.db.Settled partition w →
      s.db.rowTotals partition w key = cellTally (eventsIn log.entries w) key) ∧
    (∀ w key, ¬ s.db.Settled partition w → s.db.rowTotals partition w key = none) ∧
    (∀ pr, s.db.loadProgress partition = some pr → ∀ m ∈ log.entries,
      m.offset < pr.committedOffset → windowEnd m.window ≤ pr.flushedWatermark) ∧
    (∀ m now, log.nextAt s.mem.nextOffset = some m →
      (s.mem.processEvent m.event m.offset now).2 = .late → s.db.Settled partition m.window) := by
  have hempty : OnLog log partition (boot Db.empty partition hllEnabled now nowUtc []) := by
    refine onLog_boot (Db.rowsCovered_empty partition) _ _ _ _ ?_ (fun _ => hstart) ?_
    · intro pr hpr
      cases hpr
    · intro w h
      obtain ⟨pr, hpr, _⟩ := h
      cases hpr
  have h := hrun.invariant (fun s a t hs => hs.step hcopies) hempty
  refine ⟨fun w key hw => h.rows w hw key, ?_, ?_, ?_⟩
  · exact fun w key hw => h.intact.sound.rows.rowTotals_eq_none hw key
  · intro pr hpr m hm hlt
    obtain ⟨pr', hpr', hle⟩ :=
      h.intact.sound.rows.settled (h.caught.progress pr hpr m hm (Or.inl hlt))
    rw [hpr] at hpr'
    cases hpr'
    exact hle
  · intro m now hnext hlate
    obtain ⟨hm, _⟩ := log.nextAt_spec hnext
    rw [PartitionState.processEvent_late_iff] at hlate
    rcases h.caught.unseen m hm (log.le_of_nextAt hnext) with hdurable | hend
    · exact h.intact.sound.rows.settled hdurable
    · exact absurd hlate (by unfold Message.window at hend; omega)

/-- Two users in the first window, a copy, and an event that closes it. -/
def sampleLog : Log where
  entries := [⟨0, evt 1000000000 1 "u1"⟩, ⟨1, evt 2000000000 2 "u2"⟩, ⟨2, evt 1000000000 1 "u1"⟩,
    ⟨3, evt 95000000000 3 "u1"⟩]
  sorted := by decide
  onTime := by decide

/-- One crash loses the memory and the next a batch not yet committed; the third incarnation
commits the window. -/
def sampleSchedule : List Action :=
  [.deliver ⟨0, evt 1000000000 1 "u1"⟩ 0, .crash 1 0,
    .deliver ⟨0, evt 1000000000 1 "u1"⟩ 2, .deliver ⟨1, evt 2000000000 2 "u2"⟩ 3,
    .deliver ⟨2, evt 1000000000 1 "u1"⟩ 4, .deliver ⟨3, evt 95000000000 3 "u1"⟩ 5,
    .collect, .crash 6 0,
    .deliver ⟨0, evt 1000000000 1 "u1"⟩ 7, .deliver ⟨1, evt 2000000000 2 "u2"⟩ 8,
    .deliver ⟨2, evt 1000000000 1 "u1"⟩ 9, .deliver ⟨3, evt 95000000000 3 "u1"⟩ 10,
    .collect, .commit, .crash 11 0]

theorem exactly_once_sample :
    sampleLog.CopiesAgree ∧ sampleLog.EndsAfter (0 - oneDay) ∧ ∃ s : Owner,
      Run (step 0) (sampleLog.Schedule 0) (boot Db.empty 0 false 0 0 []) sampleSchedule s ∧
      s.db.Settled 0 0 ∧ ∀ key,
        s.db.rowTotals 0 0 key = cellTally (eventsIn sampleLog.entries 0) key := by
  have hexec : (execute (step 0) (sampleLog.Schedule 0) (boot Db.empty 0 false 0 0 [])
      sampleSchedule).map (fun s => s.db.loadProgress 0) = some (some ⟨3, 65000000000⟩) := by
    decide
  obtain ⟨s, hs, hpr⟩ := Option.map_eq_some_iff.mp hexec
  have hsettled : s.db.Settled 0 0 := ⟨_, hpr, by decide⟩
  have hcopies : sampleLog.CopiesAgree := by
    unfold Log.CopiesAgree
    decide
  have hstart : sampleLog.EndsAfter (0 - oneDay) := by
    unfold Log.EndsAfter
    decide
  have hrun := run_of_execute hs
  exact ⟨hcopies, hstart, s, hrun, hsettled, fun key =>
    (exactly_once sampleLog hcopies 0 false 0 0 hstart sampleSchedule s hrun).1 0 key hsettled⟩

end Owner

end HushEngine
