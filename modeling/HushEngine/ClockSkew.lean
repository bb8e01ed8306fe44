import HushEngine.FlushLoop
import HushEngine.Gateway
import HushEngine.Runs

/-!
Event time against arrival time. The gateway lets a timestamp run ahead of its
clock by more than a window is kept open for, and the aggregator's watermark
follows the newest timestamp; so one client's clock can close the window that
another client's events of this moment belong to.
-/
namespace HushEngine

open Runs

/-- A partition's state and the gateway's clock at the last event accepted for it. -/
structure Feed where
  mem : PartitionState
  clock : Int
deriving DecidableEq

inductive FeedAction
  | deliver (e : Event) (now : Int) (offset wall : Nat)
  | take
deriving DecidableEq

namespace Feed

def step (s : Feed) : FeedAction → Option Feed
  | .deliver e now offset wall => some ⟨(s.mem.processEvent e offset wall).1, now⟩
  | .take => some { s with mem := s.mem.takeClosedWindows.1 }

/-- Events come in the order in which the gateway has accepted them. -/
def Accepted (s : Feed) : FeedAction → Prop
  | .deliver e now _ _ => e.validate now = .ok () ∧ s.clock ≤ now
  | .take => True

instance (s : Feed) (a : FeedAction) : Decidable (s.Accepted a) :=
  match a with
  | .deliver e now _ _ => inferInstanceAs (Decidable (e.validate now = .ok () ∧ s.clock ≤ now))
  | .take => inferInstanceAs (Decidable True)

/-- The newest timestamp a partition has seen. -/
def newest (start : Int) : List FeedAction → Int
  | [] => start
  | .deliver e _ _ _ :: as => newest (max start e.ts) as
  | .take :: as => newest start as

variable {s u : Feed} {as : List FeedAction}

theorem maxEventTs_of_run (h : Run step Accepted s as u) :
    u.mem.maxEventTs = newest s.mem.maxEventTs as := by
  induction h with
  | nil => rfl
  | @cons s t u a as _ hstep _ ih =>
    cases a with
    | deliver e now offset wall =>
      obtain rfl := Option.some.inj hstep
      rw [ih, newest, PartitionState.processEvent_maxEventTs]
    | take =>
      obtain rfl := Option.some.inj hstep
      rw [ih, newest, PartitionState.takeClosedWindows_maxEventTs]

theorem clock_le_of_run (h : Run step Accepted s as u) : s.clock ≤ u.clock := by
  induction h with
  | nil => exact le_rfl
  | @cons s t u a as hguard hstep _ ih =>
    cases a with
    | deliver e now offset wall =>
      obtain rfl := Option.some.inj hstep
      exact hguard.2.trans ih
    | take =>
      obtain rfl := Option.some.inj hstep
      exact ih

/-- A window is still open for events if no take has had a watermark past its end. -/
theorem flushedWatermark_lt_iff (h : Run step Accepted s as u) (time : Int) :
    u.mem.flushedWatermark < time ↔ s.mem.flushedWatermark < time ∧
      ∀ pre post, as = pre ++ .take :: post →
        newest s.mem.maxEventTs pre - allowedLateness < time := by
  induction h with
  | nil s => simp
  | @cons s t u a as _ hstep _ ih =>
    cases a with
    | deliver e now offset wall =>
      obtain rfl := Option.some.inj hstep
      rw [ih]
      simp only [PartitionState.processEvent_flushedWatermark,
        PartitionState.processEvent_maxEventTs]
      refine and_congr_right fun _ => ⟨fun hall pre post heq => ?_, fun hall pre post heq => ?_⟩
      · cases pre with
        | nil => simp at heq
        | cons b pre =>
          obtain ⟨rfl, rfl⟩ := List.cons.inj heq
          exact hall pre post rfl
      · exact hall (.deliver e now offset wall :: pre) post (by rw [heq, List.cons_append])
    | take =>
      obtain rfl := Option.some.inj hstep
      rw [ih]
      simp only [PartitionState.takeClosedWindows_flushedWatermark,
        PartitionState.takeClosedWindows_maxEventTs, PartitionState.watermark]
      constructor
      · intro hparts
        obtain ⟨hlt, hall⟩ := hparts
        refine ⟨by omega, fun pre post heq => ?_⟩
        cases pre with
        | nil =>
          rw [newest]
          omega
        | cons b pre =>
          obtain ⟨rfl, rfl⟩ := List.cons.inj heq
          exact hall pre post rfl
      · intro hparts
        obtain ⟨hlt, hall⟩ := hparts
        have hfirst := hall [] as rfl
        rw [newest] at hfirst
        exact ⟨by omega, fun pre post heq =>
          hall (.take :: pre) post (by rw [heq, List.cons_append])⟩

/-- Every event that is fresh when the gateway accepts it is processed in time, exactly when no
take before it has seen a timestamp that puts the watermark past the end of its window. -/
theorem fresh_not_late_iff (start : Feed) (actions : List FeedAction) (s : Feed)
    (hstart : start.mem.flushedWatermark ≤ start.clock - allowedLateness)
    (hrun : Run step Accepted start actions s) :
    (∀ before e now offset wall rest u, actions = before ++ .deliver e now offset wall :: rest →
      now - allowedLateness ≤ e.ts → Run step Accepted start before u →
      (u.mem.processEvent e offset wall).2 ≠ .late) ↔
    ∀ before between e now offset wall rest,
      actions = before ++ .take :: between ++ .deliver e now offset wall :: rest →
      now - allowedLateness ≤ e.ts →
      newest start.mem.maxEventTs before - allowedLateness < windowEnd e.window := by
  have hlate : ∀ before e now offset wall rest u,
      actions = before ++ .deliver e now offset wall :: rest → now - allowedLateness ≤ e.ts →
      Run step Accepted start before u → ((u.mem.processEvent e offset wall).2 ≠ .late ↔
        ∀ pre post, before = pre ++ .take :: post →
          newest start.mem.maxEventTs pre - allowedLateness < windowEnd e.window) := by
    intro before e now offset wall rest u heq hfresh hu
    rw [ne_eq, PartitionState.processEvent_late_iff, not_le, flushedWatermark_lt_iff hu]
    refine and_iff_right ?_
    rw [heq] at hrun
    obtain ⟨u', _, hu', hguard, _, _⟩ := hrun.guard_at
    obtain rfl := hu.deterministic hu'
    have hclock := (clock_le_of_run hu).trans hguard.2
    have hend := lt_windowEnd e.ts
    change _ < windowEnd (windowStart e.ts)
    omega
  constructor
  · intro h before between e now offset wall rest heq hfresh
    obtain ⟨u, _, hu, _⟩ := (heq ▸ hrun).guard_at
    exact (hlate _ e now offset wall rest u heq hfresh hu).mp
      (h _ e now offset wall rest u heq hfresh hu) before between rfl
  · intro h before e now offset wall rest u heq hfresh hu
    refine (hlate before e now offset wall rest u heq hfresh hu).mpr fun pre post hpre => ?_
    exact h pre post e now offset wall rest (by rw [heq, hpre]) hfresh

/-- No timestamp runs ahead of the gateway's clock. -/
def Punctual (s : Feed) : FeedAction → Prop
  | .deliver e now _ _ => e.validate now = .ok () ∧ s.clock ≤ now ∧ e.ts ≤ now
  | .take => True

instance (s : Feed) (a : FeedAction) : Decidable (s.Punctual a) :=
  match a with
  | .deliver e now _ _ => inferInstanceAs
      (Decidable (e.validate now = .ok () ∧ s.clock ≤ now ∧ e.ts ≤ now))
  | .take => inferInstanceAs (Decidable True)

theorem accepted_of_punctual (h : Run step Punctual s as u) : Run step Accepted s as u :=
  h.strengthen fun _ a _ _ _ _ _ hguard _ => by
    cases a with
    | deliver e now offset wall => exact ⟨hguard.1, hguard.2.1⟩
    | take => trivial

theorem newest_le_of_punctual (h : Run step Punctual s as u)
    (hstart : s.mem.maxEventTs ≤ s.clock) : newest s.mem.maxEventTs as ≤ u.clock := by
  rw [← maxEventTs_of_run (accepted_of_punctual h)]
  have hinv : ∀ s a t, s.mem.maxEventTs ≤ s.clock → s.Punctual a → step s a = some t →
      t.mem.maxEventTs ≤ t.clock := by
    intro s a t hs hguard hstep
    cases a with
    | deliver e now offset wall =>
      obtain rfl := Option.some.inj hstep
      have hclock := hguard.2.1
      have hts := hguard.2.2
      simp only [PartitionState.processEvent_maxEventTs]
      omega
    | take =>
      obtain rfl := Option.some.inj hstep
      exact hs
  exact h.invariant hinv hstart

/-- Where no timestamp runs ahead, no take closes the window of a fresh event. -/
theorem fresh_in_time_of_punctual (start : Feed) (actions : List FeedAction) (s : Feed)
    (hstart : start.mem.maxEventTs ≤ start.clock) (hrun : Run step Punctual start actions s) :
    ∀ before between e now offset wall rest,
      actions = before ++ .take :: between ++ .deliver e now offset wall :: rest →
      now - allowedLateness ≤ e.ts →
      newest start.mem.maxEventTs before - allowedLateness < windowEnd e.window := by
  intro before between e now offset wall rest heq hfresh
  rw [heq] at hrun
  obtain ⟨u, _, hu, hguard, _, _⟩ := hrun.guard_at
  obtain ⟨v, hv, hrest⟩ := hu.split
  have hnewest := newest_le_of_punctual hv hstart
  have hclock := (clock_le_of_run (accepted_of_punctual hrest)).trans hguard.2.1
  have hend := lt_windowEnd e.ts
  change _ < windowEnd (windowStart e.ts)
  omega

def freshStart : Feed := ⟨PartitionState.resumeFrom 0 0 0 0, 35000000000⟩

/-- A client a minute ahead, a flush, and an event of this moment. -/
theorem fresh_event_late :
    freshStart.mem.flushedWatermark ≤ freshStart.clock - allowedLateness ∧
      ∃ u s, Run step Accepted freshStart
          [.deliver (evt 95000000000 1 "u1") 35000000000 0 0, .take] u ∧
        Run step Accepted u [.deliver (evt 36000000000 2 "u2") 36000000000 1 0] s ∧
        36000000000 - allowedLateness ≤ (evt 36000000000 2 "u2").ts ∧
        (u.mem.processEvent (evt 36000000000 2 "u2") 1 0).2 = .late :=
  ⟨by decide, _, _, run_of_execute rfl, run_of_execute rfl, by decide, by decide⟩

theorem fresh_not_late_iff_punctual :
    ∃ s, Run step Accepted freshStart [.deliver (evt 34000000000 1 "u1") 35000000000 0 0, .take,
        .deliver (evt 36000000000 2 "u2") 36000000000 1 0] s ∧
      ∀ u, Run step Accepted freshStart
          [.deliver (evt 34000000000 1 "u1") 35000000000 0 0, .take] u →
        (u.mem.processEvent (evt 36000000000 2 "u2") 1 0).2 ≠ .late := by
  have hrun : ∃ s, Run step Punctual freshStart [.deliver (evt 34000000000 1 "u1") 35000000000 0 0,
      .take, .deliver (evt 36000000000 2 "u2") 36000000000 1 0] s := ⟨_, run_of_execute rfl⟩
  obtain ⟨s, hs⟩ := hrun
  refine ⟨s, accepted_of_punctual hs, fun u hu => ?_⟩
  exact (fresh_not_late_iff freshStart _ s (by decide) (accepted_of_punctual hs)).mpr
    (fresh_in_time_of_punctual freshStart _ s (by decide) hs) _ _ _ _ _ _ u rfl (by decide) hu

end Feed

end HushEngine
