import HushEngine.Fleet
import Mathlib.Order.Interval.Finset.Nat
import Mathlib.Data.Int.Interval

/-!
How many windows a partition keeps open. Every open window ends after the
flushed watermark and starts no later than the newest event, so there are no
more of them than window boundaries in between, whatever was delivered. A turn
of the flush loop moves the flushed watermark to within the allowed lateness
of the newest event, and leaves at most two.
-/
namespace HushEngine

open Keyed Runs

/-- Distinct aligned windows between two points in time are no more than the boundaries there. -/
theorem length_le_of_aligned {ws : List Int} (hnodup : ws.Nodup) {a b : Int}
    (h : ∀ w ∈ ws, Aligned w ∧ a < windowEnd w ∧ w ≤ b) :
    ws.length ≤ (b / windowSize + 1 - a / windowSize).toNat := by
  have hquotient : ∀ w ∈ ws, w = windowSize * (w / windowSize) := by
    intro w hw
    have halign := (h w hw).1
    unfold Aligned windowStart windowSize at halign
    unfold windowSize
    omega
  have hinj : (ws.map fun w => w / windowSize).Nodup := by
    refine (List.nodup_map_iff_inj_on hnodup).mpr fun v hv w hw heq => ?_
    rw [hquotient v hv, hquotient w hw, heq]
  have hsub : (ws.map fun w => w / windowSize).toFinset ⊆
      Finset.Icc (a / windowSize) (b / windowSize) := by
    intro n hn
    obtain ⟨w, hw, rfl⟩ := List.mem_map.mp (List.mem_toFinset.mp hn)
    obtain ⟨_, hafter, hbefore⟩ := h w hw
    have heq := hquotient w hw
    unfold windowEnd at hafter
    unfold windowSize at hafter heq ⊢
    rw [Finset.mem_Icc]
    omega
  calc ws.length = (ws.map fun w => w / windowSize).toFinset.card := by
        rw [List.toFinset_card_of_nodup hinj, List.length_map]
    _ ≤ (Finset.Icc (a / windowSize) (b / windowSize)).card := Finset.card_le_card hsub
    _ = (b / windowSize + 1 - a / windowSize).toNat := Int.card_Icc _ _

namespace PartitionState

/-- The windows kept are between what was flushed and the newest event. -/
structure Spans (ps : PartitionState) : Prop where
  flushed_le : ps.flushedWatermark ≤ ps.maxEventTs
  open_le : ∀ w win, ps.openWindows.lookup w = some win → w ≤ ps.maxEventTs

theorem spans_postRebalance (db : Db) (partition : Int) (hllEnabled : Bool) (now : Nat)
    (nowUtc : Int) : (postRebalance db partition hllEnabled now nowUtc).Spans where
  flushed_le := by
    unfold postRebalance
    cases db.loadProgress partition <;> exact le_rfl
  open_le w win hwin := by
    rw [postRebalance_openWindows] at hwin
    cases hwin

theorem Spans.processEvent {ps : PartitionState} (h : ps.Spans) (e : Event) (offset now : Nat) :
    (ps.processEvent e offset now).1.Spans where
  flushed_le := by
    rw [processEvent_flushedWatermark, processEvent_maxEventTs]
    exact h.flushed_le.trans (le_max_left _ _)
  open_le w win hwin := by
    rw [processEvent_lookup] at hwin
    rw [processEvent_maxEventTs]
    split_ifs at hwin with hnew
    · rw [hnew.1]
      exact (windowStart_le e.ts).trans (le_max_right _ _)
    · exact (h.open_le w win hwin).trans (le_max_left _ _)

theorem Spans.tickIdle {ps : PartitionState} (h : ps.Spans) (nowWall : Nat) (nowUtc : Int) :
    (ps.tickIdle nowWall nowUtc).Spans := by
  have hmono : ps.maxEventTs ≤ (ps.tickIdle nowWall nowUtc).maxEventTs := by
    rcases ps.tickIdle_maxEventTs nowWall nowUtc with hkept | ⟨hlt, hmoved⟩ <;> omega
  refine ⟨?_, fun w win hwin => ?_⟩
  · rw [tickIdle_flushedWatermark]
    exact h.flushed_le.trans hmono
  · rw [tickIdle_openWindows] at hwin
    exact (h.open_le w win hwin).trans hmono

theorem Spans.takeClosedWindows {ps : PartitionState} (h : ps.Spans) :
    ps.takeClosedWindows.1.Spans where
  flushed_le := by
    have hflushed := h.flushed_le
    rw [takeClosedWindows_flushedWatermark, takeClosedWindows_maxEventTs]
    unfold watermark allowedLateness
    omega
  open_le w win hwin := h.open_le w win (lookup_of_takeClosedWindows hwin).1

/-- The windows open, in number. -/
def openCount (ps : PartitionState) : Nat := ps.openWindows.keys.length

theorem openCount_le {ps : PartitionState} (hmem : ps.WellFormed) (h : ps.Spans) :
    ps.openCount ≤
      (ps.maxEventTs / windowSize + 1 - ps.flushedWatermark / windowSize).toNat := by
  refine length_le_of_aligned ps.openWindows.keys_nodup fun w hw => ?_
  obtain ⟨win, hwin⟩ := Option.isSome_iff_exists.mp (AList.lookup_isSome.mpr hw)
  exact ⟨hmem.open_aligned w win hwin, hmem.open_end w win hwin, h.open_le w win hwin⟩

/-- What the flush loop leaves is the window of the newest event and the one before it. -/
theorem openCount_takeClosedWindows_le {ps : PartitionState} (hmem : ps.WellFormed)
    (h : ps.Spans) : ps.takeClosedWindows.1.openCount ≤ 2 := by
  have hcount := openCount_le hmem.takeClosedWindows h.takeClosedWindows
  rw [takeClosedWindows_flushedWatermark, takeClosedWindows_maxEventTs] at hcount
  unfold watermark allowedLateness windowSize at hcount
  omega

end PartitionState

namespace Owner

theorem spans_step {p : Int} {s t : Owner} {a : Action} (h : s.mem.Spans)
    (hstep : step p s a = some t) : t.mem.Spans := by
  cases a with
  | deliver m now =>
    obtain ⟨_, rfl⟩ := step_deliver hstep
    exact h.processEvent m.event m.offset now
  | tickIdle nowWall nowUtc =>
    obtain rfl := step_tickIdle hstep
    exact h.tickIdle nowWall nowUtc
  | collect =>
    obtain ⟨_, rfl⟩ := step_collect hstep
    dsimp only
    rw [PartitionState.collectBatch_fst]
    exact h.takeClosedWindows
  | commit =>
    obtain ⟨_, _, rfl⟩ := step_commit hstep
    exact h
  | fail =>
    obtain ⟨_, _, rfl⟩ := step_fail hstep
    exact h
  | crash now nowUtc =>
    obtain rfl := step_crash hstep
    exact PartitionState.spans_postRebalance ..

end Owner

namespace Fleet

theorem spans_of_run {db : Db} {actions : List FleetAction} {s : Fleet}
    (hrun : Run step free (idle db) actions s) :
    s.Steady ∧ ∀ p w, s.owners.lookup p = some w → w.mem.Spans := by
  have hkeeps : ∀ s a t, (s.Steady ∧ ∀ p w, s.owners.lookup p = some w → w.mem.Spans) →
      free s a → step s a = some t →
      t.Steady ∧ ∀ p w, t.owners.lookup p = some w → w.mem.Spans := ?_
  · exact hrun.invariant hkeeps ⟨steady_idle db, fun p w hw => by cases hw⟩
  intro s a t h _ hstep
  refine ⟨h.1.step hstep, lift_step (fun _ w _ => w.mem.Spans) ?_ ?_ (fun _ _ _ _ hw => hw)
    h.2 hstep⟩
  · exact fun p hllEnabled now nowUtc _ => PartitionState.spans_postRebalance ..
  · exact fun p b w o _ _ hw ho => Owner.spans_step hw ho

/-- In every run a partition has no more windows open than start between its flushed watermark and
its newest event, and at most two after each turn of the flush loop. -/
theorem open_windows_bounded {db : Db} {actions : List FleetAction} {s : Fleet}
    (hrun : Run step free (idle db) actions s) {p : Int} {w : Worker}
    (hw : s.owners.lookup p = some w) :
    w.mem.openCount ≤
      (w.mem.maxEventTs / windowSize + 1 - w.mem.flushedWatermark / windowSize).toNat ∧
    ∀ t, step s (.act p .collect) = some t →
      ∃ w', t.owners.lookup p = some w' ∧ w'.mem.openCount ≤ 2 := by
  obtain ⟨hsteady, hspans⟩ := spans_of_run hrun
  have hmem := (hsteady p w hw).mem
  refine ⟨PartitionState.openCount_le hmem (hspans p w hw), fun t hstep => ?_⟩
  obtain ⟨w', o, hw', ho, rfl⟩ := step_act hstep
  rw [hw] at hw'
  obtain rfl := Option.some.inj hw'
  obtain ⟨_, rfl⟩ := Owner.step_collect ho
  refine ⟨_, advance_owners_self _ _ _, ?_⟩
  dsimp only
  rw [PartitionState.collectBatch_fst]
  exact PartitionState.openCount_takeClosedWindows_le hmem (hspans p w hw)

/-- Events of three windows in a row. -/
def threeWindows : List FleetAction :=
  [.start 0 false 0 0, .act 0 (.deliver ⟨0, evt 1000000000 1 "u1"⟩ 0),
    .act 0 (.deliver ⟨1, evt 61000000000 2 "u1"⟩ 0),
    .act 0 (.deliver ⟨2, evt 121000000000 3 "u1"⟩ 0)]

theorem open_windows_bounded_threeWindows :
    ∃ s w t w', Run step free (idle Db.empty) threeWindows s ∧ s.owners.lookup 0 = some w ∧
      w.mem.openCount = 3 ∧ step s (.act 0 .collect) = some t ∧
      t.owners.lookup 0 = some w' ∧ w'.mem.openCount ≤ 2 := by
  have hrun : ∃ s w t, Run step free (idle Db.empty) threeWindows s ∧
      s.owners.lookup 0 = some w ∧ w.mem.openCount = 3 ∧ step s (.act 0 .collect) = some t :=
    ⟨_, _, _, run_of_execute rfl, rfl, by decide, rfl⟩
  obtain ⟨s, w, t, hs, hw, hcount, ht⟩ := hrun
  obtain ⟨w', hw', hle⟩ := (open_windows_bounded hs hw).2 t ht
  exact ⟨s, w, t, w', hs, hw, hcount, ht, hw', hle⟩

end Fleet

end HushEngine
