import HushEngine.Events
import HushEngine.Keyed
import HushEngine.Sketch
import Mathlib.Data.Finset.Insert
import Mathlib.Data.List.Sort

/-!
The in-memory state of one assigned Kafka partition: open tumbling windows with
their dedup sets and cells, the event-time watermark, the watermark up to which
windows have been handed to the flush loop, and the offsets a restart needs.
Each operation comes with one statement of everything it can do; later modules
use these and never unfold the operations.
-/
namespace HushEngine

open Keyed

/-- Per-cell aggregate accumulated in memory for one open window. -/
structure CellAgg where
  events : Nat
  users : Finset String
  hll : Option HyperLogLog
deriving DecidableEq

def CellAgg.empty : CellAgg := ⟨0, ∅, none⟩

def CellAgg.add (agg : CellAgg) (user : String) (hllEnabled : Bool) : CellAgg where
  events := agg.events + 1
  users := insert user agg.users
  hll :=
    if hllEnabled then some ((agg.hll.getD HyperLogLog.withDefaultPrecision).insert user)
    else agg.hll

/-- State for one still-open tumbling window on one partition. -/
structure Window where
  minOffset : Nat
  seenIds : Finset Uuid
  cells : Table CellKey CellAgg
deriving DecidableEq

def Window.new (offset : Nat) : Window := ⟨offset, ∅, ∅⟩

/-- What an accepted event does to its window. -/
def Window.fold (win : Window) (e : Event) (offset : Nat) (hllEnabled : Bool) : Window where
  minOffset := min win.minOffset offset
  seenIds := insert e.eventId win.seenIds
  cells := modifyAll win.cells (CellKey.cellsForEvent e) fun agg =>
    (agg.getD CellAgg.empty).add e.user hllEnabled

inductive ProcessOutcome
  | accepted
  | late
  | duplicate
deriving DecidableEq

structure PartitionState where
  partition : Int
  openWindows : Table Int Window
  maxEventTs : Int
  flushedWatermark : Int
  nextOffset : Nat
  lastEventWall : Nat
  hllEnabled : Bool
deriving DecidableEq

namespace PartitionState

def resumeFrom (partition : Int) (committedOffset : Nat) (flushedWatermark : Int)
    (now : Nat) : PartitionState where
  partition := partition
  openWindows := ∅
  maxEventTs := flushedWatermark
  flushedWatermark := flushedWatermark
  nextOffset := committedOffset
  lastEventWall := now
  hllEnabled := false

def withHllEnabled (ps : PartitionState) (enabled : Bool) : PartitionState :=
  { ps with hllEnabled := enabled }

def watermark (ps : PartitionState) : Int := ps.maxEventTs - allowedLateness

/-- The window of the entry at `w`, created at `offset` when there is none. -/
def windowFor (ps : PartitionState) (w : Int) (offset : Nat) : Window :=
  (ps.openWindows.lookup w).getD (Window.new offset)

/-- What `processEvent` records of every message it is given, whatever becomes of it. -/
def consume (ps : PartitionState) (e : Event) (offset now : Nat) : PartitionState :=
  { ps with
    nextOffset := offset + 1
    lastEventWall := now
    maxEventTs := if e.ts > ps.maxEventTs then e.ts else ps.maxEventTs }

def processEvent (ps : PartitionState) (e : Event) (offset now : Nat) :
    PartitionState × ProcessOutcome :=
  let ps' := ps.consume e offset now
  let wStart := windowStart e.ts
  let wEnd := windowEnd wStart
  if wEnd ≤ ps.flushedWatermark then (ps', .late)
  else
    let win := ps.windowFor wStart offset
    if e.eventId ∈ win.seenIds then
      ({ ps' with openWindows := ps.openWindows.insert wStart win }, .duplicate)
    else
      ({ ps' with openWindows :=
          ps.openWindows.insert wStart (win.fold e offset ps.hllEnabled) }, .accepted)

def tickIdle (ps : PartitionState) (nowWall : Nat) (nowUtc : Int) : PartitionState :=
  if nowWall - ps.lastEventWall > idlePartitionTimeout ∧ nowUtc > ps.maxEventTs then
    { ps with maxEventTs := nowUtc }
  else ps

/-- The starts of the windows closed under the current watermark, in key order. -/
def closedStarts (ps : PartitionState) : List Int :=
  (ps.openWindows.keys.insertionSort (· ≤ ·)).filter fun start =>
    decide (windowEnd start ≤ ps.watermark)

def takeClosedWindows (ps : PartitionState) : PartitionState × List (Int × Window) :=
  let closed := ps.closedStarts.filterMap fun start =>
    (ps.openWindows.lookup start).map fun win => (start, win)
  ({ ps with
      openWindows := removals ps.openWindows ps.closedStarts
      flushedWatermark :=
        if ps.watermark > ps.flushedWatermark then ps.watermark else ps.flushedWatermark },
    closed)

def committedOffset (ps : PartitionState) : Nat :=
  (((rows ps.openWindows).map fun r => r.2.minOffset).min?).getD ps.nextOffset

section ProcessEvent

variable (ps : PartitionState) (e : Event) (offset now : Nat)

@[simp] theorem processEvent_flushedWatermark :
    (ps.processEvent e offset now).1.flushedWatermark = ps.flushedWatermark := by
  unfold processEvent
  dsimp only
  split_ifs <;> rfl

@[simp] theorem processEvent_nextOffset :
    (ps.processEvent e offset now).1.nextOffset = offset + 1 := by
  unfold processEvent
  dsimp only
  split_ifs <;> rfl

@[simp] theorem processEvent_hllEnabled :
    (ps.processEvent e offset now).1.hllEnabled = ps.hllEnabled := by
  unfold processEvent
  dsimp only
  split_ifs <;> rfl

theorem processEvent_maxEventTs :
    (ps.processEvent e offset now).1.maxEventTs = max ps.maxEventTs e.ts := by
  have hconsume : (ps.consume e offset now).maxEventTs = max ps.maxEventTs e.ts := by
    unfold consume
    dsimp only
    split_ifs <;> omega
  unfold processEvent
  dsimp only
  split_ifs <;> exact hconsume

/-- Everything `processEvent` can do to the open windows, with its outcome. -/
theorem processEvent_cases :
    ((ps.processEvent e offset now).2 = .late ∧ windowEnd e.window ≤ ps.flushedWatermark ∧
      ∀ w, (ps.processEvent e offset now).1.openWindows.lookup w = ps.openWindows.lookup w) ∨
    ((ps.processEvent e offset now).2 = .duplicate ∧
      ps.flushedWatermark < windowEnd e.window ∧
      (∃ win, ps.openWindows.lookup e.window = some win ∧ e.eventId ∈ win.seenIds) ∧
      ∀ w, (ps.processEvent e offset now).1.openWindows.lookup w = ps.openWindows.lookup w) ∨
    ((ps.processEvent e offset now).2 = .accepted ∧
      ps.flushedWatermark < windowEnd e.window ∧
      e.eventId ∉ (ps.windowFor e.window offset).seenIds ∧
      ∀ w, (ps.processEvent e offset now).1.openWindows.lookup w =
        if w = e.window then some ((ps.windowFor e.window offset).fold e offset ps.hllEnabled)
        else ps.openWindows.lookup w) := by
  unfold processEvent Event.window
  dsimp only
  split_ifs with hlate hseen
  · exact Or.inl ⟨rfl, hlate, fun _ => rfl⟩
  · refine Or.inr (Or.inl ⟨rfl, by omega, ?_, ?_⟩)
    · unfold windowFor at hseen
      cases hwin : ps.openWindows.lookup (windowStart e.ts) with
      | none => simp [hwin, Window.new] at hseen
      | some win => exact ⟨win, rfl, by simpa [hwin] using hseen⟩
    · intro w
      by_cases hw : w = windowStart e.ts
      · subst hw
        rw [AList.lookup_insert]
        unfold windowFor at hseen ⊢
        cases hwin : ps.openWindows.lookup (windowStart e.ts) with
        | none => simp [hwin, Window.new] at hseen
        | some win => rfl
      · exact AList.lookup_insert_ne hw
  · refine Or.inr (Or.inr ⟨rfl, by omega, hseen, ?_⟩)
    intro w
    by_cases hw : w = windowStart e.ts
    · subst hw
      rw [AList.lookup_insert, if_pos rfl]
    · rw [AList.lookup_insert_ne hw, if_neg hw]

/-- An event is late exactly when its window has been handed to the flush loop. -/
theorem processEvent_late_iff :
    (ps.processEvent e offset now).2 = .late ↔ windowEnd e.window ≤ ps.flushedWatermark := by
  rcases ps.processEvent_cases e offset now with ⟨h, hle, _⟩ | ⟨h, hlt, _⟩ | ⟨h, hlt, _⟩
  · simp [h, hle]
  · simp [h, hlt]
  · simp [h, hlt]

/-- The only entry that can change is the event's own, and only for a new event on time. -/
theorem processEvent_lookup (w : Int) :
    (ps.processEvent e offset now).1.openWindows.lookup w =
      if w = e.window ∧ ps.flushedWatermark < windowEnd e.window ∧
          e.eventId ∉ (ps.windowFor e.window offset).seenIds then
        some ((ps.windowFor e.window offset).fold e offset ps.hllEnabled)
      else ps.openWindows.lookup w := by
  rcases ps.processEvent_cases e offset now with
    ⟨_, hend, hlook⟩ | ⟨_, _, ⟨win, hwin, hseen⟩, hlook⟩ | ⟨_, hend, hnew, hlook⟩
  · rw [hlook, if_neg fun h => absurd h.2.1 (not_lt.mpr hend)]
  · have hfor : e.eventId ∈ (ps.windowFor e.window offset).seenIds := by
      rw [windowFor, hwin]
      exact hseen
    rw [hlook, if_neg fun h => h.2.2 hfor]
  · rw [hlook]
    by_cases hw : w = e.window
    · rw [if_pos hw, if_pos ⟨hw, hend, hnew⟩]
    · rw [if_neg hw, if_neg fun h => hw h.1]

end ProcessEvent

section TickIdle

variable (ps : PartitionState) (nowWall : Nat) (nowUtc : Int)

@[simp] theorem tickIdle_openWindows :
    (ps.tickIdle nowWall nowUtc).openWindows = ps.openWindows := by
  unfold tickIdle
  split_ifs <;> rfl

@[simp] theorem tickIdle_flushedWatermark :
    (ps.tickIdle nowWall nowUtc).flushedWatermark = ps.flushedWatermark := by
  unfold tickIdle
  split_ifs <;> rfl

@[simp] theorem tickIdle_nextOffset :
    (ps.tickIdle nowWall nowUtc).nextOffset = ps.nextOffset := by
  unfold tickIdle
  split_ifs <;> rfl

/-- A tick leaves the event-time clock alone or moves it forward to the wall clock. -/
theorem tickIdle_maxEventTs :
    (ps.tickIdle nowWall nowUtc).maxEventTs = ps.maxEventTs ∨
      (ps.maxEventTs < nowUtc ∧ (ps.tickIdle nowWall nowUtc).maxEventTs = nowUtc) := by
  unfold tickIdle
  split_ifs with h
  · exact Or.inr ⟨h.2, rfl⟩
  · exact Or.inl rfl

end TickIdle

section TakeClosedWindows

variable (ps : PartitionState)

theorem mem_closedStarts (w : Int) :
    w ∈ ps.closedStarts ↔ w ∈ ps.openWindows.keys ∧ windowEnd w ≤ ps.watermark := by
  simp [closedStarts, List.mem_insertionSort]

theorem nodup_closedStarts : ps.closedStarts.Nodup := by
  refine List.Nodup.filter _ ?_
  exact ((List.perm_insertionSort _ _).nodup_iff).mpr ps.openWindows.keys_nodup

theorem takeClosedWindows_lookup (w : Int) :
    ps.takeClosedWindows.1.openWindows.lookup w =
      if windowEnd w ≤ ps.watermark then none else ps.openWindows.lookup w := by
  change (removals ps.openWindows ps.closedStarts).lookup w = _
  rw [lookup_removals]
  by_cases hend : windowEnd w ≤ ps.watermark
  · rw [if_pos hend]
    by_cases hmem : w ∈ ps.closedStarts
    · rw [if_pos hmem]
    · rw [if_neg hmem]
      have hkey : w ∉ ps.openWindows := fun h => hmem ((ps.mem_closedStarts w).mpr ⟨h, hend⟩)
      exact AList.lookup_eq_none.mpr hkey
  · rw [if_neg hend, if_neg fun h => hend ((ps.mem_closedStarts w).mp h).2]

theorem mem_takeClosedWindows (w : Int) (win : Window) :
    (w, win) ∈ ps.takeClosedWindows.2 ↔
      ps.openWindows.lookup w = some win ∧ windowEnd w ≤ ps.watermark := by
  change (w, win) ∈ ps.closedStarts.filterMap _ ↔ _
  simp only [List.mem_filterMap, Option.map_eq_some_iff, Prod.mk.injEq]
  constructor
  · intro h
    obtain ⟨start, hstart, win', hwin, rfl, rfl⟩ := h
    exact ⟨hwin, ((ps.mem_closedStarts start).mp hstart).2⟩
  · intro h
    obtain ⟨hwin, hend⟩ := h
    refine ⟨w, (ps.mem_closedStarts w).mpr ⟨?_, hend⟩, win, hwin, rfl, rfl⟩
    exact AList.lookup_isSome.mp (by rw [hwin]; rfl)

/-- No window start is returned twice by one call. -/
theorem nodup_takeClosedWindows : (ps.takeClosedWindows.2.map Prod.fst).Nodup := by
  have hsub : (ps.takeClosedWindows.2.map Prod.fst).Sublist ps.closedStarts := by
    change ((ps.closedStarts.filterMap _).map Prod.fst).Sublist _
    rw [List.map_filterMap]
    generalize ps.closedStarts = starts
    induction starts with
    | nil => simp
    | cons start starts ih =>
      rw [List.filterMap_cons]
      cases ps.openWindows.lookup start with
      | none => exact ih.cons _
      | some win => exact ih.cons_cons _
  exact hsub.nodup ps.nodup_closedStarts

theorem takeClosedWindows_flushedWatermark :
    ps.takeClosedWindows.1.flushedWatermark = max ps.flushedWatermark ps.watermark := by
  change (if _ then _ else _) = _
  split_ifs <;> omega

@[simp] theorem takeClosedWindows_maxEventTs :
    ps.takeClosedWindows.1.maxEventTs = ps.maxEventTs := rfl

@[simp] theorem takeClosedWindows_nextOffset :
    ps.takeClosedWindows.1.nextOffset = ps.nextOffset := rfl

end TakeClosedWindows

section CommittedOffset

variable (ps : PartitionState)

theorem committedOffset_le_minOffset (w : Int) (win : Window)
    (h : ps.openWindows.lookup w = some win) : ps.committedOffset ≤ win.minOffset := by
  have hmem : win.minOffset ∈ (rows ps.openWindows).map fun r => r.2.minOffset :=
    List.mem_map.mpr ⟨(w, win), (mem_rows _ w win).mpr h, rfl⟩
  unfold committedOffset
  cases hmin : ((rows ps.openWindows).map fun r => r.2.minOffset).min? with
  | none =>
    rw [List.min?_eq_none_iff.mp hmin] at hmem
    simp at hmem
  | some n => exact (List.min?_eq_some_iff.mp hmin).2 _ hmem

theorem le_committedOffset_iff (n : Nat) (hle : ∀ w win, ps.openWindows.lookup w = some win →
    win.minOffset ≤ ps.nextOffset) :
    n ≤ ps.committedOffset ↔ n ≤ ps.nextOffset ∧
      ∀ w win, ps.openWindows.lookup w = some win → n ≤ win.minOffset := by
  unfold committedOffset
  cases hmin : ((rows ps.openWindows).map fun r => r.2.minOffset).min? with
  | none =>
    have hnil : rows ps.openWindows = [] := by
      simpa using List.min?_eq_none_iff.mp hmin
    have hnone : ∀ w win, ps.openWindows.lookup w ≠ some win := by
      intro w win h
      have := (mem_rows _ w win).mpr h
      simp [hnil] at this
    simp [hnone]
  | some m =>
    obtain ⟨hmem, hall⟩ := List.min?_eq_some_iff.mp hmin
    obtain ⟨⟨w, win⟩, hrow, rfl⟩ := List.mem_map.mp hmem
    have hlook := (mem_rows _ w win).mp hrow
    simp only [Option.getD_some]
    constructor
    · intro hn
      refine ⟨hn.trans (hle w win hlook), fun w' win' h' => hn.trans (hall _ ?_)⟩
      exact List.mem_map.mpr ⟨(w', win'), (mem_rows _ w' win').mpr h', rfl⟩
    · exact fun hn => hn.2 w win hlook

@[simp] theorem committedOffset_tickIdle (nowWall : Nat) (nowUtc : Int) :
    (ps.tickIdle nowWall nowUtc).committedOffset = ps.committedOffset := by
  simp [committedOffset]

end CommittedOffset

end PartitionState

end HushEngine
