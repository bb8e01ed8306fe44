import HushEngine.Runs
import HushEngine.WindowContents

/-!
The memory of one partition by itself, under any sequence of calls: events at
any offsets, idle ticks and takes. A window is accepted into while it ends
after the flushed watermark and handed out once it ends by the other one; that
the two never let a window through twice is the invariant of this module.
-/
namespace HushEngine

open Keyed Runs Tally

/-- The calls on a `PartitionState`. -/
inductive Call
  | processEvent (m : Message) (now : Nat)
  | tickIdle (nowWall : Nat) (nowUtc : Int)
  | takeClosedWindows
deriving DecidableEq

/-- The state, the messages it has accepted and the batches it has handed out. -/
structure Ledger where
  mem : PartitionState
  accepted : List Message
  returned : List (List (Int × Window))
deriving DecidableEq

namespace Ledger

def start (partition : Int) (committedOffset : Nat) (flushedWatermark : Int) (now : Nat)
    (hllEnabled : Bool) : Ledger where
  mem := (PartitionState.resumeFrom partition committedOffset flushedWatermark now).withHllEnabled
    hllEnabled
  accepted := []
  returned := []

def step (s : Ledger) : Call → Option Ledger
  | .processEvent m now =>
    let r := s.mem.processEvent m.event m.offset now
    some { s with
      mem := r.1
      accepted := if r.2 = .accepted then m :: s.accepted else s.accepted }
  | .tickIdle nowWall nowUtc => some { s with mem := s.mem.tickIdle nowWall nowUtc }
  | .takeClosedWindows =>
    some { s with
      mem := s.mem.takeClosedWindows.1
      returned := s.returned ++ [s.mem.takeClosedWindows.2] }

/-- Every window there has been that holds events, the open ones and the returned ones. -/
def windows (s : Ledger) : List (Int × Window) := rows s.mem.openWindows ++ s.returned.flatten

/-- The accepted messages of a window that contribute to a cell. -/
def contributing (s : Ledger) (w : Int) (key : CellKey) : List Message :=
  s.accepted.filter fun m => decide (m.window = w ∧ key ∈ CellKey.cellsForEvent m.event)

/-- Returned windows end by the flushed watermark and open ones after it; each holds exactly the
accepted events of its start. -/
structure Conserved (s : Ledger) : Prop where
  nodup : (s.returned.flatten.map Prod.fst).Nodup
  returned_end : ∀ c ∈ s.returned.flatten, windowEnd c.1 ≤ s.mem.flushedWatermark
  open_end : ∀ w win, s.mem.openWindows.lookup w = some win →
    s.mem.flushedWatermark < windowEnd w
  open_holds : ∀ w win, s.mem.openWindows.lookup w = some win →
    win.Holds (eventsIn s.accepted w)
  returned_holds : ∀ c ∈ s.returned.flatten, c.2.Holds (eventsIn s.accepted c.1)
  placed : ∀ m ∈ s.accepted, (s.mem.openWindows.lookup m.window).isSome ∨
    m.window ∈ s.returned.flatten.map Prod.fst
  distinct : (s.accepted.map fun m => (m.window, m.event.eventId)).Nodup

theorem conserved_start (partition : Int) (committedOffset : Nat) (flushedWatermark : Int)
    (now : Nat) (hllEnabled : Bool) :
    (start partition committedOffset flushedWatermark now hllEnabled).Conserved where
  nodup := .nil
  returned_end c hc := by cases hc
  open_end w win hwin := by cases hwin
  open_holds w win hwin := by cases hwin
  returned_holds c hc := by cases hc
  placed m hm := by cases hm
  distinct := .nil

section Step

variable {s t : Ledger}

theorem Conserved.of_lookup_eq (h : s.Conserved) {mem : PartitionState}
    (hlook : ∀ w, mem.openWindows.lookup w = s.mem.openWindows.lookup w)
    (hwatermark : mem.flushedWatermark = s.mem.flushedWatermark) :
    Conserved { s with mem := mem } where
  nodup := h.nodup
  returned_end c hc := by simpa [hwatermark] using h.returned_end c hc
  open_end w win hwin := by
    rw [hlook] at hwin
    simpa [hwatermark] using h.open_end w win hwin
  open_holds w win hwin := h.open_holds w win (by rwa [← hlook])
  returned_holds := h.returned_holds
  placed m hm := by simpa [hlook] using h.placed m hm
  distinct := h.distinct

/-- A window that is neither open nor returned has no accepted events. -/
theorem Conserved.window_ne_of_not_open (h : s.Conserved) {w : Int}
    (hw : s.mem.flushedWatermark < windowEnd w) (hlook : s.mem.openWindows.lookup w = none) :
    ∀ m ∈ s.accepted, m.window ≠ w := by
  rintro m hm rfl
  rcases h.placed m hm with hopen | hreturned
  · simp [hlook] at hopen
  · obtain ⟨c, hc, heq⟩ := List.mem_map.mp hreturned
    have hend := h.returned_end c hc
    rw [heq] at hend
    omega

theorem Conserved.windowFor_holds (h : s.Conserved) (w : Int) (offset : Nat)
    (hw : s.mem.flushedWatermark < windowEnd w) :
    (s.mem.windowFor w offset).Holds (eventsIn s.accepted w) :=
  PartitionState.windowFor_holds offset (fun win => h.open_holds w win) (h.window_ne_of_not_open hw)

theorem Conserved.accept (h : s.Conserved) (m : Message) {mem : PartitionState}
    (hwatermark : mem.flushedWatermark = s.mem.flushedWatermark)
    (hend : s.mem.flushedWatermark < windowEnd m.window)
    (hnew : m.event.eventId ∉ (s.mem.windowFor m.window m.offset).seenIds)
    (hlook : ∀ w, mem.openWindows.lookup w = if w = m.window then
      some ((s.mem.windowFor m.window m.offset).fold m.event m.offset s.mem.hllEnabled)
      else s.mem.openWindows.lookup w) :
    Conserved { s with mem := mem, accepted := m :: s.accepted } where
  nodup := h.nodup
  returned_end c hc := by simpa [hwatermark] using h.returned_end c hc
  open_end w win hwin := by
    dsimp only at hwin ⊢
    rw [hwatermark]
    rw [hlook] at hwin
    split_ifs at hwin with hw
    · rwa [hw]
    · exact h.open_end w win hwin
  open_holds _ _ hwin := PartitionState.open_holds_of_accepted hlook h.open_holds
    (h.windowFor_holds m.window m.offset hend) hnew hwin
  returned_holds c hc := by
    have hle := h.returned_end c hc
    have hne : m.window ≠ c.1 := by
      intro heq
      rw [heq] at hend
      omega
    dsimp only
    rw [eventsIn_cons_of_ne m s.accepted c.1 hne]
    exact h.returned_holds c hc
  placed m' hm' := by
    dsimp only
    rw [hlook]
    rcases List.mem_cons.mp hm' with rfl | hold
    · exact Or.inl (by rw [if_pos rfl]; rfl)
    · split_ifs
      · exact Or.inl rfl
      · exact h.placed m' hold
  distinct := by
    rw [List.map_cons, List.nodup_cons]
    refine ⟨?_, h.distinct⟩
    intro hmem
    obtain ⟨m', hm', heq⟩ := List.mem_map.mp hmem
    obtain ⟨hwindow, hid⟩ := Prod.mk.inj heq
    rw [(h.windowFor_holds m.window m.offset hend).ids, ← hid] at hnew
    exact hnew (Finset.mem_image_of_mem _ ((mem_eventsIn _ _ _).mpr ⟨m', hm', hwindow, rfl⟩))

theorem Conserved.take (h : s.Conserved) :
    Conserved { s with
      mem := s.mem.takeClosedWindows.1
      returned := s.returned ++ [s.mem.takeClosedWindows.2] } := by
  have hflat : (s.returned ++ [s.mem.takeClosedWindows.2]).flatten =
      s.returned.flatten ++ s.mem.takeClosedWindows.2 := by simp
  have htaken : ∀ c ∈ s.mem.takeClosedWindows.2,
      s.mem.openWindows.lookup c.1 = some c.2 ∧ windowEnd c.1 ≤ s.mem.watermark :=
    fun c hc => (s.mem.mem_takeClosedWindows c.1 c.2).mp hc
  constructor
  case nodup =>
    dsimp only
    rw [hflat, List.map_append, List.nodup_append]
    refine ⟨h.nodup, s.mem.nodup_takeClosedWindows, ?_⟩
    intro w hw w' hw' heq
    obtain ⟨c, hc, rfl⟩ := List.mem_map.mp hw
    obtain ⟨c', hc', rfl⟩ := List.mem_map.mp hw'
    have hreturned := h.returned_end c hc
    have hopen := h.open_end _ _ (htaken c' hc').1
    rw [← heq] at hopen
    omega
  case returned_end =>
    dsimp only
    rw [hflat, PartitionState.takeClosedWindows_flushedWatermark]
    intro c hc
    rcases List.mem_append.mp hc with hold | hnew
    · exact (h.returned_end c hold).trans (le_max_left _ _)
    · exact (htaken c hnew).2.trans (le_max_right _ _)
  case open_end =>
    intro w win hwin
    obtain ⟨hlook, hlt⟩ := PartitionState.lookup_of_takeClosedWindows hwin
    have hopen := h.open_end w win hlook
    simp only [PartitionState.takeClosedWindows_flushedWatermark]
    omega
  case open_holds =>
    intro w win hwin
    exact h.open_holds w win (PartitionState.lookup_of_takeClosedWindows hwin).1
  case returned_holds =>
    dsimp only
    rw [hflat]
    intro c hc
    rcases List.mem_append.mp hc with hold | hnew
    · exact h.returned_holds c hold
    · exact h.open_holds c.1 c.2 (htaken c hnew).1
  case placed =>
    dsimp only
    rw [hflat, List.map_append]
    intro m hm
    rcases h.placed m hm with hopen | hreturned
    · obtain ⟨win, hwin⟩ := Option.isSome_iff_exists.mp hopen
      by_cases hend : windowEnd m.window ≤ s.mem.watermark
      · refine Or.inr (List.mem_append_right _ (List.mem_map.mpr ⟨(m.window, win), ?_, rfl⟩))
        exact (s.mem.mem_takeClosedWindows m.window win).mpr ⟨hwin, hend⟩
      · left
        rw [PartitionState.takeClosedWindows_lookup, if_neg hend]
        exact hopen
    · exact Or.inr (List.mem_append_left _ hreturned)
  case distinct => exact h.distinct

theorem Conserved.step {a : Call} (h : s.Conserved) (hstep : Ledger.step s a = some t) :
    t.Conserved := by
  cases a with
  | processEvent m now =>
    obtain rfl := Option.some.inj hstep
    have hwatermark := s.mem.processEvent_flushedWatermark m.event m.offset now
    rcases s.mem.processEvent_cases m.event m.offset now with
      ⟨hlate, _, hlook⟩ | ⟨hduplicate, _, _, hlook⟩ | ⟨haccepted, hend, hnew, hlook⟩
    · rw [hlate, if_neg (by decide)]
      exact h.of_lookup_eq hlook hwatermark
    · rw [hduplicate, if_neg (by decide)]
      exact h.of_lookup_eq hlook hwatermark
    · rw [if_pos haccepted]
      exact h.accept m hwatermark hend hnew hlook
  | tickIdle nowWall nowUtc =>
    obtain rfl := Option.some.inj hstep
    exact h.of_lookup_eq (fun w => by rw [PartitionState.tickIdle_openWindows]) (by simp)
  | takeClosedWindows =>
    obtain rfl := Option.some.inj hstep
    exact h.take

end Step

section Windows

variable {s : Ledger}

theorem mem_windows (c : Int × Window) :
    c ∈ s.windows ↔ s.mem.openWindows.lookup c.1 = some c.2 ∨ c ∈ s.returned.flatten := by
  rw [windows, List.mem_append, mem_rows]

theorem Conserved.holds_of_mem_windows (h : s.Conserved) {c : Int × Window}
    (hc : c ∈ s.windows) : c.2.Holds (eventsIn s.accepted c.1) := by
  rcases (mem_windows c).mp hc with hopen | hreturned
  · exact h.open_holds c.1 c.2 hopen
  · exact h.returned_holds c hreturned

theorem Conserved.not_open_of_returned (h : s.Conserved) {c : Int × Window}
    (hc : c ∈ s.returned.flatten) : s.mem.openWindows.lookup c.1 = none := by
  cases hlook : s.mem.openWindows.lookup c.1 with
  | none => rfl
  | some win =>
    have hopen := h.open_end c.1 win hlook
    have hreturned := h.returned_end c hc
    omega

/-- A start names one window at most, whether open or returned. -/
theorem Conserved.nodup_windows (h : s.Conserved) : (s.windows.map Prod.fst).Nodup := by
  rw [windows, List.map_append, List.nodup_append]
  refine ⟨nodup_rows_keys _, h.nodup, ?_⟩
  intro w hw w' hw' heq
  obtain ⟨⟨start, win⟩, hopen, rfl⟩ := List.mem_map.mp hw
  obtain ⟨c, hc, rfl⟩ := List.mem_map.mp hw'
  dsimp only at heq
  subst heq
  rw [mem_rows, h.not_open_of_returned hc] at hopen
  cases hopen

theorem Conserved.exists_window (h : s.Conserved) {m : Message} (hm : m ∈ s.accepted) :
    ∃ c ∈ s.windows, c.1 = m.window := by
  rcases h.placed m hm with hopen | hreturned
  · obtain ⟨win, hwin⟩ := Option.isSome_iff_exists.mp hopen
    exact ⟨(m.window, win), (mem_windows _).mpr (Or.inl hwin), rfl⟩
  · obtain ⟨c, hc, heq⟩ := List.mem_map.mp hreturned
    exact ⟨c, (mem_windows c).mpr (Or.inr hc), heq⟩

/-- An accepted message is in one window, with its id. -/
theorem Conserved.existsUnique_window (h : s.Conserved) {m : Message} (hm : m ∈ s.accepted) :
    ∃! c, c ∈ s.windows ∧ c.1 = m.window ∧ m.event.eventId ∈ c.2.seenIds := by
  obtain ⟨c, hc, heq⟩ := h.exists_window hm
  refine ⟨c, ⟨hc, heq, ?_⟩, ?_⟩
  · rw [(h.holds_of_mem_windows hc).ids]
    exact Finset.mem_image_of_mem _ ((mem_eventsIn _ _ _).mpr ⟨m, hm, heq.symm, rfl⟩)
  · intro c' hparts
    obtain ⟨hc', heq', _⟩ := hparts
    exact List.inj_on_of_nodup_map h.nodup_windows hc' hc (heq'.trans heq.symm)

theorem contributors_eventsIn (s : Ledger) (w : Int) (key : CellKey) :
    contributors CellKey.cellsForEvent (eventsIn s.accepted w) key =
      ((s.contributing w key).map Message.event).toFinset := by
  ext e
  simp only [mem_contributors, mem_eventsIn, contributing, List.mem_toFinset, List.mem_map,
    List.mem_filter, decide_eq_true_eq]
  constructor
  · intro h
    obtain ⟨⟨m, hm, hw, rfl⟩, hkey⟩ := h
    exact ⟨m, ⟨hm, hw, hkey⟩, rfl⟩
  · intro h
    obtain ⟨m, ⟨hm, hw, hkey⟩, rfl⟩ := h
    exact ⟨⟨m, hm, hw, rfl⟩, hkey⟩

/-- Accepted messages of one window are distinct events, so counting events counts messages. -/
theorem Conserved.card_contributors (h : s.Conserved) (w : Int) (key : CellKey) :
    (contributors CellKey.cellsForEvent (eventsIn s.accepted w) key).card =
      (s.contributing w key).length := by
  have hevents : (s.accepted.map Message.event).Nodup := by
    apply List.Nodup.of_map fun e => (e.window, e.eventId)
    rw [List.map_map]
    exact h.distinct
  have hnodup : ((s.contributing w key).map Message.event).Nodup :=
    hevents.sublist (List.filter_sublist.map _)
  rw [contributors_eventsIn, List.toFinset_card_of_nodup hnodup, List.length_map]

theorem Conserved.cell_events (h : s.Conserved) {c : Int × Window} (hc : c ∈ s.windows)
    (key : CellKey) : ((c.2.cells.lookup key).getD CellAgg.empty).events =
      (s.contributing c.1 key).length := by
  rw [(h.holds_of_mem_windows hc).events key, h.card_contributors]

theorem Conserved.cell_users (h : s.Conserved) {c : Int × Window} (hc : c ∈ s.windows)
    (key : CellKey) : ((c.2.cells.lookup key).getD CellAgg.empty).users =
      ((s.contributing c.1 key).map fun m => m.event.user).toFinset := by
  rw [(h.holds_of_mem_windows hc).users key, Tally.users, contributors_eventsIn]
  ext user
  simp

end Windows

theorem conserved_of_run {partition : Int} {committedOffset : Nat} {flushedWatermark : Int}
    {now : Nat} {hllEnabled : Bool} {calls : List Call} {s : Ledger}
    (hrun : Run step free
      (start partition committedOffset flushedWatermark now hllEnabled) calls s) : s.Conserved :=
  hrun.invariant (fun _ _ _ h _ hstep => h.step hstep) (conserved_start ..)

/-- Whatever the calls, a window is returned once and not open again, ends after the flushed
watermark while it is open, and counts exactly the messages accepted into it, each of which is in
one window and is there once. -/
theorem windows_conserved (partition : Int) (committedOffset : Nat) (flushedWatermark : Int)
    (now : Nat) (hllEnabled : Bool) (calls : List Call) (s : Ledger)
    (hrun : Run step free
      (start partition committedOffset flushedWatermark now hllEnabled) calls s) :
    (s.returned.flatten.map Prod.fst).Nodup ∧
    (∀ c ∈ s.returned.flatten, s.mem.openWindows.lookup c.1 = none) ∧
    (∀ w win, s.mem.openWindows.lookup w = some win →
      s.mem.flushedWatermark < windowEnd w) ∧
    (∀ m ∈ s.accepted,
      ∃! c, c ∈ s.windows ∧ c.1 = m.window ∧ m.event.eventId ∈ c.2.seenIds) ∧
    (s.accepted.map fun m => (m.window, m.event.eventId)).Nodup ∧
    ∀ c ∈ s.windows, ∀ key,
      ((c.2.cells.lookup key).getD CellAgg.empty).events = (s.contributing c.1 key).length ∧
      ((c.2.cells.lookup key).getD CellAgg.empty).users =
        ((s.contributing c.1 key).map fun m => m.event.user).toFinset := by
  have h := conserved_of_run hrun
  refine ⟨h.nodup, fun c hc => h.not_open_of_returned hc, h.open_end,
    fun m hm => h.existsUnique_window hm, h.distinct, ?_⟩
  exact fun c hc key => ⟨h.cell_events hc key, h.cell_users hc key⟩

/-- Two windows, a duplicate, a jump of the idle clock, and an event of a returned window. -/
def callsWithIdleJump : List Call :=
  [.processEvent ⟨0, evt 1000000000 1 "u1"⟩ 0, .processEvent ⟨1, evt 1000000000 1 "u1"⟩ 0,
    .processEvent ⟨2, evt 65000000000 2 "u2"⟩ 0, .tickIdle 20000000000 95000000000,
    .takeClosedWindows, .processEvent ⟨3, evt 2000000000 3 "u3"⟩ 20000000000]

theorem windows_conserved_idleJump :
    ∃ s, Run step free (start 0 0 (-1000000000) 0 false) callsWithIdleJump s ∧
      s.accepted.length = 2 ∧ s.returned.flatten.map Prod.fst = [0] ∧
      ∀ c ∈ s.windows, ∀ key,
        ((c.2.cells.lookup key).getD CellAgg.empty).events = (s.contributing c.1 key).length := by
  have hrun : ∃ s, Run step free (start 0 0 (-1000000000) 0 false) callsWithIdleJump s ∧
      s.accepted.length = 2 ∧ s.returned.flatten.map Prod.fst = [0] :=
    ⟨_, run_of_execute rfl, by decide, by decide⟩
  obtain ⟨s, hs, haccepted, hreturned⟩ := hrun
  obtain ⟨_, _, _, _, _, hcells⟩ := windows_conserved 0 0 (-1000000000) 0 false _ s hs
  exact ⟨s, hs, haccepted, hreturned, fun c hc key => (hcells c hc key).1⟩

end Ledger

end HushEngine
