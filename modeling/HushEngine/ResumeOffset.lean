import HushEngine.Conservation

/-!
Where a restart would resume. The committed offset is the least offset of an
accepted message that has not been handed out with its window, so everything
below it has been handed out, was late, or repeats something handed out. The
offsets of a run go up from the point the state was resumed at.
-/
namespace HushEngine

open Keyed Runs

/-- A ledger that also lists every processed message with its outcome. -/
structure Journal where
  ledger : Ledger
  processed : List (Message × ProcessOutcome)
deriving DecidableEq

namespace Journal

def start (partition : Int) (committedOffset : Nat) (flushedWatermark : Int) (now : Nat)
    (hllEnabled : Bool) : Journal :=
  ⟨.start partition committedOffset flushedWatermark now hllEnabled, []⟩

def step (s : Journal) (c : Call) : Option Journal :=
  (s.ledger.step c).map fun ledger => ⟨ledger, match c with
    | .processEvent m now => (m, (s.ledger.mem.processEvent m.event m.offset now).2) :: s.processed
    | _ => s.processed⟩

/-- Messages come at increasing offsets, from the offset resumed at. -/
def InOrder (s : Journal) : Call → Prop
  | .processEvent m _ => s.ledger.mem.nextOffset ≤ m.offset
  | _ => True

instance (s : Journal) (c : Call) : Decidable (InOrder s c) :=
  match c with
  | .processEvent m _ => inferInstanceAs (Decidable (s.ledger.mem.nextOffset ≤ m.offset))
  | .tickIdle .. | .takeClosedWindows => inferInstanceAs (Decidable True)

/-- The accepted messages whose window has not been returned. -/
def pending (s : Journal) : List Message :=
  s.ledger.accepted.filter fun m => decide (m.window ∉ s.ledger.returned.flatten.map Prod.fst)

/-- The message's event is in a window that has been returned. -/
def Returned (s : Journal) (m : Message) : Prop :=
  ∃ c ∈ s.ledger.returned.flatten, c.1 = m.window ∧ m.event.eventId ∈ c.2.seenIds

/-- The offsets the memory keeps are those of the accepted messages, and every outcome on record
has its reason. -/
structure Tracked (s : Journal) : Prop where
  conserved : s.ledger.Conserved
  wellFormed : s.ledger.mem.WellFormed
  accepted_lt : ∀ m ∈ s.ledger.accepted, m.offset < s.ledger.mem.nextOffset
  minOffset : ∀ w win, s.ledger.mem.openWindows.lookup w = some win →
    ∀ n, n ≤ win.minOffset ↔ ∀ m ∈ s.ledger.accepted, m.window = w → n ≤ m.offset
  accepted : ∀ m, (m, .accepted) ∈ s.processed → m ∈ s.ledger.accepted
  duplicate : ∀ m, (m, .duplicate) ∈ s.processed → ∃ m' ∈ s.ledger.accepted,
    m'.window = m.window ∧ m'.event.eventId = m.event.eventId ∧ m'.offset < m.offset

theorem tracked_start (partition : Int) (committedOffset : Nat) (flushedWatermark : Int)
    (now : Nat) (hllEnabled : Bool) :
    (start partition committedOffset flushedWatermark now hllEnabled).Tracked where
  conserved := Ledger.conserved_start ..
  wellFormed := PartitionState.wellFormed_of_no_windows _ rfl
  accepted_lt m hm := by cases hm
  minOffset w win hwin := by cases hwin
  accepted m hm := by cases hm
  duplicate m hm := by cases hm

section Step

variable {s t : Journal}

/-- The least offset of the window an accepted event goes into, with the event. -/
theorem Tracked.le_fold_minOffset (h : s.Tracked) (m : Message) (hllEnabled : Bool)
    (hend : s.ledger.mem.flushedWatermark < windowEnd m.window) (n : Nat) :
    n ≤ ((s.ledger.mem.windowFor m.window m.offset).fold m.event m.offset hllEnabled).minOffset ↔
      n ≤ m.offset ∧ ∀ m' ∈ s.ledger.accepted, m'.window = m.window → n ≤ m'.offset := by
  have hfor : n ≤ (s.ledger.mem.windowFor m.window m.offset).minOffset ∧ n ≤ m.offset ↔
      n ≤ m.offset ∧ ∀ m' ∈ s.ledger.accepted, m'.window = m.window → n ≤ m'.offset := by
    unfold PartitionState.windowFor
    cases hwin : s.ledger.mem.openWindows.lookup m.window with
    | some win =>
      rw [Option.getD_some, h.minOffset m.window win hwin n]
      exact and_comm
    | none =>
      have hnone := h.conserved.window_ne_of_not_open hend hwin
      refine ⟨fun hle => ⟨hle.2, fun m' hm' heq => absurd heq (hnone m' hm')⟩, fun hle => ?_⟩
      exact ⟨hle.1, hle.1⟩
  rw [← hfor]
  exact Nat.le_min

/-- A call that accepts nothing and leaves the windows alone. -/
theorem Tracked.of_lookup_eq (h : s.Tracked) {mem : PartitionState}
    {processed : List (Message × ProcessOutcome)}
    (hconserved : Ledger.Conserved { s.ledger with mem := mem }) (hwf : mem.WellFormed)
    (hlook : ∀ w, mem.openWindows.lookup w = s.ledger.mem.openWindows.lookup w)
    (hnext : s.ledger.mem.nextOffset ≤ mem.nextOffset)
    (haccepted : ∀ m, (m, .accepted) ∈ processed → (m, .accepted) ∈ s.processed)
    (hduplicate : ∀ m, (m, .duplicate) ∈ processed → (m, .duplicate) ∈ s.processed ∨
      ∃ m' ∈ s.ledger.accepted, m'.window = m.window ∧ m'.event.eventId = m.event.eventId ∧
        m'.offset < m.offset) :
    Tracked ⟨{ s.ledger with mem := mem }, processed⟩ where
  conserved := hconserved
  wellFormed := hwf
  accepted_lt m hm := (h.accepted_lt m hm).trans_le hnext
  minOffset w win hwin := h.minOffset w win (by rwa [← hlook])
  accepted m hm := h.accepted m (haccepted m hm)
  duplicate m hm := (hduplicate m hm).elim (h.duplicate m) id

theorem Tracked.accept (h : s.Tracked) (m : Message) {mem : PartitionState}
    (hoffset : s.ledger.mem.nextOffset ≤ m.offset)
    (hconserved : Ledger.Conserved { s.ledger with mem := mem, accepted := m :: s.ledger.accepted })
    (hwf : mem.WellFormed) (hnext : mem.nextOffset = m.offset + 1)
    (hend : s.ledger.mem.flushedWatermark < windowEnd m.window)
    (hlook : ∀ w, mem.openWindows.lookup w = if w = m.window then
      some ((s.ledger.mem.windowFor m.window m.offset).fold m.event m.offset
        s.ledger.mem.hllEnabled)
      else s.ledger.mem.openWindows.lookup w) :
    Tracked ⟨{ s.ledger with mem := mem, accepted := m :: s.ledger.accepted },
      (m, .accepted) :: s.processed⟩ where
  conserved := hconserved
  wellFormed := hwf
  accepted_lt m' hm' := by
    dsimp only
    rw [hnext]
    rcases List.mem_cons.mp hm' with rfl | hold
    · exact Nat.lt_succ_self _
    · exact (h.accepted_lt m' hold).trans_le (hoffset.trans (Nat.le_succ _))
  minOffset w win hwin n := by
    dsimp only at hwin ⊢
    rw [hlook] at hwin
    rw [List.forall_mem_cons]
    split_ifs at hwin with hw
    · subst hw
      rw [← Option.some.inj hwin, h.le_fold_minOffset m _ hend]
      exact and_congr_left' ⟨fun hle _ => hle, fun hle => hle rfl⟩
    · rw [h.minOffset w win hwin n]
      exact ⟨fun hall => ⟨fun heq => absurd heq.symm hw, hall⟩, fun hall => hall.2⟩
  accepted m' hm' := by
    rcases List.mem_cons.mp hm' with heq | hold
    · cases heq
      exact List.mem_cons_self ..
    · exact List.mem_cons_of_mem _ (h.accepted m' hold)
  duplicate m' hm' := by
    rcases List.mem_cons.mp hm' with heq | hold
    · cases heq
    · obtain ⟨m₁, hm₁, hsame⟩ := h.duplicate m' hold
      exact ⟨m₁, List.mem_cons_of_mem _ hm₁, hsame⟩

theorem Tracked.processEvent (h : s.Tracked) (m : Message) (now : Nat)
    (hoffset : s.ledger.mem.nextOffset ≤ m.offset)
    (hstep : step s (.processEvent m now) = some t) : t.Tracked := by
  obtain ⟨ledger, hledger, rfl⟩ := Option.map_eq_some_iff.mp hstep
  have hconserved := h.conserved.step hledger
  obtain rfl := Option.some.inj hledger
  have hwf := h.wellFormed.processEvent m.event m.offset now hoffset
  have hnext := s.ledger.mem.processEvent_nextOffset m.event m.offset now
  have hle : s.ledger.mem.nextOffset ≤
      (s.ledger.mem.processEvent m.event m.offset now).1.nextOffset := by omega
  dsimp only at hconserved ⊢
  rcases s.ledger.mem.processEvent_cases m.event m.offset now with
    ⟨hlate, _, hlook⟩ | ⟨hduplicate, _, ⟨win, hwin, hseen⟩, hlook⟩ | ⟨haccepted, hend, _, hlook⟩
  · rw [hlate, if_neg (by decide)] at hconserved ⊢
    refine h.of_lookup_eq hconserved hwf hlook hle ?_ ?_ <;> intro m' hm'
    · exact (List.mem_cons.mp hm').resolve_left (by simp)
    · exact Or.inl ((List.mem_cons.mp hm').resolve_left (by simp))
  · rw [hduplicate, if_neg (by decide)] at hconserved ⊢
    refine h.of_lookup_eq hconserved hwf hlook hle ?_ ?_ <;> intro m' hm'
    · exact (List.mem_cons.mp hm').resolve_left (by simp)
    · rcases List.mem_cons.mp hm' with heq | hold
      · cases heq
        -- the id is in an open window, put there by an accepted message
        rw [(h.conserved.open_holds m.window win hwin).ids] at hseen
        obtain ⟨e, he, hid⟩ := Finset.mem_image.mp hseen
        obtain ⟨m₁, hm₁, hwindow, rfl⟩ := (mem_eventsIn _ _ _).mp he
        exact Or.inr ⟨m₁, hm₁, hwindow, hid, (h.accepted_lt m₁ hm₁).trans_le hoffset⟩
      · exact Or.inl hold
  · rw [haccepted, if_pos rfl] at hconserved ⊢
    exact h.accept m hoffset hconserved hwf hnext hend hlook

theorem Tracked.step {c : Call} (h : s.Tracked) (hguard : InOrder s c)
    (hstep : Journal.step s c = some t) : t.Tracked := by
  cases c with
  | processEvent m now => exact h.processEvent m now hguard hstep
  | tickIdle nowWall nowUtc =>
    obtain ⟨ledger, hledger, rfl⟩ := Option.map_eq_some_iff.mp hstep
    have hconserved := h.conserved.step hledger
    obtain rfl := Option.some.inj hledger
    exact h.of_lookup_eq hconserved (h.wellFormed.tickIdle nowWall nowUtc)
      (fun w => by rw [PartitionState.tickIdle_openWindows]) (by simp) (fun _ hm => hm)
      fun _ hm => Or.inl hm
  | takeClosedWindows =>
    obtain ⟨ledger, hledger, rfl⟩ := Option.map_eq_some_iff.mp hstep
    have hconserved := h.conserved.step hledger
    obtain rfl := Option.some.inj hledger
    refine ⟨hconserved, h.wellFormed.takeClosedWindows, h.accepted_lt, ?_, h.accepted, h.duplicate⟩
    intro w win hwin
    exact h.minOffset w win (PartitionState.lookup_of_takeClosedWindows hwin).1

/-- One call does not move the committed offset back. -/
theorem Tracked.committedOffset_le {c : Call} (h : s.Tracked) (hguard : InOrder s c)
    (hstep : Journal.step s c = some t) :
    s.ledger.mem.committedOffset ≤ t.ledger.mem.committedOffset := by
  obtain ⟨ledger, hledger, rfl⟩ := Option.map_eq_some_iff.mp hstep
  cases c with
  | processEvent m now =>
    obtain rfl := Option.some.inj hledger
    exact h.wellFormed.committedOffset_le_processEvent m.event m.offset now hguard
  | tickIdle nowWall nowUtc =>
    obtain rfl := Option.some.inj hledger
    exact (PartitionState.committedOffset_tickIdle ..).ge
  | takeClosedWindows =>
    obtain rfl := Option.some.inj hledger
    exact h.wellFormed.committedOffset_le_takeClosedWindows

end Step

section Committed

variable {s : Journal}

theorem mem_pending (m : Message) : m ∈ s.pending ↔
    m ∈ s.ledger.accepted ∧ m.window ∉ s.ledger.returned.flatten.map Prod.fst := by
  rw [pending, List.mem_filter, decide_eq_true_iff]

/-- A pending message is one whose window is open. -/
theorem Tracked.mem_pending_iff (h : s.Tracked) (m : Message) : m ∈ s.pending ↔
    m ∈ s.ledger.accepted ∧ (s.ledger.mem.openWindows.lookup m.window).isSome := by
  rw [mem_pending]
  refine and_congr_right fun hm => ⟨(h.conserved.placed m hm).resolve_right, fun hopen hmem => ?_⟩
  obtain ⟨c, hc, heq⟩ := List.mem_map.mp hmem
  have hnone := h.conserved.not_open_of_returned hc
  rw [heq] at hnone
  simp [hnone] at hopen

theorem Tracked.le_committedOffset_iff (h : s.Tracked) (n : Nat) :
    n ≤ s.ledger.mem.committedOffset ↔
      n ≤ s.ledger.mem.nextOffset ∧ ∀ m ∈ s.pending, n ≤ m.offset := by
  rw [h.wellFormed.le_committedOffset_iff]
  refine and_congr_right fun _ => ⟨fun hall m hm => ?_, fun hall w win hwin => ?_⟩
  · obtain ⟨haccepted, hopen⟩ := (h.mem_pending_iff m).mp hm
    obtain ⟨win, hwin⟩ := Option.isSome_iff_exists.mp hopen
    exact (h.minOffset m.window win hwin n).mp (hall m.window win hwin) m haccepted rfl
  · refine (h.minOffset w win hwin n).mpr fun m hm heq => hall m ((h.mem_pending_iff m).mpr ?_)
    exact ⟨hm, by rw [heq, hwin]; rfl⟩

/-- The committed offset is the least pending offset, or the next one. -/
theorem Tracked.committedOffset_eq (h : s.Tracked) : s.ledger.mem.committedOffset =
    ((s.pending.map Message.offset).min?).getD s.ledger.mem.nextOffset := by
  apply eq_of_forall_le_iff
  intro n
  rw [h.le_committedOffset_iff]
  cases hmin : (s.pending.map Message.offset).min? with
  | none =>
    have hnil : s.pending = [] := by simpa using List.min?_eq_none_iff.mp hmin
    simp [hnil]
  | some least =>
    obtain ⟨hmem, hall⟩ := List.min?_eq_some_iff.mp hmin
    obtain ⟨m, hm, rfl⟩ := List.mem_map.mp hmem
    have hlt := h.accepted_lt m ((mem_pending m).mp hm).1
    rw [Option.getD_some]
    constructor
    · exact fun hle => hle.2 m hm
    · intro hle
      exact ⟨by omega, fun m' hm' => hle.trans (hall _ (List.mem_map_of_mem hm'))⟩

/-- Below the committed offset, what was accepted has been returned. -/
theorem Tracked.returned_of_lt (h : s.Tracked) {m : Message} (hm : m ∈ s.ledger.accepted)
    (hlt : m.offset < s.ledger.mem.committedOffset) : s.Returned m := by
  have hnot : m ∉ s.pending := by
    intro hpending
    have := ((h.le_committedOffset_iff _).mp le_rfl).2 m hpending
    omega
  rw [mem_pending, not_and, not_not] at hnot
  obtain ⟨c, hc, heq⟩ := List.mem_map.mp (hnot hm)
  refine ⟨c, hc, heq, ?_⟩
  rw [(h.conserved.returned_holds c hc).ids]
  exact Finset.mem_image_of_mem _ ((mem_eventsIn _ _ _).mpr ⟨m, hm, heq.symm, rfl⟩)

theorem Tracked.settled_of_lt (h : s.Tracked) {m : Message} {outcome : ProcessOutcome}
    (hm : (m, outcome) ∈ s.processed) (hlt : m.offset < s.ledger.mem.committedOffset) :
    (outcome = .accepted ∧ s.Returned m) ∨ outcome = .late ∨
      (outcome = .duplicate ∧ s.Returned m) := by
  cases outcome with
  | accepted => exact Or.inl ⟨rfl, h.returned_of_lt (h.accepted m hm) hlt⟩
  | late => exact Or.inr (Or.inl rfl)
  | duplicate =>
    obtain ⟨m', hm', hwindow, hid, hoffset⟩ := h.duplicate m hm
    obtain ⟨c, hc, heq, hseen⟩ := h.returned_of_lt hm' (hoffset.trans hlt)
    exact Or.inr (Or.inr ⟨rfl, c, hc, by rw [heq, hwindow], by rwa [← hid]⟩)

end Committed

/-- In every run the committed offset is the least offset that is accepted and not returned, or
the next one; it never goes back; and every message processed below it was returned, was late, or
repeats an event that was returned. -/
theorem resumeOffset_safe (partition : Int) (committedOffset : Nat) (flushedWatermark : Int)
    (now : Nat) (hllEnabled : Bool) (calls : List Call) (s : Journal)
    (hrun : Run step InOrder
      (start partition committedOffset flushedWatermark now hllEnabled) calls s) :
    s.ledger.mem.committedOffset =
      ((s.pending.map Message.offset).min?).getD s.ledger.mem.nextOffset ∧
    (∀ earlier later t, calls = earlier ++ later →
      Run step InOrder (start partition committedOffset flushedWatermark now hllEnabled) earlier t →
      t.ledger.mem.committedOffset ≤ s.ledger.mem.committedOffset) ∧
    ∀ m outcome, (m, outcome) ∈ s.processed → m.offset < s.ledger.mem.committedOffset →
      (outcome = .accepted ∧ s.Returned m) ∨ outcome = .late ∨
        (outcome = .duplicate ∧ s.Returned m) := by
  have hinv : ∀ s c t, Tracked s → InOrder s c → step s c = some t → Tracked t :=
    fun _ _ _ h hguard hstep => h.step hguard hstep
  have h : s.Tracked := hrun.invariant hinv (tracked_start ..)
  refine ⟨h.committedOffset_eq, ?_, fun m outcome hm hlt => h.settled_of_lt hm hlt⟩
  rintro earlier later t rfl hearlier
  have ht : t.Tracked := hearlier.invariant hinv (tracked_start ..)
  obtain ⟨t', ht', hlater⟩ := hrun.split
  obtain rfl := hearlier.deterministic ht'
  exact hlater.related
    (r := fun u v => u.ledger.mem.committedOffset ≤ v.ledger.mem.committedOffset)
    (fun _ => le_rfl) (fun _ _ _ => le_trans) hinv
    (fun _ _ _ h hguard hstep => h.committedOffset_le hguard hstep) ht

/-- Two windows, of which the later one holds the lower offset when the other is returned. -/
def outOfOrder : List Call :=
  [.processEvent ⟨10, evt 65000000000 1 "u1"⟩ 0, .processEvent ⟨11, evt 1000000000 2 "u2"⟩ 0,
    .processEvent ⟨13, evt 1000000000 2 "u2"⟩ 0, .processEvent ⟨14, evt 95000000000 3 "u3"⟩ 0,
    .takeClosedWindows, .processEvent ⟨15, evt 2000000000 4 "u4"⟩ 0]

theorem resumeOffset_safe_outOfOrder :
    ∃ s, Run step InOrder (start 0 10 (-1000000000) 0 false) outOfOrder s ∧
      s.ledger.returned.flatten.map Prod.fst = [0] ∧ s.ledger.mem.committedOffset = 10 ∧
      s.ledger.mem.committedOffset =
        ((s.pending.map Message.offset).min?).getD s.ledger.mem.nextOffset := by
  have hrun : ∃ s, Run step InOrder (start 0 10 (-1000000000) 0 false) outOfOrder s ∧
      s.ledger.returned.flatten.map Prod.fst = [0] ∧ s.ledger.mem.committedOffset = 10 :=
    ⟨_, run_of_execute rfl, by decide, by decide⟩
  obtain ⟨s, hs, hreturned, hoffset⟩ := hrun
  exact ⟨s, hs, hreturned, hoffset, (resumeOffset_safe 0 10 _ 0 false _ s hs).1⟩

end Journal

end HushEngine
