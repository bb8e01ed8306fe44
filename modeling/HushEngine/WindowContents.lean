import HushEngine.FlushLoop
import HushEngine.Tally

/-!
What an open window stands for: the finite set of events accepted into it. The
dedup set, the event counters and the user sets are functions of that set, and
so are the rows the window leaves behind when it is flushed.
-/
namespace HushEngine

open Keyed Tally

/-- The distinct events of the messages that fall into a window. -/
def eventsIn (ms : List Message) (w : Int) : Finset Event :=
  ((ms.filter fun m => decide (m.window = w)).map Message.event).toFinset

theorem mem_eventsIn (ms : List Message) (w : Int) (e : Event) :
    e ∈ eventsIn ms w ↔ ∃ m ∈ ms, m.window = w ∧ m.event = e := by
  simp [eventsIn, and_assoc]

theorem eventsIn_cons_of_eq (m : Message) (ms : List Message) :
    eventsIn (m :: ms) m.window = insert m.event (eventsIn ms m.window) := by
  ext e
  simp only [mem_eventsIn, Finset.mem_insert, List.mem_cons]
  constructor
  · intro h
    rcases h with ⟨m', rfl | hm', hw, rfl⟩
    · exact Or.inl rfl
    · exact Or.inr ⟨m', hm', hw, rfl⟩
  · rintro (rfl | ⟨m', hm', hw, rfl⟩)
    · exact ⟨m, Or.inl rfl, rfl, rfl⟩
    · exact ⟨m', Or.inr hm', hw, rfl⟩

theorem eventsIn_cons_of_ne (m : Message) (ms : List Message) (w : Int) (h : m.window ≠ w) :
    eventsIn (m :: ms) w = eventsIn ms w := by
  simp [eventsIn, h]

/-- The totals a set of events has in a cell. -/
def cellTally (s : Finset Event) (key : CellKey) : Option Totals :=
  tally CellKey.cellsForEvent Event.user s key

theorem cellTally_empty (key : CellKey) : cellTally ∅ key = none := by
  simp [cellTally, tally, contributors]

def AggRow.totals (row : AggRow) : Totals := ⟨row.events, row.users⟩

theorem contributors_global (s : Finset Event) :
    contributors CellKey.cellsForEvent s CellKey.global = s := by
  ext e
  simp [mem_contributors, CellKey.global_mem_cellsForEvent]

theorem cellTally_global_isSome {ms : List Message} {m : Message} (h : m ∈ ms) :
    (cellTally (eventsIn ms m.window) CellKey.global).isSome := by
  rw [cellTally, tally_isSome_iff, contributors_global]
  exact ⟨m.event, (mem_eventsIn _ _ _).mpr ⟨m, h, rfl, rfl⟩⟩

/-- The window was built from exactly these events. -/
structure Window.Holds (win : Window) (s : Finset Event) : Prop where
  ids : win.seenIds = s.image Event.eventId
  inj : Set.InjOn Event.eventId s
  present : ∀ key, (win.cells.lookup key).isSome ↔
    (contributors CellKey.cellsForEvent s key).Nonempty
  events : ∀ key, ((win.cells.lookup key).getD CellAgg.empty).events =
    (contributors CellKey.cellsForEvent s key).card
  users : ∀ key, ((win.cells.lookup key).getD CellAgg.empty).users =
    Tally.users CellKey.cellsForEvent Event.user s key

namespace Window

theorem holds_new (offset : Nat) : (Window.new offset).Holds ∅ where
  ids := rfl
  inj := by simp
  present key := by simp [Window.new, contributors]
  events key := by simp [Window.new, contributors, CellAgg.empty]
  users key := by simp [Window.new, Tally.users, contributors, CellAgg.empty]

theorem fold_lookup (win : Window) (e : Event) (offset : Nat) (hllEnabled : Bool)
    (key : CellKey) :
    (win.fold e offset hllEnabled).cells.lookup key =
      if key ∈ CellKey.cellsForEvent e then
        some (((win.cells.lookup key).getD CellAgg.empty).add e.user hllEnabled)
      else win.cells.lookup key :=
  lookup_modifyAll _ _ _ _ (CellKey.nodup_cellsForEvent e)

/-- Folding an event with a new id adds it to what the window stands for. -/
theorem Holds.fold {win : Window} {s : Finset Event} (h : win.Holds s) (e : Event)
    (offset : Nat) (hllEnabled : Bool) (hnew : e.eventId ∉ win.seenIds) :
    (win.fold e offset hllEnabled).Holds (insert e s) := by
  have hmem : e ∉ s := by
    intro hs
    rw [h.ids] at hnew
    exact hnew (Finset.mem_image_of_mem _ hs)
  constructor
  case ids => simp [Window.fold, h.ids]
  case inj =>
    rw [Finset.coe_insert]
    refine (Set.injOn_insert (by exact_mod_cast hmem)).mpr ⟨h.inj, ?_⟩
    rw [h.ids] at hnew
    exact_mod_cast hnew
  case present =>
    intro key
    rw [fold_lookup]
    by_cases hkey : key ∈ CellKey.cellsForEvent e
    · simp [hkey, contributors_insert_of_mem]
    · rw [if_neg hkey, contributors_insert_of_not_mem _ _ _ _ hkey]
      exact h.present key
  case events =>
    intro key
    rw [fold_lookup]
    by_cases hkey : key ∈ CellKey.cellsForEvent e
    · rw [if_pos hkey, contributors_insert_of_mem _ _ _ _ hkey, Finset.card_insert_of_notMem
        fun hc => hmem ((mem_contributors _ _ _ _).mp hc).1, ← h.events key]
      rfl
    · rw [if_neg hkey, contributors_insert_of_not_mem _ _ _ _ hkey]
      exact h.events key
  case users =>
    intro key
    rw [fold_lookup, Tally.users]
    by_cases hkey : key ∈ CellKey.cellsForEvent e
    · rw [if_pos hkey, contributors_insert_of_mem _ _ _ _ hkey, Finset.image_insert]
      simp only [Option.getD_some, CellAgg.add]
      rw [h.users key]
      rfl
    · rw [if_neg hkey, contributors_insert_of_not_mem _ _ _ _ hkey]
      exact h.users key

/-- The row a window writes for a key carries the tally of its events. -/
theorem Holds.row_totals {win : Window} {s : Finset Event} (h : win.Holds s) (key : CellKey) :
    (win.cells.lookup key).map (fun agg => agg.toRow.totals) = cellTally s key := by
  have hpresent := h.present key
  have hevents := h.events key
  have husers := h.users key
  unfold cellTally tally
  cases hlook : win.cells.lookup key with
  | none =>
    rw [hlook] at hpresent
    rw [if_neg fun hne => by simpa using hpresent.mpr hne]
    rfl
  | some agg =>
    rw [hlook] at hpresent hevents husers
    rw [if_pos (hpresent.mp rfl)]
    simp only [Option.getD_some] at hevents husers
    simp only [Option.map_some, Option.some.injEq, totals, ← hevents, ← husers]
    rfl

end Window

namespace PartitionState

variable {ps mem : PartitionState} {accepted : List Message}

/-- The window an event would be folded into holds what was accepted for it, if open windows do
and nothing was accepted for a window that is not open. -/
theorem windowFor_holds {w : Int} (offset : Nat)
    (hopen : ∀ win, ps.openWindows.lookup w = some win → win.Holds (eventsIn accepted w))
    (hclosed : ps.openWindows.lookup w = none → ∀ m ∈ accepted, m.window ≠ w) :
    (ps.windowFor w offset).Holds (eventsIn accepted w) := by
  unfold windowFor
  cases hlook : ps.openWindows.lookup w with
  | some win => exact hopen win hlook
  | none =>
    have hempty : eventsIn accepted w = ∅ := by
      apply Finset.eq_empty_of_forall_notMem
      intro e he
      obtain ⟨m, hm, hw, _⟩ := (mem_eventsIn _ _ _).mp he
      exact hclosed hlook m hm hw
    rw [hempty]
    exact Window.holds_new offset

/-- An accepted event keeps the open windows true to what was accepted. -/
theorem open_holds_of_accepted {m : Message} {hllEnabled : Bool}
    (hlook : ∀ w, mem.openWindows.lookup w = if w = m.window then
      some ((ps.windowFor m.window m.offset).fold m.event m.offset hllEnabled)
      else ps.openWindows.lookup w)
    (hopen : ∀ w win, ps.openWindows.lookup w = some win → win.Holds (eventsIn accepted w))
    (hfor : (ps.windowFor m.window m.offset).Holds (eventsIn accepted m.window))
    (hnew : m.event.eventId ∉ (ps.windowFor m.window m.offset).seenIds) {w : Int} {win : Window}
    (hwin : mem.openWindows.lookup w = some win) : win.Holds (eventsIn (m :: accepted) w) := by
  rw [hlook] at hwin
  split_ifs at hwin with hw
  · subst hw
    obtain rfl := Option.some.inj hwin
    rw [eventsIn_cons_of_eq]
    exact hfor.fold m.event m.offset _ hnew
  · rw [eventsIn_cons_of_ne m accepted w (Ne.symm hw)]
    exact hopen w win hwin

end PartitionState

end HushEngine
