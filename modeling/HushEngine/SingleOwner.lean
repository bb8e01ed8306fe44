import HushEngine.Runs
import HushEngine.WindowContents

/-!
One partition under a single owner: message delivery, idle ticks, turns of the
flush loop, commits, failed commits and crashes, in any order. A crash loses
everything but the tables and restarts from them. `accepted` and `earlier` are
history: the messages accepted by this incarnation and by the crashed ones.
-/
namespace HushEngine

open Keyed Tally

/-- The memory of the instance that owns the partition. -/
structure Worker where
  mem : PartitionState
  /-- The batch handed to `flushWindows` and not yet decided. -/
  batch : Option Batch
  /-- The counter `aggregator_flush_errors_total` of this process. -/
  flushErrors : Nat
  accepted : List Message
  earlier : List Message
deriving DecidableEq

structure Owner extends Worker where
  db : Db
deriving DecidableEq

/-- The consume loop's body for one decoded message. -/
def Worker.consume (w : Worker) (m : Message) (now : Nat) : Worker :=
  let r := w.mem.processEvent m.event m.offset now
  { w with
    mem := r.1
    accepted := if r.2 = .accepted then m :: w.accepted else w.accepted }

inductive Action
  | deliver (m : Message) (now : Nat)
  | tickIdle (nowWall : Nat) (nowUtc : Int)
  | collect
  | commit
  | fail
  | crash (now : Nat) (nowUtc : Int)
deriving DecidableEq

def Action.isCrash : Action → Bool
  | .crash _ _ => true
  | _ => false

namespace Owner

/-- An incarnation that has just been assigned the partition. -/
def boot (db : Db) (partition : Int) (hllEnabled : Bool) (now : Nat) (nowUtc : Int)
    (earlier : List Message) : Owner where
  mem := PartitionState.postRebalance db partition hllEnabled now nowUtc
  batch := none
  flushErrors := 0
  accepted := []
  earlier := earlier
  db := db

/-- Messages arrive at increasing offsets, and the flush loop awaits each write. -/
def step (partition : Int) (s : Owner) : Action → Option Owner
  | .deliver m now =>
    if s.mem.nextOffset ≤ m.offset then some { s with toWorker := s.toWorker.consume m now }
    else none
  | .tickIdle nowWall nowUtc => some { s with mem := s.mem.tickIdle nowWall nowUtc }
  | .collect =>
    if s.batch = none then
      some { s with mem := s.mem.collectBatch.1, batch := s.mem.collectBatch.2 }
    else none
  | .commit => s.batch.map fun b => { s with db := b.flush s.db partition, batch := none }
  | .fail => s.batch.map fun _ => { s with batch := none, flushErrors := s.flushErrors + 1 }
  | .crash now nowUtc =>
    some (boot s.db partition s.mem.hllEnabled now nowUtc (s.accepted ++ s.earlier))

section StepLemmas

variable {partition : Int} {s t : Owner}

theorem step_deliver {m : Message} {now : Nat}
    (h : step partition s (.deliver m now) = some t) :
    s.mem.nextOffset ≤ m.offset ∧ t = { s with toWorker := s.toWorker.consume m now } := by
  simp only [step] at h
  split_ifs at h with hoffset
  exact ⟨hoffset, (Option.some.inj h).symm⟩

theorem step_tickIdle {nowWall : Nat} {nowUtc : Int}
    (h : step partition s (.tickIdle nowWall nowUtc) = some t) :
    t = { s with mem := s.mem.tickIdle nowWall nowUtc } :=
  (Option.some.inj h).symm

theorem step_collect (h : step partition s .collect = some t) :
    s.batch = none ∧
      t = { s with mem := s.mem.collectBatch.1, batch := s.mem.collectBatch.2 } := by
  simp only [step] at h
  split_ifs at h with hbatch
  exact ⟨hbatch, (Option.some.inj h).symm⟩

theorem step_commit (h : step partition s .commit = some t) :
    ∃ b, s.batch = some b ∧ t = { s with db := b.flush s.db partition, batch := none } := by
  obtain ⟨b, hb, rfl⟩ := Option.map_eq_some_iff.mp h
  exact ⟨b, hb, rfl⟩

theorem step_fail (h : step partition s .fail = some t) :
    ∃ b, s.batch = some b ∧
      t = { s with batch := none, flushErrors := s.flushErrors + 1 } := by
  obtain ⟨b, hb, rfl⟩ := Option.map_eq_some_iff.mp h
  exact ⟨b, hb, rfl⟩

theorem step_crash {now : Nat} {nowUtc : Int}
    (h : step partition s (.crash now nowUtc) = some t) :
    t = boot s.db partition s.mem.hllEnabled now nowUtc (s.accepted ++ s.earlier) :=
  (Option.some.inj h).symm

end StepLemmas

/-- What an owner can rely on whatever else is in the tables: memory is not behind the durable
row, and the batch in flight moves it forward. -/
structure Steady (partition : Int) (s : Owner) : Prop where
  mem : s.mem.WellFormed
  ahead : s.mem.Ahead (s.db.loadProgress partition)
  fits : ∀ b, s.batch = some b → b.Fits (s.db.loadProgress partition)
  taken : ∀ b, s.batch = some b → b.TakenFrom s.mem

/-- What holds in every state, whatever the events, the clocks and the failures. -/
structure Sound (partition : Int) (s : Owner) : Prop extends Steady partition s where
  rows : s.db.RowsCovered partition

theorem steady_boot (db : Db) (partition : Int) (hllEnabled : Bool) (now : Nat) (nowUtc : Int)
    (earlier : List Message) :
    Steady partition (boot db partition hllEnabled now nowUtc earlier) where
  mem := PartitionState.wellFormed_postRebalance ..
  ahead := PartitionState.ahead_postRebalance db partition hllEnabled now nowUtc
  fits b hb := by cases hb
  taken b hb := by cases hb

theorem sound_boot {db : Db} {partition : Int} (h : db.RowsCovered partition)
    (hllEnabled : Bool) (now : Nat) (nowUtc : Int) (earlier : List Message) :
    Sound partition (boot db partition hllEnabled now nowUtc earlier) where
  toSteady := steady_boot ..
  rows := h

theorem Steady.step {partition : Int} {s t : Owner} {a : Action} (h : Steady partition s)
    (hstep : Owner.step partition s a = some t) : Steady partition t := by
  cases a with
  | deliver m now =>
    obtain ⟨hoffset, rfl⟩ := step_deliver hstep
    exact {
      mem := h.mem.processEvent m.event m.offset now hoffset
      ahead := h.ahead.processEvent h.mem m.event m.offset now hoffset
      fits := h.fits
      taken := fun b hb => (h.taken b hb).processEvent h.mem m.event m.offset now hoffset }
  | tickIdle nowWall nowUtc =>
    obtain rfl := step_tickIdle hstep
    exact {
      mem := h.mem.tickIdle nowWall nowUtc
      ahead := h.ahead.tickIdle nowWall nowUtc
      fits := h.fits
      taken := fun b hb => (h.taken b hb).tickIdle nowWall nowUtc }
  | collect =>
    obtain ⟨_, rfl⟩ := step_collect hstep
    constructor
    case mem =>
      dsimp only
      rw [PartitionState.collectBatch_fst]
      exact h.mem.takeClosedWindows
    case ahead =>
      dsimp only
      rw [PartitionState.collectBatch_fst]
      exact h.ahead.takeClosedWindows h.mem
    case fits => exact fun b hb => h.mem.fits_collectBatch h.ahead hb
    case taken => exact fun b hb => PartitionState.takenFrom_collectBatch hb
  | commit =>
    obtain ⟨b, hb, rfl⟩ := step_commit hstep
    exact {
      mem := h.mem
      ahead := by
        dsimp only
        rw [Batch.flush_loadProgress]
        exact (h.taken b hb).ahead
      fits := fun b' hb' => by cases hb'
      taken := fun b' hb' => by cases hb' }
  | fail =>
    obtain ⟨b, hb, rfl⟩ := step_fail hstep
    exact {
      mem := h.mem
      ahead := h.ahead
      fits := fun b' hb' => by cases hb'
      taken := fun b' hb' => by cases hb' }
  | crash now nowUtc =>
    obtain rfl := step_crash hstep
    exact steady_boot ..

/-- A step writes the tables only by committing its batch. -/
theorem step_db {partition : Int} {s t : Owner} {a : Action}
    (hstep : Owner.step partition s a = some t) :
    t.db = s.db ∨ a = .commit ∧ ∃ b, s.batch = some b ∧ t.db = b.flush s.db partition := by
  cases a with
  | deliver m now =>
    obtain ⟨_, rfl⟩ := step_deliver hstep
    exact Or.inl rfl
  | tickIdle nowWall nowUtc =>
    obtain rfl := step_tickIdle hstep
    exact Or.inl rfl
  | collect =>
    obtain ⟨_, rfl⟩ := step_collect hstep
    exact Or.inl rfl
  | commit =>
    obtain ⟨b, hb, rfl⟩ := step_commit hstep
    exact Or.inr ⟨rfl, b, hb, rfl⟩
  | fail =>
    obtain ⟨b, _, rfl⟩ := step_fail hstep
    exact Or.inl rfl
  | crash now nowUtc =>
    obtain rfl := step_crash hstep
    exact Or.inl rfl

theorem Sound.step {partition : Int} {s t : Owner} {a : Action} (h : Sound partition s)
    (hstep : Owner.step partition s a = some t) : Sound partition t where
  toSteady := h.toSteady.step hstep
  rows := by
    rcases step_db hstep with hdb | ⟨_, b, hb, hdb⟩ <;> rw [hdb]
    · exact h.rows
    · exact (h.fits b hb).rowsCovered_flush h.rows

/-- How the windows of this incarnation relate to the messages it has accepted. -/
structure Contents (partition : Int) (s : Owner) : Prop where
  open_holds : ∀ w win, s.mem.openWindows.lookup w = some win →
    win.Holds (eventsIn s.accepted w)
  batch_holds : ∀ b, s.batch = some b → ∀ c ∈ b.closed, c.2.Holds (eventsIn s.accepted c.1)
  still_open : ∀ m ∈ s.accepted, s.mem.flushedWatermark < windowEnd m.window →
    ∃ win, s.mem.openWindows.lookup m.window = some win ∧ win.minOffset ≤ m.offset
  accepted_below : ∀ m ∈ s.accepted, m.offset < s.mem.nextOffset
  batch_offset : ∀ b, s.batch = some b → ∀ m ∈ s.accepted, m.offset < b.committedOffset →
    windowEnd m.window ≤ b.flushedWatermark
  progress_offset : ∀ pr, s.db.loadProgress partition = some pr → ∀ m ∈ s.accepted,
    m.offset < pr.committedOffset → windowEnd m.window ≤ pr.flushedWatermark

theorem contents_boot (db : Db) (partition : Int) (hllEnabled : Bool) (now : Nat) (nowUtc : Int)
    (earlier : List Message) :
    Contents partition (boot db partition hllEnabled now nowUtc earlier) where
  open_holds w win hwin := by
    rw [show (boot db partition hllEnabled now nowUtc earlier).mem.openWindows = ∅ from
      PartitionState.postRebalance_openWindows ..] at hwin
    cases hwin
  batch_holds b hb := by cases hb
  still_open m hm := by cases hm
  accepted_below m hm := by cases hm
  batch_offset b hb := by cases hb
  progress_offset pr _ m hm := by cases hm

/-- A window that is not open has no accepted events, unless it has been flushed. -/
theorem Contents.windowFor_holds {partition : Int} {s : Owner} (h : Contents partition s)
    (w : Int) (offset : Nat) (hw : s.mem.flushedWatermark < windowEnd w) :
    (s.mem.windowFor w offset).Holds (eventsIn s.accepted w) := by
  refine PartitionState.windowFor_holds offset (fun win => h.open_holds w win) ?_
  rintro hlook m hm rfl
  obtain ⟨win, hwin, _⟩ := h.still_open m hm hw
  rw [hlook] at hwin
  cases hwin

theorem Contents.of_lookup_eq {partition : Int} {s : Owner} {mem : PartitionState}
    (h : Contents partition s)
    (hlook : ∀ w, mem.openWindows.lookup w = s.mem.openWindows.lookup w)
    (hwatermark : mem.flushedWatermark = s.mem.flushedWatermark)
    (hoffset : s.mem.nextOffset ≤ mem.nextOffset) :
    Contents partition { s with mem := mem } where
  open_holds w win hwin := h.open_holds w win (by rwa [← hlook])
  batch_holds := h.batch_holds
  still_open m hm hlt := by
    obtain ⟨win, hwin, hle⟩ := h.still_open m hm (by rwa [← hwatermark])
    exact ⟨win, by rw [hlook]; exact hwin, hle⟩
  accepted_below m hm := (h.accepted_below m hm).trans_le hoffset
  batch_offset := h.batch_offset
  progress_offset := h.progress_offset

theorem Contents.accept {partition : Int} {s : Owner} (h : Contents partition s)
    (hs : Sound partition s) (m : Message) (mem : PartitionState)
    (hoffset : s.mem.nextOffset ≤ m.offset)
    (hwatermark : mem.flushedWatermark = s.mem.flushedWatermark)
    (hnext : mem.nextOffset = m.offset + 1)
    (hend : s.mem.flushedWatermark < windowEnd m.window)
    (hnew : m.event.eventId ∉ (s.mem.windowFor m.window m.offset).seenIds)
    (hlook : ∀ w, mem.openWindows.lookup w = if w = m.window then
      some ((s.mem.windowFor m.window m.offset).fold m.event m.offset s.mem.hllEnabled)
      else s.mem.openWindows.lookup w) :
    Contents partition { s with mem := mem, accepted := m :: s.accepted } where
  open_holds _ _ hwin := PartitionState.open_holds_of_accepted hlook h.open_holds
    (h.windowFor_holds m.window m.offset hend) hnew hwin
  batch_holds b hb c hc := by
    have hle := (hs.fits b hb).closed_end c hc
    rw [(hs.taken b hb).watermark] at hle
    have hne : m.window ≠ c.1 := by
      intro heq
      rw [← heq] at hle
      omega
    dsimp only
    rw [eventsIn_cons_of_ne m s.accepted c.1 hne]
    exact h.batch_holds b hb c hc
  still_open m' hm' hlt := by
    dsimp only at hlt ⊢
    rw [hwatermark] at hlt
    rw [hlook]
    split_ifs with hw
    · refine ⟨_, rfl, ?_⟩
      rcases List.mem_cons.mp hm' with rfl | hold
      · exact min_le_right _ _
      · obtain ⟨win, hwin, hle⟩ := h.still_open m' hold hlt
        have hfor : s.mem.windowFor m.window m.offset = win := by
          rw [← hw, PartitionState.windowFor, hwin]
          rfl
        rw [hfor]
        exact (min_le_left _ _).trans hle
    · rcases List.mem_cons.mp hm' with rfl | hold
      · exact absurd rfl hw
      · exact h.still_open m' hold hlt
  accepted_below m' hm' := by
    dsimp only
    rw [hnext]
    rcases List.mem_cons.mp hm' with rfl | hold
    · omega
    · have := h.accepted_below m' hold
      omega
  batch_offset b hb m' hm' hlt := by
    rcases List.mem_cons.mp hm' with rfl | hold
    · have := (hs.taken b hb).offset
      have := hs.mem.committedOffset_le
      omega
    · exact h.batch_offset b hb m' hold hlt
  progress_offset pr hpr m' hm' hlt := by
    rcases List.mem_cons.mp hm' with rfl | hold
    · have := (hs.ahead pr hpr).2
      have := hs.mem.committedOffset_le
      omega
    · exact h.progress_offset pr hpr m' hold hlt

/-- Delivering a message either leaves windows and history alone or accepts it. -/
theorem consume_cases (s : Owner) (m : Message) (now : Nat) :
    ((∀ w, (s.toWorker.consume m now).mem.openWindows.lookup w =
        s.mem.openWindows.lookup w) ∧
      (s.toWorker.consume m now).accepted = s.accepted ∧
      (windowEnd m.window ≤ s.mem.flushedWatermark ∨
        ∃ win, s.mem.openWindows.lookup m.window = some win ∧ m.event.eventId ∈ win.seenIds)) ∨
    ((s.toWorker.consume m now).accepted = m :: s.accepted ∧
      s.mem.flushedWatermark < windowEnd m.window ∧
      m.event.eventId ∉ (s.mem.windowFor m.window m.offset).seenIds ∧
      ∀ w, (s.toWorker.consume m now).mem.openWindows.lookup w = if w = m.window then
        some ((s.mem.windowFor m.window m.offset).fold m.event m.offset s.mem.hllEnabled)
        else s.mem.openWindows.lookup w) := by
  unfold Worker.consume
  rcases s.mem.processEvent_cases m.event m.offset now with
    ⟨hout, hle, hlook⟩ | ⟨hout, _, hdup, hlook⟩ | ⟨hout, hend, hnew, hlook⟩
  · exact Or.inl ⟨hlook, by simp [hout], Or.inl hle⟩
  · exact Or.inl ⟨hlook, by simp [hout], Or.inr hdup⟩
  · exact Or.inr ⟨by simp [hout], hend, hnew, hlook⟩

theorem Contents.consume {partition : Int} {s : Owner} (h : Contents partition s)
    (hs : Sound partition s) (m : Message) (now : Nat) (hoffset : s.mem.nextOffset ≤ m.offset) :
    Contents partition { s with toWorker := s.toWorker.consume m now } := by
  have hwatermark : (s.toWorker.consume m now).mem.flushedWatermark = s.mem.flushedWatermark :=
    s.mem.processEvent_flushedWatermark m.event m.offset now
  have hnext : (s.toWorker.consume m now).mem.nextOffset = m.offset + 1 :=
    s.mem.processEvent_nextOffset m.event m.offset now
  rcases consume_cases s m now with ⟨hlook, hacc, _⟩ | ⟨hacc, hend, hnew, hlook⟩
  · have heq : ({ s with toWorker := s.toWorker.consume m now } : Owner) =
        { s with mem := (s.toWorker.consume m now).mem } := by
      rw [← hacc]
      rfl
    rw [heq]
    exact h.of_lookup_eq hlook hwatermark (by omega)
  · have heq : ({ s with toWorker := s.toWorker.consume m now } : Owner) =
        { s with mem := (s.toWorker.consume m now).mem, accepted := m :: s.accepted } := by
      rw [← hacc]
      rfl
    rw [heq]
    exact h.accept hs m _ hoffset hwatermark hnext hend hnew hlook

theorem Contents.collect {partition : Int} {s : Owner} (h : Contents partition s) :
    Contents partition
      { s with mem := s.mem.collectBatch.1, batch := s.mem.collectBatch.2 } := by
  constructor
  case open_holds =>
    intro w win hwin
    dsimp only at hwin
    rw [PartitionState.collectBatch_fst] at hwin
    exact h.open_holds w win (PartitionState.lookup_of_takeClosedWindows hwin).1
  case batch_holds =>
    intro b hb c hc
    obtain ⟨_, rfl⟩ := PartitionState.collectBatch_snd_eq_some hb
    exact h.open_holds c.1 c.2 ((s.mem.mem_takeClosedWindows c.1 c.2).mp hc).1
  case still_open =>
    intro m hm hlt
    dsimp only at hlt ⊢
    rw [PartitionState.collectBatch_fst] at hlt ⊢
    rw [PartitionState.takeClosedWindows_flushedWatermark] at hlt
    obtain ⟨win, hwin, hle⟩ := h.still_open m hm (by omega)
    refine ⟨win, ?_, hle⟩
    rw [PartitionState.takeClosedWindows_lookup, if_neg (by omega)]
    exact hwin
  case accepted_below =>
    intro m hm
    dsimp only
    rw [PartitionState.collectBatch_fst]
    exact h.accepted_below m hm
  case batch_offset =>
    intro b hb m hm hlt
    obtain ⟨_, rfl⟩ := PartitionState.collectBatch_snd_eq_some hb
    dsimp only at hlt ⊢
    by_contra hend
    rw [PartitionState.takeClosedWindows_flushedWatermark] at hend
    obtain ⟨win, hwin, hle⟩ := h.still_open m hm (by omega)
    have hkept : s.mem.takeClosedWindows.1.openWindows.lookup m.window = some win := by
      rw [PartitionState.takeClosedWindows_lookup, if_neg (by omega)]
      exact hwin
    have := PartitionState.committedOffset_le_minOffset _ m.window win hkept
    omega
  case progress_offset => exact h.progress_offset

theorem Contents.step {partition : Int} {s t : Owner} {a : Action} (h : Contents partition s)
    (hs : Sound partition s) (hstep : Owner.step partition s a = some t) :
    Contents partition t := by
  cases a with
  | deliver m now =>
    obtain ⟨hoffset, rfl⟩ := step_deliver hstep
    exact h.consume hs m now hoffset
  | tickIdle nowWall nowUtc =>
    obtain rfl := step_tickIdle hstep
    exact h.of_lookup_eq (fun w => by simp) (by simp) (by simp)
  | collect =>
    obtain ⟨_, rfl⟩ := step_collect hstep
    exact h.collect
  | commit =>
    obtain ⟨b, hb, rfl⟩ := step_commit hstep
    exact { h with
      batch_holds := fun b' hb' => by cases hb'
      batch_offset := fun b' hb' => by cases hb'
      progress_offset := fun pr hpr m hm hlt => by
        dsimp only at hpr
        rw [Batch.flush_loadProgress] at hpr
        cases hpr
        exact h.batch_offset b hb m hm hlt }
  | fail =>
    obtain ⟨b, _, rfl⟩ := step_fail hstep
    exact { h with
      batch_holds := fun b' hb' => by cases hb'
      batch_offset := fun b' hb' => by cases hb' }
  | crash now nowUtc =>
    obtain rfl := step_crash hstep
    exact contents_boot ..

end Owner

end HushEngine
