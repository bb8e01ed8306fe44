import HushEngine.FlushedRows

/-!
Replaying a log. The partition's log is delivered in order from wherever the
owner resumes; a message that was accepted by a crashed incarnation is due
again unless its window is durable. What is due and has been seen is held in
memory, and what is due and has not been seen is not closed.
-/
namespace HushEngine

open Tally

/-- An append-only partition whose events are on time with respect to their order. -/
structure Log where
  entries : List Message
  sorted : entries.Pairwise fun m m' => m.offset < m'.offset
  onTime : ∀ m ∈ entries, ∀ m' ∈ entries, m.offset < m'.offset →
    m.event.ts - allowedLateness < windowEnd m'.window

namespace Log

/-- What the consumer receives next when it stands at the offset. -/
def nextAt (log : Log) (offset : Nat) : Option Message :=
  log.entries.find? fun m => decide (offset ≤ m.offset)

/-- Copies of one event id carry identical content. -/
def CopiesAgree (log : Log) : Prop :=
  ∀ m ∈ log.entries, ∀ m' ∈ log.entries, m.event.eventId = m'.event.eventId → m.event = m'.event

theorem eq_or_offset_lt (log : Log) {m m' : Message} (hm : m ∈ log.entries)
    (hm' : m' ∈ log.entries) (hle : m.offset ≤ m'.offset) : m' = m ∨ m.offset < m'.offset := by
  rcases Nat.lt_or_eq_of_le hle with hlt | heq
  · exact Or.inr hlt
  · have hnodup : (log.entries.map Message.offset).Nodup :=
      List.pairwise_map.mpr (log.sorted.imp fun h => h.ne)
    exact Or.inl (List.inj_on_of_nodup_map hnodup hm' hm heq.symm)

/-- The next message is the first of the log at or after the offset. -/
theorem nextAt_spec (log : Log) {offset : Nat} {m : Message} (h : log.nextAt offset = some m) :
    m ∈ log.entries ∧ ∀ m' ∈ log.entries, offset ≤ m'.offset → m' = m ∨ m.offset < m'.offset := by
  have hmem : m ∈ log.entries := List.mem_of_find?_eq_some h
  refine ⟨hmem, fun m' hm' hle => log.eq_or_offset_lt hmem hm' ?_⟩
  obtain ⟨_, pre, post, heq, hpre⟩ := List.find?_eq_some_iff_append.mp h
  rw [heq] at hm'
  have hsorted := log.sorted
  rw [heq, List.pairwise_append] at hsorted
  rcases List.mem_append.mp hm' with hbefore | hafter
  · have := hpre m' hbefore
    simp only [Bool.not_eq_true', decide_eq_false_iff_not] at this
    omega
  · rcases List.mem_cons.mp hafter with rfl | hlater
    · exact le_rfl
    · exact ((List.pairwise_cons.mp hsorted.2.1).1 m' hlater).le

theorem le_of_nextAt (log : Log) {offset : Nat} {m : Message}
    (h : log.nextAt offset = some m) : offset ≤ m.offset := by
  simpa using List.find?_some h

end Log

namespace Owner

/-- What holds as long as no batch has been lost since the last restart. -/
structure Intact (partition : Int) (s : Owner) : Prop where
  sound : Sound partition s
  contents : Contents partition s
  conserved : Conserved partition s
  exact_rows : ExactRows partition s

theorem intact_boot {db : Db} {partition : Int} (h : db.RowsCovered partition)
    (hllEnabled : Bool) (now : Nat) (nowUtc : Int) (earlier : List Message) :
    Intact partition (boot db partition hllEnabled now nowUtc earlier) where
  sound := sound_boot h ..
  contents := contents_boot ..
  conserved m hm := by cases hm
  exact_rows m hm := by cases hm

theorem Intact.step {partition : Int} {s t : Owner} {a : Action} (h : Intact partition s)
    (hfail : a ≠ .fail) (hstep : Owner.step partition s a = some t) : Intact partition t where
  sound := h.sound.step hstep
  contents := h.contents.step h.sound hstep
  conserved := h.conserved.step h.sound h.contents hfail hstep
  exact_rows := h.exact_rows.step h.sound h.contents (fun _ => h.conserved) hstep

section Intact

variable {partition : Int} {s : Owner}

theorem Intact.durable_of_settled (h : Intact partition s) {m : Message} (hm : m ∈ s.accepted)
    (hw : s.db.Settled partition m.window) : s.db.Durable partition m.window := by
  have hrow := h.exact_rows m hm hw CellKey.global
  have hsome := cellTally_global_isSome hm
  rw [← hrow, Db.rowTotals, Option.isSome_map] at hsome
  exact hsome

/-- Once the batch is written, every accepted event its checkpoint covers is durable. -/
theorem Intact.durable_flush (h : Intact partition s) {b : Batch} (hb : s.batch = some b)
    {m : Message} (hm : m ∈ s.accepted)
    (hcovered : m.offset < b.committedOffset ∨ windowEnd m.window ≤ b.flushedWatermark) :
    (b.flush s.db partition).Durable partition m.window := by
  have hend : windowEnd m.window ≤ b.flushedWatermark :=
    hcovered.elim (h.contents.batch_offset b hb m hm) id
  rw [(h.sound.taken b hb).watermark] at hend
  rcases h.conserved m hm hend with ⟨b', hb', hmem⟩ | hsettled
  · rw [hb] at hb'
    cases hb'
    exact (h.sound.fits b hb).durable_flush_of_mem hmem
  · exact b.durable_flush (h.durable_of_settled hm hsettled)

/-- The commit leaves every closed window with the tally of what was accepted into it. -/
theorem Intact.rowTotals_flush (h : Intact partition s) {b : Batch} (hb : s.batch = some b)
    {w : Int} (hend : windowEnd w ≤ s.mem.flushedWatermark)
    (hnot : ¬ s.db.Settled partition w) (key : CellKey) :
    (b.flush s.db partition).rowTotals partition w key =
      cellTally (eventsIn s.accepted w) key := by
  by_cases hmem : w ∈ b.closed.map Prod.fst
  · obtain ⟨c, hc, rfl⟩ := List.mem_map.mp hmem
    exact (h.sound.fits b hb).rowTotals_flush h.sound.rows hc (h.contents.batch_holds b hb c hc)
      key
  · have hempty : eventsIn s.accepted w = ∅ := by
      apply Finset.eq_empty_of_forall_notMem
      intro e he
      obtain ⟨m, hm, rfl, _⟩ := (mem_eventsIn _ _ _).mp he
      rcases h.conserved m hm hend with ⟨b', hb', hin⟩ | hdone
      · rw [hb] at hb'
        cases hb'
        exact hmem hin
      · exact hnot hdone
    rw [b.rowTotals_flush_of_not_mem s.db hmem key, h.sound.rows.rowTotals_eq_none hnot key,
      hempty, cellTally_empty]

end Intact

/-- The due messages are accounted for: durable, held in memory, or still to be delivered in
time. -/
structure Caught (partition : Int) (due : List Message) (s : Owner) : Prop where
  seen : ∀ m ∈ due, m.offset < s.mem.nextOffset → s.db.Durable partition m.window ∨
    ∃ m' ∈ s.accepted, m'.event.eventId = m.event.eventId ∧ m'.window = m.window ∧
      m'.offset ≤ m.offset
  unseen : ∀ m ∈ due, s.mem.nextOffset ≤ m.offset → s.db.Durable partition m.window ∨
    s.mem.flushedWatermark < windowEnd m.window
  progress : ∀ pr, s.db.loadProgress partition = some pr → ∀ m ∈ due,
    m.offset < pr.committedOffset ∨ windowEnd m.window ≤ pr.flushedWatermark →
    s.db.Durable partition m.window

theorem boot_progress {db : Db} {partition : Int} {pr : PartitionProgress}
    (h : db.loadProgress partition = some pr) (hllEnabled : Bool) (now : Nat) (nowUtc : Int)
    (earlier : List Message) :
    (boot db partition hllEnabled now nowUtc earlier).mem.nextOffset = pr.committedOffset ∧
    (boot db partition hllEnabled now nowUtc earlier).mem.flushedWatermark =
      pr.flushedWatermark ∧
    (boot db partition hllEnabled now nowUtc earlier).mem.maxEventTs = pr.flushedWatermark := by
  simp [boot, PartitionState.postRebalance, h, PartitionState.resumeFrom,
    PartitionState.withHllEnabled]

theorem boot_fresh {db : Db} {partition : Int} (h : db.loadProgress partition = none)
    (hllEnabled : Bool) (now : Nat) (nowUtc : Int) (earlier : List Message) :
    (boot db partition hllEnabled now nowUtc earlier).mem.nextOffset = 0 ∧
    (boot db partition hllEnabled now nowUtc earlier).mem.flushedWatermark = nowUtc - oneDay ∧
    (boot db partition hllEnabled now nowUtc earlier).mem.maxEventTs = nowUtc - oneDay := by
  simp [boot, PartitionState.postRebalance, h, PartitionState.resumeFrom,
    PartitionState.withHllEnabled]

theorem caught_boot {db : Db} {partition : Int} {due : List Message} (hllEnabled : Bool)
    (now : Nat) (nowUtc : Int) (earlier : List Message)
    (hprogress : ∀ pr, db.loadProgress partition = some pr → ∀ m ∈ due,
      m.offset < pr.committedOffset ∨ windowEnd m.window ≤ pr.flushedWatermark →
      db.Durable partition m.window)
    (hfresh : db.loadProgress partition = none → ∀ m ∈ due,
      nowUtc - oneDay < windowEnd m.window) :
    Caught partition due (boot db partition hllEnabled now nowUtc earlier) := by
  cases hload : db.loadProgress partition with
  | none =>
    obtain ⟨hnext, hwm, _⟩ := boot_fresh hload hllEnabled now nowUtc earlier
    constructor
    case seen =>
      intro m _ hlt
      omega
    case unseen =>
      intro m hm _
      rw [hwm]
      exact Or.inr (hfresh hload m hm)
    case progress => exact hprogress
  | some pr =>
    obtain ⟨hnext, hwm, _⟩ := boot_progress hload hllEnabled now nowUtc earlier
    constructor
    case seen =>
      intro m hm hlt
      rw [hnext] at hlt
      exact Or.inl (hprogress pr hload m hm (Or.inl hlt))
    case unseen =>
      intro m hm _
      rw [hwm]
      by_cases hend : windowEnd m.window ≤ pr.flushedWatermark
      · exact Or.inl (hprogress pr hload m hm (Or.inr hend))
      · exact Or.inr (by omega)
    case progress => exact hprogress

section Caught

variable {partition : Int} {due : List Message} {s : Owner}

/-- A due message that is not late is held in memory once it has been delivered. -/
theorem consume_holds (hc : Contents partition s) (m : Message) (now : Nat)
    (hoffset : s.mem.nextOffset ≤ m.offset) (hend : s.mem.flushedWatermark < windowEnd m.window) :
    ∃ m' ∈ (s.toWorker.consume m now).accepted, m'.event.eventId = m.event.eventId ∧
      m'.window = m.window ∧ m'.offset ≤ m.offset := by
  rcases consume_cases s m now with ⟨_, hacc, hle | ⟨win, hwin, hseen⟩⟩ | ⟨hacc, _, _, _⟩
  · omega
  · rw [(hc.open_holds m.window win hwin).ids] at hseen
    obtain ⟨e, he, hid⟩ := Finset.mem_image.mp hseen
    obtain ⟨m', hm', hw, rfl⟩ := (mem_eventsIn _ _ _).mp he
    have := hc.accepted_below m' hm'
    rw [hacc]
    exact ⟨m', hm', hid, hw, by omega⟩
  · rw [hacc]
    exact ⟨m, List.mem_cons_self .., rfl, rfl, le_rfl⟩

theorem mem_consume {m m' : Message} {now : Nat} (h : m' ∈ s.accepted) :
    m' ∈ (s.toWorker.consume m now).accepted := by
  rcases consume_cases s m now with ⟨_, hacc, _⟩ | ⟨hacc, _, _, _⟩ <;> rw [hacc]
  · exact h
  · exact List.mem_cons_of_mem _ h

/-- A process never forgets what it has accepted. -/
theorem accepted_step {t : Owner} {a : Action} (hlive : a.isCrash = false)
    (hstep : Owner.step partition s a = some t) {m : Message} (hm : m ∈ s.accepted) :
    m ∈ t.accepted := by
  cases a with
  | deliver m' now =>
    obtain ⟨_, rfl⟩ := step_deliver hstep
    exact mem_consume hm
  | tickIdle nowWall nowUtc =>
    obtain rfl := step_tickIdle hstep
    exact hm
  | collect =>
    obtain ⟨_, rfl⟩ := step_collect hstep
    exact hm
  | commit =>
    obtain ⟨_, _, rfl⟩ := step_commit hstep
    exact hm
  | fail =>
    obtain ⟨_, _, rfl⟩ := step_fail hstep
    exact hm
  | crash now nowUtc => cases hlive

theorem Caught.deliver (h : Caught partition due s) (hc : Contents partition s) (m : Message)
    (now : Nat) (hoffset : s.mem.nextOffset ≤ m.offset)
    (hnext : ∀ m' ∈ due, s.mem.nextOffset ≤ m'.offset → m' = m ∨ m.offset < m'.offset) :
    Caught partition due { s with toWorker := s.toWorker.consume m now } := by
  have hnew : (s.toWorker.consume m now).mem.nextOffset = m.offset + 1 :=
    s.mem.processEvent_nextOffset m.event m.offset now
  have hwm : (s.toWorker.consume m now).mem.flushedWatermark = s.mem.flushedWatermark :=
    s.mem.processEvent_flushedWatermark m.event m.offset now
  constructor
  case seen =>
    intro m' hm' hlt
    dsimp only at hlt ⊢
    rw [hnew] at hlt
    by_cases hbefore : m'.offset < s.mem.nextOffset
    · rcases h.seen m' hm' hbefore with hdurable | ⟨m'', hm'', hsame⟩
      · exact Or.inl hdurable
      · exact Or.inr ⟨m'', mem_consume hm'', hsame⟩
    · obtain rfl : m' = m := (hnext m' hm' (by omega)).resolve_right (by omega)
      rcases h.unseen m' hm' hoffset with hdurable | hend
      · exact Or.inl hdurable
      · exact Or.inr (consume_holds hc m' now hoffset hend)
  case unseen =>
    intro m' hm' hle
    dsimp only at hle ⊢
    rw [hnew] at hle
    rw [hwm]
    exact h.unseen m' hm' (by omega)
  case progress => exact h.progress

theorem Caught.tickIdle (h : Caught partition due s) (nowWall : Nat) (nowUtc : Int) :
    Caught partition due { s with mem := s.mem.tickIdle nowWall nowUtc } where
  seen m hm hlt := h.seen m hm (by simpa using hlt)
  unseen m hm hle := by simpa using h.unseen m hm (by simpa using hle)
  progress := h.progress

/-- A turn of the flush loop is harmless while nothing due and undelivered is closed. -/
theorem Caught.collect (h : Caught partition due s)
    (hclosed : ∀ m ∈ due, s.mem.nextOffset ≤ m.offset → ¬ s.db.Durable partition m.window →
      s.mem.watermark < windowEnd m.window) :
    Caught partition due
      { s with mem := s.mem.collectBatch.1, batch := s.mem.collectBatch.2 } := by
  constructor
  case seen =>
    intro m hm hlt
    rw [PartitionState.collectBatch_fst] at hlt
    exact h.seen m hm hlt
  case unseen =>
    intro m hm hle
    dsimp only at hle ⊢
    rw [PartitionState.collectBatch_fst] at hle ⊢
    rw [PartitionState.takeClosedWindows_flushedWatermark]
    by_cases hdurable : s.db.Durable partition m.window
    · exact Or.inl hdurable
    · have := (h.unseen m hm hle).resolve_left hdurable
      have := hclosed m hm hle hdurable
      exact Or.inr (by omega)
  case progress => exact h.progress

theorem Caught.commit (h : Caught partition due s) (hs : Intact partition s) {b : Batch}
    (hb : s.batch = some b) :
    Caught partition due { s with db := b.flush s.db partition, batch := none } := by
  constructor
  case seen =>
    intro m hm hlt
    exact (h.seen m hm hlt).imp b.durable_flush id
  case unseen =>
    intro m hm hle
    exact (h.unseen m hm hle).imp b.durable_flush id
  case progress =>
    intro pr hpr m hm hcovered
    dsimp only at hpr ⊢
    rw [Batch.flush_loadProgress] at hpr
    cases hpr
    dsimp only at hcovered
    by_cases hlt : m.offset < s.mem.nextOffset
    · rcases h.seen m hm hlt with hdurable | ⟨m', hm', _, hw, hle⟩
      · exact b.durable_flush hdurable
      · rw [← hw] at hcovered ⊢
        exact hs.durable_flush hb hm' (hcovered.imp (by omega) id)
    · have htaken := hs.sound.taken b hb
      have hoff := htaken.offset
      have hnext := hs.sound.mem.committedOffset_le
      have hwm := htaken.watermark
      rcases h.unseen m hm (by omega) with hdurable | hend
      · exact b.durable_flush hdurable
      · omega

end Caught

end Owner

end HushEngine
