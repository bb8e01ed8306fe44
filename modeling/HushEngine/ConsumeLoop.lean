import HushEngine.ExactlyOnce

/-!
The consume loop under the owner. A record without a payload, or with one that
does not decode, is skipped and leaves no trace in the state. After a restart
the state resumes at the stored offset, but `post_rebalance` only warns when the
seek fails, so the consumer may stand at an earlier one and read settled
messages again, each of which sets the next offset back. None of this reaches a
window, a batch or the tables.
-/
namespace HushEngine

open Keyed Tally Runs

/-- A record as it is polled; `none` when there is nothing to decode or it fails. -/
structure Record where
  offset : Nat
  event : Option Event
deriving DecidableEq

/-- A partition with everything in it. -/
structure RawLog where
  records : List Record
  sorted : records.Pairwise fun r r' => r.offset < r'.offset

namespace RawLog

def nextAt (raw : RawLog) (position : Nat) : Option Record :=
  raw.records.find? fun r => decide (position ≤ r.offset)

def decodeAll (records : List Record) : List Message :=
  records.filterMap fun r => r.event.map fun e => ⟨r.offset, e⟩

/-- What decodes of a partition. -/
def Decodes (raw : RawLog) (log : Log) : Prop := log.entries = decodeAll raw.records

theorem decodeAll_append (rs rs' : List Record) :
    decodeAll (rs ++ rs') = decodeAll rs ++ decodeAll rs' := List.filterMap_append

theorem mem_decodeAll {records : List Record} {m : Message} (h : m ∈ decodeAll records) :
    ∃ r ∈ records, r.offset = m.offset := by
  obtain ⟨r, hr, hm⟩ := List.mem_filterMap.mp h
  obtain ⟨e, _, rfl⟩ := Option.map_eq_some_iff.mp hm
  exact ⟨r, hr, rfl⟩

/-- Where the next record stands among the messages. -/
theorem Decodes.split {raw : RawLog} {log : Log} (h : raw.Decodes log) {position : Nat}
    {r : Record} (hnext : raw.nextAt position = some r) : position ≤ r.offset ∧ ∃ pre post,
      log.entries = pre ++ (decodeAll [r] ++ post) ∧ (∀ m ∈ pre, m.offset < position) ∧
        ∀ m ∈ post, r.offset < m.offset := by
  obtain ⟨hle, pre, post, heq, hpre⟩ := List.find?_eq_some_iff_append.mp hnext
  have hsorted := raw.sorted
  rw [heq, List.pairwise_append, List.pairwise_cons] at hsorted
  refine ⟨by simpa using hle, decodeAll pre, decodeAll post, ?_, fun m hm => ?_, fun m hm => ?_⟩
  · rw [← decodeAll_append, ← decodeAll_append, List.singleton_append, ← heq]
    exact h
  · obtain ⟨r', hr', hoffset⟩ := mem_decodeAll hm
    have hlt := hpre r' hr'
    simp only [Bool.not_eq_true', decide_eq_false_iff_not] at hlt
    omega
  · obtain ⟨r', hr', hoffset⟩ := mem_decodeAll hm
    have hlt := hsorted.2.1.1 r' hr'
    omega

theorem Decodes.nextAt_some {raw : RawLog} {log : Log} (h : raw.Decodes log) {position : Nat}
    {r : Record} (hnext : raw.nextAt position = some r) {e : Event} (he : r.event = some e) :
    log.nextAt position = some ⟨r.offset, e⟩ := by
  obtain ⟨hle, pre, post, heq, hpre, _⟩ := h.split hnext
  have hmid : decodeAll [r] = [⟨r.offset, e⟩] := by simp [decodeAll, he]
  rw [hmid] at heq
  refine List.find?_eq_some_iff_append.mpr ⟨by simpa using hle, pre, post, heq, fun m hm => ?_⟩
  simpa using hpre m hm

/-- Between what was skipped and what comes next there is nothing. -/
theorem Decodes.nextAt_none {raw : RawLog} {log : Log} (h : raw.Decodes log) {position : Nat}
    {r : Record} (hnext : raw.nextAt position = some r) (he : r.event = none) :
    log.nextAt (r.offset + 1) = log.nextAt position := by
  obtain ⟨hle, pre, post, heq, hpre, hpost⟩ := h.split hnext
  have hmid : decodeAll [r] = [] := by simp [decodeAll, he]
  rw [hmid, List.nil_append] at heq
  have hfirst : ∀ start, (∀ m ∈ pre, m.offset < start) → (∀ m ∈ post, start ≤ m.offset) →
      log.nextAt start = post.head? := by
    intro start hbefore hafter
    have hnone : pre.find? (fun m => decide (start ≤ m.offset)) = none := by
      simpa using hbefore
    unfold Log.nextAt
    rw [heq, List.find?_append, hnone, Option.none_or]
    cases post with
    | nil => rfl
    | cons m post => exact List.find?_cons_of_pos (by simpa using hafter m (List.mem_cons_self ..))
  rw [hfirst (r.offset + 1) (fun m hm => by have := hpre m hm; omega) hpost,
    hfirst position hpre fun m hm => by have := hpost m hm; omega]

end RawLog

/-- What comes next from an earlier offset, if it comes at the later one or after it, comes next
from there too. -/
theorem Log.nextAt_of_le (log : Log) {a b : Nat} {m : Message} (h : log.nextAt a = some m)
    (hab : a ≤ b) (hb : b ≤ m.offset) : log.nextAt b = some m := by
  obtain ⟨_, pre, post, heq, hpre⟩ := List.find?_eq_some_iff_append.mp h
  refine List.find?_eq_some_iff_append.mpr ⟨by simpa using hb, pre, post, heq, fun m' hm' => ?_⟩
  have hlt := hpre m' hm'
  simp only [Bool.not_eq_true', decide_eq_false_iff_not] at hlt ⊢
  omega

namespace PartitionState

/-- A message of a closed window only moves what `processEvent` records of every message. -/
theorem processEvent_of_late {ps : PartitionState} {e : Event}
    (h : windowEnd e.window ≤ ps.flushedWatermark) (hclock : e.ts ≤ ps.maxEventTs)
    (offset now : Nat) :
    ps.processEvent e offset now =
      ({ ps with nextOffset := offset + 1, lastEventWall := now }, .late) := by
  have hmax : ¬ e.ts > ps.maxEventTs := not_lt.mpr hclock
  unfold Event.window at h
  unfold processEvent
  dsimp only
  rw [if_pos h, consume, if_neg hmax]

/-- Without windows, and with the clock where the watermark is, a turn of the flush loop does
nothing. -/
theorem collectBatch_of_idle {ps : PartitionState} (h : ps.openWindows = ∅)
    (hclock : ps.maxEventTs = ps.flushedWatermark) : ps.collectBatch = (ps, none) := by
  have hstarts : ps.closedStarts = [] := by
    rw [closedStarts, h]
    rfl
  have hwatermark : ¬ ps.watermark > ps.flushedWatermark := by
    unfold watermark allowedLateness
    omega
  unfold collectBatch takeClosedWindows
  rw [hstarts, if_neg hwatermark]
  rfl

end PartitionState

/-- Where `post_rebalance` seeks to, or the earliest offset when it does not seek. -/
def Db.storedOffset (db : Db) (partition : Int) : Nat :=
  ((db.loadProgress partition).map PartitionProgress.committedOffset).getD 0

/-- An owner and where its consumer stands in the partition. -/
structure Reader extends Owner where
  position : Nat
deriving DecidableEq

inductive ReaderAction
  | receive (record : Record) (now : Nat)
  | collect
  | commit
  /-- A crash and a new assignment, which leaves the consumer at the position. -/
  | restart (now : Nat) (nowUtc : Int) (position : Nat)
deriving DecidableEq

namespace Reader

/-- The body of the consume loop. -/
def receive (r : Reader) (record : Record) (now : Nat) : Owner :=
  match record.event with
  | some e => { r.toOwner with toWorker := r.toWorker.consume ⟨record.offset, e⟩ now }
  | none => r.toOwner

def step (partition : Int) (r : Reader) : ReaderAction → Option Reader
  | .receive record now =>
    if r.position ≤ record.offset then some ⟨r.receive record now, record.offset + 1⟩ else none
  | .collect => (Owner.step partition r.toOwner .collect).map fun o => ⟨o, r.position⟩
  | .commit => (Owner.step partition r.toOwner .commit).map fun o => ⟨o, r.position⟩
  | .restart now nowUtc position =>
    some ⟨Owner.boot r.db partition r.mem.hllEnabled now nowUtc (r.accepted ++ r.earlier), position⟩

/-- The partition is read in order from the position; a restart leaves the consumer at the stored
offset or, when the seek fails, before it. -/
def Schedule (raw : RawLog) (partition : Int) (r : Reader) : ReaderAction → Prop
  | .receive record _ => raw.nextAt r.position = some record
  | .collect => True
  | .commit => True
  | .restart _ nowUtc position => position ≤ r.db.storedOffset partition ∧
      (r.db.loadProgress partition = none →
        ∀ m ∈ RawLog.decodeAll raw.records, nowUtc - oneDay < windowEnd m.window)

instance (raw : RawLog) (partition : Int) (r : Reader) (a : ReaderAction) :
    Decidable (Schedule raw partition r a) :=
  match a with
  | .receive record _ => inferInstanceAs (Decidable (raw.nextAt r.position = some record))
  | .collect => inferInstanceAs (Decidable True)
  | .commit => inferInstanceAs (Decidable True)
  | .restart _ nowUtc position =>
    inferInstanceAs (Decidable (position ≤ r.db.storedOffset partition ∧
      (r.db.loadProgress partition = none →
        ∀ m ∈ RawLog.decodeAll raw.records, nowUtc - oneDay < windowEnd m.window)))

/-- What comes next for the consumer is what comes next for the owner. -/
def Synced (log : Log) (r : Reader) (o : Owner) : Prop :=
  r.toOwner = o ∧ log.nextAt r.position = log.nextAt o.mem.nextOffset

/-- The consumer is behind the stored offset; but for what it has set back it is the owner that
has just been assigned the partition. -/
structure Rereading (log : Log) (partition : Int) (r : Reader) (o : Owner) : Prop where
  same : o = { r.toOwner with mem :=
    { r.mem with nextOffset := o.mem.nextOffset, lastEventWall := o.mem.lastEventWall } }
  no_windows : r.mem.openWindows = ∅
  no_batch : r.batch = none
  clock : r.mem.maxEventTs = r.mem.flushedWatermark
  progress : r.db.loadProgress partition = some ⟨o.mem.nextOffset, r.mem.flushedWatermark⟩
  behind : ∀ m, log.nextAt r.position = some m → o.mem.nextOffset ≤ m.offset →
    log.nextAt o.mem.nextOffset = some m

/-- The reader follows an owner that is given the messages only and whose seeks all work. -/
structure Follows (log : Log) (partition : Int) (r : Reader) (o : Owner) : Prop where
  onLog : Owner.OnLog log partition o
  mirrored : Synced log r o ∨ Rereading log partition r o

section Steps

variable {log : Log} {partition : Int} {r r' : Reader} {o : Owner}

/-- What is read again is late and changes nothing but what is set back. -/
theorem Rereading.receive (h : Rereading log partition r o) {m : Message} (now : Nat)
    (hbehind : m.offset < o.mem.nextOffset) (hlate : windowEnd m.window ≤ r.mem.flushedWatermark) :
    Rereading log partition
      ⟨{ r.toOwner with toWorker := r.toWorker.consume m now }, m.offset + 1⟩ o := by
  have hclock : m.event.ts ≤ r.mem.maxEventTs := by
    rw [h.clock]
    exact (lt_windowEnd m.event.ts).le.trans hlate
  have hconsume : r.toWorker.consume m now =
      { r.toWorker with mem :=
        { r.mem with nextOffset := m.offset + 1, lastEventWall := now } } := by
    rw [Worker.consume, PartitionState.processEvent_of_late hlate hclock]
    rfl
  rw [hconsume]
  exact ⟨h.same, h.no_windows, h.no_batch, h.clock, h.progress,
    fun m' hm' hle => log.nextAt_of_le hm' hbehind hle⟩

/-- A message at or after the stored offset is folded as if the owner had expected it. -/
theorem Rereading.consume_eq (h : Rereading log partition r o) (m : Message) (now : Nat) :
    { r.toOwner with toWorker := r.toWorker.consume m now } =
      { o with toWorker := o.toWorker.consume m now } := by
  rw [h.same]
  rfl

theorem Rereading.db_eq (h : Rereading log partition r o) : o.db = r.db := by
  rw [h.same]

theorem follows_boot (hboot : Owner.OnLog log partition o) {db : Db} {hllEnabled : Bool}
    {now : Nat} {nowUtc : Int} {earlier : List Message}
    (ho : o = Owner.boot db partition hllEnabled now nowUtc earlier) {position : Nat}
    (hposition : position ≤ db.storedOffset partition) :
    Follows log partition ⟨o, position⟩ o := by
  refine ⟨hboot, ?_⟩
  unfold Db.storedOffset at hposition
  cases hload : db.loadProgress partition with
  | none =>
    obtain ⟨hnext, _, _⟩ := Owner.boot_fresh hload hllEnabled now nowUtc earlier
    rw [hload] at hposition
    obtain rfl := Nat.le_zero.mp hposition
    refine Or.inl ⟨rfl, ?_⟩
    rw [ho, hnext]
  | some pr =>
    obtain ⟨hnext, hwatermark, hmax⟩ := Owner.boot_progress hload hllEnabled now nowUtc earlier
    rw [hload] at hposition
    subst ho
    refine Or.inr ⟨rfl, PartitionState.postRebalance_openWindows .., rfl, ?_, ?_, ?_⟩
    · exact hmax.trans hwatermark.symm
    · rw [hnext]
      exact hload.trans (by rw [hwatermark])
    · rw [hnext]
      exact fun m hm hle => log.nextAt_of_le hm hposition hle

variable {raw : RawLog}

/-- A record that is skipped moves the consumer, and what comes next stays the same. -/
theorem Follows.skip (h : Follows log partition r o) (hraw : raw.Decodes log) {record : Record}
    (hnext : raw.nextAt r.position = some record) (hevent : record.event = none) :
    Follows log partition ⟨r.toOwner, record.offset + 1⟩ o := by
  have hsame := hraw.nextAt_none hnext hevent
  refine ⟨h.onLog, ?_⟩
  rcases h.mirrored with ⟨hown, hpos⟩ | hreread
  · exact Or.inl ⟨hown, hsame.trans hpos⟩
  · refine Or.inr { hreread with behind := fun m hm hle => hreread.behind m ?_ hle }
    rw [← hsame]
    exact hm

/-- A step of the reader is a step of the owner it follows, or none at all. -/
theorem Follows.step (h : Follows log partition r o) (hcopies : log.CopiesAgree)
    (hraw : raw.Decodes log) {a : ReaderAction} (hguard : Schedule raw partition r a)
    (hstep : Reader.step partition r a = some r') :
    Follows log partition r' o ∨ ∃ b o', log.Schedule partition o b ∧
      Owner.step partition o b = some o' ∧ Follows log partition r' o' := by
  have hmatch : ∀ {b o'}, log.Schedule partition o b → Owner.step partition o b = some o' →
      Synced log r' o' → Follows log partition r' o ∨ ∃ b o', log.Schedule partition o b ∧
        Owner.step partition o b = some o' ∧ Follows log partition r' o' :=
    fun hb ho' hsynced => Or.inr ⟨_, _, hb, ho', h.onLog.step hcopies hb ho', Or.inl hsynced⟩
  cases a with
  | receive record now =>
    simp only [Reader.step] at hstep
    split_ifs at hstep
    cases hstep
    cases hevent : record.event with
    | none =>
      have hreceive : r.receive record now = r.toOwner := by rw [Reader.receive, hevent]
      rw [hreceive]
      exact Or.inl (h.skip hraw hguard hevent)
    | some e =>
      have hreceive : r.receive record now =
          { r.toOwner with toWorker := r.toWorker.consume ⟨record.offset, e⟩ now } := by
        rw [Reader.receive, hevent]
      have hnext := hraw.nextAt_some hguard hevent
      have hnew : ∀ ps : PartitionState, (ps.processEvent e record.offset now).1.nextOffset =
          record.offset + 1 := fun ps => ps.processEvent_nextOffset e record.offset now
      rcases h.mirrored with ⟨rfl, hpos⟩ | hreread
      · rw [hpos] at hnext
        refine hmatch (b := .deliver ⟨record.offset, e⟩ now) hnext
          (if_pos (log.le_of_nextAt hnext)) ⟨hreceive, ?_⟩
        exact congrArg log.nextAt (hnew r.mem).symm
      · by_cases hbehind : record.offset < o.mem.nextOffset
        · obtain ⟨hm, _⟩ := log.nextAt_spec hnext
          have hload := hreread.progress
          rw [← hreread.db_eq] at hload
          obtain ⟨pr, hpr, hle⟩ := h.onLog.intact.sound.rows.settled
            (h.onLog.caught.progress _ hload _ hm (Or.inl hbehind))
          obtain rfl := Option.some.inj (hload.symm.trans hpr)
          rw [hreceive]
          exact Or.inl ⟨h.onLog, Or.inr (hreread.receive now hbehind hle)⟩
        · have hle := Nat.le_of_not_lt hbehind
          refine hmatch (b := .deliver ⟨record.offset, e⟩ now) (hreread.behind _ hnext hle)
            (if_pos hle) ⟨hreceive.trans (hreread.consume_eq _ now), ?_⟩
          exact congrArg log.nextAt (hnew o.mem).symm
  | collect =>
    obtain ⟨o', ho', rfl⟩ := Option.map_eq_some_iff.mp hstep
    rcases h.mirrored with ⟨rfl, hpos⟩ | hreread
    · refine hmatch (b := .collect) trivial ho' ⟨rfl, hpos.trans (congrArg log.nextAt ?_)⟩
      obtain ⟨_, rfl⟩ := Owner.step_collect ho'
      dsimp only
      rw [PartitionState.collectBatch_fst]
      rfl
    · obtain ⟨_, rfl⟩ := Owner.step_collect ho'
      rw [PartitionState.collectBatch_of_idle hreread.no_windows hreread.clock]
      exact Or.inl ⟨h.onLog, Or.inr
        ⟨by rw [← hreread.no_batch]; exact hreread.same, hreread.no_windows, rfl, hreread.clock,
          hreread.progress, hreread.behind⟩⟩
  | commit =>
    obtain ⟨o', ho', rfl⟩ := Option.map_eq_some_iff.mp hstep
    rcases h.mirrored with ⟨rfl, hpos⟩ | hreread
    · refine hmatch (b := .commit) trivial ho' ⟨rfl, ?_⟩
      obtain ⟨_, _, rfl⟩ := Owner.step_commit ho'
      exact hpos
    · obtain ⟨b, hb, _⟩ := Owner.step_commit ho'
      rw [hreread.no_batch] at hb
      cases hb
  | restart now nowUtc position =>
    cases hstep
    have hparts : o.db = r.db ∧ o.mem.hllEnabled = r.mem.hllEnabled ∧
        o.accepted = r.accepted ∧ o.earlier = r.earlier := by
      rcases h.mirrored with ⟨rfl, _⟩ | hreread
      · exact ⟨rfl, rfl, rfl, rfl⟩
      · rw [hreread.same]
        exact ⟨rfl, rfl, rfl, rfl⟩
    obtain ⟨hdb, hhll, haccepted, hearlier⟩ := hparts
    have hcrash : log.Schedule partition o (.crash now nowUtc) := by
      rw [Log.Schedule, hdb]
      unfold Log.EndsAfter
      rw [hraw]
      exact hguard.2
    have hboot := h.onLog.step hcopies hcrash rfl
    rw [← hdb, ← hhll, ← haccepted, ← hearlier]
    refine Or.inr ⟨_, _, hcrash, rfl, follows_boot hboot rfl ?_⟩
    rw [hdb]
    exact hguard.1

end Steps

/-- Skipped records and failed seeks are a longer way to the same tables: the windows, the batch
and the rows are those of a run on the messages alone in which every seek works. So settled windows
have their tallies, and a batch never sets the stored progress back. -/
theorem consume_loop_refines (log : Log) (hcopies : log.CopiesAgree) (raw : RawLog)
    (hraw : raw.Decodes log) (partition : Int) (hllEnabled : Bool) (now : Nat) (nowUtc : Int)
    (hstart : log.EndsAfter (nowUtc - oneDay)) (actions : List ReaderAction) (r : Reader)
    (hrun : Run (step partition) (Schedule raw partition)
      ⟨Owner.boot Db.empty partition hllEnabled now nowUtc [], 0⟩ actions r) :
    (∃ plain o, Run (Owner.step partition) (log.Schedule partition)
      (Owner.boot Db.empty partition hllEnabled now nowUtc []) plain o ∧
      o.db = r.db ∧ o.batch = r.batch ∧ o.mem.openWindows = r.mem.openWindows ∧
      o.accepted = r.accepted) ∧
    (∀ w key, r.db.Settled partition w →
      r.db.rowTotals partition w key = cellTally (eventsIn log.entries w) key) ∧
    (∀ w key, ¬ r.db.Settled partition w → r.db.rowTotals partition w key = none) ∧
    (∀ b, r.batch = some b → ∀ pr, r.db.loadProgress partition = some pr →
      pr.committedOffset ≤ b.committedOffset ∧ pr.flushedWatermark ≤ b.flushedWatermark) := by
  have hempty : Owner.OnLog log partition
      (Owner.boot Db.empty partition hllEnabled now nowUtc []) :=
    Owner.onLog_boot_empty hstart partition hllEnabled now
  obtain ⟨plain, o, hplain, hfollows⟩ := hrun.simulate
    (fun s a t o (h : Follows log partition s o) hguard hstep =>
      h.step hcopies hraw hguard hstep)
    (follows_boot hempty rfl (Nat.zero_le _))
  have hsame : o.db = r.db ∧ o.batch = r.batch ∧ o.mem.openWindows = r.mem.openWindows ∧
      o.accepted = r.accepted := by
    rcases hfollows.mirrored with ⟨rfl, _⟩ | hreread
    · exact ⟨rfl, rfl, rfl, rfl⟩
    · rw [hreread.same]
      exact ⟨rfl, rfl, rfl, rfl⟩
  have hintact := hfollows.onLog.intact
  refine ⟨⟨plain, o, hplain, hsame⟩, ?_, ?_, ?_⟩
  all_goals rw [← hsame.1]
  · exact fun w key hw => hfollows.onLog.rows w hw key
  · exact fun w key hw => hintact.sound.rows.rowTotals_eq_none hw key
  · rw [← hsame.2.1]
    exact fun b hb => (hintact.sound.fits b hb).progress

/-- The messages of the other samples, and two records between them that do not decode. -/
def sampleRaw : RawLog where
  records := [⟨0, some (evt 1000000000 1 "u1")⟩, ⟨1, none⟩, ⟨2, some (evt 2000000000 2 "u2")⟩,
    ⟨5, some (evt 95000000000 3 "u1")⟩, ⟨6, none⟩]
  sorted := by decide

def sampleMessages : Log where
  entries := [⟨0, evt 1000000000 1 "u1"⟩, ⟨2, evt 2000000000 2 "u2"⟩, ⟨5, evt 95000000000 3 "u1"⟩]
  sorted := by decide
  onTime := by decide

/-- The last incarnation starts over from the first offset, although a later one is stored. -/
def sampleSchedule : List ReaderAction :=
  [.receive ⟨0, some (evt 1000000000 1 "u1")⟩ 0, .receive ⟨1, none⟩ 1,
    .receive ⟨2, some (evt 2000000000 2 "u2")⟩ 2, .receive ⟨5, some (evt 95000000000 3 "u1")⟩ 3,
    .collect, .commit, .restart 4 0 0, .receive ⟨0, some (evt 1000000000 1 "u1")⟩ 5,
    .receive ⟨1, none⟩ 6, .collect, .receive ⟨2, some (evt 2000000000 2 "u2")⟩ 7,
    .receive ⟨5, some (evt 95000000000 3 "u1")⟩ 8, .receive ⟨6, none⟩ 9]

theorem consume_loop_refines_sample :
    sampleMessages.CopiesAgree ∧ sampleMessages.EndsAfter (0 - oneDay) ∧
    sampleRaw.Decodes sampleMessages ∧ ∃ r : Reader,
      Run (step 0) (Schedule sampleRaw 0) ⟨Owner.boot Db.empty 0 false 0 0 [], 0⟩
        sampleSchedule r ∧
      r.db.Settled 0 0 ∧ ∀ key,
        r.db.rowTotals 0 0 key = cellTally (eventsIn sampleMessages.entries 0) key := by
  have hexec : (execute (step 0) (Schedule sampleRaw 0)
      ⟨Owner.boot Db.empty 0 false 0 0 [], 0⟩ sampleSchedule).map
      (fun r => r.db.loadProgress 0) = some (some ⟨5, 65000000000⟩) := by
    decide
  obtain ⟨r, hr, hpr⟩ := Option.map_eq_some_iff.mp hexec
  have hsettled : r.db.Settled 0 0 := ⟨_, hpr, by decide⟩
  have hcopies : sampleMessages.CopiesAgree := by
    unfold Log.CopiesAgree
    decide
  have hstart : sampleMessages.EndsAfter (0 - oneDay) := by
    unfold Log.EndsAfter
    decide
  have hrun := run_of_execute hr
  exact ⟨hcopies, hstart, rfl, r, hrun, hsettled, fun key =>
    (consume_loop_refines sampleMessages hcopies sampleRaw rfl 0 false 0 0 hstart sampleSchedule r
      hrun).2.1 0 key hsettled⟩

end Reader

end HushEngine
