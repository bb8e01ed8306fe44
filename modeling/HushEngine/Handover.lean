import HushEngine.ExactlyOnce
import HushEngine.Rebalance
import Mathlib.Data.Finset.Order

/-!
Hand-overs that are safe. Instances lose the partition without knowing it, go on
reading and even take batches; others read the stored progress and go on from
there. As long as only the instance that was handed the partition last commits,
and had no batch under way when it was, the group does to the tables what one
owner does that crashes at each hand-over. A batch may outlive the state it was
taken from, but not the next hand-over.
-/
namespace HushEngine

open Tally Runs

/-- There is an instant that every window of a log ends after. -/
theorem Log.exists_endsAfter (log : Log) : ∃ t, log.EndsAfter t := by
  obtain ⟨bound, hbound⟩ :=
    (log.entries.map fun m => -windowEnd m.window).toFinset.exists_le
  refine ⟨-bound - 1, fun m hm => ?_⟩
  have hle : -windowEnd m.window ≤ bound :=
    hbound _ (List.mem_toFinset.mpr (List.mem_map_of_mem hm))
  omega

/-- The instances, the one that the partition was handed to last, and the one whose state is
still the state it was handed then. -/
structure Group (ι : Type*) extends Cluster ι where
  holder : Option ι
  reader : Option ι

namespace Group

variable {ι : Type*}

def idle (ι : Type*) : Group ι := ⟨Cluster.idle ι, none, none⟩

variable [DecidableEq ι]

/-- A state that was made without the stored progress does not count as handed over. -/
def handTo (s : Group ι) : ClusterAction ι → Option ι × Option ι
  | .assign i _ _ _ => (some i, some i)
  | .assignUnread i _ _ _ | .revoke i =>
    (s.holder, if s.reader = some i then none else s.reader)
  | .deliver _ _ _ _ | .collect _ | .commit _ => (s.holder, s.reader)

def step (partition : Int) (s : Group ι) (a : ClusterAction ι) : Option (Group ι) :=
  (s.toCluster.step partition a).map fun t => ⟨t, (s.handTo a).1, (s.handTo a).2⟩

/-- Only the holder commits, what it took from the state it was handed; that state reads the log in
order. -/
def Fenced (log : Log) (partition : Int) (hllEnabled : Bool) (s : Group ι) :
    ClusterAction ι → Prop
  | .assign i enabled _ nowUtc => enabled = hllEnabled ∧ (s.instances i).inflight = none ∧
    (s.db.loadProgress partition = none → log.EndsAfter (nowUtc - oneDay))
  | .deliver i m _ _ => s.reader = some i → ∀ inc ∈ (s.instances i).state,
    log.nextAt inc.mem.nextOffset = some m
  | .collect i => s.holder = some i → s.reader = some i
  | .commit i => s.holder = some i
  | .assignUnread _ _ _ _ | .revoke _ => True

instance (log : Log) (partition : Int) (hllEnabled : Bool) (s : Group ι) (a : ClusterAction ι) :
    Decidable (Fenced log partition hllEnabled s a) :=
  match a with
  | .assign i enabled _ nowUtc => inferInstanceAs (Decidable
      (enabled = hllEnabled ∧ (s.instances i).inflight = none ∧
        (s.db.loadProgress partition = none →
          ∀ m ∈ log.entries, nowUtc - oneDay < windowEnd m.window)))
  | .deliver i m _ _ => inferInstanceAs (Decidable (s.reader = some i →
      ∀ inc ∈ (s.instances i).state, log.nextAt inc.mem.nextOffset = some m))
  | .collect i => inferInstanceAs (Decidable (s.holder = some i → s.reader = some i))
  | .commit i => inferInstanceAs (Decidable (s.holder = some i))
  | .assignUnread _ _ _ _ | .revoke _ => inferInstanceAs (Decidable True)

/-- The owner has the tables, the batch of the holder and the state of the reader. -/
structure Mirrors (hllEnabled : Bool) (s : Group ι) (o : Owner) : Prop where
  db : o.db = s.db
  enabled : o.mem.hllEnabled = hllEnabled
  holder : ∀ i, s.holder = some i → (s.instances i).inflight.map Inflight.batch = o.batch
  reader : ∀ i, s.reader = some i → s.holder = some i ∧
    ∃ inc, (s.instances i).state = some inc ∧ inc.mem = o.mem

section SetInstance

variable (s : Cluster ι) (i : ι) (x : Instance)

theorem state_setInstance : ((s.setInstance i x).instances i).state = x.state := by
  dsimp only [Cluster.setInstance]
  rw [Function.update_self]

theorem inflight_setInstance : ((s.setInstance i x).instances i).inflight = x.inflight := by
  dsimp only [Cluster.setInstance]
  rw [Function.update_self]

end SetInstance

section Steps

variable {log : Log} {partition : Int} {hllEnabled : Bool} {s t : Group ι} {o : Owner}

/-- A state that is not the reader's may change, and a batch that is not the holder's. -/
theorem Mirrors.other (h : Mirrors hllEnabled s o) {i : ι} {x : Instance} {reader : Option ι}
    (hinflight : s.holder = some i → x.inflight = (s.instances i).inflight)
    (hreader : ∀ j, reader = some j → s.reader = some j ∧ j ≠ i) :
    Mirrors hllEnabled ⟨s.toCluster.setInstance i x, s.holder, reader⟩ o where
  db := h.db
  enabled := h.enabled
  holder j hj := by
    by_cases hji : j = i
    · subst hji
      rw [inflight_setInstance, hinflight hj]
      exact h.holder j hj
    · dsimp only [Cluster.setInstance]
      rw [Function.update_of_ne hji]
      exact h.holder j hj
  reader j hj := by
    obtain ⟨hold, hne⟩ := hreader j hj
    dsimp only [Cluster.setInstance]
    rw [Function.update_of_ne hne]
    exact h.reader j hold

omit [DecidableEq ι] in
/-- What the reader does is seen. -/
theorem mirrors_of_reader {i : ι} {inc : Incarnation} (hholder : t.holder = some i)
    (hreader : ∀ j, t.reader = some j → j = i) (hstate : (t.instances i).state = some inc)
    (hdb : o.db = t.db) (henabled : o.mem.hllEnabled = hllEnabled) (hmem : inc.mem = o.mem)
    (hbatch : (t.instances i).inflight.map Inflight.batch = o.batch) :
    Mirrors hllEnabled t o where
  db := hdb
  enabled := henabled
  holder j hj := by
    obtain rfl := Option.some.inj (hholder.symm.trans hj)
    exact hbatch
  reader j hj := by
    obtain rfl := hreader j hj
    exact ⟨hholder, inc, hstate, hmem⟩

theorem Mirrors.assign (h : Mirrors hllEnabled s o) {i : ι}
    (hinflight : (s.instances i).inflight = none) (now : Nat) (nowUtc : Int) :
    Mirrors hllEnabled
      ⟨s.toCluster.setInstance i { s.instances i with
        state := some ⟨PartitionState.postRebalance s.db partition hllEnabled now nowUtc,
          s.db.loadProgress partition⟩ }, some i, some i⟩
      (Owner.boot o.db partition o.mem.hllEnabled now nowUtc (o.accepted ++ o.earlier)) := by
  rw [h.db, h.enabled]
  refine mirrors_of_reader rfl (fun j hj => (Option.some.inj hj).symm) (state_setInstance ..) rfl
    (PartitionState.postRebalance_hllEnabled ..) rfl ?_
  rw [inflight_setInstance, hinflight]
  rfl

omit [DecidableEq ι] in
/-- No other instance is the reader. -/
theorem reader_unique {i : ι} (hi : s.reader = some i) (j : ι) (hj : s.reader = some j) :
    j = i :=
  Option.some.inj (hj.symm.trans hi)

theorem Mirrors.deliver (h : Mirrors hllEnabled s o) {i : ι} (hi : s.reader = some i)
    {inc : Incarnation} (hinc : (s.instances i).state = some inc) (m : Message) (now : Nat) :
    Mirrors hllEnabled
      ⟨s.toCluster.setInstance i { s.instances i with state := some (inc.consume m now) },
        s.holder, s.reader⟩
      { o with toWorker := o.toWorker.consume m now } := by
  obtain ⟨hholder, inc', hinc', hmem⟩ := h.reader i hi
  obtain rfl := Option.some.inj (hinc.symm.trans hinc')
  refine mirrors_of_reader hholder (reader_unique hi) (state_setInstance ..) h.db ?_ ?_ ?_
  · exact (o.mem.processEvent_hllEnabled ..).trans h.enabled
  · dsimp only [Incarnation.consume, Worker.consume]
    rw [hmem]
  · rw [inflight_setInstance]
    exact h.holder i hholder

theorem Mirrors.collect (h : Mirrors hllEnabled s o) {i : ι} (hi : s.reader = some i)
    {inc : Incarnation} (hinc : (s.instances i).state = some inc) :
    Mirrors hllEnabled
      ⟨s.toCluster.setInstance i ⟨some inc.collect, inc.inflight⟩, s.holder, s.reader⟩
      { o with mem := o.mem.collectBatch.1, batch := o.mem.collectBatch.2 } := by
  obtain ⟨hholder, inc', hinc', hmem⟩ := h.reader i hi
  obtain rfl := Option.some.inj (hinc.symm.trans hinc')
  refine mirrors_of_reader hholder (reader_unique hi) (state_setInstance ..) h.db ?_ ?_ ?_
  · dsimp only
    rw [PartitionState.collectBatch_fst]
    exact h.enabled
  · dsimp only [Incarnation.collect]
    rw [hmem]
  · rw [inflight_setInstance]
    dsimp only [Incarnation.inflight]
    rw [hmem, Option.map_map]
    exact Option.map_id' ..

/-- The holder may have lost its state by the time its batch is written. -/
theorem Mirrors.commit (h : Mirrors hllEnabled s o) {i : ι} (hi : s.holder = some i)
    {f : Inflight} (hf : (s.instances i).inflight = some f) :
    o.batch = some f.batch ∧
    Mirrors hllEnabled
      ⟨{ s.toCluster.setInstance i { s.instances i with inflight := none } with
        db := f.batch.flush s.db partition
        commits := f.batch :: s.commits }, s.holder, s.reader⟩
      { o with db := f.batch.flush o.db partition, batch := none } := by
  have hbatch := h.holder i hi
  rw [hf, Option.map_some] at hbatch
  refine ⟨hbatch.symm, by rw [h.db], h.enabled, fun j hj => ?_, fun j hj => ?_⟩
  · obtain rfl := Option.some.inj (hi.symm.trans hj)
    exact congrArg _ (inflight_setInstance ..)
  · obtain ⟨hholder, inc, hinc, hmem⟩ := h.reader j hj
    obtain rfl := Option.some.inj (hi.symm.trans hholder)
    exact ⟨hi, inc, (state_setInstance ..).trans hinc, hmem⟩

/-- Each step of the group is a step of the owner, or none. -/
theorem Mirrors.step (h : Mirrors hllEnabled s o) {a : ClusterAction ι}
    (hguard : Fenced log partition hllEnabled s a) (hstep : Group.step partition s a = some t) :
    Mirrors hllEnabled t o ∨ ∃ b o', log.Schedule partition o b ∧
      Owner.step partition o b = some o' ∧ Mirrors hllEnabled t o' := by
  obtain ⟨c, hc, rfl⟩ := Option.map_eq_some_iff.mp hstep
  have hdropped : ∀ i j, (if s.reader = some i then none else s.reader) = some j →
      s.reader = some j ∧ j ≠ i := by
    intro i j hj
    split_ifs at hj with hi
    exact ⟨hj, fun hji => hi (hji ▸ hj)⟩
  have hkept : ∀ i, s.reader ≠ some i → ∀ j, s.reader = some j → s.reader = some j ∧ j ≠ i :=
    fun i hi j hj => ⟨hj, fun hji => hi (hji ▸ hj)⟩
  cases a with
  | assign i enabled now nowUtc =>
    cases hc
    obtain ⟨rfl, hinflight, hstart⟩ := hguard
    refine Or.inr ⟨.crash now nowUtc, _, ?_, rfl, h.assign hinflight now nowUtc⟩
    rw [← h.db] at hstart
    exact hstart
  | assignUnread i enabled now nowUtc =>
    cases hc
    exact Or.inl (h.other (fun _ => rfl) (hdropped i))
  | revoke i =>
    cases hc
    exact Or.inl (h.other (fun _ => rfl) (hdropped i))
  | deliver i m enabled now =>
    simp only [Cluster.step] at hc
    by_cases hi : s.reader = some i
    · obtain ⟨_, inc, hinc, hmem⟩ := h.reader i hi
      rw [hinc] at hc
      dsimp only at hc
      split_ifs at hc with hoffset
      cases hc
      rw [hmem] at hoffset
      refine Or.inr ⟨.deliver m now, _, ?_, if_pos hoffset, h.deliver hi hinc m now⟩
      have hnext := hguard hi inc hinc
      rwa [hmem] at hnext
    · split at hc
      · split_ifs at hc
        cases hc
        exact Or.inl (h.other (fun _ => rfl) (hkept i hi))
      · cases hc
        exact Or.inl (h.other (fun _ => rfl) (hkept i hi))
  | collect i =>
    simp only [Cluster.step] at hc
    split at hc
    · next inc hinc hnone =>
      cases hc
      by_cases hi : s.reader = some i
      · refine Or.inr ⟨.collect, _, trivial, ?_, h.collect hi hinc⟩
        have hbatch := h.holder i (h.reader i hi).1
        rw [hnone, Option.map_none] at hbatch
        exact if_pos hbatch.symm
      · exact Or.inl (h.other (fun hholder => absurd (hguard hholder) hi) (hkept i hi))
    · cases hc
  | commit i =>
    obtain ⟨f, hf, rfl⟩ := Option.map_eq_some_iff.mp hc
    obtain ⟨hbatch, hnext⟩ := h.commit hguard hf
    refine Or.inr ⟨.commit, _, trivial, ?_, hnext⟩
    simp only [Owner.step, hbatch, Option.map_some]

end Steps

/-- Instances that only commit as the holder do to the tables what one owner of the log does, so
their rows are the tallies of the log. -/
theorem handover_refines (log : Log) (hcopies : log.CopiesAgree) (partition : Int)
    (hllEnabled : Bool) (actions : List (ClusterAction ι)) (s : Group ι)
    (hrun : Run (step partition) (Fenced log partition hllEnabled) (idle ι) actions s) :
    (∃ nowUtc plain o, log.EndsAfter (nowUtc - oneDay) ∧
      Run (Owner.step partition) (log.Schedule partition)
        (Owner.boot Db.empty partition hllEnabled 0 nowUtc []) plain o ∧
      Mirrors hllEnabled s o) ∧
    (∀ w key, s.db.Settled partition w →
      s.db.rowTotals partition w key = cellTally (eventsIn log.entries w) key) ∧
    (∀ w key, ¬ s.db.Settled partition w → s.db.rowTotals partition w key = none) := by
  obtain ⟨t, ht⟩ := log.exists_endsAfter
  have hstart : log.EndsAfter (t + oneDay - oneDay) := by rwa [add_sub_cancel_right]
  have hidle : Mirrors hllEnabled (idle ι)
      (Owner.boot Db.empty partition hllEnabled 0 (t + oneDay) []) :=
    ⟨rfl, PartitionState.postRebalance_hllEnabled .., fun i hi => (by cases hi),
      fun i hi => (by cases hi)⟩
  obtain ⟨plain, o, hplain, hmirrors⟩ :=
    hrun.simulate (fun s a t o (h : Mirrors hllEnabled s o) hguard hstep => h.step hguard hstep)
      hidle
  have honLog : Owner.OnLog log partition o :=
    hplain.invariant (fun _ _ _ ho => ho.step hcopies)
      (Owner.onLog_boot_empty hstart partition hllEnabled 0)
  refine ⟨⟨_, plain, o, hstart, hplain, hmirrors⟩, ?_, ?_⟩ <;> rw [← hmirrors.db]
  · exact fun w key hw => honLog.rows w hw key
  · exact fun w key hw => honLog.intact.sound.rows.rowTotals_eq_none hw key

/-- The instance that lost the partition goes on reading and takes a batch of its own, which stays
uncommitted; the other replays the log and commits when it is no longer assigned, and then gets the
partition back. -/
def sampleHandover : List (ClusterAction Bool) :=
  [.assign true false 0 0, .deliver true ⟨0, evt 1000000000 1 "u1"⟩ false 1,
    .deliver true ⟨1, evt 2000000000 2 "u2"⟩ false 2, .assign false false 3 0,
    .deliver false ⟨0, evt 1000000000 1 "u1"⟩ false 4,
    .deliver true ⟨7, evt 95000000000 9 "u9"⟩ false 5, .collect true,
    .deliver false ⟨1, evt 2000000000 2 "u2"⟩ false 6,
    .deliver false ⟨2, evt 1000000000 1 "u1"⟩ false 7,
    .deliver false ⟨3, evt 95000000000 3 "u1"⟩ false 8, .collect false, .revoke false,
    .deliver false ⟨9, evt 99000000000 8 "u8"⟩ false 9, .commit false,
    .assign false false 10 0, .deliver false ⟨3, evt 95000000000 3 "u1"⟩ false 11]

theorem handover_refines_sample :
    Owner.sampleLog.CopiesAgree ∧ ∃ s : Group Bool,
      Run (step 0) (Fenced Owner.sampleLog 0 false) (idle Bool) sampleHandover s ∧
      s.db.Settled 0 0 ∧ ∀ key,
        s.db.rowTotals 0 0 key = cellTally (eventsIn Owner.sampleLog.entries 0) key := by
  have hexec : (execute (step 0) (Fenced Owner.sampleLog 0 false) (idle Bool)
      sampleHandover).map (fun s => s.db.loadProgress 0) = some (some ⟨3, 65000000000⟩) := by
    decide
  obtain ⟨s, hs, hpr⟩ := Option.map_eq_some_iff.mp hexec
  have hsettled : s.db.Settled 0 0 := ⟨_, hpr, by decide⟩
  have hcopies : Owner.sampleLog.CopiesAgree := by
    unfold Log.CopiesAgree
    decide
  have hrun := run_of_execute hs
  exact ⟨hcopies, s, hrun, hsettled, fun key =>
    (handover_refines Owner.sampleLog hcopies 0 false sampleHandover s hrun).2.1 0 key hsettled⟩

end Group

end HushEngine
