import HushEngine.FlushedRows
import Mathlib.Logic.Function.Basic

/-!
Instances that hand one partition to each other. A batch outlives the state it
was taken from, and a state may be created without looking at the tables, so a
write can land on progress it knows nothing about. Each state and each batch
carries, as history, the progress row it builds on; as long as every commit
finds that very row, the durable state only moves forward.
-/
namespace HushEngine

open Keyed Runs

namespace PartitionState

/-- The state `post_rebalance` inserts when the progress could not be read. -/
def postRebalanceUnread (partition : Int) (hllEnabled : Bool) (now : Nat) (nowUtc : Int) :
    PartitionState :=
  (resumeFrom partition 0 (nowUtc - oneDay) now).withHllEnabled hllEnabled

/-- The state the consume loop inserts for a message of a partition that has none. -/
def ofMessage (partition : Int) (m : Message) (hllEnabled : Bool) (now : Nat) : PartitionState :=
  (resumeFrom partition m.offset (m.event.ts - oneDay) now).withHllEnabled hllEnabled

end PartitionState

/-- An entry of `states`, with the progress row it was loaded from or has since written. -/
structure Incarnation where
  mem : PartitionState
  base : Option PartitionProgress
deriving DecidableEq

/-- A batch between the lock and its commit, with the progress row it builds on. -/
structure Inflight where
  batch : Batch
  base : Option PartitionProgress
deriving DecidableEq

structure Instance where
  state : Option Incarnation
  inflight : Option Inflight
deriving DecidableEq

/-- `commits` is history: the batches written, latest first. -/
structure Cluster (ι : Type*) where
  instances : ι → Instance
  db : Db
  commits : List Batch

inductive ClusterAction (ι : Type*)
  | assign (i : ι) (hllEnabled : Bool) (now : Nat) (nowUtc : Int)
  | assignUnread (i : ι) (hllEnabled : Bool) (now : Nat) (nowUtc : Int)
  | revoke (i : ι)
  | deliver (i : ι) (m : Message) (hllEnabled : Bool) (now : Nat)
  | collect (i : ι)
  | commit (i : ι)

/-- The window whose cell a batch writes to the row of a key. -/
def Batch.writerOf (b : Batch) (k : AggKey) : Option Window :=
  b.closed.findSome? fun c =>
    if c.1 = k.windowStart ∧ (c.2.cells.lookup k.cell).isSome then some c.2 else none

/-- The window whose cell the row of a key was last written from. -/
def lastWriter (commits : List Batch) (k : AggKey) : Option Window :=
  commits.findSome? fun b => b.writerOf k

/-- The ids folded into the window that the row of a key stands for. -/
def countedIds (commits : List Batch) (k : AggKey) : Finset Uuid :=
  (lastWriter commits k).elim ∅ Window.seenIds

section LastWriter

variable {b : Batch} {k : AggKey} {win : Window}

theorem Batch.mem_of_writerOf (h : b.writerOf k = some win) :
    (k.windowStart, win) ∈ b.closed ∧ (win.cells.lookup k.cell).isSome := by
  obtain ⟨c, hc, hif⟩ := List.exists_of_findSome?_eq_some h
  split_ifs at hif with hcond
  obtain ⟨w, win'⟩ := c
  cases hif
  obtain ⟨rfl, hsome⟩ := hcond
  exact ⟨hc, hsome⟩

theorem Batch.no_cell_of_writerOf (h : b.writerOf k = none)
    (hmem : (k.windowStart, win) ∈ b.closed) :
    win.cells.lookup k.cell = none := by
  have hif := List.findSome?_eq_none_iff.mp h _ hmem
  simpa using hif

theorem isSome_cell_of_lastWriter {commits : List Batch} (h : lastWriter commits k = some win) :
    (win.cells.lookup k.cell).isSome := by
  obtain ⟨b, _, hb⟩ := List.exists_of_findSome?_eq_some h
  exact (b.mem_of_writerOf hb).2

theorem lastWriter_cons (b : Batch) (commits : List Batch) (k : AggKey) :
    lastWriter (b :: commits) k = (b.writerOf k).or (lastWriter commits k) := by
  unfold lastWriter
  rw [List.findSome?_cons]
  cases b.writerOf k <;> rfl

/-- A flush replaces exactly the rows its windows have a cell for. -/
theorem Batch.lookup_flush (hnodup : (b.closed.map Prod.fst).Nodup) (db : Db) :
    (b.flush db k.kpartition).aggCells.lookup k = match b.writerOf k with
      | some win => (win.cells.lookup k.cell).map CellAgg.toRow
      | none => db.aggCells.lookup k := by
  cases hwriter : b.writerOf k with
  | some win =>
    obtain ⟨hmem, hsome⟩ := b.mem_of_writerOf hwriter
    obtain ⟨agg, hagg⟩ := Option.isSome_iff_exists.mp hsome
    dsimp only
    rw [hagg]
    exact Db.flushWindows_lookup _ _ _ _ _ hnodup k _ win agg rfl hmem hagg rfl
  | none =>
    exact Db.flushWindows_lookup_of_no_cell _ _ _ _ _ k fun win hmem =>
      Batch.no_cell_of_writerOf hwriter hmem

end LastWriter

namespace Incarnation

def consume (inc : Incarnation) (m : Message) (now : Nat) : Incarnation :=
  { inc with mem := (inc.mem.processEvent m.event m.offset now).1 }

/-- After the batch the state builds on what the batch writes. -/
def collect (inc : Incarnation) : Incarnation where
  mem := inc.mem.collectBatch.1
  base := match inc.mem.collectBatch.2 with
    | some b => some ⟨b.committedOffset, b.flushedWatermark⟩
    | none => inc.base

def inflight (inc : Incarnation) : Option Inflight :=
  inc.mem.collectBatch.2.map fun b => ⟨b, inc.base⟩

structure Steady (inc : Incarnation) : Prop where
  mem : inc.mem.WellFormed
  ahead : inc.mem.Ahead inc.base

theorem steady_fresh (ps : PartitionState) (h : ps.openWindows = ∅) : Steady ⟨ps, none⟩ where
  mem := PartitionState.wellFormed_of_no_windows ps h
  ahead pr hpr := by cases hpr

theorem Steady.consume {inc : Incarnation} (h : inc.Steady) (m : Message) (now : Nat)
    (hoffset : inc.mem.nextOffset ≤ m.offset) : (inc.consume m now).Steady where
  mem := h.mem.processEvent m.event m.offset now hoffset
  ahead := h.ahead.processEvent h.mem m.event m.offset now hoffset

theorem Steady.collect {inc : Incarnation} (h : inc.Steady) : inc.collect.Steady := by
  constructor
  · unfold Incarnation.collect
    dsimp only
    rw [PartitionState.collectBatch_fst]
    exact h.mem.takeClosedWindows
  · unfold Incarnation.collect
    dsimp only
    split
    · next b hb => exact (PartitionState.takenFrom_collectBatch hb).ahead
    · rw [PartitionState.collectBatch_fst]
      exact h.ahead.takeClosedWindows h.mem

theorem Steady.fits_inflight {inc : Incarnation} (h : inc.Steady) {f : Inflight}
    (hf : inc.inflight = some f) : f.batch.Fits f.base := by
  obtain ⟨b, hb, rfl⟩ := Option.map_eq_some_iff.mp hf
  exact h.mem.fits_collectBatch h.ahead hb

end Incarnation

namespace Cluster

variable {ι : Type*}

def idle (ι : Type*) : Cluster ι := ⟨fun _ => ⟨none, none⟩, Db.empty, []⟩

/-- What an instance can rely on: its state is ahead of, and its batch fits, what it builds on. -/
structure InstanceSteady (x : Instance) : Prop where
  state : ∀ inc, x.state = some inc → inc.Steady
  inflight : ∀ f, x.inflight = some f → f.batch.Fits f.base

/-- The instances are steady and the rows are the cells of their last writers. -/
structure Sound (partition : Int) (s : Cluster ι) : Prop where
  instances : ∀ i, InstanceSteady (s.instances i)
  rows : s.db.RowsCovered partition
  written : ∀ k, k.kpartition = partition → s.db.aggCells.lookup k =
    (lastWriter s.commits k).bind fun win => (win.cells.lookup k.cell).map CellAgg.toRow

theorem sound_idle (partition : Int) : Sound partition (idle ι) where
  instances i := ⟨fun inc hinc => (by cases hinc), fun f hf => (by cases hf)⟩
  rows := Db.rowsCovered_empty partition
  written k _ := rfl

/-- Progress does not decrease, rows stay as they are, and counted ids stay counted. -/
structure Forward (partition : Int) (u v : Cluster ι) : Prop where
  progress : ∀ pr, u.db.loadProgress partition = some pr →
    ∃ pr', v.db.loadProgress partition = some pr' ∧
      pr.committedOffset ≤ pr'.committedOffset ∧ pr.flushedWatermark ≤ pr'.flushedWatermark
  rows : ∀ k row, k.kpartition = partition → u.db.aggCells.lookup k = some row →
    v.db.aggCells.lookup k = some row
  counted : ∀ k, k.kpartition = partition →
    ∀ id ∈ countedIds u.commits k, id ∈ countedIds v.commits k

theorem Forward.of_tables_eq {partition : Int} {u v : Cluster ι} (hdb : v.db = u.db)
    (hcommits : v.commits = u.commits) : Forward partition u v where
  progress pr hpr := ⟨pr, by rw [hdb]; exact hpr, le_rfl, le_rfl⟩
  rows k row _ hrow := by rwa [hdb]
  counted k _ id hid := by rwa [hcommits]

theorem Forward.trans {partition : Int} {u v x : Cluster ι} (h : Forward partition u v)
    (h' : Forward partition v x) : Forward partition u x where
  progress pr hpr := by
    obtain ⟨pr', hpr', hoff, hwm⟩ := h.progress pr hpr
    obtain ⟨pr'', hpr'', hoff', hwm'⟩ := h'.progress pr' hpr'
    exact ⟨pr'', hpr'', hoff.trans hoff', hwm.trans hwm'⟩
  rows k row hk hrow := h'.rows k row hk (h.rows k row hk hrow)
  counted k hk id hid := h'.counted k hk id (h.counted k hk id hid)

/-- A counted row is a row of a window the stored watermark has passed. -/
theorem Sound.settled_of_counted {partition : Int} {s : Cluster ι} (h : Sound partition s)
    {k : AggKey} (hk : k.kpartition = partition) {id : Uuid}
    (hid : id ∈ countedIds s.commits k) : s.db.Settled partition k.windowStart := by
  unfold countedIds at hid
  cases hwriter : lastWriter s.commits k with
  | none => simp [hwriter] at hid
  | some win =>
    obtain ⟨agg, hagg⟩ := Option.isSome_iff_exists.mp (isSome_cell_of_lastWriter hwriter)
    have hrow := h.written k hk
    rw [hwriter, Option.bind_some, hagg] at hrow
    exact h.rows k _ hk hrow

variable [DecidableEq ι]

def setInstance (s : Cluster ι) (i : ι) (x : Instance) : Cluster ι :=
  { s with instances := Function.update s.instances i x }

def step (partition : Int) (s : Cluster ι) : ClusterAction ι → Option (Cluster ι)
  | .assign i hllEnabled now nowUtc =>
    some (s.setInstance i { s.instances i with
      state := some ⟨PartitionState.postRebalance s.db partition hllEnabled now nowUtc,
        s.db.loadProgress partition⟩ })
  | .assignUnread i hllEnabled now nowUtc =>
    some (s.setInstance i { s.instances i with
      state := some ⟨PartitionState.postRebalanceUnread partition hllEnabled now nowUtc, none⟩ })
  | .revoke i => some (s.setInstance i { s.instances i with state := none })
  | .deliver i m hllEnabled now =>
    match (s.instances i).state with
    | some inc =>
      if inc.mem.nextOffset ≤ m.offset then
        some (s.setInstance i { s.instances i with state := some (inc.consume m now) })
      else none
    | none =>
      let inc : Incarnation := ⟨PartitionState.ofMessage partition m hllEnabled now, none⟩
      some (s.setInstance i { s.instances i with state := some (inc.consume m now) })
  | .collect i =>
    match (s.instances i).state, (s.instances i).inflight with
    | some inc, none => some (s.setInstance i ⟨some inc.collect, inc.inflight⟩)
    | _, _ => none
  | .commit i =>
    (s.instances i).inflight.map fun f =>
      { s.setInstance i { s.instances i with inflight := none } with
        db := f.batch.flush s.db partition
        commits := f.batch :: s.commits }

/-- Every commit finds the progress row its batch builds on. -/
def InOrder (partition : Int) (s : Cluster ι) : ClusterAction ι → Prop
  | .commit i => ∀ f ∈ (s.instances i).inflight, f.base = s.db.loadProgress partition
  | _ => True

instance (partition : Int) (s : Cluster ι) (a : ClusterAction ι) :
    Decidable (InOrder partition s a) :=
  match a with
  | .commit i => inferInstanceAs (Decidable
      (∀ f ∈ (s.instances i).inflight, f.base = s.db.loadProgress partition))
  | .assign _ _ _ _ | .assignUnread _ _ _ _ | .revoke _ | .deliver _ _ _ _ | .collect _ =>
    inferInstanceAs (Decidable True)

/-- A step changes one instance, and the tables only by committing that instance's batch. -/
theorem step_cases {partition : Int} {s t : Cluster ι} {a : ClusterAction ι}
    (h : step partition s a = some t) :
    ∃ i x, t.instances = Function.update s.instances i x ∧
      (InstanceSteady (s.instances i) →
        (∀ hllEnabled now nowUtc, Incarnation.Steady
          ⟨PartitionState.postRebalance s.db partition hllEnabled now nowUtc,
            s.db.loadProgress partition⟩) → InstanceSteady x) ∧
      (t.db = s.db ∧ t.commits = s.commits ∨
        ∃ f, a = .commit i ∧ (s.instances i).inflight = some f ∧
          t.db = f.batch.flush s.db partition ∧ t.commits = f.batch :: s.commits) := by
  cases a with
  | assign i hllEnabled now nowUtc =>
    cases h
    refine ⟨i, _, rfl, fun hs hboot => ⟨?_, hs.inflight⟩, Or.inl ⟨rfl, rfl⟩⟩
    intro inc hinc
    cases hinc
    exact hboot hllEnabled now nowUtc
  | assignUnread i hllEnabled now nowUtc =>
    cases h
    refine ⟨i, _, rfl, fun hs _ => ⟨?_, hs.inflight⟩, Or.inl ⟨rfl, rfl⟩⟩
    intro inc hinc
    cases hinc
    exact Incarnation.steady_fresh _ rfl
  | revoke i =>
    cases h
    refine ⟨i, _, rfl, fun hs _ => ⟨?_, hs.inflight⟩, Or.inl ⟨rfl, rfl⟩⟩
    intro inc hinc
    cases hinc
  | deliver i m hllEnabled now =>
    simp only [step] at h
    split at h
    · next inc hstate =>
      split_ifs at h with hoffset
      cases h
      refine ⟨i, _, rfl, fun hs _ => ⟨?_, hs.inflight⟩, Or.inl ⟨rfl, rfl⟩⟩
      intro inc' hinc
      cases hinc
      exact (hs.state inc hstate).consume m now hoffset
    · cases h
      refine ⟨i, _, rfl, fun hs _ => ⟨?_, hs.inflight⟩, Or.inl ⟨rfl, rfl⟩⟩
      intro inc hinc
      cases hinc
      exact (Incarnation.steady_fresh (PartitionState.ofMessage partition m hllEnabled now)
        rfl).consume m now le_rfl
  | collect i =>
    simp only [step] at h
    split at h
    · next inc hstate _ =>
      cases h
      refine ⟨i, _, rfl, fun hs _ => ⟨?_, ?_⟩, Or.inl ⟨rfl, rfl⟩⟩
      · intro inc' hinc
        cases hinc
        exact (hs.state inc hstate).collect
      · exact fun f hf => (hs.state inc hstate).fits_inflight hf
    · cases h
  | commit i =>
    obtain ⟨f, hf, rfl⟩ := Option.map_eq_some_iff.mp h
    refine ⟨i, _, rfl, fun hs _ => ⟨hs.state, ?_⟩, Or.inr ⟨f, rfl, hf, rfl, rfl⟩⟩
    intro f' hf'
    cases hf'

theorem Sound.step {partition : Int} {s t : Cluster ι} {a : ClusterAction ι}
    (h : Sound partition s) (hguard : InOrder partition s a)
    (hstep : Cluster.step partition s a = some t) : Sound partition t := by
  obtain ⟨i, x, hinstances, hsteady, htables⟩ := step_cases hstep
  have hboot := fun hllEnabled now nowUtc =>
    (⟨PartitionState.wellFormed_postRebalance s.db partition hllEnabled now nowUtc,
      PartitionState.ahead_postRebalance s.db partition hllEnabled now nowUtc⟩ :
      Incarnation.Steady ⟨_, s.db.loadProgress partition⟩)
  constructor
  case instances =>
    intro j
    rw [hinstances]
    by_cases hj : j = i
    · subst hj
      rw [Function.update_self]
      exact hsteady (h.instances j) hboot
    · rw [Function.update_of_ne hj]
      exact h.instances j
  case rows =>
    rcases htables with ⟨hdb, _⟩ | ⟨f, rfl, hf, hdb, _⟩ <;> rw [hdb]
    · exact h.rows
    · have hfits := (h.instances i).inflight f hf
      rw [hguard f hf] at hfits
      exact hfits.rowsCovered_flush h.rows
  case written =>
    rintro k rfl
    rcases htables with ⟨hdb, hcommits⟩ | ⟨f, rfl, hf, hdb, hcommits⟩ <;> rw [hdb, hcommits]
    · exact h.written k rfl
    · rw [Batch.lookup_flush ((h.instances i).inflight f hf).nodup, lastWriter_cons]
      cases f.batch.writerOf k with
      | some win => rfl
      | none => exact h.written k rfl

theorem Sound.forward {partition : Int} {s t : Cluster ι} {a : ClusterAction ι}
    (h : Sound partition s) (hguard : InOrder partition s a)
    (hstep : Cluster.step partition s a = some t) : Forward partition s t := by
  obtain ⟨i, x, _, _, htables⟩ := step_cases hstep
  rcases htables with ⟨hdb, hcommits⟩ | ⟨f, rfl, hf, hdb, hcommits⟩
  · exact .of_tables_eq hdb hcommits
  · have hfits := (h.instances i).inflight f hf
    rw [hguard f hf] at hfits
    constructor
    case progress =>
      intro pr hpr
      rw [hdb]
      obtain ⟨hoff, hwm⟩ := hfits.progress pr hpr
      exact ⟨_, f.batch.flush_loadProgress s.db partition, hoff, hwm⟩
    case rows =>
      intro k row hk hrow
      rw [hdb, hfits.flush_lookup k fun hp => h.rows k row hp hrow]
      exact hrow
    case counted =>
      intro k hk id hid
      have hsettled := h.settled_of_counted hk hid
      have hnone : f.batch.writerOf k = none := by
        by_contra hne
        obtain ⟨win, hwin⟩ := Option.ne_none_iff_exists'.mp hne
        exact hfits.not_settled (Batch.mem_of_writerOf hwin).1 hsettled
      unfold countedIds at hid ⊢
      rw [hcommits, lastWriter_cons, hnone]
      exact hid

/-- The durable state only moves forward as long as every commit finds the progress row that its
batch builds on. -/
theorem rebalance_safe (partition : Int) (before after : List (ClusterAction ι))
    (u v : Cluster ι) (hbefore : Run (step partition) (InOrder partition) (idle ι) before u)
    (hafter : Run (step partition) (InOrder partition) u after v) : Forward partition u v := by
  have hsound : Sound partition u :=
    hbefore.invariant (fun _ _ _ hx hg hy => hx.step hg hy) (sound_idle partition)
  exact hafter.related (fun _ => .of_tables_eq rfl rfl) (fun _ _ _ h h' => h.trans h')
    (fun _ _ _ hx hg hy => Sound.step hx hg hy) (fun _ _ _ hx hg hy => Sound.forward hx hg hy)
    hsound

/-- One instance takes a batch and loses the partition; the other replays the log, counts an
event that came too late for that batch, and commits. -/
def takeover : List (ClusterAction Bool) :=
  [.assign true false 0 0, .deliver true ⟨0, evt 1000000000 1 "u1"⟩ false 0,
    .deliver true ⟨1, evt 95000000000 2 "u2"⟩ false 1, .collect true, .revoke true,
    .assign false false 2 0, .deliver false ⟨0, evt 1000000000 1 "u1"⟩ false 2,
    .deliver false ⟨1, evt 95000000000 2 "u2"⟩ false 3,
    .deliver false ⟨2, evt 2000000000 3 "u3"⟩ false 4,
    .deliver false ⟨3, evt 155000000000 4 "u4"⟩ false 5, .collect false, .commit false]

/-- The commit of the first instance's batch then takes progress and rows back. -/
theorem stale_commit_backward :
    ∃ u v : Cluster Bool, Run (step 0) free (idle Bool) takeover u ∧
      Run (step 0) free u [.commit true] v ∧
      u.db.loadProgress 0 = some ⟨3, 125000000000⟩ ∧
      v.db.loadProgress 0 = some ⟨1, 65000000000⟩ ∧
      (evt 2000000000 3 "u3").eventId ∈ countedIds u.commits ⟨0, CellKey.global, 0⟩ ∧
      (evt 2000000000 3 "u3").eventId ∉ countedIds v.commits ⟨0, CellKey.global, 0⟩ ∧
      u.db.aggCells.lookup ⟨0, CellKey.global, 0⟩ = some ⟨2, 2, none⟩ ∧
      v.db.aggCells.lookup ⟨0, CellKey.global, 0⟩ = some ⟨1, 1, none⟩ :=
  ⟨_, _, run_of_execute rfl, run_of_execute rfl, by decide, by decide, by decide, by decide,
    by decide, by decide⟩

/-- Without the stale commit the takeover is safe, here from its last replayed message on. -/
theorem rebalance_safe_takeover :
    ∃ u v : Cluster Bool, Run (step 0) (InOrder 0) (idle Bool) takeover u ∧
      Run (step 0) (InOrder 0) u
        [.deliver false ⟨4, evt 215000000000 5 "u5"⟩ false 6, .collect false, .commit false] v ∧
      Forward 0 u v := by
  have hexec : ∃ u v : Cluster Bool,
      execute (step 0) (InOrder 0) (idle Bool) takeover = some u ∧
      execute (step 0) (InOrder 0) u
        [.deliver false ⟨4, evt 215000000000 5 "u5"⟩ false 6, .collect false, .commit false] =
          some v :=
    ⟨_, _, rfl, rfl⟩
  obtain ⟨u, v, hu, hv⟩ := hexec
  exact ⟨u, v, run_of_execute hu, run_of_execute hv,
    rebalance_safe 0 _ _ u v (run_of_execute hu) (run_of_execute hv)⟩

end Cluster

end HushEngine
