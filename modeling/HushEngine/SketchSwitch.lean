import HushEngine.Estimators
import HushEngine.Fleet

/-!
What `hll_enabled` cannot change. Erasing the sketches from memory, batches and
rows commutes with every step of a fleet, so the switch decides nothing about
which windows close, what is committed or where an owner resumes. Fleets that
differ in the switch alone agree on everything but the `users_hll` column.
-/
namespace HushEngine

open Keyed Runs Fallible Grouping

def CellAgg.withoutSketch (agg : CellAgg) : CellAgg := { agg with hll := none }

def Window.withoutSketches (win : Window) : Window :=
  { win with cells := mapValues (fun _ => CellAgg.withoutSketch) win.cells }

def PartitionState.withoutSketches (ps : PartitionState) : PartitionState :=
  { ps with
    openWindows := mapValues (fun _ => Window.withoutSketches) ps.openWindows
    hllEnabled := false }

def closedWithoutSketches (closed : List (Int × Window)) : List (Int × Window) :=
  closed.map fun c => (c.1, c.2.withoutSketches)

def Batch.withoutSketches (b : Batch) : Batch :=
  { b with closed := closedWithoutSketches b.closed }

def Worker.withoutSketches (w : Worker) : Worker :=
  { w with mem := w.mem.withoutSketches, batch := w.batch.map Batch.withoutSketches }

/-- The tables of an aggregator that writes no sketches. -/
def Db.withoutSketches (db : Db) : Db := db.withSketches fun _ => none

def Owner.withoutSketches (o : Owner) : Owner :=
  ⟨o.toWorker.withoutSketches, o.db.withoutSketches⟩

def Fleet.withoutSketches (s : Fleet) : Fleet :=
  ⟨mapValues (fun _ => Worker.withoutSketches) s.owners, s.db.withoutSketches⟩

def FleetAction.withoutSketches : FleetAction → FleetAction
  | .start p _ now nowUtc => .start p false now nowUtc
  | .act p a => .act p a

namespace Window

theorem fold_withoutSketches (win : Window) (e : Event) (offset : Nat) (hllEnabled : Bool) :
    win.withoutSketches.fold e offset false =
      (win.fold e offset hllEnabled).withoutSketches := by
  have hmake : ∀ agg : Option CellAgg,
      ((agg.getD CellAgg.empty).add e.user hllEnabled).withoutSketch =
        ((agg.map CellAgg.withoutSketch).getD CellAgg.empty).add e.user false := by
    intro agg
    cases agg <;> rfl
  have hcells : mapValues (fun _ => CellAgg.withoutSketch) (win.fold e offset hllEnabled).cells =
      (win.withoutSketches.fold e offset false).cells :=
    mapValues_modifyAll CellAgg.withoutSketch
      (fun agg => (agg.getD CellAgg.empty).add e.user false) hmake win.cells _
  exact congrArg (fun cells => (⟨min win.minOffset offset, insert e.eventId win.seenIds, cells⟩ :
    Window)) hcells.symm

end Window

namespace PartitionState

variable (ps : PartitionState)

theorem lookup_withoutSketches (w : Int) :
    ps.withoutSketches.openWindows.lookup w =
      (ps.openWindows.lookup w).map Window.withoutSketches :=
  lookup_mapValues (fun _ => Window.withoutSketches) ps.openWindows w

theorem windowFor_withoutSketches (w : Int) (offset : Nat) :
    ps.withoutSketches.windowFor w offset = (ps.windowFor w offset).withoutSketches := by
  unfold windowFor
  rw [lookup_withoutSketches]
  cases ps.openWindows.lookup w <;> rfl

/-- Lateness and duplicates are decided without the sketches. -/
theorem processEvent_withoutSketches (e : Event) (offset now : Nat) :
    ps.withoutSketches.processEvent e offset now =
      ((ps.processEvent e offset now).1.withoutSketches, (ps.processEvent e offset now).2) := by
  have hinsert : ∀ win : Window,
      (mapValues (fun _ => Window.withoutSketches) ps.openWindows).insert (windowStart e.ts)
        win.withoutSketches =
      mapValues (fun _ => Window.withoutSketches)
        (ps.openWindows.insert (windowStart e.ts) win) := by
    intro win
    exact (mapValues_insert (fun _ => Window.withoutSketches) ps.openWindows _ win).symm
  have hflushed : ps.withoutSketches.flushedWatermark = ps.flushedWatermark := rfl
  have hseen : (ps.windowFor (windowStart e.ts) offset).withoutSketches.seenIds =
      (ps.windowFor (windowStart e.ts) offset).seenIds := rfl
  unfold processEvent
  dsimp only
  rw [windowFor_withoutSketches, hflushed, hseen]
  split_ifs with hlate hdup
  · rfl
  · refine Prod.ext ?_ rfl
    dsimp only
    exact congrArg (fun table => { ps.withoutSketches.consume e offset now with
      openWindows := table }) (hinsert _)
  · refine Prod.ext ?_ rfl
    dsimp only
    rw [show ps.withoutSketches.hllEnabled = false from rfl,
      Window.fold_withoutSketches _ e offset ps.hllEnabled]
    exact congrArg (fun table => { ps.withoutSketches.consume e offset now with
      openWindows := table }) (hinsert _)

theorem tickIdle_withoutSketches (nowWall : Nat) (nowUtc : Int) :
    ps.withoutSketches.tickIdle nowWall nowUtc = (ps.tickIdle nowWall nowUtc).withoutSketches := by
  unfold tickIdle
  by_cases hidle : nowWall - ps.lastEventWall > idlePartitionTimeout ∧ nowUtc > ps.maxEventTs
  · rw [if_pos hidle]
    exact if_pos hidle
  · rw [if_neg hidle]
    exact if_neg hidle

theorem closedStarts_withoutSketches : ps.withoutSketches.closedStarts = ps.closedStarts := by
  unfold closedStarts withoutSketches
  dsimp only
  rw [keys_mapValues]
  rfl

theorem takeClosedWindows_withoutSketches :
    ps.withoutSketches.takeClosedWindows =
      (ps.takeClosedWindows.1.withoutSketches,
        closedWithoutSketches ps.takeClosedWindows.2) := by
  have hclosed : (ps.closedStarts.filterMap fun start =>
      (ps.withoutSketches.openWindows.lookup start).map fun win => (start, win)) =
      closedWithoutSketches (ps.closedStarts.filterMap fun start =>
        (ps.openWindows.lookup start).map fun win => (start, win)) := by
    rw [closedWithoutSketches, List.map_filterMap]
    apply List.filterMap_congr
    intro start _
    rw [lookup_withoutSketches]
    cases ps.openWindows.lookup start <;> rfl
  have hopen : removals ps.withoutSketches.openWindows ps.closedStarts =
      mapValues (fun _ => Window.withoutSketches)
        (removals ps.openWindows ps.closedStarts) :=
    (mapValues_removals (fun _ => Window.withoutSketches) ps.openWindows _).symm
  unfold takeClosedWindows
  rw [closedStarts_withoutSketches]
  dsimp only
  rw [hclosed, hopen]
  rfl

theorem committedOffset_withoutSketches :
    ps.withoutSketches.committedOffset = ps.committedOffset := by
  unfold committedOffset withoutSketches
  dsimp only
  rw [rows_mapValues, List.map_map]
  rfl

theorem collectBatch_withoutSketches :
    ps.withoutSketches.collectBatch =
      (ps.collectBatch.1.withoutSketches, ps.collectBatch.2.map Batch.withoutSketches) := by
  unfold collectBatch
  rw [takeClosedWindows_withoutSketches]
  dsimp only
  rw [show (closedWithoutSketches ps.takeClosedWindows.2).isEmpty =
    ps.takeClosedWindows.2.isEmpty from List.isEmpty_map, committedOffset_withoutSketches]
  split_ifs <;> rfl

end PartitionState

namespace Db

variable (db : Db)

theorem windowRows_withoutSketches (partition : Int) (c : Int × Window) :
    windowRows partition (c.1, c.2.withoutSketches) =
      (windowRows partition c).map fun r => (r.1, { r.2 with usersHll := none }) := by
  unfold windowRows Window.withoutSketches
  dsimp only
  rw [rows_mapValues, List.map_map, List.map_map]
  rfl

theorem flushWindows_withoutSketches (partition : Int) (closed : List (Int × Window))
    (committedOffset : Nat) (flushedWatermark : Int) :
    db.withoutSketches.flushWindows partition (closedWithoutSketches closed) committedOffset
        flushedWatermark =
      (db.flushWindows partition closed committedOffset flushedWatermark).withoutSketches := by
  have hrows : (closedWithoutSketches closed).flatMap (windowRows partition) =
      (closed.flatMap (windowRows partition)).map
        fun r => (r.1, { r.2 with usersHll := none }) := by
    rw [closedWithoutSketches, List.flatMap_map, List.map_flatMap]
    exact congrArg (fun f => closed.flatMap f)
      (funext fun c => windowRows_withoutSketches partition c)
  have hcells : (db.withoutSketches.flushWindows partition (closedWithoutSketches closed)
      committedOffset flushedWatermark).aggCells =
      (db.flushWindows partition closed committedOffset flushedWatermark).withoutSketches.aggCells
      := by
    rw [flushWindows_aggCells, hrows, withoutSketches, withoutSketches, withSketches, withSketches]
    dsimp only
    rw [flushWindows_aggCells]
    exact (mapValues_upserts (fun (_ : AggKey) (row : AggRow) => { row with usersHll := none })
      db.aggCells _).symm
  exact congrArg (fun cells => (⟨cells, db.partitionProgress.insert partition
    ⟨committedOffset, flushedWatermark⟩⟩ : Db)) hcells

end Db

theorem Batch.flush_withoutSketches (b : Batch) (db : Db) (partition : Int) :
    b.withoutSketches.flush db.withoutSketches partition =
      (b.flush db partition).withoutSketches :=
  db.flushWindows_withoutSketches partition b.closed b.committedOffset b.flushedWatermark

namespace Owner

theorem boot_withoutSketches (db : Db) (partition : Int) (hllEnabled : Bool) (now : Nat)
    (nowUtc : Int) (earlier : List Message) :
    boot db.withoutSketches partition false now nowUtc earlier =
      (boot db partition hllEnabled now nowUtc earlier).withoutSketches := by
  have hmem : PartitionState.postRebalance db.withoutSketches partition false now nowUtc =
      (PartitionState.postRebalance db partition hllEnabled now nowUtc).withoutSketches := by
    unfold PartitionState.postRebalance
    rw [show db.withoutSketches.loadProgress partition = db.loadProgress partition from rfl]
    cases db.loadProgress partition <;> rfl
  unfold boot
  rw [hmem]
  rfl

theorem consume_withoutSketches (w : Worker) (m : Message) (now : Nat) :
    w.withoutSketches.consume m now = (w.consume m now).withoutSketches := by
  unfold Worker.consume
  dsimp only
  rw [show w.withoutSketches.mem = w.mem.withoutSketches from rfl,
    PartitionState.processEvent_withoutSketches]
  rfl

/-- No step asks for the sketches, to be taken or to decide what it does. -/
theorem step_withoutSketches (partition : Int) (s : Owner) (a : Action) :
    step partition s.withoutSketches a = (step partition s a).map withoutSketches := by
  cases a with
  | deliver m now =>
    simp only [step, withoutSketches, consume_withoutSketches]
    rw [show s.toWorker.withoutSketches.mem.nextOffset = s.mem.nextOffset from rfl]
    split_ifs <;> rfl
  | tickIdle nowWall nowUtc =>
    have htick := s.mem.tickIdle_withoutSketches nowWall nowUtc
    simp only [step, Option.map_some]
    exact congrArg (fun mem => some { s.withoutSketches with mem := mem }) htick
  | collect =>
    have hnone : s.withoutSketches.batch = none ↔ s.batch = none := Option.map_eq_none_iff
    have hcollect := s.mem.collectBatch_withoutSketches
    by_cases hbatch : s.batch = none
    · simp only [step, if_pos hbatch, if_pos (hnone.mpr hbatch), Option.map_some]
      exact congrArg (fun r => some { s.withoutSketches with mem := r.1, batch := r.2 }) hcollect
    · simp only [step, if_neg hbatch, if_neg (hnone.not.mpr hbatch), Option.map_none]
  | commit =>
    have hbatch : s.withoutSketches.batch = s.batch.map Batch.withoutSketches := rfl
    simp only [step, hbatch]
    cases s.batch with
    | none => rfl
    | some b =>
      have hflush := b.flush_withoutSketches s.db partition
      exact congrArg (fun db => some { s.withoutSketches with db := db, batch := none }) hflush
  | fail =>
    have hbatch : s.withoutSketches.batch = s.batch.map Batch.withoutSketches := rfl
    simp only [step, hbatch]
    cases s.batch <;> rfl
  | crash now nowUtc =>
    exact congrArg some (boot_withoutSketches s.db partition s.mem.hllEnabled now nowUtc _)

end Owner

section Answers

variable (estimate : HyperLogLog → UInt64) (db : Db) (column : AggKey → Option (List UInt8))

theorem groupSum_withSketches (g : GroupKey) {total : AggRow → Nat}
    (htotal : ∀ row sketch, total { row with usersHll := sketch } = total row) :
    (db.withSketches column).groupSum g total = db.groupSum g total := by
  unfold Db.groupSum Db.withSketches
  dsimp only
  rw [rows_mapValues, List.filter_map, List.map_map]
  exact congrArg List.sum (List.map_congr_left fun r _ => htotal r.2 _)

theorem fetchCell_withSketches (w : Int) (key : CellKey) :
    fetchCell (db.withSketches column) w key = fetchCell db w key := by
  unfold fetchCell
  rw [groupSum_withSketches db column _ fun _ _ => rfl,
    groupSum_withSketches db column _ fun _ _ => rfl]

/-- Only the sums of the two count columns are read of a group. -/
theorem sumGroup_withSketches (l : ChildLabel) (rs : List (AggKey × AggRow)) :
    sumGroup (l, (rs.map fun r => (r.1, { r.2 with usersHll := column r.1 })).map Prod.snd) =
      sumGroup (l, rs.map Prod.snd) := by
  unfold sumGroup columnSum
  simp only [List.map_map]
  rfl

theorem fetchChildren_withSketches (w : Int) (parent : CellKey) :
    fetchChildren (db.withSketches column) w parent = fetchChildren db w parent := by
  have hgroups := groupOn_map (fun r : AggKey × AggRow => childLabel parent r.1)
    (fun r => (r.1, { r.2 with usersHll := column r.1 })) (fun _ => rfl) (db.childRows w parent)
  unfold fetchChildren groupBy
  rw [Db.childRows_withSketches, hgroups, List.map_map, List.mapM_map, List.mapM_map]
  exact congrArg (fun f => (groupOn _ (db.childRows w parent)).mapM f)
    (funext fun g => sumGroup_withSketches column g.1 g.2)

theorem computeStats_withSketches (s : Settings) {q : StatsQuery} (hq : q.estimator = .exact) :
    computeStats estimate (db.withSketches column) s q = computeStats estimate db s q := by
  unfold computeStats computeCells readCell readChildren
  rw [hq]
  dsimp only
  simp only [fetchCell_withSketches, fetchChildren_withSketches]

end Answers

namespace Fleet

theorem advance_withoutSketches (s : Fleet) (p : Int) (o : Owner) :
    s.withoutSketches.advance p o.withoutSketches = (s.advance p o).withoutSketches :=
  congrArg (fun owners => (⟨owners, o.db.withoutSketches⟩ : Fleet))
    (mapValues_insert (fun _ => Worker.withoutSketches) s.owners p o.toWorker).symm

theorem step_withoutSketches (s : Fleet) (a : FleetAction) :
    step s.withoutSketches a.withoutSketches = (step s a).map withoutSketches := by
  have hlook : ∀ p, s.withoutSketches.owners.lookup p =
      (s.owners.lookup p).map Worker.withoutSketches :=
    lookup_mapValues (fun _ => Worker.withoutSketches) s.owners
  cases a with
  | start p hllEnabled now nowUtc =>
    simp only [step, FleetAction.withoutSketches, hlook]
    cases s.owners.lookup p with
    | some w => rfl
    | none =>
      have hboot := Owner.boot_withoutSketches s.db p hllEnabled now nowUtc []
      exact congrArg some ((congrArg (s.withoutSketches.advance p) hboot).trans
        (s.advance_withoutSketches p _))
  | act p b =>
    simp only [step, FleetAction.withoutSketches, hlook]
    cases s.owners.lookup p with
    | none => rfl
    | some w =>
      have hstep := Owner.step_withoutSketches p ⟨w, s.db⟩ b
      refine (congrArg (Option.map (s.withoutSketches.advance p)) hstep).trans ?_
      rw [Option.map_map, Option.map_map]
      exact congrArg (fun f => (Owner.step p ⟨w, s.db⟩ b).map f)
        (funext fun o => s.advance_withoutSketches p o)

/-- Fleets that agree but for the sketches, owners of either with the switch on or off, can do the
same things; they then still agree on the progress, on the two count columns of every row and on
every answer under the exact estimator. -/
theorem switch_invisible (estimate : HyperLogLog → UInt64) {s s' t : Fleet}
    {actions actions' : List FleetAction} (hstart : t.withoutSketches = s.withoutSketches)
    (hactions : actions'.map FleetAction.withoutSketches =
      actions.map FleetAction.withoutSketches)
    (hrun : Run step free s actions s') :
    ∃ t', Run step free t actions' t' ∧ t'.withoutSketches = s'.withoutSketches ∧
      t'.db.partitionProgress = s'.db.partitionProgress ∧
      (∀ k, (t'.db.aggCells.lookup k).map AggRow.totals =
        (s'.db.aggCells.lookup k).map AggRow.totals) ∧
      ∀ settings q, q.estimator = .exact →
        computeStats estimate t'.db settings q = computeStats estimate s'.db settings q := by
  have himage := hrun.image step_withoutSketches
  rw [← hactions, ← hstart] at himage
  obtain ⟨t', hrun', heq⟩ := Run.of_image step_withoutSketches himage
  have hdb : t'.db.withoutSketches = s'.db.withoutSketches := congrArg Fleet.db heq
  have hprogress : t'.db.withoutSketches.partitionProgress =
      s'.db.withoutSketches.partitionProgress := by
    rw [hdb]
  refine ⟨t', hrun', heq, hprogress, ?_, ?_⟩
  · intro k
    have htotals : ∀ db : Db, (db.withoutSketches.aggCells.lookup k).map AggRow.totals =
        (db.aggCells.lookup k).map AggRow.totals := by
      intro db
      unfold Db.withoutSketches Db.withSketches
      dsimp only
      rw [lookup_mapValues, Option.map_map]
      rfl
    rw [← htotals t'.db, hdb, htotals s'.db]
  · intro settings q hq
    have hanswer : ∀ db : Db, computeStats estimate db.withoutSketches settings q =
        computeStats estimate db settings q :=
      fun db => computeStats_withSketches estimate db _ settings hq
    rw [← hanswer t'.db, hdb, hanswer s'.db]

/-- Two events of one user, written after an idle tick, by an owner with the switch on or off. -/
def sketchedFlush (hllEnabled : Bool) : List FleetAction :=
  [.start 0 hllEnabled 0 0, .act 0 (.deliver ⟨0, evt 1000000000 1 "u1"⟩ 0),
    .act 0 (.deliver ⟨1, evt 1000000000 2 "u1"⟩ 0),
    .act 0 (.tickIdle 20000000000 200000000000), .act 0 .collect, .act 0 .commit]

theorem switch_invisible_sketchedFlush :
    ∃ s t, Run step free (idle Db.empty) (sketchedFlush false) s ∧
      Run step free (idle Db.empty) (sketchedFlush true) t ∧
      t.withoutSketches = s.withoutSketches := by
  have hrun : ∃ s, Run step free (idle Db.empty) (sketchedFlush false) s :=
    ⟨_, run_of_execute rfl⟩
  obtain ⟨s, hs⟩ := hrun
  have hactions : (sketchedFlush true).map FleetAction.withoutSketches =
      (sketchedFlush false).map FleetAction.withoutSketches := rfl
  obtain ⟨t, ht, heq, _⟩ := switch_invisible (fun _ => 0) (t := idle Db.empty) rfl hactions hs
  exact ⟨s, t, hs, ht, heq⟩

end Fleet

end HushEngine
