import HushEngine.Fleet

/-!
The two background loops of one aggregator, over the states of all partitions
at once. The idle tick moves every quiet partition's event time to the wall
clock; the flush iteration hands out what that closes and writes it. A partition
that closes nothing is skipped, so its new watermark stays in memory. The tables
are those that the columns hold, so a watermark is stored to the microsecond.
-/
namespace HushEngine

open Keyed Runs

/-- The batch as the columns take it; the starts of its windows are whole minutes. -/
def Batch.stored (column : Int → Int) (b : Batch) : Batch :=
  { b with flushedWatermark := column b.flushedWatermark }

theorem Batch.stored_flush (column : Int → Int) (b : Batch) (db : Db) (partition : Int) :
    (b.flush db partition).stored column =
      (b.stored column).flush (db.stored column) partition := by
  simp only [Batch.flush, Batch.stored, Db.stored, Db.flushWindows, mapValues_insert]

structure Aggregator where
  states : Table Int PartitionState
  db : Db
deriving DecidableEq

namespace Aggregator

/-- One tick of `run_idle_loop`. -/
def runIdleLoop (a : Aggregator) (nowWall : Nat) (nowUtc : Int) : Aggregator :=
  { a with states := mapValues (fun _ ps => ps.tickIdle nowWall nowUtc) a.states }

/-- What the flush loop collects under the lock. -/
def batches (a : Aggregator) : List (Int × Batch) :=
  (rows a.states).filterMap fun r => r.2.collectBatch.2.map fun b => (r.1, b)

/-- One iteration of `run_flush_loop` in which every write succeeds. -/
def runFlushLoop (column : Int → Int) (a : Aggregator) : Aggregator where
  states := mapValues (fun _ ps => ps.collectBatch.1) a.states
  db := a.batches.foldl (fun db r => (r.2.stored column).flush db r.1) a.db

/-- Every window that ends by the time has been closed, every owned partition's progress is the
one in memory, as a column holds it, and the query service takes those windows for complete. A
window starts at a full minute, but a whole microsecond will do. -/
structure CaughtUp (column : Int → Int) (a : Aggregator) (time : Int) : Prop where
  no_open : ∀ p ps, a.states.lookup p = some ps → ∀ w win, ps.openWindows.lookup w = some win →
    time < windowEnd w
  progress : ∀ p ps, a.states.lookup p = some ps →
    a.db.loadProgress p = some ⟨ps.committedOffset, column ps.flushedWatermark⟩
  complete : ∀ w, 1000 ∣ w → windowEnd w ≤ time → a.db.windowComplete w = true

section Batches

variable {column : Int → Int} {a : Aggregator} {p : Int} {ps : PartitionState}

theorem mem_batches {b : Batch} : (p, b) ∈ a.batches ↔
    ∃ ps, a.states.lookup p = some ps ∧ ps.collectBatch.2 = some b := by
  simp only [batches, List.mem_filterMap, Option.map_eq_some_iff, Prod.mk.injEq]
  constructor
  · intro h
    obtain ⟨⟨q, ps⟩, hrow, b', hb, rfl, rfl⟩ := h
    exact ⟨ps, (mem_rows _ _ _).mp hrow, hb⟩
  · intro h
    obtain ⟨ps, hps, hb⟩ := h
    exact ⟨(p, ps), (mem_rows _ _ _).mpr hps, b, hb, rfl, rfl⟩

theorem nodup_batches (a : Aggregator) : (a.batches.map Prod.fst).Nodup := by
  refine (List.Sublist.nodup ?_) (nodup_rows_keys a.states)
  unfold batches
  rw [List.map_filterMap]
  generalize rows a.states = rs
  induction rs with
  | nil => simp
  | cons r rs ih =>
    rw [List.filterMap_cons, List.map_cons]
    cases r.2.collectBatch.2 with
    | none => exact ih.cons _
    | some b => exact ih.cons_cons _

theorem loadProgress_foldl_of_not_mem {bs : List (Int × Batch)} (hp : p ∉ bs.map Prod.fst)
    (db : Db) : (bs.foldl (fun db r => (r.2.stored column).flush db r.1) db).loadProgress p =
      db.loadProgress p := by
  induction bs generalizing db with
  | nil => rfl
  | cons r bs ih =>
    rw [List.map_cons, List.mem_cons, not_or] at hp
    rw [List.foldl_cons, ih hp.2]
    exact ((r.2.stored column).samePartition_flush db hp.1).progress

/-- Each batch of an iteration decides the progress of its own partition. -/
theorem loadProgress_foldl_of_mem {bs : List (Int × Batch)} (hnodup : (bs.map Prod.fst).Nodup)
    {b : Batch} (hb : (p, b) ∈ bs) (db : Db) :
    (bs.foldl (fun db r => (r.2.stored column).flush db r.1) db).loadProgress p =
      some ⟨b.committedOffset, column b.flushedWatermark⟩ := by
  induction bs generalizing db with
  | nil => cases hb
  | cons r bs ih =>
    rw [List.map_cons, List.nodup_cons] at hnodup
    rw [List.foldl_cons]
    rcases List.mem_cons.mp hb with rfl | hrest
    · rw [loadProgress_foldl_of_not_mem hnodup.1, Batch.flush_loadProgress]
      rfl
    · exact ih hnodup.2 hrest _

end Batches

/-- The event time an idle partition has after a tick. -/
theorem tickIdle_maxEventTs_of_idle {ps : PartitionState} {nowWall : Nat} (nowUtc : Int)
    (hidle : nowWall - ps.lastEventWall > idlePartitionTimeout) :
    (ps.tickIdle nowWall nowUtc).maxEventTs = max ps.maxEventTs nowUtc := by
  unfold PartitionState.tickIdle
  split_ifs with h
  · exact (max_eq_right h.2.le).symm
  · exact (max_eq_left (not_lt.mp fun hlt => h ⟨hidle, hlt⟩)).symm

/-- The watermark an idle partition has after a tick. -/
def idleWatermark (ps : PartitionState) (nowUtc : Int) : Int :=
  max ps.maxEventTs nowUtc - allowedLateness

/-- The tick lets the partition close a window. -/
def Closes (ps : PartitionState) (nowUtc : Int) : Prop :=
  ∃ w win, ps.openWindows.lookup w = some win ∧ windowEnd w ≤ idleWatermark ps nowUtc

section Iteration

variable {column : Int → Int} {a : Aggregator} {nowWall : Nat} {nowUtc : Int} {p : Int}
  {ps : PartitionState}

/-- What a tick and an iteration leave of a partition's state. -/
def after (ps : PartitionState) (nowWall : Nat) (nowUtc : Int) : PartitionState :=
  (ps.tickIdle nowWall nowUtc).takeClosedWindows.1

theorem lookup_states (hps : a.states.lookup p = some ps) :
    ((a.runIdleLoop nowWall nowUtc).runFlushLoop column).states.lookup p =
      some (after ps nowWall nowUtc) := by
  simp [runFlushLoop, runIdleLoop, lookup_mapValues, hps, after]

theorem watermark_tickIdle (hidle : nowWall - ps.lastEventWall > idlePartitionTimeout) :
    (ps.tickIdle nowWall nowUtc).watermark = idleWatermark ps nowUtc := by
  rw [PartitionState.watermark, tickIdle_maxEventTs_of_idle nowUtc hidle, idleWatermark]

theorem flushedWatermark_after (nowUtc : Int)
    (hidle : nowWall - ps.lastEventWall > idlePartitionTimeout) :
    (after ps nowWall nowUtc).flushedWatermark =
      max ps.flushedWatermark (idleWatermark ps nowUtc) := by
  rw [after, PartitionState.takeClosedWindows_flushedWatermark, watermark_tickIdle hidle,
    PartitionState.tickIdle_flushedWatermark]

/-- No window that ends by the watermark is left open. -/
theorem lt_of_open_after (hidle : nowWall - ps.lastEventWall > idlePartitionTimeout) {w : Int}
    {win : Window} (hwin : (after ps nowWall nowUtc).openWindows.lookup w = some win) :
    idleWatermark ps nowUtc < windowEnd w := by
  rw [← watermark_tickIdle hidle]
  exact (PartitionState.lookup_of_takeClosedWindows hwin).2

theorem takeClosedWindows_eq_nil_iff (nowUtc : Int)
    (hidle : nowWall - ps.lastEventWall > idlePartitionTimeout) :
    (ps.tickIdle nowWall nowUtc).takeClosedWindows.2 = [] ↔ ¬ Closes ps nowUtc := by
  rw [List.eq_nil_iff_forall_not_mem]
  constructor
  · intro hnone hcloses
    obtain ⟨w, win, hwin, hend⟩ := hcloses
    refine hnone (w, win) ((PartitionState.mem_takeClosedWindows _ w win).mpr ⟨?_, ?_⟩)
    · rwa [PartitionState.tickIdle_openWindows]
    · rwa [watermark_tickIdle hidle]
  · intro hcloses c hc
    obtain ⟨hwin, hend⟩ := (PartitionState.mem_takeClosedWindows _ c.1 c.2).mp hc
    rw [PartitionState.tickIdle_openWindows] at hwin
    rw [watermark_tickIdle hidle] at hend
    exact hcloses ⟨c.1, c.2, hwin, hend⟩

/-- A partition that closes nothing keeps its offset. -/
theorem committedOffset_after (hidle : nowWall - ps.lastEventWall > idlePartitionTimeout)
    (hcloses : ¬ Closes ps nowUtc) :
    (after ps nowWall nowUtc).committedOffset = ps.committedOffset := by
  have hstarts : (ps.tickIdle nowWall nowUtc).closedStarts = [] := by
    apply List.eq_nil_iff_forall_not_mem.mpr
    intro w hw
    obtain ⟨hkey, hend⟩ := (PartitionState.mem_closedStarts _ w).mp hw
    rw [PartitionState.tickIdle_openWindows] at hkey
    obtain ⟨win, hwin⟩ := Option.isSome_iff_exists.mp (AList.lookup_isSome.mpr hkey)
    rw [watermark_tickIdle hidle] at hend
    exact hcloses ⟨w, win, hwin, hend⟩
  have hopen : (after ps nowWall nowUtc).openWindows = ps.openWindows := by
    change removals (ps.tickIdle nowWall nowUtc).openWindows _ = _
    rw [hstarts, PartitionState.tickIdle_openWindows]
    rfl
  rw [PartitionState.committedOffset, PartitionState.committedOffset, hopen]
  simp [after]

/-- The progress an iteration leaves: what is in memory where a window was closed, and what was
there before where none was. -/
theorem loadProgress_after (hps : a.states.lookup p = some ps)
    (hidle : nowWall - ps.lastEventWall > idlePartitionTimeout) :
    (Closes ps nowUtc → ((a.runIdleLoop nowWall nowUtc).runFlushLoop column).db.loadProgress p =
      some ⟨(after ps nowWall nowUtc).committedOffset,
        column (after ps nowWall nowUtc).flushedWatermark⟩) ∧
    (¬ Closes ps nowUtc →
      ((a.runIdleLoop nowWall nowUtc).runFlushLoop column).db.loadProgress p =
        a.db.loadProgress p) := by
  have hticked : (a.runIdleLoop nowWall nowUtc).states.lookup p =
      some (ps.tickIdle nowWall nowUtc) := by
    simp [runIdleLoop, lookup_mapValues, hps]
  have hnil := takeClosedWindows_eq_nil_iff nowUtc hidle
  constructor
  · intro hcloses
    cases hbatch : (ps.tickIdle nowWall nowUtc).collectBatch.2 with
    | none =>
      exact absurd hcloses (hnil.mp (PartitionState.collectBatch_snd_eq_none hbatch))
    | some b =>
      obtain ⟨_, rfl⟩ := PartitionState.collectBatch_snd_eq_some hbatch
      exact loadProgress_foldl_of_mem (nodup_batches _) (mem_batches.mpr ⟨_, hticked, hbatch⟩) _
  · intro hcloses
    apply loadProgress_foldl_of_not_mem
    intro hmem
    obtain ⟨⟨q, b⟩, hb, rfl⟩ := List.mem_map.mp hmem
    obtain ⟨ps', hps', hbatch⟩ := mem_batches.mp hb
    obtain rfl := Option.some.inj (hticked.symm.trans hps')
    exact (PartitionState.collectBatch_snd_eq_some hbatch).1 (hnil.mpr hcloses)

theorem exists_of_lookup_states {ps' : PartitionState}
    (h : ((a.runIdleLoop nowWall nowUtc).runFlushLoop column).states.lookup p = some ps') :
    ∃ ps, a.states.lookup p = some ps ∧ ps' = after ps nowWall nowUtc := by
  cases hps : a.states.lookup p with
  | none => simp [runFlushLoop, runIdleLoop, lookup_mapValues, hps] at h
  | some ps =>
    rw [lookup_states hps] at h
    exact ⟨ps, rfl, (Option.some.inj h).symm⟩

theorem loadProgress_of_not_owned (hp : a.states.lookup p = none) :
    ((a.runIdleLoop nowWall nowUtc).runFlushLoop column).db.loadProgress p =
      a.db.loadProgress p := by
  apply loadProgress_foldl_of_not_mem
  intro hmem
  obtain ⟨⟨q, b⟩, hb, rfl⟩ := List.mem_map.mp hmem
  obtain ⟨ps', hps', _⟩ := mem_batches.mp hb
  simp [runIdleLoop, lookup_mapValues, hp] at hps'

/-- Where the progress of every partition is the one in memory, all the windows that the tick has
let end are complete. -/
theorem complete_of_progress (hcolumn : Timestamptz column)
    (howner : ∃ p, (a.states.lookup p).isSome)
    (howned : ∀ p, (a.db.loadProgress p).isSome → (a.states.lookup p).isSome)
    (hidle : ∀ p ps, a.states.lookup p = some ps →
      nowWall - ps.lastEventWall > idlePartitionTimeout)
    (hprogress : ∀ p ps, a.states.lookup p = some ps →
      ((a.runIdleLoop nowWall nowUtc).runFlushLoop column).db.loadProgress p =
        some ⟨(after ps nowWall nowUtc).committedOffset,
          column (after ps nowWall nowUtc).flushedWatermark⟩) {w : Int}
    (hwhole : 1000 ∣ w) (hw : windowEnd w ≤ nowUtc - allowedLateness) :
    ((a.runIdleLoop nowWall nowUtc).runFlushLoop column).db.windowComplete w = true := by
  rw [Db.windowComplete_iff]
  constructor
  · obtain ⟨p, hp⟩ := howner
    obtain ⟨ps, hps⟩ := Option.isSome_iff_exists.mp hp
    exact ⟨p, _, hprogress p ps hps⟩
  · intro q pr hpr
    cases hq : a.states.lookup q with
    | none =>
      rw [loadProgress_of_not_owned hq] at hpr
      have hsome := howned q (by rw [hpr]; rfl)
      rw [hq] at hsome
      cases hsome
    | some ps =>
      rw [hprogress q ps hq] at hpr
      cases hpr
      have hle : windowEnd w ≤ (after ps nowWall nowUtc).flushedWatermark := by
        rw [flushedWatermark_after nowUtc (hidle q ps hq), idleWatermark]
        omega
      have hend : 1000 ∣ windowEnd w := by
        unfold windowEnd windowSize
        omega
      rw [← hcolumn.whole _ hend]
      exact hcolumn.mono hle

end Iteration

/-- An aggregator that owns every partition with progress and finds all of them idle catches up by
a tick and a flush iteration exactly when each partition has a window to close, or had the
resulting progress stored already. -/
theorem caughtUp_iff (column : Int → Int) (hcolumn : Timestamptz column) (a : Aggregator)
    (nowWall : Nat) (nowUtc : Int)
    (howner : ∃ p, (a.states.lookup p).isSome)
    (howned : ∀ p, (a.db.loadProgress p).isSome → (a.states.lookup p).isSome)
    (hidle : ∀ p ps, a.states.lookup p = some ps →
      nowWall - ps.lastEventWall > idlePartitionTimeout) :
    CaughtUp column ((a.runIdleLoop nowWall nowUtc).runFlushLoop column)
      (nowUtc - allowedLateness) ↔
      ∀ p ps, a.states.lookup p = some ps → Closes ps nowUtc ∨ a.db.loadProgress p =
        some ⟨ps.committedOffset, column (max ps.flushedWatermark (idleWatermark ps nowUtc))⟩ := by
  constructor
  · intro h p ps hps
    by_cases hcloses : Closes ps nowUtc
    · exact Or.inl hcloses
    · right
      have hskipped :
          ((a.runIdleLoop nowWall nowUtc).runFlushLoop column).db.loadProgress p =
            a.db.loadProgress p :=
        (loadProgress_after hps (hidle p ps hps)).2 hcloses
      rw [← hskipped, h.progress p _ (lookup_states hps),
        committedOffset_after (hidle p ps hps) hcloses,
        flushedWatermark_after nowUtc (hidle p ps hps)]
  · intro h
    have hprogress : ∀ p ps, a.states.lookup p = some ps →
        ((a.runIdleLoop nowWall nowUtc).runFlushLoop column).db.loadProgress p =
          some ⟨(after ps nowWall nowUtc).committedOffset,
            column (after ps nowWall nowUtc).flushedWatermark⟩ := by
      intro p ps hps
      by_cases hcloses : Closes ps nowUtc
      · exact (loadProgress_after hps (hidle p ps hps)).1 hcloses
      · rw [(loadProgress_after hps (hidle p ps hps)).2 hcloses,
          (h p ps hps).resolve_left hcloses, committedOffset_after (hidle p ps hps) hcloses,
          flushedWatermark_after nowUtc (hidle p ps hps)]
    constructor
    case no_open =>
      intro p ps' hps' w win hwin
      obtain ⟨ps, hps, rfl⟩ := exists_of_lookup_states hps'
      have hlt := lt_of_open_after (hidle p ps hps) hwin
      rw [idleWatermark] at hlt
      omega
    case progress =>
      intro p ps' hps'
      obtain ⟨ps, hps, rfl⟩ := exists_of_lookup_states hps'
      exact hprogress p ps hps
    case complete =>
      exact fun w hwhole hw =>
        complete_of_progress hcolumn howner howned hidle hprogress hwhole hw

/-- The first instant of 2000, from which Postgres counts. -/
def postgresEpoch : Int := 946684800000000000

/-- Microseconds from then on or back, the rest cut off. -/
def toMicroseconds (ts : Int) : Int := postgresEpoch + (ts - postgresEpoch).tdiv 1000 * 1000

theorem timestamptz_toMicroseconds : Timestamptz toMicroseconds where
  whole ts hwhole := by
    have hdvd : 1000 ∣ ts - postgresEpoch := by
      unfold postgresEpoch
      omega
    rw [toMicroseconds, Int.tdiv_mul_cancel hdvd]
    omega
  mono {ts ts'} hle := by
    have hdiv := Int.tdiv_le_tdiv (by decide : (0 : Int) < 1000)
      (sub_le_sub_right hle postgresEpoch)
    unfold toMicroseconds
    omega

/-- One partition with an open window, seen by a clock that counts nanoseconds. -/
def openPartition : Aggregator where
  states := AList.singleton 0
    ((PartitionState.resumeFrom 0 0 0 0).processEvent (evt 1000000000 1 "u1") 0 0).1
  db := Db.empty

theorem caughtUp_iff_openPartition :
    CaughtUp toMicroseconds
      ((openPartition.runIdleLoop 100000000000 300000000999).runFlushLoop toMicroseconds)
      270000000999 := by
  have hstates : ∀ p ps, openPartition.states.lookup p = some ps →
      ps = ((PartitionState.resumeFrom 0 0 0 0).processEvent (evt 1000000000 1 "u1") 0 0).1 := by
    intro p ps hps
    obtain ⟨rfl, heq⟩ : p = 0 ∧ _ := by
      simpa [openPartition, ← mem_rows, rows] using hps
    exact heq
  refine (caughtUp_iff toMicroseconds timestamptz_toMicroseconds openPartition 100000000000
    300000000999 ⟨0, by decide⟩ ?_ ?_).mpr ?_
  · intro p hp
    cases hp
  · intro p ps hps
    obtain rfl := hstates p ps hps
    decide
  · intro p ps hps
    obtain rfl := hstates p ps hps
    exact Or.inl ⟨0, _, rfl, by decide⟩

/-- The states and the stored tables of a fleet whose partitions one process owns. -/
def ofFleet (column : Int → Int) (s : Fleet) : Aggregator :=
  ⟨mapValues (fun _ w => w.mem) s.owners, s.db.stored column⟩

section Schedule

variable {s : Fleet}

theorem ofFleet_lookup (column : Int → Int) (s : Fleet) (p : Int) :
    (ofFleet column s).states.lookup p = (s.owners.lookup p).map Worker.mem :=
  lookup_mapValues _ _ _

/-- An action that leaves the tables alone can be taken by one partition after another. -/
theorem exists_run_each (act : Action) (f : Worker → Worker) (enabled : Worker → Prop)
    (hact : ∀ p w db, enabled w → Owner.step p ⟨w, db⟩ act = some ⟨f w, db⟩) {ps : List Int}
    (hnodup : ps.Nodup) (henabled : ∀ p ∈ ps, ∃ w, s.owners.lookup p = some w ∧ enabled w) :
    ∃ t, Run Fleet.step free s (ps.map fun p => .act p act) t ∧ t.db = s.db ∧
      ∀ p, t.owners.lookup p =
        if p ∈ ps then (s.owners.lookup p).map f else s.owners.lookup p := by
  induction ps generalizing s with
  | nil => exact ⟨s, .nil s, rfl, fun p => by simp⟩
  | cons p ps ih =>
    obtain ⟨hp, hnodup⟩ := List.nodup_cons.mp hnodup
    obtain ⟨w, hw, hwe⟩ := henabled p (List.mem_cons_self ..)
    have hstep : Fleet.step s (.act p act) = some (s.advance p ⟨f w, s.db⟩) := by
      simp only [Fleet.step, hw, hact p w s.db hwe, Option.map_some]
    have hother : ∀ q, q ≠ p → (s.advance p ⟨f w, s.db⟩).owners.lookup q = s.owners.lookup q :=
      fun q hq => s.advance_owners_ne _ hq
    obtain ⟨t, ht, hdb, hlook⟩ := ih (s := s.advance p ⟨f w, s.db⟩) hnodup fun q hq => by
      rw [hother q fun heq => hp (heq ▸ hq)]
      exact henabled q (List.mem_cons_of_mem _ hq)
    refine ⟨t, .cons trivial hstep ht, hdb, fun q => ?_⟩
    rw [hlook]
    by_cases hq : q = p
    · subst hq
      rw [if_neg hp, if_pos (List.mem_cons_self ..), Fleet.advance_owners_self, hw]
      rfl
    · simp only [hother q hq, List.mem_cons, hq, false_or]

/-- Every partition in turn. -/
theorem exists_run_all (act : Action) (f : Worker → Worker) (enabled : Worker → Prop)
    (hact : ∀ p w db, enabled w → Owner.step p ⟨w, db⟩ act = some ⟨f w, db⟩)
    (henabled : ∀ p w, s.owners.lookup p = some w → enabled w) :
    ∃ t, Run Fleet.step free s (s.owners.keys.map fun p => .act p act) t ∧ t.db = s.db ∧
      ∀ p, t.owners.lookup p = (s.owners.lookup p).map f := by
  obtain ⟨t, ht, hdb, hlook⟩ := exists_run_each act f enabled hact s.owners.keys_nodup
    fun p hp => by
      obtain ⟨w, hw⟩ := Option.isSome_iff_exists.mp (AList.lookup_isSome.mpr hp)
      exact ⟨w, hw, henabled p w hw⟩
  refine ⟨t, ht, hdb, fun p => ?_⟩
  rw [hlook]
  split_ifs with hp
  · rfl
  · rw [AList.lookup_eq_none.mpr hp]
    rfl

/-- The batches collected can be committed one after another. -/
theorem exists_run_commits {bs : List (Int × Batch)} (hnodup : (bs.map Prod.fst).Nodup)
    (hbatch : ∀ r ∈ bs, ∃ w, s.owners.lookup r.1 = some w ∧ w.batch = some r.2) :
    ∃ t, Run Fleet.step free s (bs.map fun r => .act r.1 .commit) t ∧
      t.db = bs.foldl (fun db r => r.2.flush db r.1) s.db ∧
      ∀ p, (t.owners.lookup p).map Worker.mem = (s.owners.lookup p).map Worker.mem := by
  induction bs generalizing s with
  | nil => exact ⟨s, .nil s, rfl, fun _ => rfl⟩
  | cons r bs ih =>
    rw [List.map_cons, List.nodup_cons] at hnodup
    obtain ⟨w, hw, hwb⟩ := hbatch r (List.mem_cons_self ..)
    generalize hu : s.advance r.1 ⟨{ w with batch := none }, r.2.flush s.db r.1⟩ = u
    have hstep : Fleet.step s (.act r.1 .commit) = some u := by
      simp only [Fleet.step, hw, Owner.step, hwb, Option.map_some, ← hu]
    obtain ⟨t, ht, hdb, hmem⟩ := ih (s := u) hnodup.2 fun q hq => by
      rw [← hu, Fleet.advance_owners_ne s _ fun heq =>
        hnodup.1 (List.mem_map.mpr ⟨q, hq, heq⟩)]
      exact hbatch q (List.mem_cons_of_mem _ hq)
    refine ⟨t, .cons trivial hstep ht, ?_, fun p => ?_⟩
    · rw [hdb, ← hu]
      rfl
    · rw [hmem, ← hu]
      by_cases hp : p = r.1
      · rw [hp, Fleet.advance_owners_self, hw]
        rfl
      · rw [Fleet.advance_owners_ne s _ hp]

/-- What a sequence of flushes stores is what the columns hold of what it binds. -/
theorem stored_foldl_flush (column : Int → Int) (bs : List (Int × Batch)) (db : Db) :
    (bs.foldl (fun db r => r.2.flush db r.1) db).stored column =
      bs.foldl (fun db r => (r.2.stored column).flush db r.1) (db.stored column) := by
  induction bs generalizing db with
  | nil => rfl
  | cons r bs ih => rw [List.foldl_cons, List.foldl_cons, ih, Batch.stored_flush]

/-- A tick and an iteration of the two loops are a schedule of the fleet. -/
theorem exists_run_loops (column : Int → Int) (s : Fleet) (nowWall : Nat) (nowUtc : Int)
    (hbatch : ∀ p w, s.owners.lookup p = some w → w.batch = none) :
    ∃ as t, Run Fleet.step free s as t ∧
      (ofFleet column t).db =
        (((ofFleet column s).runIdleLoop nowWall nowUtc).runFlushLoop column).db ∧
      ∀ p, (ofFleet column t).states.lookup p =
        (((ofFleet column s).runIdleLoop nowWall nowUtc).runFlushLoop column).states.lookup p := by
  obtain ⟨t, ht, htdb, htlook⟩ := exists_run_all (s := s) (.tickIdle nowWall nowUtc)
    (fun w => { w with mem := w.mem.tickIdle nowWall nowUtc }) (fun w => w.batch = none)
    (fun _ _ _ _ => rfl) hbatch
  obtain ⟨u, hu, hudb, hulook⟩ := exists_run_all (s := t) .collect
    (fun w => { w with mem := w.mem.collectBatch.1, batch := w.mem.collectBatch.2 })
    (fun w => w.batch = none) (fun _ w _ hw => by simp [Owner.step, hw]) fun p w hw => by
      rw [htlook] at hw
      obtain ⟨w', hw', rfl⟩ := Option.map_eq_some_iff.mp hw
      exact hbatch p w' hw'
  obtain ⟨v, hv, hvdb, hvmem⟩ := exists_run_commits (s := u)
    (nodup_batches ((ofFleet column s).runIdleLoop nowWall nowUtc)) fun r hr => by
      obtain ⟨ps, hps, hcollect⟩ := mem_batches.mp hr
      simp only [runIdleLoop, lookup_mapValues, ofFleet, Option.map_map] at hps
      obtain ⟨w, hw, rfl⟩ := Option.map_eq_some_iff.mp hps
      exact ⟨_, by rw [hulook, htlook, hw, Option.map_some, Option.map_some], hcollect⟩
  refine ⟨_, v, (ht.append hu).append hv, ?_, fun p => ?_⟩
  · rw [show (ofFleet column v).db = v.db.stored column from rfl, hvdb, hudb, htdb,
      stored_foldl_flush]
    rfl
  · simp only [ofFleet_lookup, hvmem, hulook, htlook, runFlushLoop, runIdleLoop, lookup_mapValues,
      Option.map_map]
    rfl

end Schedule

/-- Partition 1 closes its only window on an idle tick and stays quiet; partition 0 goes on. -/
def quietPartition : List FleetAction :=
  [.start 0 false 0 0, .start 1 false 0 0, .act 1 (.deliver ⟨0, evt 1000000000 1 "u1"⟩ 0),
    .act 1 (.tickIdle 20000000000 95000000000), .act 1 .collect, .act 1 .commit,
    .act 0 (.deliver ⟨0, evt 130000000000 2 "u2"⟩ 30000000000)]

/-- A later tick and iteration write partition 0 and skip partition 1, whose old progress keeps
every newer window incomplete. -/
theorem quiet_partition_blocks :
    ∃ s, Run Fleet.step free (Fleet.idle Db.empty) quietPartition s ∧
      (∀ r ∈ rows s.owners, r.2.batch = none ∧
        100000000000 - r.2.mem.lastEventWall > idlePartitionTimeout) ∧
      ∃ v, v = ((ofFleet toMicroseconds s).runIdleLoop 100000000000 300000000000).runFlushLoop
          toMicroseconds ∧
        v.db.loadProgress 1 = some ⟨1, 65000000000⟩ ∧
        (v.states.lookup 1).map PartitionState.flushedWatermark = some 270000000000 ∧
        v.db.windowComplete 120000000000 = false ∧ ¬ CaughtUp toMicroseconds v 270000000000 := by
  have hrun : ∃ s, Run Fleet.step free (Fleet.idle Db.empty) quietPartition s ∧
      (∀ r ∈ rows s.owners, r.2.batch = none ∧
        100000000000 - r.2.mem.lastEventWall > idlePartitionTimeout) ∧
      ∃ v, v = ((ofFleet toMicroseconds s).runIdleLoop 100000000000 300000000000).runFlushLoop
          toMicroseconds ∧
        v.db.loadProgress 1 = some ⟨1, 65000000000⟩ ∧
        (v.states.lookup 1).map PartitionState.flushedWatermark = some 270000000000 ∧
        v.db.windowComplete 120000000000 = false :=
    ⟨_, run_of_execute rfl, by decide, _, rfl, by decide, by decide, by decide⟩
  obtain ⟨s, hs, hidle, v, hv, hrow, hmem, hincomplete⟩ := hrun
  refine ⟨s, hs, hidle, v, hv, hrow, hmem, hincomplete, fun h => ?_⟩
  rw [h.complete 120000000000 (by decide) (by decide)] at hincomplete
  cases hincomplete

end Aggregator

end HushEngine
