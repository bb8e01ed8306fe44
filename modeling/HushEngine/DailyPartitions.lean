import HushEngine.Sharded
import HushEngine.StatsQueries

/-!
How `agg_cells` is stored. The table is partitioned by the day of `window_start`
and starts with the catch-all partition only; `ensure_daily_partition` adds a
day. Flushes and reads are those of a single table whenever days are added, and
the rows of a window are read from one partition. A day can be added only until
its first row is flushed, and never after.
-/
namespace HushEngine

open Keyed

/-- The date of a timestamp in UTC, in days since 1970. -/
def dateOf (ts : Int) : Int := ts / oneDay

/-- The day whose range a row's `window_start` is in. -/
def AggKey.day (k : AggKey) : Int := dateOf k.windowStart

/-- The tables as the migrations lay them out. -/
structure PartitionedDb where
  aggCells : Sharded Int AggKey AggRow
  partitionProgress : Table Int PartitionProgress

namespace PartitionedDb

/-- After the first migration. -/
def empty : PartitionedDb := ⟨Sharded.empty, ∅⟩

def flushWindows (db : PartitionedDb) (partition : Int) (closed : List (Int × Window))
    (committedOffset : Nat) (flushedWatermark : Int) : PartitionedDb where
  aggCells := closed.foldl (fun t c =>
    (Db.windowRows partition c).foldl (Sharded.upsert AggKey.day) t) db.aggCells
  partitionProgress :=
    db.partitionProgress.insert partition ⟨committedOffset, flushedWatermark⟩

/-- Raises when the catch-all partition has rows of the day. -/
def ensureDailyPartition (db : PartitionedDb) (forDay : Int) : Option PartitionedDb :=
  (db.aggCells.attach AggKey.day forDay).map fun t => { db with aggCells := t }

end PartitionedDb

inductive TableAction
  | flush (partition : Int) (closed : List (Int × Window)) (committedOffset : Nat)
      (flushedWatermark : Int)
  | ensure (forDay : Int)

/-- A call that raises leaves the tables as they were. -/
def PartitionedDb.apply (db : PartitionedDb) : TableAction → PartitionedDb
  | .flush partition closed committedOffset flushedWatermark =>
    db.flushWindows partition closed committedOffset flushedWatermark
  | .ensure forDay => (db.ensureDailyPartition forDay).getD db

/-- The same on a single table, which has no days to add. -/
def Db.apply (db : Db) : TableAction → Db
  | .flush partition closed committedOffset flushedWatermark =>
    db.flushWindows partition closed committedOffset flushedWatermark
  | .ensure _ => db

/-- The partitions hold what the single table holds. -/
structure PartitionedDb.Represents (s : PartitionedDb) (db : Db) : Prop where
  cells : Sharded.Lays AggKey.day s.aggCells db.aggCells
  progress : s.partitionProgress = db.partitionProgress

namespace PartitionedDb

variable {s : PartitionedDb} {db : Db}

theorem represents_empty : empty.Represents Db.empty := ⟨Sharded.lays_empty _, rfl⟩

theorem aggCells_flushWindows (s : PartitionedDb) (partition : Int)
    (closed : List (Int × Window)) (committedOffset : Nat) (flushedWatermark : Int) :
    (s.flushWindows partition closed committedOffset flushedWatermark).aggCells =
      (closed.flatMap (Db.windowRows partition)).foldl (Sharded.upsert AggKey.day)
        s.aggCells := by
  rw [List.foldl_flatMap]
  rfl

theorem ensureDailyPartition_eq_some {s' : PartitionedDb} {forDay : Int}
    (h : s.ensureDailyPartition forDay = some s') :
    s.aggCells.attach AggKey.day forDay = some s'.aggCells ∧
      s'.partitionProgress = s.partitionProgress := by
  obtain ⟨t, ht, rfl⟩ := Option.map_eq_some_iff.mp h
  exact ⟨ht, rfl⟩

theorem Represents.apply (h : s.Represents db) (a : TableAction) :
    (s.apply a).Represents (db.apply a) := by
  cases a with
  | flush partition closed committedOffset flushedWatermark =>
    constructor
    · unfold PartitionedDb.apply Db.apply
      dsimp only
      rw [aggCells_flushWindows, Db.flushWindows_aggCells]
      exact h.cells.upserts _
    · exact congrArg (fun progress : Table Int PartitionProgress =>
        progress.insert partition ⟨committedOffset, flushedWatermark⟩) h.progress
  | ensure forDay =>
    unfold PartitionedDb.apply Db.apply
    dsimp only
    cases hensure : s.ensureDailyPartition forDay with
    | none => exact h
    | some s' =>
      obtain ⟨hattach, hprogress⟩ := ensureDailyPartition_eq_some hensure
      exact ⟨h.cells.attach hattach, hprogress.trans h.progress⟩

/-- A day that has a row and no partition. -/
def Missed (s : PartitionedDb) (db : Db) (forDay : Int) : Prop :=
  s.aggCells.leaves.lookup forDay = none ∧
    ∃ k : AggKey, k.day = forDay ∧ (db.aggCells.lookup k).isSome

theorem Represents.ensure_eq_none_iff (h : s.Represents db) (forDay : Int) :
    s.ensureDailyPartition forDay = none ↔ s.Missed db forDay := by
  rw [ensureDailyPartition, Option.map_eq_none_iff, h.cells.attach_eq_none_iff, Missed]

theorem Missed.apply (h : s.Represents db) {forDay : Int} (hmissed : s.Missed db forDay)
    (a : TableAction) : (s.apply a).Missed (db.apply a) forDay := by
  obtain ⟨hnone, k, hday, hrow⟩ := hmissed
  cases a with
  | flush partition closed committedOffset flushedWatermark =>
    refine ⟨?_, k, hday, Db.flushWindows_isSome _ _ _ _ _ k hrow⟩
    unfold PartitionedDb.apply
    dsimp only
    rw [aggCells_flushWindows, ← Option.not_isSome_iff_eq_none, Sharded.isSome_leaves_upserts,
      hnone]
    simp
  | ensure other =>
    refine ⟨?_, k, hday, hrow⟩
    unfold PartitionedDb.apply
    dsimp only
    cases hensure : s.ensureDailyPartition other with
    | none => exact hnone
    | some s' =>
      have hne : forDay ≠ other := by
        rintro rfl
        rw [(h.ensure_eq_none_iff forDay).mpr ⟨hnone, k, hday, hrow⟩] at hensure
        cases hensure
      rw [Option.getD_some,
        Sharded.lookup_leaves_attach (ensureDailyPartition_eq_some hensure).1 hne, hnone]

/-- The tables after flushes and additions of days in any order, from empty ones. -/
def after (actions : List TableAction) : PartitionedDb := actions.foldl PartitionedDb.apply empty

theorem after_concat (actions : List TableAction) (a : TableAction) :
    after (actions ++ [a]) = (after actions).apply a :=
  List.foldl_concat PartitionedDb.apply empty a actions

end PartitionedDb

def Db.after (actions : List TableAction) : Db := actions.foldl Db.apply Db.empty

theorem Db.after_concat (actions : List TableAction) (a : TableAction) :
    Db.after (actions ++ [a]) = (Db.after actions).apply a :=
  List.foldl_concat Db.apply Db.empty a actions

namespace PartitionedDb

theorem represents_after (actions : List TableAction) :
    (after actions).Represents (Db.after actions) := by
  induction actions using List.reverseRecOn with
  | nil => exact represents_empty
  | append_singleton actions a ih =>
    rw [after_concat, Db.after_concat]
    exact ih.apply a

theorem Missed.after {actions : List TableAction} {forDay : Int}
    (h : (after actions).Missed (Db.after actions) forDay) (later : List TableAction) :
    (PartitionedDb.after (actions ++ later)).Missed (Db.after (actions ++ later)) forDay := by
  induction later using List.reverseRecOn with
  | nil => rwa [List.append_nil]
  | append_singleton later a ih =>
    rw [← List.append_assoc, after_concat, Db.after_concat]
    exact ih.apply (represents_after _) a

/-- Whatever is flushed and whenever days are added, the partitions together are the single table,
the rows a request reads are in the partition of its day, and adding a day raises exactly when it
has been missed, from then on always. -/
theorem daily_partitions_invisible (actions : List TableAction) :
    (after actions).partitionProgress = (Db.after actions).partitionProgress ∧
    (after actions).aggCells.scan.Perm (rows (Db.after actions).aggCells) ∧
    (∀ w key,
      ((rows ((after actions).aggCells.leafOf (dateOf w))).filter fun r =>
        decide (r.1.group = ⟨w, key⟩)).Perm ((Db.after actions).cellRows w key) ∧
      ((rows ((after actions).aggCells.leafOf (dateOf w))).filter fun r =>
        isChildRow w key r.1).Perm ((Db.after actions).childRows w key)) ∧
    ∀ forDay, ((after actions).ensureDailyPartition forDay = none ↔
        (after actions).Missed (Db.after actions) forDay) ∧
      ((after actions).ensureDailyPartition forDay = none →
        ∀ later, (after (actions ++ later)).ensureDailyPartition forDay = none) := by
  have h := represents_after actions
  refine ⟨h.progress, h.cells.scan_perm, fun w key => ⟨?_, ?_⟩, fun forDay => ?_⟩
  · refine h.cells.filter_leafOf_perm (fun k => decide (k.group = ⟨w, key⟩)) fun k hk => ?_
    have hgroup : k.group = ⟨w, key⟩ := of_decide_eq_true hk
    exact congrArg dateOf (GroupKey.mk.inj hgroup).1
  · refine h.cells.filter_leafOf_perm (isChildRow w key) fun k hk => ?_
    simp only [isChildRow, Bool.and_eq_true, decide_eq_true_eq] at hk
    exact congrArg dateOf hk.1.1
  · refine ⟨h.ensure_eq_none_iff forDay, fun hraises later => ?_⟩
    have hmissed := (h.ensure_eq_none_iff forDay).mp hraises
    exact ((represents_after _).ensure_eq_none_iff forDay).mpr (hmissed.after later)

/-- A window of the second day, flushed before the day was added. -/
def flushedTooEarly : List TableAction :=
  [.ensure 0, .flush 0 [(oneDay, (Window.new 0).fold (evt oneDay 1 "u1") 0 false)] 1 oneDay]

example : (after flushedTooEarly).ensureDailyPartition 1 = none ∧
    ((after flushedTooEarly).ensureDailyPartition 2).isSome := by
  decide

end PartitionedDb

end HushEngine
