import HushEngine.Fleet

/-!
The tables of one partition over a whole run. The upserts of a flush would
write any progress and any row; that they only move forward comes from the
memory of the owner, which is never behind the durable row, and from the batch
in flight, which only holds windows the durable watermark has not passed.
-/
namespace HushEngine

open Runs

/-- The partition's progress does not decrease, and the rows of the windows it has passed are
neither inserted nor modified. -/
structure Db.Advances (partition : Int) (u v : Db) : Prop where
  progress : ∀ pr, u.loadProgress partition = some pr → ∃ pr', v.loadProgress partition = some pr' ∧
    pr.committedOffset ≤ pr'.committedOffset ∧ pr.flushedWatermark ≤ pr'.flushedWatermark
  frozen : ∀ pr, u.loadProgress partition = some pr → ∀ k : AggKey, k.kpartition = partition →
    windowEnd k.windowStart ≤ pr.flushedWatermark → v.aggCells.lookup k = u.aggCells.lookup k

theorem Db.Advances.refl (partition : Int) (u : Db) : u.Advances partition u where
  progress pr hpr := ⟨pr, hpr, le_rfl, le_rfl⟩
  frozen _ _ _ _ _ := rfl

theorem Db.Advances.trans {partition : Int} {u v x : Db} (h : u.Advances partition v)
    (h' : v.Advances partition x) : u.Advances partition x where
  progress pr hpr := by
    obtain ⟨pr', hpr', hoffset, hwatermark⟩ := h.progress pr hpr
    obtain ⟨pr'', hpr'', hoffset', hwatermark'⟩ := h'.progress pr' hpr'
    exact ⟨pr'', hpr'', hoffset.trans hoffset', hwatermark.trans hwatermark'⟩
  frozen pr hpr k hk hend := by
    obtain ⟨pr', hpr', _, hwatermark⟩ := h.progress pr hpr
    rw [h'.frozen pr' hpr' k hk (hend.trans hwatermark), h.frozen pr hpr k hk hend]

theorem Db.SamePartition.advances {partition : Int} {u v : Db}
    (h : u.SamePartition partition v) : u.Advances partition v where
  progress pr hpr := ⟨pr, by rw [h.progress, hpr], le_rfl, le_rfl⟩
  frozen _ _ k hk _ := h.rows k hk

/-- Writing a batch that fits moves the partition forward. -/
theorem Batch.Fits.advances_flush {b : Batch} {db : Db} {partition : Int}
    (h : b.Fits (db.loadProgress partition)) :
    db.Advances partition (b.flush db partition) where
  progress pr hpr := ⟨_, b.flush_loadProgress db partition, h.progress pr hpr⟩
  frozen pr hpr k _ hend := h.flush_lookup k fun _ => ⟨pr, hpr, hend⟩

theorem Owner.advances_step {partition : Int} {s t : Owner} {a : Action}
    (hs : Owner.Steady partition s) (hstep : Owner.step partition s a = some t) :
    s.db.Advances partition t.db := by
  rcases Owner.step_db hstep with hdb | ⟨_, b, hb, hdb⟩ <;> rw [hdb]
  · exact .refl _ _
  · exact (hs.fits b hb).advances_flush

namespace Fleet

theorem advances_step {s t : Fleet} {a : FleetAction} (hs : s.Steady)
    (hstep : Fleet.step s a = some t) (q : Int) : s.db.Advances q t.db := by
  cases a with
  | start p hllEnabled now nowUtc =>
    obtain ⟨_, rfl⟩ := step_start hstep
    exact .refl _ _
  | act p b =>
    obtain ⟨w, o, hw, ho, rfl⟩ := step_act hstep
    by_cases hq : q = p
    · subst hq
      exact Owner.advances_step (hs q w hw) ho
    · exact (samePartition_of_step hq ho).advances

/-- Between any two points of a run, a partition's durable progress does not decrease and the rows
of the windows its durable watermark has passed stay as they are. -/
theorem durable_progress_monotone (db : Db) (before after : List FleetAction) (u v : Fleet)
    (hu : Run step free (idle db) before u) (hv : Run step free u after v) (partition : Int) :
    (∀ pr, u.db.loadProgress partition = some pr →
      ∃ pr', v.db.loadProgress partition = some pr' ∧
        pr.committedOffset ≤ pr'.committedOffset ∧ pr.flushedWatermark ≤ pr'.flushedWatermark) ∧
    ∀ pr, u.db.loadProgress partition = some pr → ∀ k : AggKey, k.kpartition = partition →
      windowEnd k.windowStart ≤ pr.flushedWatermark →
      v.db.aggCells.lookup k = u.db.aggCells.lookup k := by
  have hsteady : u.Steady :=
    hu.invariant (fun _ _ _ hs _ hstep => hs.step hstep) (steady_idle db)
  have hadvances : u.db.Advances partition v.db :=
    hv.related (fun s => Db.Advances.refl partition s.db) (fun _ _ _ h h' => h.trans h')
      (fun _ _ _ hs _ hstep => Steady.step hs hstep)
      (fun _ _ _ hs _ hstep => advances_step hs hstep partition) hsteady
  exact ⟨hadvances.progress, hadvances.frozen⟩

/-- One flush, then a lost one, a restart that takes event time back, and another flush. -/
def flushTwice : List FleetAction × List FleetAction :=
  ([.start 0 false 0 0, .act 0 (.deliver ⟨0, evt 1000000000 1 "u1"⟩ 0),
    .act 0 (.deliver ⟨1, evt 95000000000 2 "u1"⟩ 1), .act 0 .collect, .act 0 .commit],
   [.act 0 (.deliver ⟨2, evt 200000000000 3 "u1"⟩ 2), .act 0 .collect, .act 0 .fail,
    .act 0 (.crash 3 200000000000), .act 0 (.deliver ⟨1, evt 95000000000 2 "u1"⟩ 4),
    .act 0 (.deliver ⟨2, evt 200000000000 3 "u1"⟩ 5), .act 0 .collect, .act 0 .commit])

theorem durable_progress_monotone_flushTwice :
    ∃ u v : Fleet, Run step free (idle Db.empty) flushTwice.1 u ∧
      Run step free u flushTwice.2 v ∧
      u.db.loadProgress 0 = some ⟨1, 65000000000⟩ ∧
      v.db.loadProgress 0 = some ⟨2, 170000000000⟩ ∧
      v.db.aggCells.lookup ⟨0, CellKey.global, 0⟩ =
        u.db.aggCells.lookup ⟨0, CellKey.global, 0⟩ := by
  have hruns : ∃ u v : Fleet, Run step free (idle Db.empty) flushTwice.1 u ∧
      Run step free u flushTwice.2 v ∧ u.db.loadProgress 0 = some ⟨1, 65000000000⟩ ∧
      v.db.loadProgress 0 = some ⟨2, 170000000000⟩ :=
    ⟨_, _, run_of_execute rfl, run_of_execute rfl, by decide, by decide⟩
  obtain ⟨u, v, hu, hv, hbefore, hafter⟩ := hruns
  refine ⟨u, v, hu, hv, hbefore, hafter, ?_⟩
  exact (durable_progress_monotone Db.empty _ _ u v hu hv 0).2 _ hbefore _ rfl (by decide)

end Fleet

end HushEngine
