import HushEngine.Store

/-!
What the flush loop and the rebalance callbacks do with one partition: take a
batch out of its state, write the batch, and resume from the stored progress.
The invariants here assume nothing about time or delivery order; they say that
memory is never behind the durable row and that flushed windows stay closed.
-/
namespace HushEngine

open Keyed

/-- What the flush loop carries from the locked states to `flushWindows`. -/
structure Batch where
  closed : List (Int × Window)
  committedOffset : Nat
  flushedWatermark : Int
deriving DecidableEq

namespace PartitionState

/-- One partition's turn in the scan of the flush loop. -/
def collectBatch (ps : PartitionState) : PartitionState × Option Batch :=
  let ps' := ps.takeClosedWindows.1
  let closed := ps.takeClosedWindows.2
  if closed.isEmpty then (ps', none)
  else (ps', some ⟨closed, ps'.committedOffset, ps'.flushedWatermark⟩)

/-- The state `post_rebalance` inserts for a newly assigned partition. -/
def postRebalance (db : Db) (partition : Int) (hllEnabled : Bool) (now : Nat) (nowUtc : Int) :
    PartitionState :=
  match db.loadProgress partition with
  | some p => (resumeFrom partition p.committedOffset p.flushedWatermark now).withHllEnabled
      hllEnabled
  | none => (resumeFrom partition 0 (nowUtc - oneDay) now).withHllEnabled hllEnabled

/-- What holds of the open windows of every state the aggregator can build. -/
structure WellFormed (ps : PartitionState) : Prop where
  open_end : ∀ w win, ps.openWindows.lookup w = some win → ps.flushedWatermark < windowEnd w
  open_offset : ∀ w win, ps.openWindows.lookup w = some win → win.minOffset < ps.nextOffset
  open_aligned : ∀ w win, ps.openWindows.lookup w = some win → Aligned w
  open_global : ∀ w win, ps.openWindows.lookup w = some win →
    (win.cells.lookup CellKey.global).isSome

theorem wellFormed_of_no_windows (ps : PartitionState) (h : ps.openWindows = ∅) :
    ps.WellFormed := by
  constructor <;> intro w win hwin <;> rw [h] at hwin <;> cases hwin

theorem postRebalance_openWindows (db : Db) (partition : Int) (hllEnabled : Bool) (now : Nat)
    (nowUtc : Int) : (postRebalance db partition hllEnabled now nowUtc).openWindows = ∅ := by
  unfold postRebalance
  split <;> rfl

theorem postRebalance_hllEnabled (db : Db) (partition : Int) (hllEnabled : Bool) (now : Nat)
    (nowUtc : Int) :
    (postRebalance db partition hllEnabled now nowUtc).hllEnabled = hllEnabled := by
  unfold postRebalance
  split <;> rfl

theorem wellFormed_postRebalance (db : Db) (partition : Int) (hllEnabled : Bool) (now : Nat)
    (nowUtc : Int) : (postRebalance db partition hllEnabled now nowUtc).WellFormed :=
  wellFormed_of_no_windows _ (postRebalance_openWindows ..)

theorem fold_global_isSome (win : Window) (e : Event) (offset : Nat) (hllEnabled : Bool) :
    ((win.fold e offset hllEnabled).cells.lookup CellKey.global).isSome := by
  unfold Window.fold
  rw [lookup_modifyAll _ _ _ _ (CellKey.nodup_cellsForEvent e),
    if_pos (CellKey.global_mem_cellsForEvent e)]
  rfl

theorem WellFormed.of_lookup_eq {ps ps' : PartitionState} (h : ps.WellFormed)
    (hwatermark : ps'.flushedWatermark = ps.flushedWatermark)
    (hoffset : ps.nextOffset ≤ ps'.nextOffset)
    (hlook : ∀ w, ps'.openWindows.lookup w = ps.openWindows.lookup w) : ps'.WellFormed := by
  constructor <;> intro w win hwin <;> rw [hlook] at hwin
  · rw [hwatermark]
    exact h.open_end w win hwin
  · exact (h.open_offset w win hwin).trans_le hoffset
  · exact h.open_aligned w win hwin
  · exact h.open_global w win hwin

theorem WellFormed.processEvent {ps : PartitionState} (h : ps.WellFormed) (e : Event)
    (offset now : Nat) (hoffset : ps.nextOffset ≤ offset) :
    (ps.processEvent e offset now).1.WellFormed := by
  have hnext : ps.nextOffset ≤ (ps.processEvent e offset now).1.nextOffset := by
    rw [processEvent_nextOffset]
    omega
  rcases ps.processEvent_cases e offset now with
    ⟨_, _, hlook⟩ | ⟨_, _, _, hlook⟩ | ⟨_, hend, _, hlook⟩
  · exact h.of_lookup_eq (by simp) hnext hlook
  · exact h.of_lookup_eq (by simp) hnext hlook
  · constructor <;> intro w win hwin <;> rw [hlook] at hwin <;> split_ifs at hwin with hw
    · subst hw
      simpa using hend
    · simpa using h.open_end w win hwin
    · cases hwin
      simp only [processEvent_nextOffset, Window.fold]
      omega
    · exact (h.open_offset w win hwin).trans_le hnext
    · subst hw
      exact aligned_windowStart e.ts
    · exact h.open_aligned w win hwin
    · cases hwin
      exact fold_global_isSome _ _ _ _
    · exact h.open_global w win hwin

theorem WellFormed.tickIdle {ps : PartitionState} (h : ps.WellFormed) (nowWall : Nat)
    (nowUtc : Int) : (ps.tickIdle nowWall nowUtc).WellFormed :=
  h.of_lookup_eq (by simp) (by simp) fun w => by rw [tickIdle_openWindows]

theorem lookup_of_takeClosedWindows {ps : PartitionState} {w : Int} {win : Window}
    (h : ps.takeClosedWindows.1.openWindows.lookup w = some win) :
    ps.openWindows.lookup w = some win ∧ ps.watermark < windowEnd w := by
  rw [takeClosedWindows_lookup] at h
  split_ifs at h with hend
  exact ⟨h, by omega⟩

theorem WellFormed.takeClosedWindows {ps : PartitionState} (h : ps.WellFormed) :
    ps.takeClosedWindows.1.WellFormed := by
  constructor <;> intro w win hwin <;> obtain ⟨hlook, hlt⟩ := lookup_of_takeClosedWindows hwin
  · have := h.open_end w win hlook
    rw [takeClosedWindows_flushedWatermark]
    omega
  · exact h.open_offset w win hlook
  · exact h.open_aligned w win hlook
  · exact h.open_global w win hlook

theorem WellFormed.le_committedOffset_iff {ps : PartitionState} (h : ps.WellFormed) (n : Nat) :
    n ≤ ps.committedOffset ↔ n ≤ ps.nextOffset ∧
      ∀ w win, ps.openWindows.lookup w = some win → n ≤ win.minOffset :=
  ps.le_committedOffset_iff n fun w win hwin => (h.open_offset w win hwin).le

theorem WellFormed.committedOffset_le {ps : PartitionState} (h : ps.WellFormed) :
    ps.committedOffset ≤ ps.nextOffset :=
  ((h.le_committedOffset_iff _).mp le_rfl).1

/-- Consuming a message at or after the resume point never moves the resume point back. -/
theorem WellFormed.committedOffset_le_processEvent {ps : PartitionState} (h : ps.WellFormed)
    (e : Event) (offset now : Nat) (hoffset : ps.nextOffset ≤ offset) :
    ps.committedOffset ≤ (ps.processEvent e offset now).1.committedOffset := by
  have hle := h.committedOffset_le
  rw [(h.processEvent e offset now hoffset).le_committedOffset_iff]
  refine ⟨by simp only [processEvent_nextOffset]; omega, fun w win hwin => ?_⟩
  rcases ps.processEvent_cases e offset now with
    ⟨_, _, hlook⟩ | ⟨_, _, _, hlook⟩ | ⟨_, _, _, hlook⟩
  · exact ps.committedOffset_le_minOffset w win (by rwa [hlook] at hwin)
  · exact ps.committedOffset_le_minOffset w win (by rwa [hlook] at hwin)
  · rw [hlook] at hwin
    split_ifs at hwin with hw
    · cases hwin
      have hfor : ps.committedOffset ≤ (ps.windowFor e.window offset).minOffset := by
        unfold windowFor
        cases hlk : ps.openWindows.lookup e.window with
        | none => simpa [Window.new] using hle.trans hoffset
        | some win => exact ps.committedOffset_le_minOffset _ win hlk
      simp only [Window.fold]
      omega
    · exact ps.committedOffset_le_minOffset w win hwin

theorem WellFormed.committedOffset_le_takeClosedWindows {ps : PartitionState}
    (h : ps.WellFormed) :
    ps.committedOffset ≤ ps.takeClosedWindows.1.committedOffset := by
  rw [h.takeClosedWindows.le_committedOffset_iff]
  refine ⟨h.committedOffset_le, fun w win hwin => ?_⟩
  exact ps.committedOffset_le_minOffset w win (lookup_of_takeClosedWindows hwin).1

end PartitionState

/-- Every row of the partition belongs to a window the stored watermark has passed. -/
def Db.RowsCovered (db : Db) (partition : Int) : Prop :=
  ∀ k row, k.kpartition = partition → db.aggCells.lookup k = some row →
    ∃ pr, db.loadProgress partition = some pr ∧ windowEnd k.windowStart ≤ pr.flushedWatermark

/-- Memory is not behind a progress row, the durable one or another. -/
def PartitionState.Ahead (ps : PartitionState) (base : Option PartitionProgress) : Prop :=
  ∀ pr, base = some pr →
    pr.flushedWatermark ≤ ps.flushedWatermark ∧ pr.committedOffset ≤ ps.committedOffset

namespace Batch

def flush (b : Batch) (db : Db) (partition : Int) : Db :=
  db.flushWindows partition b.closed b.committedOffset b.flushedWatermark

@[simp] theorem flush_loadProgress (b : Batch) (db : Db) (partition : Int) :
    (b.flush db partition).loadProgress partition =
      some ⟨b.committedOffset, b.flushedWatermark⟩ :=
  Db.flushWindows_loadProgress ..

/-- A batch whose write over the progress row moves the durable state forward only. -/
structure Fits (b : Batch) (base : Option PartitionProgress) : Prop where
  nodup : (b.closed.map Prod.fst).Nodup
  closed_end : ∀ c ∈ b.closed, windowEnd c.1 ≤ b.flushedWatermark
  closed_aligned : ∀ c ∈ b.closed, Aligned c.1
  closed_global : ∀ c ∈ b.closed, (c.2.cells.lookup CellKey.global).isSome
  nonempty : b.closed ≠ []
  progress : ∀ pr, base = some pr →
    pr.committedOffset ≤ b.committedOffset ∧ pr.flushedWatermark ≤ b.flushedWatermark
  closed_after : ∀ pr, base = some pr → ∀ c ∈ b.closed, pr.flushedWatermark < windowEnd c.1

/-- The batch was taken from this state, which has only consumed messages since. -/
structure TakenFrom (b : Batch) (ps : PartitionState) : Prop where
  watermark : b.flushedWatermark = ps.flushedWatermark
  offset : b.committedOffset ≤ ps.committedOffset

/-- A row of a window the stored watermark has passed is not touched by the next flush. -/
theorem Fits.flush_lookup {b : Batch} {db : Db} {partition : Int}
    (h : b.Fits (db.loadProgress partition))
    (k : AggKey) (hk : k.kpartition = partition → ∃ pr, db.loadProgress partition = some pr ∧
      windowEnd k.windowStart ≤ pr.flushedWatermark) :
    (b.flush db partition).aggCells.lookup k = db.aggCells.lookup k := by
  apply Db.flushWindows_lookup_of_not_mem
  intro hp hmem
  obtain ⟨pr, hpr, hle⟩ := hk hp
  obtain ⟨c, hc, heq⟩ := List.mem_map.mp hmem
  have := h.closed_after pr hpr c hc
  rw [heq] at this
  omega

theorem Fits.rowsCovered_flush {b : Batch} {db : Db} {partition : Int}
    (h : b.Fits (db.loadProgress partition)) (hrows : db.RowsCovered partition) :
    (b.flush db partition).RowsCovered partition := by
  intro k row hp hlook
  refine ⟨_, b.flush_loadProgress db partition, ?_⟩
  by_cases hmem : k.windowStart ∈ b.closed.map Prod.fst
  · obtain ⟨c, hc, heq⟩ := List.mem_map.mp hmem
    rw [← heq]
    exact h.closed_end c hc
  · rw [show (b.flush db partition).aggCells.lookup k = db.aggCells.lookup k from
      Db.flushWindows_lookup_of_not_mem _ _ _ _ _ k fun _ => hmem] at hlook
    obtain ⟨pr, hpr, hle⟩ := hrows k row hp hlook
    exact hle.trans (h.progress pr hpr).2

theorem TakenFrom.ahead {b : Batch} {ps : PartitionState} (h : b.TakenFrom ps) :
    ps.Ahead (some ⟨b.committedOffset, b.flushedWatermark⟩) := by
  intro pr hpr
  cases hpr
  exact ⟨h.watermark.le, h.offset⟩

theorem TakenFrom.processEvent {b : Batch} {ps : PartitionState} (h : b.TakenFrom ps)
    (hps : ps.WellFormed) (e : Event) (offset now : Nat) (hoffset : ps.nextOffset ≤ offset) :
    b.TakenFrom (ps.processEvent e offset now).1 where
  watermark := by simpa using h.watermark
  offset := h.offset.trans (hps.committedOffset_le_processEvent e offset now hoffset)

theorem TakenFrom.tickIdle {b : Batch} {ps : PartitionState} (h : b.TakenFrom ps)
    (nowWall : Nat) (nowUtc : Int) : b.TakenFrom (ps.tickIdle nowWall nowUtc) where
  watermark := by simpa using h.watermark
  offset := by simpa using h.offset

end Batch

namespace PartitionState

theorem Ahead.tickIdle {ps : PartitionState} {base : Option PartitionProgress}
    (h : ps.Ahead base) (nowWall : Nat) (nowUtc : Int) :
    (ps.tickIdle nowWall nowUtc).Ahead base := by
  intro pr hpr
  simpa using h pr hpr

theorem Ahead.processEvent {ps : PartitionState} {base : Option PartitionProgress}
    (h : ps.Ahead base) (hps : ps.WellFormed) (e : Event) (offset now : Nat)
    (hoffset : ps.nextOffset ≤ offset) : (ps.processEvent e offset now).1.Ahead base := by
  intro pr hpr
  obtain ⟨hwm, hoff⟩ := h pr hpr
  exact ⟨by simpa using hwm,
    hoff.trans (hps.committedOffset_le_processEvent e offset now hoffset)⟩

theorem Ahead.takeClosedWindows {ps : PartitionState} {base : Option PartitionProgress}
    (h : ps.Ahead base) (hps : ps.WellFormed) :
    ps.takeClosedWindows.1.Ahead base := by
  intro pr hpr
  obtain ⟨hwm, hoff⟩ := h pr hpr
  refine ⟨?_, hoff.trans hps.committedOffset_le_takeClosedWindows⟩
  rw [takeClosedWindows_flushedWatermark]
  omega

theorem ahead_postRebalance (db : Db) (partition : Int) (hllEnabled : Bool) (now : Nat)
    (nowUtc : Int) :
    (postRebalance db partition hllEnabled now nowUtc).Ahead (db.loadProgress partition) := by
  intro pr hpr
  unfold postRebalance
  rw [hpr]
  exact ⟨le_rfl, le_rfl⟩

@[simp] theorem collectBatch_fst (ps : PartitionState) :
    ps.collectBatch.1 = ps.takeClosedWindows.1 := by
  unfold collectBatch
  dsimp only
  split_ifs <;> rfl

/-- The batch, when there is one, is the closed windows with the checkpoint after them. -/
theorem collectBatch_snd_eq_some {ps : PartitionState} {b : Batch}
    (h : ps.collectBatch.2 = some b) :
    ps.takeClosedWindows.2 ≠ [] ∧ b = ⟨ps.takeClosedWindows.2,
      ps.takeClosedWindows.1.committedOffset, ps.takeClosedWindows.1.flushedWatermark⟩ := by
  unfold collectBatch at h
  dsimp only at h
  split_ifs at h with hempty
  cases h
  exact ⟨by simpa using hempty, rfl⟩

theorem collectBatch_snd_eq_none {ps : PartitionState} (h : ps.collectBatch.2 = none) :
    ps.takeClosedWindows.2 = [] := by
  unfold collectBatch at h
  dsimp only at h
  split_ifs at h with hempty
  exact List.isEmpty_iff.mp hempty

theorem takenFrom_collectBatch {ps : PartitionState} {b : Batch}
    (h : ps.collectBatch.2 = some b) : b.TakenFrom ps.collectBatch.1 := by
  obtain ⟨_, rfl⟩ := collectBatch_snd_eq_some h
  rw [collectBatch_fst]
  exact ⟨rfl, le_rfl⟩

theorem WellFormed.fits_collectBatch {ps : PartitionState} {base : Option PartitionProgress}
    {b : Batch} (hps : ps.WellFormed) (hahead : ps.Ahead base)
    (h : ps.collectBatch.2 = some b) : b.Fits base := by
  obtain ⟨hne, rfl⟩ := collectBatch_snd_eq_some h
  constructor
  case nodup => exact ps.nodup_takeClosedWindows
  case closed_end =>
    intro h hc
    obtain ⟨w, win⟩ := h
    have := ((ps.mem_takeClosedWindows w win).mp hc).2
    simp only [takeClosedWindows_flushedWatermark]
    omega
  case closed_aligned =>
    intro h hc
    obtain ⟨w, win⟩ := h
    exact hps.open_aligned w win ((ps.mem_takeClosedWindows w win).mp hc).1
  case closed_global =>
    intro h hc
    obtain ⟨w, win⟩ := h
    exact hps.open_global w win ((ps.mem_takeClosedWindows w win).mp hc).1
  case nonempty => exact hne
  case progress =>
    intro pr hpr
    exact ((hahead.takeClosedWindows hps) pr hpr).symm
  case closed_after =>
    intro pr hpr h hc
    obtain ⟨w, win⟩ := h
    have hopen := hps.open_end w win ((ps.mem_takeClosedWindows w win).mp hc).1
    exact lt_of_le_of_lt (hahead pr hpr).1 hopen

end PartitionState

end HushEngine
