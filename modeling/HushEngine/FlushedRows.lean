import HushEngine.SingleOwner

/-!
From windows to rows. A flush that fits writes for each of its windows exactly
the tally of the events the window stands for. As long as no batch has been
lost, every accepted event whose window was handed over is in the batch or in
the rows; a lost batch is noticed by nobody until the next checkpoint covers it.
-/
namespace HushEngine

open Tally

/-- The stored watermark of the partition has passed the window. -/
def Db.Settled (db : Db) (partition : Int) (w : Int) : Prop :=
  ∃ pr, db.loadProgress partition = some pr ∧ windowEnd w ≤ pr.flushedWatermark

/-- The rows of the window are in the table; every window has a global cell. -/
def Db.Durable (db : Db) (partition : Int) (w : Int) : Prop :=
  (db.aggCells.lookup ⟨w, CellKey.global, partition⟩).isSome

instance (db : Db) (partition w : Int) : Decidable (db.Durable partition w) := by
  unfold Db.Durable
  infer_instance

theorem Db.RowsCovered.settled {db : Db} {partition w : Int} (h : db.RowsCovered partition)
    (hw : db.Durable partition w) : db.Settled partition w := by
  obtain ⟨row, hrow⟩ := Option.isSome_iff_exists.mp hw
  exact h _ row rfl hrow

/-- The totals the stored row of a cell shows, if there is a row. -/
def Db.rowTotals (db : Db) (partition : Int) (w : Int) (key : CellKey) : Option Totals :=
  (db.aggCells.lookup ⟨w, key, partition⟩).map AggRow.totals

theorem Db.RowsCovered.rowTotals_eq_none {db : Db} {partition : Int}
    (h : db.RowsCovered partition) {w : Int} (hw : ¬ db.Settled partition w) (key : CellKey) :
    db.rowTotals partition w key = none := by
  unfold rowTotals
  cases hlook : db.aggCells.lookup ⟨w, key, partition⟩ with
  | none => rfl
  | some row => exact absurd (h _ row rfl hlook) hw

theorem Db.rowsCovered_empty (partition : Int) : Db.empty.RowsCovered partition := by
  intro k row _ hlook
  cases hlook

/-- A flush of a window that has no rows yet leaves the tally of its events behind. -/
theorem Db.rowTotals_flushWindows {db : Db} {partition : Int} {closed : List (Int × Window)}
    (committedOffset : Nat) (flushedWatermark : Int) (hnodup : (closed.map Prod.fst).Nodup)
    {c : Int × Window} (hc : c ∈ closed)
    (hnone : ∀ key, db.rowTotals partition c.1 key = none) {s : Finset Event} (hs : c.2.Holds s)
    (key : CellKey) :
    (db.flushWindows partition closed committedOffset flushedWatermark).rowTotals partition c.1
      key = cellTally s key := by
  have hrow := db.flushWindows_lookup_window partition closed committedOffset flushedWatermark
    hnodup hc key
  have hempty := hnone key
  unfold Db.rowTotals at hempty ⊢
  rw [← hs.row_totals key, hrow, Window.rowOf]
  cases c.2.cells.lookup key with
  | some agg => rfl
  | none => exact hempty

namespace Batch

theorem settled_flush_iff (b : Batch) (db : Db) (partition w : Int) :
    (b.flush db partition).Settled partition w ↔ windowEnd w ≤ b.flushedWatermark := by
  unfold Db.Settled
  constructor
  · intro h
    obtain ⟨pr, hpr, hle⟩ := h
    rw [flush_loadProgress] at hpr
    cases hpr
    exact hle
  · exact fun hle => ⟨_, b.flush_loadProgress db partition, hle⟩

/-- Rows of settled windows keep their totals. -/
theorem Fits.rowTotals_of_settled {b : Batch} {db : Db} {partition w : Int}
    (h : b.Fits (db.loadProgress partition)) (hw : db.Settled partition w) (key : CellKey) :
    (b.flush db partition).rowTotals partition w key = db.rowTotals partition w key := by
  unfold Db.rowTotals
  rw [h.flush_lookup ⟨w, key, partition⟩ fun _ => hw]

theorem Fits.not_settled {b : Batch} {db : Db} {partition : Int}
    (h : b.Fits (db.loadProgress partition))
    {c : Int × Window} (hc : c ∈ b.closed) : ¬ db.Settled partition c.1 := by
  intro hparts
  obtain ⟨pr, hpr, hle⟩ := hparts
  have := h.closed_after pr hpr c hc
  omega

theorem rowTotals_flush_of_not_mem (b : Batch) (db : Db) {partition w : Int}
    (hw : w ∉ b.closed.map Prod.fst) (key : CellKey) :
    (b.flush db partition).rowTotals partition w key = db.rowTotals partition w key := by
  unfold Db.rowTotals flush
  rw [Db.flushWindows_lookup_of_not_mem _ _ _ _ _ ⟨w, key, partition⟩ fun _ => hw]

/-- A flushed window leaves the tally of its events behind. -/
theorem Fits.rowTotals_flush {b : Batch} {db : Db} {partition : Int}
    (h : b.Fits (db.loadProgress partition))
    (hrows : db.RowsCovered partition) {c : Int × Window} (hc : c ∈ b.closed)
    {s : Finset Event} (hs : c.2.Holds s) (key : CellKey) :
    (b.flush db partition).rowTotals partition c.1 key = cellTally s key :=
  Db.rowTotals_flushWindows _ _ h.nodup hc (hrows.rowTotals_eq_none (h.not_settled hc)) hs key

theorem durable_flush (b : Batch) {db : Db} {partition w : Int} (hw : db.Durable partition w) :
    (b.flush db partition).Durable partition w :=
  Db.flushWindows_isSome _ _ _ _ _ _ hw

theorem Fits.durable_flush_of_mem {b : Batch} {db : Db} {partition w : Int}
    (h : b.Fits (db.loadProgress partition)) (hw : w ∈ b.closed.map Prod.fst) :
    (b.flush db partition).Durable partition w := by
  obtain ⟨⟨w, win⟩, hc, rfl⟩ := List.mem_map.mp hw
  obtain ⟨agg, hagg⟩ := Option.isSome_iff_exists.mp (h.closed_global _ hc)
  have hrow := Db.flushWindows_lookup db partition b.closed b.committedOffset
    b.flushedWatermark h.nodup ⟨w, CellKey.global, partition⟩ agg.toRow win agg rfl hc hagg rfl
  exact Option.isSome_iff_exists.mpr ⟨_, hrow⟩

end Batch

namespace Owner

/-- Every accepted event handed to the flush loop is in the batch or durable. -/
def Conserved (partition : Int) (s : Owner) : Prop :=
  ∀ m ∈ s.accepted, windowEnd m.window ≤ s.mem.flushedWatermark →
    (∃ b, s.batch = some b ∧ m.window ∈ b.closed.map Prod.fst) ∨ s.db.Settled partition m.window

/-- The rows of the settled windows this incarnation has filled are exact. -/
def ExactRows (partition : Int) (s : Owner) : Prop :=
  ∀ m ∈ s.accepted, s.db.Settled partition m.window →
    ∀ key, s.db.rowTotals partition m.window key = cellTally (eventsIn s.accepted m.window) key

theorem Sound.not_settled_of_lt {partition : Int} {s : Owner} (hs : Sound partition s) {w : Int}
    (hw : s.mem.flushedWatermark < windowEnd w) : ¬ s.db.Settled partition w := by
  intro h
  obtain ⟨pr, hpr, hle⟩ := h
  have := (hs.ahead pr hpr).1
  omega

theorem Conserved.step {partition : Int} {s t : Owner} {a : Action}
    (h : Conserved partition s) (hs : Sound partition s) (hc : Contents partition s)
    (hfail : a ≠ .fail) (hstep : Owner.step partition s a = some t) :
    Conserved partition t := by
  cases a with
  | deliver m now =>
    obtain ⟨_, rfl⟩ := step_deliver hstep
    intro m' hm' hle
    have hwm : (s.toWorker.consume m now).mem.flushedWatermark = s.mem.flushedWatermark :=
      s.mem.processEvent_flushedWatermark m.event m.offset now
    dsimp only at hm' hle ⊢
    rw [hwm] at hle
    rcases consume_cases s m now with ⟨_, hacc, _⟩ | ⟨hacc, hend, _, _⟩
    · rw [hacc] at hm'
      exact h m' hm' hle
    · rw [hacc] at hm'
      rcases List.mem_cons.mp hm' with rfl | hold
      · omega
      · exact h m' hold hle
  | tickIdle nowWall nowUtc =>
    obtain rfl := step_tickIdle hstep
    intro m hm hle
    exact h m hm (by simpa using hle)
  | collect =>
    obtain ⟨hnone, rfl⟩ := step_collect hstep
    intro m hm hle
    dsimp only at hle ⊢
    rw [PartitionState.collectBatch_fst, PartitionState.takeClosedWindows_flushedWatermark]
      at hle
    by_cases hbefore : windowEnd m.window ≤ s.mem.flushedWatermark
    · rcases h m hm hbefore with ⟨b, hb, _⟩ | hsettled
      · rw [hnone] at hb
        cases hb
      · exact Or.inr hsettled
    · obtain ⟨win, hwin, _⟩ := hc.still_open m hm (by omega)
      have hmem := (s.mem.mem_takeClosedWindows m.window win).mpr ⟨hwin, by omega⟩
      cases hbatch : s.mem.collectBatch.2 with
      | none =>
        rw [PartitionState.collectBatch_snd_eq_none hbatch] at hmem
        cases hmem
      | some b =>
        obtain ⟨_, rfl⟩ := PartitionState.collectBatch_snd_eq_some hbatch
        exact Or.inl ⟨_, rfl, List.mem_map.mpr ⟨_, hmem, rfl⟩⟩
  | commit =>
    obtain ⟨b, hb, rfl⟩ := step_commit hstep
    intro m hm hle
    right
    dsimp only at hle ⊢
    rw [Batch.settled_flush_iff, (hs.taken b hb).watermark]
    exact hle
  | fail => exact absurd rfl hfail
  | crash now nowUtc =>
    obtain rfl := step_crash hstep
    intro m hm
    cases hm

/-- Only a commit can spoil exactness, and only after a batch has been lost. -/
theorem ExactRows.step {partition : Int} {s t : Owner} {a : Action}
    (h : ExactRows partition s) (hs : Sound partition s) (hc : Contents partition s)
    (hcommit : a = .commit → Conserved partition s)
    (hstep : Owner.step partition s a = some t) : ExactRows partition t := by
  cases a with
  | deliver m now =>
    obtain ⟨_, rfl⟩ := step_deliver hstep
    intro m' hm' hsettled key
    dsimp only at hm' hsettled ⊢
    rcases consume_cases s m now with ⟨_, hacc, _⟩ | ⟨hacc, hend, _, _⟩
    · rw [hacc] at hm' ⊢
      exact h m' hm' hsettled key
    · have hnot := hs.not_settled_of_lt hend
      rw [hacc] at hm' ⊢
      rcases List.mem_cons.mp hm' with rfl | hold
      · exact absurd hsettled hnot
      · rw [eventsIn_cons_of_ne]
        · exact h m' hold hsettled key
        · intro heq
          rw [heq] at hnot
          exact hnot hsettled
  | tickIdle nowWall nowUtc =>
    obtain rfl := step_tickIdle hstep
    exact h
  | collect =>
    obtain ⟨_, rfl⟩ := step_collect hstep
    exact h
  | commit =>
    obtain ⟨b, hb, rfl⟩ := step_commit hstep
    have hfits := hs.fits b hb
    intro m hm hsettled key
    dsimp only at hsettled ⊢
    rw [Batch.settled_flush_iff, (hs.taken b hb).watermark] at hsettled
    rcases hcommit rfl m hm hsettled with ⟨b', hb', hmem⟩ | hbefore
    · rw [hb] at hb'
      cases hb'
      obtain ⟨c, hcmem, heq⟩ := List.mem_map.mp hmem
      rw [← heq]
      exact hfits.rowTotals_flush hs.rows hcmem (hc.batch_holds b hb c hcmem) key
    · rw [hfits.rowTotals_of_settled hbefore]
      exact h m hm hbefore key
  | fail =>
    obtain ⟨b, _, rfl⟩ := step_fail hstep
    exact h
  | crash now nowUtc =>
    obtain rfl := step_crash hstep
    intro m hm
    cases hm

end Owner

end HushEngine
