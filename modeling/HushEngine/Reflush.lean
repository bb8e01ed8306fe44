import HushEngine.FlushLoop

/-!
Writing a window twice. A flush upserts the cells its windows have; it deletes
nothing. What a second flush of a window leaves is its own cells over what was
there before, so the table holds the second contents and nothing else exactly
when no earlier cell of the window is missing from them.
-/
namespace HushEngine

namespace Batch

/-- The row after two flushes of a window is of the last one that has it. -/
theorem flush_flush_lookup (b₁ b₂ : Batch) (db : Db) (partition : Int)
    (hnodup₁ : (b₁.closed.map Prod.fst).Nodup) (hnodup₂ : (b₂.closed.map Prod.fst).Nodup)
    {w : Int} {win₁ win₂ : Window} (h₁ : (w, win₁) ∈ b₁.closed) (h₂ : (w, win₂) ∈ b₂.closed)
    (cell : CellKey) :
    (b₂.flush (b₁.flush db partition) partition).aggCells.lookup ⟨w, cell, partition⟩ =
      (win₂.rowOf cell).or
        ((win₁.rowOf cell).or (db.aggCells.lookup ⟨w, cell, partition⟩)) := by
  unfold flush
  rw [Db.flushWindows_lookup_window _ _ _ _ _ hnodup₂ h₂,
    Db.flushWindows_lookup_window _ _ _ _ _ hnodup₁ h₁]

theorem flush_flush_lookup_of_not_mem (b₁ b₂ : Batch) (db : Db) (partition : Int) (k : AggKey)
    (h : k.kpartition = partition →
      k.windowStart ∉ b₁.closed.map Prod.fst ∧ k.windowStart ∉ b₂.closed.map Prod.fst) :
    (b₂.flush (b₁.flush db partition) partition).aggCells.lookup k = db.aggCells.lookup k := by
  unfold flush
  rw [Db.flushWindows_lookup_of_not_mem _ _ _ _ _ _ fun hp => (h hp).2,
    Db.flushWindows_lookup_of_not_mem _ _ _ _ _ _ fun hp => (h hp).1]

/-- The second flush of a window replaces the first exactly when it has every cell that the first
one or the table had; rows of other windows and partitions stay in any case. -/
theorem reflush_replaces_iff (b₁ b₂ : Batch) (db : Db) (partition : Int)
    (hnodup₁ : (b₁.closed.map Prod.fst).Nodup) (hnodup₂ : (b₂.closed.map Prod.fst).Nodup)
    {w : Int} {win₁ win₂ : Window} (h₁ : (w, win₁) ∈ b₁.closed) (h₂ : (w, win₂) ∈ b₂.closed) :
    ((∀ cell, (b₂.flush (b₁.flush db partition) partition).aggCells.lookup ⟨w, cell, partition⟩ =
        win₂.rowOf cell) ∧
      ∀ k : AggKey, (k.kpartition = partition →
        k.windowStart ∉ b₁.closed.map Prod.fst ∧ k.windowStart ∉ b₂.closed.map Prod.fst) →
        (b₂.flush (b₁.flush db partition) partition).aggCells.lookup k = db.aggCells.lookup k) ↔
    ∀ cell, (win₁.cells.lookup cell).isSome ∨
      (db.aggCells.lookup ⟨w, cell, partition⟩).isSome → (win₂.cells.lookup cell).isSome := by
  have hlookup := flush_flush_lookup b₁ b₂ db partition hnodup₁ hnodup₂ h₁ h₂
  constructor
  · intro h cell hbefore
    have hcell := hlookup cell
    rw [h.1 cell] at hcell
    unfold Window.rowOf at hcell
    cases hwin : win₂.cells.lookup cell with
    | some agg => rfl
    | none =>
      -- nothing over the earlier contents, which are then empty
      rw [hwin, Option.map_none, Option.none_or, eq_comm, Option.or_eq_none_iff,
        Option.map_eq_none_iff] at hcell
      rcases hbefore with hwin₁ | hrow
      · simp [hcell.1] at hwin₁
      · simp [hcell.2] at hrow
  · intro h
    refine ⟨fun cell => ?_, fun k => flush_flush_lookup_of_not_mem b₁ b₂ db partition k⟩
    rw [hlookup]
    unfold Window.rowOf
    cases hwin : win₂.cells.lookup cell with
    | some agg => rfl
    | none =>
      have hnone : ¬ ((win₁.cells.lookup cell).isSome ∨
          (db.aggCells.lookup ⟨w, cell, partition⟩).isSome) := by
        intro hbefore
        simpa [hwin] using h cell hbefore
      obtain ⟨hwin₁, hrow⟩ := not_or.mp hnone
      rw [Option.not_isSome_iff_eq_none.mp hwin₁, Option.not_isSome_iff_eq_none.mp hrow]
      rfl

/-- What an owner that resumes at the start takes after these messages. -/
def takenAfter (ms : List Message) : Batch :=
  let ps := ms.foldl (fun ps m => (ps.processEvent m.event m.offset 0).1)
    (PartitionState.resumeFrom 0 0 (-1000000000) 0)
  ⟨ps.takeClosedWindows.2, ps.takeClosedWindows.1.committedOffset,
    ps.takeClosedWindows.1.flushedWatermark⟩

/-- An event of the first window and one that closes it. -/
def earlyTake : Batch :=
  takenAfter [⟨0, evt 1000000000 1 "u1"⟩, ⟨1, evt 95000000000 2 "u2"⟩]

/-- The same messages and another event of the first window, on time for this owner. -/
def laterTake : Batch :=
  takenAfter [⟨0, evt 1000000000 1 "u1"⟩, ⟨1, evt 95000000000 2 "u2"⟩,
    ⟨2, { evt 2000000000 3 "u3" with wiki := "dewiki" }⟩]

/-- The owner that has more of the window flushes it again. -/
theorem reflush_replaces_more :
    ∃ win₁ win₂, earlyTake.closed = [(0, win₁)] ∧ laterTake.closed = [(0, win₂)] ∧
      win₁.rowOf (.ofWiki "wikipedia" "dewiki") = none ∧
      win₂.rowOf (.ofWiki "wikipedia" "dewiki") = some ⟨1, 1, none⟩ ∧
      ∀ cell, (laterTake.flush (earlyTake.flush Db.empty 0) 0).aggCells.lookup ⟨0, cell, 0⟩ =
        win₂.rowOf cell := by
  have htaken : ∃ win₁ win₂, earlyTake.closed = [(0, win₁)] ∧ laterTake.closed = [(0, win₂)] ∧
      win₁.rowOf (.ofWiki "wikipedia" "dewiki") = none ∧
      win₂.rowOf (.ofWiki "wikipedia" "dewiki") = some ⟨1, 1, none⟩ ∧
      ∀ r ∈ Keyed.rows win₁.cells, (win₂.cells.lookup r.1).isSome :=
    ⟨_, _, rfl, rfl, by decide, by decide, by decide⟩
  obtain ⟨win₁, win₂, hwin₁, hwin₂, hnone, hsome, hcells⟩ := htaken
  have hmem₁ : ((0 : Int), win₁) ∈ earlyTake.closed := by
    rw [hwin₁]
    exact List.mem_singleton_self _
  have hmem₂ : ((0 : Int), win₂) ∈ laterTake.closed := by
    rw [hwin₂]
    exact List.mem_singleton_self _
  refine ⟨win₁, win₂, hwin₁, hwin₂, hnone, hsome, ((reflush_replaces_iff earlyTake laterTake
    Db.empty 0 (by decide) (by decide) hmem₁ hmem₂).mpr ?_).1⟩
  intro cell hbefore
  rcases hbefore with hcell | hrow
  · obtain ⟨agg, hagg⟩ := Option.isSome_iff_exists.mp hcell
    exact hcells (cell, agg) ((Keyed.mem_rows _ _ _).mpr hagg)
  · simp [Db.empty] at hrow

/-- The row of the wiki that only the other owner had in time is left over. -/
theorem reflush_leaves_row :
    ∃ win₁ win₂, laterTake.closed = [(0, win₁)] ∧ earlyTake.closed = [(0, win₂)] ∧
      ¬ ∀ cell, (earlyTake.flush (laterTake.flush Db.empty 0) 0).aggCells.lookup ⟨0, cell, 0⟩ =
        win₂.rowOf cell := by
  refine ⟨_, _, rfl, rfl, ?_⟩
  intro h
  exact absurd (h (.ofWiki "wikipedia" "dewiki")) (by decide)

end Batch

end HushEngine
