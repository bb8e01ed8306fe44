import HushEngine.FlushSchedules
import HushEngine.SketchUnion

/-!
What a row of `agg_cells` can be. A cell of a window has been counted by some
event, has at most as many users as events, and keeps a sketch that is valid
and of default precision, or none. Every window that any state hands out is of
this kind, so every row is, whoever flushed it and however often.
-/
namespace HushEngine

open Keyed Runs

/-- What `processEvent` makes of a cell, by events under either setting of the sketches. -/
structure CellAgg.Counted (agg : CellAgg) (cell : CellKey) : Prop where
  by_event : ∃ e, cell ∈ CellKey.cellsForEvent e
  users_le : agg.users.card ≤ agg.events
  sketch : ∀ h, agg.hll = some h → h.Valid ∧ h.precision = defaultPrecision

theorem CellAgg.Counted.add {agg : Option CellAgg} {cell : CellKey} {e : Event}
    (hcell : cell ∈ CellKey.cellsForEvent e) (h : ∀ a, agg = some a → a.Counted cell)
    (hllEnabled : Bool) : ((agg.getD CellAgg.empty).add e.user hllEnabled).Counted cell := by
  have hold : (agg.getD CellAgg.empty).users.card ≤ (agg.getD CellAgg.empty).events ∧
      ∀ s, (agg.getD CellAgg.empty).hll = some s → s.Valid ∧ s.precision = defaultPrecision := by
    cases agg with
    | none => exact ⟨le_rfl, fun s hs => by cases hs⟩
    | some a => exact ⟨(h a rfl).users_le, (h a rfl).sketch⟩
  generalize agg.getD CellAgg.empty = a at hold ⊢
  refine ⟨⟨e, hcell⟩, ?_, ?_⟩
  · exact (Finset.card_insert_le _ _).trans (Nat.succ_le_succ hold.1)
  · intro s hs
    cases hllEnabled with
    | false => exact hold.2 s hs
    | true =>
      rw [CellAgg.hll_add, Option.some.injEq] at hs
      subst hs
      rw [HyperLogLog.insert_precision]
      cases hhll : a.hll with
      | none => exact ⟨(HyperLogLog.valid_new defaultPrecision (by decide)).insert _, rfl⟩
      | some sketch =>
        obtain ⟨hvalid, hprecision⟩ := hold.2 sketch hhll
        exact ⟨hvalid.insert _, hprecision⟩

def Window.Counted (win : Window) : Prop :=
  ∀ cell agg, win.cells.lookup cell = some agg → agg.Counted cell

theorem Window.counted_new (offset : Nat) : (Window.new offset).Counted := by
  intro cell agg hlook
  cases hlook

theorem Window.Counted.fold {win : Window} (h : win.Counted) (e : Event) (offset : Nat)
    (hllEnabled : Bool) : (win.fold e offset hllEnabled).Counted := by
  intro cell agg hlook
  rw [fold_lookup] at hlook
  split_ifs at hlook with hcell
  · obtain rfl := Option.some.inj hlook
    exact .add hcell (h cell) hllEnabled
  · exact h cell agg hlook

/-- What holds of a new window and is kept by folding holds of every window there has been. -/
theorem Ledger.forall_windows_step {P : Window → Prop} (hnew : ∀ offset, P (Window.new offset))
    (hfold : ∀ win e offset hllEnabled, P win → P (win.fold e offset hllEnabled)) {s t : Ledger}
    {a : Call} (h : ∀ c ∈ s.windows, P c.2) (hstep : Ledger.step s a = some t) :
    ∀ c ∈ t.windows, P c.2 := by
  have hopen : ∀ w win, s.mem.openWindows.lookup w = some win → P win :=
    fun w win hwin => h (w, win) ((mem_windows _).mpr (Or.inl hwin))
  have hreturned : ∀ c ∈ s.returned.flatten, P c.2 :=
    fun c hc => h c ((mem_windows c).mpr (Or.inr hc))
  intro c hc
  cases a with
  | processEvent m now =>
    obtain rfl := Option.some.inj hstep
    rcases (mem_windows c).mp hc with hlook | hold
    · dsimp only at hlook
      rw [PartitionState.processEvent_lookup] at hlook
      split_ifs at hlook
      · rw [← Option.some.inj hlook]
        apply hfold
        unfold PartitionState.windowFor
        cases hwin : s.mem.openWindows.lookup m.event.window with
        | none => exact hnew _
        | some win => exact hopen _ win hwin
      · exact hopen _ _ hlook
    · exact hreturned c hold
  | tickIdle nowWall nowUtc =>
    obtain rfl := Option.some.inj hstep
    rcases (mem_windows c).mp hc with hlook | hold
    · exact hopen _ _ (by simpa using hlook)
    · exact hreturned c hold
  | takeClosedWindows =>
    obtain rfl := Option.some.inj hstep
    rcases (mem_windows c).mp hc with hlook | hold
    · exact hopen _ _ (PartitionState.lookup_of_takeClosedWindows hlook).1
    · rw [List.flatten_append, List.flatten_singleton, List.mem_append] at hold
      rcases hold with hold | htaken
      · exact hreturned c hold
      · exact hopen _ _ ((s.mem.mem_takeClosedWindows c.1 c.2).mp htaken).1

/-- Every row is that of a cell that was counted. -/
def Db.RowsCounted (db : Db) : Prop :=
  ∀ k row, db.aggCells.lookup k = some row → ∃ agg : CellAgg, agg.Counted k.cell ∧ agg.toRow = row

theorem Db.RowsCounted.flushWindows {db : Db} (h : db.RowsCounted) (partition : Int)
    {closed : List (Int × Window)} (hclosed : ∀ c ∈ closed, c.2.Counted) (committedOffset : Nat)
    (flushedWatermark : Int) :
    (db.flushWindows partition closed committedOffset flushedWatermark).RowsCounted := by
  intro k row hlook
  rw [flushWindows_aggCells] at hlook
  rcases lookup_of_upserts hlook with hmem | hold
  · obtain ⟨c, hc, hrow⟩ := List.mem_flatMap.mp hmem
    obtain ⟨_, _, agg, hagg, rfl⟩ := (mem_windowRows _ _ _ _).mp hrow
    exact ⟨agg, hclosed c hc _ agg hagg, rfl⟩
  · exact h k row hold

namespace Deployment

/-- All windows and all rows have been counted by events. -/
structure Counted (s : Deployment) : Prop where
  windows : ∀ id node, s.nodes.lookup id = some node → ∀ c ∈ node.ledger.windows, c.2.Counted
  rows : s.db.RowsCounted

theorem counted_idle : idle.Counted where
  windows id node hnode := by cases hnode
  rows k row hlook := by cases hlook

theorem Counted.insert {s : Deployment} (h : s.Counted) (id : Nat) {node : Node}
    (hnode : ∀ c ∈ node.ledger.windows, c.2.Counted) :
    Counted { s with nodes := s.nodes.insert id node } where
  windows id' node' hlook := by
    rcases lookup_of_insert hlook with ⟨_, rfl⟩ | ⟨_, hlook⟩
    · exact hnode
    · exact h.windows id' node' hlook
  rows := h.rows

theorem Counted.step {s t : Deployment} {a : DeploymentAction} (h : s.Counted)
    (hstep : Deployment.step s a = some t) : t.Counted := by
  cases step_cases hstep with
  | resume _ =>
    refine h.insert _ fun c hc => ?_
    rcases (Ledger.mem_windows c).mp hc with hlook | hreturned
    · cases hlook
    · cases hreturned
  | call hnode hcall =>
    exact h.insert _ (Ledger.forall_windows_step Window.counted_new
      (fun _ e offset hllEnabled hwin => hwin.fold e offset hllEnabled)
      (h.windows _ _ hnode) hcall)
  | flush hnode hclosed =>
    refine ⟨h.windows, h.rows.flushWindows _ (fun c hc => ?_) _ _⟩
    refine h.windows _ _ hnode c ((Ledger.mem_windows c).mpr (Or.inr ?_))
    exact List.mem_flatten.mpr ⟨_, List.mem_of_getElem? hclosed, hc⟩

/-- However flushes are scheduled and repeated, every row is of a cell that events have counted. -/
theorem rowsCounted_of_run {actions : List DeploymentAction} {s : Deployment}
    (hrun : Run step free idle actions s) : s.db.RowsCounted :=
  (hrun.invariant (fun _ _ _ h _ hstep => h.step hstep) counted_idle).rows

end Deployment

end HushEngine
