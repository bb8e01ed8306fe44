import HushEngine.Conservation
import HushEngine.Rollup

/-!
From events to queries. Any number of partition states, in any number of
incarnations, take in events and hand out batches; a batch is written in any
order or not at all. As long as no window of a partition is written twice, the
rows of a window are the tally of one set of events for each partition.
-/
namespace HushEngine

open Keyed Runs Tally

/-- One incarnation of a partition's state. -/
structure Node where
  partition : Int
  ledger : Ledger
deriving DecidableEq

structure Deployment where
  nodes : Table Nat Node
  db : Db
  /-- The partitions and windows written so far. -/
  flushed : List (Int × Int)
deriving DecidableEq

inductive DeploymentAction
  | resume (id : Nat) (partition : Int) (committedOffset : Nat) (flushedWatermark : Int)
      (now : Nat) (hllEnabled : Bool)
  | call (id : Nat) (c : Call)
  /-- A flush of one of the batches a node has handed out succeeds. -/
  | flush (id : Nat) (batch : Nat) (committedOffset : Nat) (flushedWatermark : Int)
deriving DecidableEq

namespace Deployment

def idle : Deployment := ⟨∅, Db.empty, []⟩

def step (s : Deployment) : DeploymentAction → Option Deployment
  | .resume id partition committedOffset flushedWatermark now hllEnabled =>
    match s.nodes.lookup id with
    | none => some { s with nodes := s.nodes.insert id ⟨partition,
        Ledger.start partition committedOffset flushedWatermark now hllEnabled⟩ }
    | some _ => none
  | .call id c => (s.nodes.lookup id).bind fun node =>
    (node.ledger.step c).map fun ledger =>
      { s with nodes := s.nodes.insert id { node with ledger := ledger } }
  | .flush id batch committedOffset flushedWatermark =>
    (s.nodes.lookup id).bind fun node => (node.ledger.returned[batch]?).map fun closed =>
      { s with
        db := s.db.flushWindows node.partition closed committedOffset flushedWatermark
        flushed := s.flushed ++ closed.map fun c => (node.partition, c.1) }

/-- What a step has done to a deployment, and what it has found there. -/
inductive Stepped (s : Deployment) : DeploymentAction → Deployment → Prop
  | resume {id partition committedOffset flushedWatermark now hllEnabled}
      (habsent : s.nodes.lookup id = none) :
      Stepped s (.resume id partition committedOffset flushedWatermark now hllEnabled)
        { s with nodes := s.nodes.insert id ⟨partition,
            Ledger.start partition committedOffset flushedWatermark now hllEnabled⟩ }
  | call {id c node ledger} (hnode : s.nodes.lookup id = some node)
      (hcall : node.ledger.step c = some ledger) :
      Stepped s (.call id c) { s with nodes := s.nodes.insert id { node with ledger := ledger } }
  | flush {id batch committedOffset flushedWatermark node closed}
      (hnode : s.nodes.lookup id = some node)
      (hclosed : node.ledger.returned[batch]? = some closed) :
      Stepped s (.flush id batch committedOffset flushedWatermark)
        { s with
          db := s.db.flushWindows node.partition closed committedOffset flushedWatermark
          flushed := s.flushed ++ closed.map fun c => (node.partition, c.1) }

theorem step_cases {s t : Deployment} {a : DeploymentAction} (h : step s a = some t) :
    Stepped s a t := by
  cases a with
  | resume id partition committedOffset flushedWatermark now hllEnabled =>
    simp only [step] at h
    split at h
    · next habsent =>
      obtain rfl := Option.some.inj h
      exact .resume habsent
    · cases h
  | call id c =>
    obtain ⟨node, hnode, hcall⟩ := Option.bind_eq_some_iff.mp h
    obtain ⟨ledger, hledger, rfl⟩ := Option.map_eq_some_iff.mp hcall
    exact .call hnode hledger
  | flush id batch committedOffset flushedWatermark =>
    obtain ⟨node, hnode, hwrite⟩ := Option.bind_eq_some_iff.mp h
    obtain ⟨closed, hclosed, rfl⟩ := Option.map_eq_some_iff.mp hwrite
    exact .flush hnode hclosed

/-- No window of a partition is written a second time. -/
def OnceEach (s : Deployment) : DeploymentAction → Prop
  | .flush id batch _ _ => ∀ node ∈ s.nodes.lookup id, ∀ closed ∈ node.ledger.returned[batch]?,
      ∀ c ∈ closed, (node.partition, c.1) ∉ s.flushed
  | _ => True

instance (s : Deployment) (a : DeploymentAction) : Decidable (OnceEach s a) :=
  match a with
  | .flush id batch _ _ => inferInstanceAs (Decidable (∀ node ∈ s.nodes.lookup id,
      ∀ closed ∈ node.ledger.returned[batch]?, ∀ c ∈ closed, (node.partition, c.1) ∉ s.flushed))
  | .resume .. | .call .. => inferInstanceAs (Decidable True)

/-- Every node conserves its windows, and what has been written of a partition's window is the
tally of a set of events. -/
structure Sound (s : Deployment) : Prop where
  conserved : ∀ id node, s.nodes.lookup id = some node → node.ledger.Conserved
  tallied : ∀ p w, ∃ events : Finset Event,
    (∀ key, s.db.rowTotals p w key = cellTally events key) ∧
      ((p, w) ∉ s.flushed → events = ∅)

theorem sound_idle : idle.Sound where
  conserved id node hnode := by cases hnode
  tallied p w := ⟨∅, fun key => (cellTally_empty key).symm, fun _ => rfl⟩

theorem Sound.insert {s : Deployment} (h : s.Sound) (id : Nat) {node : Node}
    (hnode : node.ledger.Conserved) : Sound { s with nodes := s.nodes.insert id node } where
  conserved id' node' hlook := by
    rcases lookup_of_insert hlook with ⟨_, rfl⟩ | ⟨_, hlook⟩
    · exact hnode
    · exact h.conserved id' node' hlook
  tallied := h.tallied

theorem Sound.flush {s : Deployment} (h : s.Sound) {node : Node} (hnode : node.ledger.Conserved)
    {closed : List (Int × Window)} (hclosed : closed ∈ node.ledger.returned)
    (hfresh : ∀ c ∈ closed, (node.partition, c.1) ∉ s.flushed) (committedOffset : Nat)
    (flushedWatermark : Int) :
    Sound { s with
      db := s.db.flushWindows node.partition closed committedOffset flushedWatermark
      flushed := s.flushed ++ closed.map fun c => (node.partition, c.1) } where
  conserved := h.conserved
  tallied p w := by
    have hsub : closed.Sublist node.ledger.returned.flatten := List.sublist_flatten_of_mem hclosed
    by_cases hmem : p = node.partition ∧ w ∈ closed.map Prod.fst
    · obtain ⟨rfl, hw⟩ := hmem
      obtain ⟨c, hc, rfl⟩ := List.mem_map.mp hw
      obtain ⟨events, hrows, hempty⟩ := h.tallied node.partition c.1
      obtain rfl := hempty (hfresh c hc)
      refine ⟨_, Db.rowTotals_flushWindows _ _ (hnode.nodup.sublist (hsub.map _)) hc
        (fun key => (hrows key).trans (cellTally_empty key))
        (hnode.returned_holds c (hsub.subset hc)), fun hnot => absurd ?_ hnot⟩
      exact List.mem_append_right _ (List.mem_map.mpr ⟨c, hc, rfl⟩)
    · obtain ⟨events, hrows, hempty⟩ := h.tallied p w
      refine ⟨events, fun key => ?_, fun hnot => hempty fun hold =>
        hnot (List.mem_append_left _ hold)⟩
      rw [← hrows key, Db.rowTotals, Db.rowTotals, Db.flushWindows_lookup_of_not_mem]
      exact fun hp hw => hmem ⟨hp, hw⟩

theorem Sound.step {s t : Deployment} {a : DeploymentAction} (h : s.Sound) (hguard : s.OnceEach a)
    (hstep : Deployment.step s a = some t) : t.Sound := by
  cases step_cases hstep with
  | resume _ => exact h.insert _ (Ledger.conserved_start ..)
  | call hnode hcall => exact h.insert _ ((h.conserved _ _ hnode).step hcall)
  | flush hnode hclosed =>
    exact h.flush (h.conserved _ _ hnode) (List.mem_of_getElem? hclosed)
      (hguard _ hnode _ hclosed) _ _

/-- In the tables of such a run, the children fetched for a parent are the durable keys that have
it as their parent; their events add up to the parent's, and the parent's users lie between any
child's and their sum, so that suppression finds no residual. -/
theorem rollup_consistent (actions : List DeploymentAction) (s : Deployment)
    (hrun : Run step OnceEach idle actions s) (w : Int) (parent : CellKey)
    (hlevel : parent.level ≤ levelWiki)
    (hparent : ∃ p, (s.db.aggCells.lookup ⟨w, parent, p⟩).isSome) :
    (s.db.groupSum ⟨w, parent⟩ AggRow.events < 2 ^ 63 →
      ∃ cell, fetchCell s.db w parent = .ok (some cell)) ∧
    ∀ cell, fetchCell s.db w parent = .ok (some cell) →
      ∃ children, fetchChildren s.db w parent = .ok children ∧
        (children.map (RawCell.cell parent)).Nodup ∧
        (∀ c, c ∈ children.map (RawCell.cell parent) ↔
          c.parent = some parent ∧ ∃ p, (s.db.aggCells.lookup ⟨w, c, p⟩).isSome) ∧
        natSumBy RawCell.events children = cell.events.toNat ∧
        (∀ c ∈ children, c.users ≤ cell.users) ∧
        cell.users.toNat ≤ natSumBy RawCell.users children ∧
        ∀ k, saturatingSub cell.users (sumBy RawCell.users (smallestFirst k children) +
          sumBy RawCell.users (belowThreshold k children)) = 0 := by
  have hsound : s.Sound := hrun.invariant (fun _ _ _ h hguard hstep => h.step hguard hstep)
    sound_idle
  choose events hevents using fun p => hsound.tallied p w
  have h : s.db.Tallied w events := fun p => (hevents p).1
  have husers := h.users_le_events parent
  refine ⟨fun hfits => ?_, fun cell hcell => ?_⟩
  · obtain ⟨cell, hcell, _⟩ := fetchCell_ok hfits (by omega)
    exact ⟨cell, hcell⟩
  · obtain ⟨cell', heq, _, _, _, hcellEvents, hcellUsers⟩ := fetchCell_eq_ok.mp hcell
    obtain rfl := Option.some.inj heq
    obtain ⟨children, hok⟩ := h.fetchChildren_ok hparent hlevel (lt_of_toBigint hcellEvents)
    obtain ⟨hnodup, hcells⟩ := h.fetched_cells hparent hlevel hok
    have hsum := h.fetched_events hparent hlevel hok
    have hchild := fun c hc => h.fetched_child hparent hlevel hok (c := c) hc
    have hle := h.le_fetched_users hparent hlevel hok
    rw [← toNat_of_toBigint hcellEvents] at hsum
    rw [← toNat_of_toBigint hcellUsers] at hle
    have hcolumns : natSumBy RawCell.users children ≤ natSumBy RawCell.events children :=
      List.sum_le_sum fun c hc => (hchild c hc).2
    have hbound := lt_of_toBigint hcellEvents
    have hcellBound := toNat_of_toBigint hcellEvents
    refine ⟨children, hok, hnodup, fun c => ?_, hsum, fun c hc => ?_, hle,
      fun k => residual_eq_zero_of_le (by omega) hle k⟩
    · rw [hcells c, h.mem_childKeys hparent hlevel]
    · rw [UInt64.le_iff_toNat_le, toNat_of_toBigint hcellUsers]
      exact (hchild c hc).1

/-- Two partitions, each with one flush of the first window. -/
def twoFlushes : List DeploymentAction :=
  [.resume 0 0 0 0 0 false, .resume 1 1 0 0 0 false,
    .call 0 (.processEvent ⟨0, evt 1000000000 1 "u1"⟩ 0),
    .call 1 (.processEvent ⟨0, evt 2000000000 2 "u2"⟩ 0),
    .call 0 (.processEvent ⟨1, evt 2000000000 1 "u1"⟩ 0),
    .call 0 (.tickIdle 20000000000 95000000000), .call 1 (.tickIdle 20000000000 95000000000),
    .call 1 .takeClosedWindows, .call 0 .takeClosedWindows, .flush 0 0 2 65000000000,
    .flush 1 0 1 65000000000]

theorem rollup_consistent_twoFlushes :
    ∃ s, Run step OnceEach idle twoFlushes s ∧
      ∃ cell children, fetchCell s.db 0 .global = .ok (some cell) ∧
        fetchChildren s.db 0 .global = .ok children ∧
        natSumBy RawCell.events children = cell.events.toNat := by
  have hrun : ∃ s, Run step OnceEach idle twoFlushes s ∧
      (s.db.aggCells.lookup ⟨0, .global, 0⟩).isSome ∧
      s.db.groupSum ⟨0, .global⟩ AggRow.events < 2 ^ 63 :=
    ⟨_, run_of_execute rfl, by decide, by decide⟩
  obtain ⟨s, hs, hpresent, hfits⟩ := hrun
  obtain ⟨hok, hall⟩ := rollup_consistent _ s hs 0 .global (by decide) ⟨0, hpresent⟩
  obtain ⟨cell, hcell⟩ := hok hfits
  obtain ⟨children, hchildren, _, _, hsum, _⟩ := hall cell hcell
  exact ⟨s, hs, cell, children, hcell, hchildren, hsum⟩

end Deployment

end HushEngine
