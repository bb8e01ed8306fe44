import HushEngine.Answers
import HushEngine.Chaos

/-!
How the traffic was spread does not show. Two deployments may have different
numbers of partitions and route users differently, and each reads, crashes and
flushes on a schedule of its own. A window that both have settled has the same
totals in both, so requests are answered with the same counts, and with the same
rows wherever the answer does not depend on the order of the children.
-/
namespace HushEngine

open Keyed Tally Runs Fallible Grouping

section Suppressed

variable {parentUsers k : UInt64} {children children' : List RawCell}

/-- The counts released do not depend on the order of the children, ties or not. -/
theorem map_users_suppress_of_perm (hperm : children'.Perm children) :
    (suppress parentUsers children' k).map ResultCell.users =
      (suppress parentUsers children k).map ResultCell.users := by
  obtain ⟨n, hstops, _⟩ := suppress_eq parentUsers k children
  rw [map_users_smallestFirst] at hstops
  have hshown : ∀ cs : List RawCell, cs.Perm children →
      (((smallestFirst k cs).drop n).map RawCell.toVisible).map ResultCell.users =
        (sizes k children).drop n := by
    intro cs hcs
    rw [List.map_map, ← sizes_perm k hcs, ← map_users_smallestFirst, ← List.map_drop]
    rfl
  have hhidden : ∀ cs : List RawCell, cs.Perm children →
      (belowThreshold k cs ++ (smallestFirst k cs).take n).length =
        (belowThreshold k children ++ (smallestFirst k children).take n).length := by
    intro cs hcs
    have hbelow : (belowThreshold k cs).Perm (belowThreshold k children) := hcs.filter _
    rw [List.length_append, List.length_append, List.length_take, List.length_take,
      hbelow.length_eq, (smallestFirst_perm k hcs).length_eq]
  have hnil : belowThreshold k children' ++ (smallestFirst k children').take n ≠ [] ↔
      belowThreshold k children ++ (smallestFirst k children).take n ≠ [] := by
    rw [ne_eq, ne_eq, ← List.length_eq_zero_iff, ← List.length_eq_zero_iff, hhidden _ hperm]
  rw [suppress_eq_of_stopsAt hstops hperm, suppress_eq_of_stopsAt hstops (.refl _),
    List.map_append, List.map_append, hshown _ hperm, hshown _ (.refl _)]
  simp only [hnil]
  split_ifs <;> rfl

theorem suppress_perm_of_untied (h : ¬ CutsTie parentUsers k children)
    (hperm : children'.Perm children) :
    (suppress parentUsers children' k).Perm (suppress parentUsers children k) := by
  obtain ⟨n, hstops, _⟩ := suppress_eq parentUsers k children
  rw [map_users_smallestFirst] at hstops
  exact suppress_perm_of_drop_perm hstops hperm (drop_perm_of_not_cutsTie h hstops hperm)

end Suppressed

section Routed

variable {db db' : Db} {x : Int} {route route' : String → Int} {events : Finset Event}
  (h : db.Tallied x (Tally.routed (fun e => route e.user) events))
  (h' : db'.Tallied x (Tally.routed (fun e => route' e.user) events))

include h h'

theorem groupSum_eq_of_routed (key : CellKey) :
    db'.groupSum ⟨x, key⟩ AggRow.events = db.groupSum ⟨x, key⟩ AggRow.events ∧
      db'.groupSum ⟨x, key⟩ AggRow.users = db.groupSum ⟨x, key⟩ AggRow.users := by
  obtain ⟨hevents, husers⟩ := h.groupSum_routed key
  obtain ⟨hevents', husers'⟩ := h'.groupSum_routed key
  exact ⟨hevents'.trans hevents.symm, husers'.trans husers.symm⟩

theorem fetchCell_eq_of_routed (key : CellKey) : fetchCell db' x key = fetchCell db x key := by
  obtain ⟨hevents, husers⟩ := groupSum_eq_of_routed h h' key
  rw [fetchCell, fetchCell, hevents, husers]

theorem childKeys_eq_of_routed (key : CellKey) : db'.childKeys x key = db.childKeys x key := by
  ext c
  rw [mem_childKeys_iff, mem_childKeys_iff, h.mem_groups_routed, h'.mem_groups_routed]

section Children

variable {key : CellKey} (hlevel : key.level ≤ levelWiki) {children children' : List RawCell}
  (hok : fetchChildren db x key = .ok children) (hok' : fetchChildren db' x key = .ok children')

include hlevel hok hok'

/-- A child fetched from one table is fetched from the other, with the same totals. -/
theorem fetched_subset_of_routed (hrow : ⟨x, key⟩ ∈ db.groups) : children' ⊆ children := by
  have hrow' : ⟨x, key⟩ ∈ db'.groups := by
    rw [h'.mem_groups_routed, ← h.mem_groups_routed]
    exact hrow
  rw [Db.mem_groups] at hrow hrow'
  intro c hc
  have hmem := ((h'.fetched_cells hrow' hlevel hok').2 _).mp (List.mem_map_of_mem hc)
  rw [childKeys_eq_of_routed h h', ← (h.fetched_cells hrow hlevel hok).2, List.mem_map] at hmem
  obtain ⟨d, hd, hcell⟩ := hmem
  obtain ⟨hevents, husers⟩ := h'.fetched_totals hrow' hlevel hok' hc
  obtain ⟨hevents', husers'⟩ := h.fetched_totals hrow hlevel hok hd
  obtain ⟨hsum, hsum'⟩ := groupSum_eq_of_routed h h' (c.cell key)
  rw [hcell, ← hsum, ← hevents, UInt64.toNat_inj] at hevents'
  rw [hcell, ← hsum', ← husers, UInt64.toNat_inj] at husers'
  have heq : d = c := by
    obtain ⟨family, wiki, ns, events, users⟩ := d
    simp only [RawCell.cell, CellKey.mk.injEq, true_and] at hcell
    obtain ⟨rfl, rfl, rfl⟩ := hcell
    dsimp only at hevents' husers'
    rw [hevents', husers']
  exact heq ▸ hd

theorem fetchChildren_perm_of_routed (hrow : ⟨x, key⟩ ∈ db.groups) : children'.Perm children := by
  have hrow' : ⟨x, key⟩ ∈ db'.groups := by
    rw [h'.mem_groups_routed, ← h.mem_groups_routed]
    exact hrow
  have hnodup := (h.fetched_cells ((Db.mem_groups _ _).mp hrow) hlevel hok).1.of_map
  have hnodup' := (h'.fetched_cells ((Db.mem_groups _ _).mp hrow') hlevel hok').1.of_map
  exact (List.perm_ext_iff_of_nodup hnodup' hnodup).mpr fun c =>
    ⟨fun hc => fetched_subset_of_routed h h' hlevel hok hok' hrow hc,
      fun hc => fetched_subset_of_routed h' h hlevel hok' hok hrow' hc⟩

end Children

end Routed

/-- The children that a request asks about are not cut between two equal ones. -/
def Untied (db : Db) (k : UInt64) (q : StatsQuery) : Prop :=
  ∀ key cell children, parentKey q = .ok key → fetchCell db q.window key = .ok cell →
    fetchChildren db q.window key = .ok children →
    ¬ CutsTie ((cell.map RawCell.users).getD 0) k children

section Answered

variable {estimate : HyperLogLog → UInt64} {db db' : Db} {route route' : String → Int}
  {events : Finset Event} {k : UInt64} {q : StatsQuery} {cells : List ResultCell}
  (h : db.Tallied q.window (Tally.routed (fun e => route e.user) events))
  (h' : db'.Tallied q.window (Tally.routed (fun e => route' e.user) events))

include h h'

/-- What one table answers the other answers too. -/
theorem computeCells_of_routed (hq : q.estimator = .exact)
    (hcells : computeCells estimate db k q = .ok cells) :
    ∃ cells', computeCells estimate db' k q = .ok cells' ∧
      cells'.map ResultCell.users = cells.map ResultCell.users ∧
      (Untied db k q → cells'.Perm cells) := by
  by_cases hlevel : q.level = levelGlobal
  · refine ⟨cells, ?_, rfl, fun _ => .refl _⟩
    obtain ⟨global, hglobal, rfl⟩ := (computeCells_global estimate hlevel).mp hcells
    refine (computeCells_global estimate hlevel).mpr ⟨global, ?_, rfl⟩
    rw [hq] at hglobal ⊢
    exact (fetchCell_eq_of_routed h h' .global).trans hglobal
  · obtain ⟨key, cell, children, hkey, hcell, hchildren, rfl⟩ :=
      (computeCells_children estimate hlevel).mp hcells
    rw [hq] at hcell hchildren
    have hcell' := (fetchCell_eq_of_routed h h' key).trans hcell
    have hread : ∃ children', fetchChildren db' q.window key = .ok children' ∧
        children'.Perm children := by
      obtain ⟨_, hwiki⟩ := parentKey_level hkey
      by_cases hrow : ⟨q.window, key⟩ ∈ db.groups
      · obtain ⟨_, _, _, _, _, hevents, _⟩ := fetchCell_eq_ok.mp hcell'
        have hrow' : ⟨q.window, key⟩ ∈ db'.groups := by
          rw [h'.mem_groups_routed, ← h.mem_groups_routed]
          exact hrow
        obtain ⟨children', hchildren'⟩ := h'.fetchChildren_ok ((Db.mem_groups _ _).mp hrow') hwiki
          (lt_of_toBigint hevents)
        exact ⟨children', hchildren',
          fetchChildren_perm_of_routed h h' hwiki hchildren hchildren' hrow⟩
      · have hrow' : ⟨q.window, key⟩ ∉ db'.groups := by
          rw [h'.mem_groups_routed, ← h.mem_groups_routed]
          exact hrow
        rw [Db.mem_groups] at hrow hrow'
        have hnil := h.fetchChildren_of_no_parent hkey hrow
        have heq := Except.ok.inj (hnil.symm.trans hchildren)
        exact ⟨[], h'.fetchChildren_of_no_parent hkey hrow', heq ▸ .refl _⟩
    obtain ⟨children', hchildren', hperm⟩ := hread
    refine ⟨_, (computeCells_children estimate hlevel).mpr
      ⟨key, cell, children', hkey, ?_, ?_, rfl⟩, map_users_suppress_of_perm hperm,
      fun huntied => ?_⟩
    · rw [hq]
      exact hcell'
    · rw [hq]
      exact hchildren'
    · exact suppress_perm_of_untied (huntied key cell children hkey hcell hchildren) hperm

end Answered

namespace Fleet

/-- Deployments that spread the same traffic over partitions of their own, under chaos of their
own, read every cell of a window both have settled alike and release the same counts of it; they
release the same rows where no cut falls between equal children. -/
theorem repartition_invisible (estimate : HyperLogLog → UInt64) (tr : Traffic)
    (route' : String → Int) (logs logs' : Int → Log) (hpublished : tr.Published logs)
    (hpublished' : Traffic.Published { tr with route := route' } logs')
    (actions actions' : List FleetAction) (s s' : Fleet)
    (hrun : Run step (Chaotic logs) (idle Db.empty) actions s)
    (hrun' : Run step (Chaotic logs') (idle Db.empty) actions' s') (x : Int)
    (hsettled : ∀ e ∈ tr.sentIn x, s.db.Settled (tr.route e.user) x)
    (hsettled' : ∀ e ∈ tr.sentIn x, s'.db.Settled (route' e.user) x) :
    (∀ key, fetchCell s'.db x key = fetchCell s.db x key) ∧
    ∀ k q cells, q.window = x → q.estimator = .exact →
      computeCells estimate s.db k q = .ok cells →
      ∃ cells', computeCells estimate s'.db k q = .ok cells' ∧
        cells'.map ResultCell.users = cells.map ResultCell.users ∧
        (Untied s.db k q → cells'.Perm cells) := by
  have htallied := (onLogs_of_run hpublished hrun).tallied hpublished hsettled
  have htallied' := (onLogs_of_run hpublished' hrun').tallied hpublished' hsettled'
  refine ⟨fetchCell_eq_of_routed htallied htallied', ?_⟩
  rintro k q cells rfl hq hcells
  exact computeCells_of_routed htallied htallied' hq hcells

def singleLog : Log :=
  ⟨[⟨0, evt 2000000000 2 "u2"⟩, ⟨1, evt 1000000000 1 "u1"⟩], by decide, by decide⟩

def singleDelivery : List FleetAction :=
  [.start 0 false 0 0, .act 0 (.deliver ⟨0, evt 2000000000 2 "u2"⟩ 0),
    .act 0 (.deliver ⟨1, evt 1000000000 1 "u1"⟩ 0),
    .act 0 (.tickIdle 20000000000 200000000000), .act 0 .collect, .act 0 .commit]

def byFamily : StatsQuery := ⟨0, 1, none, none, .exact⟩

theorem repartition_invisible_sample :
    ∃ s s', Run step (Chaotic sampleLogs) (idle Db.empty) sampleChaos s ∧
      Run step (Chaotic (onlyFirst singleLog)) (idle Db.empty) singleDelivery s' ∧
      computeCells (fun _ => 0) s.db 1 byFamily = .ok [.visible "wikipedia" "*" (-1) 2 2] ∧
      ∃ cells', computeCells (fun _ => 0) s'.db 1 byFamily = .ok cells' ∧
        cells'.map ResultCell.users = [2] := by
  have hrun : ∃ s, Run step (Chaotic sampleLogs) (idle Db.empty) sampleChaos s ∧
      computeCells (fun _ => 0) s.db 1 byFamily =
        .ok [.visible "wikipedia" "*" (-1) 2 2] ∧
      s.db.Settled 0 0 ∧ s.db.Settled 1 0 :=
    ⟨_, run_of_execute rfl, by rfl, ⟨_, rfl, by decide⟩, ⟨_, rfl, by decide⟩⟩
  have hrun' : ∃ s, Run step (Chaotic (onlyFirst singleLog)) (idle Db.empty) singleDelivery s ∧
      s.db.Settled 0 0 := ⟨_, run_of_execute rfl, ⟨_, rfl, by decide⟩⟩
  obtain ⟨s, hs, hcells, hfirst, hsecond⟩ := hrun
  obtain ⟨s', hs', hsettled'⟩ := hrun'
  have hsettled : ∀ e ∈ sampleTraffic.sentIn 0, s.db.Settled (sampleTraffic.route e.user) 0 := by
    intro e he
    change s.db.Settled (if e.user = "u1" then 0 else 1) 0
    split_ifs
    · exact hfirst
    · exact hsecond
  have hpublished : Traffic.Published { sampleTraffic with route := fun _ => 0 }
      (onlyFirst singleLog) :=
    onlyFirst_published (fun _ => rfl) (by decide) (by decide)
  obtain ⟨cells', hcells', husers, _⟩ := (repartition_invisible (fun _ => 0) sampleTraffic
    (fun _ => 0) sampleLogs _ sampleLogs_published hpublished _ _ s s' hs hs' 0 hsettled
    fun _ _ => hsettled').2 1 byFamily _ rfl rfl hcells
  exact ⟨s, s', hs, hs', hcells, cells', hcells', husers⟩

end Fleet

end HushEngine
