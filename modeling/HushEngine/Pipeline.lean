import HushEngine.Fleet
import HushEngine.GroundTruth
import HushEngine.Replay

/-!
The pipeline against the ground truth. A finite set of events is sent under
pseudonyms, routed by pseudonym, and aggregated by any number of partitions in
any interleaving of deliveries and commits. When every window is closed and
flushed, the rows summed over the partitions are what the generator reports.
-/
namespace HushEngine

open Keyed Tally Runs

/-- The recorded events, how users are renamed, and which partition a pseudonym goes to. -/
structure Traffic where
  events : List Event
  unique : (events.map Event.eventId).Nodup
  pseudonym : String → String
  injective : Function.Injective pseudonym
  route : String → Int

namespace Traffic

variable (tr : Traffic)

/-- The event as it is sent. -/
def wire (e : Event) : Event := { e with user := tr.pseudonym e.user }

/-- The sent events of a window. -/
def sentIn (w : Int) : Finset Event := (eventsOf tr.events w).image tr.wire

theorem mem_sentIn (w : Int) (e : Event) :
    e ∈ tr.sentIn w ↔ ∃ e' ∈ tr.events, tr.wire e' = e ∧ e.window = w := by
  simp only [sentIn, Finset.mem_image, mem_eventsOf]
  constructor
  · intro h
    obtain ⟨e', ⟨he', hw⟩, rfl⟩ := h
    exact ⟨e', he', rfl, hw⟩
  · intro h
    obtain ⟨e', he', rfl, hw⟩ := h
    exact ⟨e', ⟨he', hw⟩, rfl⟩

/-- The events of a list with distinct ids are determined by their ids. -/
theorem eq_of_eventId {e e' : Event} (he : e ∈ tr.events) (he' : e' ∈ tr.events)
    (hid : e.eventId = e'.eventId) : e = e' :=
  List.inj_on_of_nodup_map tr.unique he he' hid

/-- The tally of what is sent is the tally of what was recorded. -/
theorem tally_sentIn (w : Int) (key : CellKey) :
    cellTally (tr.sentIn w) key =
      tally CellKey.cellsForEvent Event.user (eventsOf tr.events w) key := by
  have hinj : Set.InjOn tr.wire (eventsOf tr.events w : Set Event) := by
    intro e he e' he' heq
    have hmem := ((mem_eventsOf _ _ _).mp he).1
    have hmem' := ((mem_eventsOf _ _ _).mp he').1
    exact tr.eq_of_eventId hmem hmem' (congrArg Event.eventId heq :)
  exact tally_image CellKey.cellsForEvent Event.user CellKey.cellsForEvent Event.user tr.wire
    tr.pseudonym _ key hinj tr.injective (fun _ => rfl) fun _ => rfl

/-- A partition is given copies of the events routed to it, and no event is late: when a message
is, an equal one has been accepted. Nobody crashes and no flush fails. -/
def Delivers (s : Fleet) : FleetAction → Prop
  | .start _ _ _ _ => True
  | .act p (.deliver m now) =>
    ((∃ e ∈ tr.events, tr.wire e = m.event) ∧ tr.route m.event.user = p) ∧
    ∀ w ∈ s.owners.lookup p, (w.mem.processEvent m.event m.offset now).2 = .late →
      ∃ m' ∈ w.accepted, m'.event = m.event
  | .act _ .fail => False
  | .act _ (.crash _ _) => False
  | .act _ _ => True

instance (s : Fleet) (a : FleetAction) : Decidable (tr.Delivers s a) :=
  match a with
  | .start _ _ _ _ => inferInstanceAs (Decidable True)
  | .act p (.deliver m now) => inferInstanceAs (Decidable
      (((∃ e ∈ tr.events, tr.wire e = m.event) ∧ tr.route m.event.user = p) ∧
        ∀ w ∈ s.owners.lookup p, (w.mem.processEvent m.event m.offset now).2 = .late →
          ∃ m' ∈ w.accepted, m'.event = m.event))
  | .act _ .fail => inferInstanceAs (Decidable False)
  | .act _ (.crash _ _) => inferInstanceAs (Decidable False)
  | .act _ (.tickIdle _ _) | .act _ .collect | .act _ .commit => inferInstanceAs (Decidable True)

end Traffic

section SamePartition

variable {partition : Int} {db db' : Db}

theorem Db.SamePartition.settled_iff (h : db.SamePartition partition db') (w : Int) :
    db'.Settled partition w ↔ db.Settled partition w := by
  unfold Db.Settled
  rw [h.progress]

theorem Db.SamePartition.rowTotals_eq (h : db.SamePartition partition db') (w : Int)
    (key : CellKey) : db'.rowTotals partition w key = db.rowTotals partition w key := by
  unfold Db.rowTotals
  rw [h.rows _ rfl]

theorem Owner.Intact.of_samePartition {w : Worker} (h : Owner.Intact partition ⟨w, db⟩)
    (hsame : db.SamePartition partition db') : Owner.Intact partition ⟨w, db'⟩ where
  sound := {
    h.sound.toSteady.of_samePartition hsame with
    rows := h.sound.rows.of_samePartition hsame }
  contents := { h.contents with
    progress_offset := fun pr hpr => by
      dsimp only at hpr
      rw [hsame.progress] at hpr
      exact h.contents.progress_offset pr hpr }
  conserved m hm hle := (h.conserved m hm hle).imp id (hsame.settled_iff _).mpr
  exact_rows m hm hsettled key := by
    rw [hsame.rowTotals_eq]
    exact h.exact_rows m hm ((hsame.settled_iff _).mp hsettled) key

end SamePartition

/-- An owner that started without rows and has accepted only its own part of the traffic. -/
structure Fed (tr : Traffic) (partition : Int) (w : Worker) (db : Db) : Prop where
  intact : Owner.Intact partition ⟨w, db⟩
  row_totals : ∀ x, db.Settled partition x → ∀ key,
    db.rowTotals partition x key = cellTally (eventsIn w.accepted x) key
  routed : ∀ m ∈ w.accepted,
    (∃ e ∈ tr.events, tr.wire e = m.event) ∧ tr.route m.event.user = partition

section Fed

variable {tr : Traffic} {p : Int} {w : Worker} {db : Db}

theorem Fed.of_samePartition {db' : Db} (h : Fed tr p w db) (hsame : db.SamePartition p db') :
    Fed tr p w db' where
  intact := h.intact.of_samePartition hsame
  row_totals x hx key := by
    rw [hsame.rowTotals_eq]
    exact h.row_totals x ((hsame.settled_iff x).mp hx) key
  routed := h.routed

theorem fed_boot (tr : Traffic) (hrows : db.RowsCovered p) (hnone : db.loadProgress p = none)
    (hllEnabled : Bool) (now : Nat) (nowUtc : Int) :
    Fed tr p (Owner.boot db p hllEnabled now nowUtc []).toWorker db where
  intact := Owner.intact_boot hrows ..
  row_totals x hx := by
    obtain ⟨pr, hpr, _⟩ := hx
    rw [hnone] at hpr
    cases hpr
  routed m hm := by cases hm

theorem Fed.deliver (h : Fed tr p w db) {m : Message} {now : Nat}
    (hm : (∃ e ∈ tr.events, tr.wire e = m.event) ∧ tr.route m.event.user = p)
    (hintact : Owner.Intact p ⟨w.consume m now, db⟩) : Fed tr p (w.consume m now) db := by
  refine ⟨hintact, fun x hx key => ?_, fun m' hm' => ?_⟩
  · rcases Owner.consume_cases ⟨w, db⟩ m now with ⟨_, hacc, _⟩ | ⟨hacc, hend, _, _⟩
    · dsimp only at hacc
      rw [hacc]
      exact h.row_totals x hx key
    · dsimp only at hacc
      have hne : m.window ≠ x := by
        rintro rfl
        exact h.intact.sound.not_settled_of_lt hend hx
      rw [hacc, eventsIn_cons_of_ne _ _ _ hne]
      exact h.row_totals x hx key
  · rcases Owner.consume_cases ⟨w, db⟩ m now with ⟨_, hacc, _⟩ | ⟨hacc, _, _, _⟩
    · dsimp only at hacc
      exact h.routed m' (by rwa [← hacc])
    · dsimp only at hacc
      rw [hacc] at hm'
      rcases List.mem_cons.mp hm' with rfl | hold
      · exact hm
      · exact h.routed m' hold

theorem Fed.commit (h : Fed tr p w db) {b : Batch} (hb : w.batch = some b)
    (hintact : Owner.Intact p ⟨{ w with batch := none }, b.flush db p⟩) :
    Fed tr p { w with batch := none } (b.flush db p) := by
  refine ⟨hintact, fun x hx key => ?_, h.routed⟩
  by_cases hbefore : db.Settled p x
  · rw [(h.intact.sound.fits b hb).rowTotals_of_settled hbefore]
    exact h.row_totals x hbefore key
  · rw [Batch.settled_flush_iff, (h.intact.sound.taken b hb).watermark] at hx
    exact h.intact.rowTotals_flush hb hx hbefore key

theorem Fed.step {s : Fleet} {b : Action} {o : Owner} (h : Fed tr p w s.db)
    (hguard : tr.Delivers s (.act p b)) (hstep : Owner.step p ⟨w, s.db⟩ b = some o) :
    Fed tr p o.toWorker o.db := by
  have hintact : b ≠ .fail → Owner.Intact p o := fun hne => h.intact.step hne hstep
  cases b with
  | deliver m now =>
    obtain ⟨_, rfl⟩ := Owner.step_deliver hstep
    exact h.deliver hguard.1 (hintact (by simp))
  | tickIdle nowWall nowUtc =>
    obtain rfl := Owner.step_tickIdle hstep
    exact ⟨hintact (by simp), h.row_totals, h.routed⟩
  | collect =>
    obtain ⟨_, rfl⟩ := Owner.step_collect hstep
    exact ⟨hintact (by simp), h.row_totals, h.routed⟩
  | commit =>
    obtain ⟨b, hb, rfl⟩ := Owner.step_commit hstep
    exact h.commit hb (hintact (by simp))
  | fail => exact hguard.elim
  | crash now nowUtc => exact hguard.elim

/-- With every window closed and flushed, the rows are the tallies of what was accepted. -/
theorem Fed.rowTotals_of_drained (h : Fed tr p w db) (hopen : rows w.mem.openWindows = [])
    (hbatch : w.batch = none) (x : Int) (key : CellKey) :
    db.rowTotals p x key = cellTally (eventsIn w.accepted x) key := by
  by_cases hsettled : db.Settled p x
  · exact h.row_totals x hsettled key
  · rw [h.intact.sound.rows.rowTotals_eq_none hsettled key]
    have hempty : eventsIn w.accepted x = ∅ := by
      apply Finset.eq_empty_of_forall_notMem
      intro e he
      obtain ⟨m, hm, rfl, _⟩ := (mem_eventsIn _ _ _).mp he
      have hend : windowEnd m.window ≤ w.mem.flushedWatermark := by
        by_contra hlt
        obtain ⟨win, hwin, _⟩ := h.intact.contents.still_open m hm (by dsimp only; omega)
        have hrow := (mem_rows _ _ _).mpr hwin
        dsimp only at hrow
        rw [hopen] at hrow
        cases hrow
      rcases h.intact.conserved m hm hend with ⟨b, hb, _⟩ | hdone
      · dsimp only at hb
        rw [hbatch] at hb
        cases hb
      · exact hsettled hdone
    rw [hempty, cellTally_empty]

end Fed

namespace Fleet

/-- Every owner is fed, and a partition without an owner has written nothing. -/
structure Fed (tr : Traffic) (s : Fleet) : Prop where
  sound : s.Sound
  unowned : ∀ p, s.owners.lookup p = none → s.db.loadProgress p = none
  owners : ∀ p w, s.owners.lookup p = some w → HushEngine.Fed tr p w s.db

theorem fed_idle (tr : Traffic) : Fed tr (idle Db.empty) where
  sound := ⟨steady_idle _, Db.rowsCovered_empty⟩
  unowned p _ := rfl
  owners p w hw := by cases hw

theorem Fed.step {tr : Traffic} {s t : Fleet} {a : FleetAction} (h : Fed tr s)
    (hguard : tr.Delivers s a) (hstep : Fleet.step s a = some t) : Fed tr t where
  sound := h.sound.step hstep
  unowned q hq := by
    cases a with
    | start p hllEnabled now nowUtc =>
      obtain ⟨hnone, rfl⟩ := step_start hstep
      by_cases hqp : q = p
      · subst hqp
        rw [advance_owners_self] at hq
        cases hq
      · rw [advance_owners_ne s _ hqp] at hq
        exact h.unowned q hq
    | act p b =>
      obtain ⟨w, o, hw, ho, rfl⟩ := step_act hstep
      by_cases hqp : q = p
      · subst hqp
        rw [advance_owners_self] at hq
        cases hq
      · rw [advance_owners_ne s _ hqp] at hq
        rw [advance_db, (samePartition_of_step hqp ho).progress]
        exact h.unowned q hq
  owners := by
    refine lift_step (HushEngine.Fed tr) ?_ ?_ (fun _ _ _ hsame hw => hw.of_samePartition hsame)
      h.owners hstep
    · rintro p hllEnabled now nowUtc rfl
      obtain ⟨hnone, rfl⟩ := step_start hstep
      exact fed_boot tr (h.sound.rows p) (h.unowned p hnone) hllEnabled now nowUtc
    · rintro p b w o rfl _ hw ho
      exact hw.step hguard ho

/-- The partition's owner has accepted the event. -/
def Accepted (s : Fleet) (p : Int) (e : Event) : Prop :=
  ∃ w, s.owners.lookup p = some w ∧ ∃ m ∈ w.accepted, m.event = e

theorem Accepted.step {tr : Traffic} {s t : Fleet} {a : FleetAction} {p : Int} {e : Event}
    (h : Accepted s p e) (hguard : tr.Delivers s a) (hstep : Fleet.step s a = some t) :
    Accepted t p e := by
  obtain ⟨w, hw, m, hm, rfl⟩ := h
  cases a with
  | start q hllEnabled now nowUtc =>
    obtain ⟨hnone, rfl⟩ := step_start hstep
    have hne : p ≠ q := by
      rintro rfl
      rw [hw] at hnone
      cases hnone
    exact ⟨w, by rw [advance_owners_ne s _ hne]; exact hw, m, hm, rfl⟩
  | act q b =>
    obtain ⟨w', o, hw', ho, rfl⟩ := step_act hstep
    by_cases hpq : p = q
    · subst hpq
      rw [hw] at hw'
      cases hw'
      have hlive : b.isCrash = false := by
        cases b <;> first | rfl | cases hguard
      exact ⟨_, advance_owners_self .., m, Owner.accepted_step hlive ho hm, rfl⟩
    · exact ⟨w, by rw [advance_owners_ne s _ hpq]; exact hw, m, hm, rfl⟩

theorem accepted_of_deliver {tr : Traffic} {s t : Fleet} {p : Int} {m : Message} {now : Nat}
    (h : Fed tr s) (hguard : tr.Delivers s (.act p (.deliver m now)))
    (hstep : Fleet.step s (.act p (.deliver m now)) = some t) : Accepted t p m.event := by
  obtain ⟨w, o, hw, ho, rfl⟩ := step_act hstep
  obtain ⟨⟨e, he, hwire⟩, _⟩ := hguard.1
  have hfed := h.owners p w hw
  obtain ⟨hoffset, rfl⟩ := Owner.step_deliver ho
  refine ⟨_, advance_owners_self .., ?_⟩
  by_cases hend : windowEnd m.window ≤ w.mem.flushedWatermark
  · obtain ⟨m', hm', heq⟩ := hguard.2 w hw ((w.mem.processEvent_late_iff ..).mpr hend)
    exact ⟨m', Owner.mem_consume hm', heq⟩
  · obtain ⟨m', hm', hid, _⟩ := Owner.consume_holds hfed.intact.contents m now hoffset
      (by dsimp only; omega)
    refine ⟨m', hm', ?_⟩
    have hconsumed : HushEngine.Fed tr p (w.consume m now) s.db :=
      hfed.deliver hguard.1 (hfed.intact.step (by simp) ho)
    obtain ⟨⟨e', he', hwire'⟩, _⟩ := hconsumed.routed m' hm'
    rw [← hwire, ← hwire'] at hid ⊢
    rw [tr.eq_of_eventId he' he hid]

/-- Every owner has closed and flushed all its windows. -/
def Drained (s : Fleet) : Prop :=
  ∀ r ∈ rows s.owners, rows r.2.mem.openWindows = [] ∧ r.2.batch = none

instance (s : Fleet) : Decidable s.Drained :=
  inferInstanceAs (Decidable (∀ r ∈ rows s.owners,
    rows r.2.mem.openWindows = [] ∧ r.2.batch = none))

/-- The rows of each partition are the tallies of its share of the traffic. -/
theorem Fed.rowTotals_eq {tr : Traffic} {s : Fleet} (h : Fed tr s) (hdrained : Drained s)
    (hall : ∀ e ∈ tr.events, s.Accepted (tr.route (tr.wire e).user) (tr.wire e)) (p x : Int)
    (key : CellKey) : s.db.rowTotals p x key =
      cellTally (Tally.routed (fun e => tr.route e.user) (tr.sentIn x) p) key := by
  cases hw : s.owners.lookup p with
  | some w =>
    have hfed := h.owners p w hw
    obtain ⟨hopen, hbatch⟩ := hdrained (p, w) ((mem_rows _ _ _).mpr hw)
    rw [hfed.rowTotals_of_drained hopen hbatch x key]
    congr 1
    ext e
    simp only [mem_eventsIn, Tally.routed, Finset.mem_filter, tr.mem_sentIn]
    constructor
    · intro h
      obtain ⟨m, hm, rfl, rfl⟩ := h
      obtain ⟨⟨e', he', hwire⟩, hroute⟩ := hfed.routed m hm
      exact ⟨⟨e', he', hwire, rfl⟩, hroute⟩
    · intro h
      obtain ⟨⟨e', he', rfl, rfl⟩, rfl⟩ := h
      obtain ⟨w', hw', m, hm, heq⟩ := hall e' he'
      rw [hw] at hw'
      cases hw'
      exact ⟨m, hm, by rw [Message.window, heq], heq⟩
  | none =>
    have hnone : ¬ s.db.Settled p x := by
      intro hparts
      obtain ⟨pr, hpr, _⟩ := hparts
      rw [h.unowned p hw] at hpr
      cases hpr
    rw [(h.sound.rows p).rowTotals_eq_none hnone key]
    have hempty : Tally.routed (fun e => tr.route e.user) (tr.sentIn x) p = ∅ := by
      apply Finset.eq_empty_of_forall_notMem
      intro e he
      simp only [Tally.routed, Finset.mem_filter, tr.mem_sentIn] at he
      obtain ⟨⟨e', he', rfl, _⟩, rfl⟩ := he
      obtain ⟨w, hw', _⟩ := hall e' he'
      rw [hw] at hw'
      cases hw'
    rw [hempty, cellTally_empty]

theorem Fed.lookup_actualCells {tr : Traffic} {s : Fleet} (h : Fed tr s)
    (hdrained : Drained s)
    (hall : ∀ e ∈ tr.events, s.Accepted (tr.route (tr.wire e).user) (tr.wire e)) (g : GroupKey) :
    (actualCells s.db).lookup g = (expectedCells (truthOf tr.events)).lookup g := by
  obtain ⟨x, key⟩ := g
  have hrow := fun p => h.rowTotals_eq hdrained hall p x key
  have hpart : ∀ p, (s.db.aggCells.lookup ⟨x, key, p⟩).isSome ↔
      ∃ e ∈ contributors CellKey.cellsForEvent (tr.sentIn x) key, tr.route e.user = p := by
    intro p
    rw [← Option.isSome_map (f := AggRow.totals), ← Db.rowTotals, hrow p, cellTally,
      tally_isSome_iff, contributors_routed]
    simp only [Finset.Nonempty, Finset.mem_filter]
  have hcolumn : ∀ (column : AggRow → Nat) (sum : Totals → Nat),
      (∀ row, column row = sum row.totals) → sum ⟨0, 0⟩ = 0 →
      s.db.groupSum ⟨x, key⟩ column = ∑ p ∈ (tr.sentIn x).image fun e => tr.route e.user,
        sum (totals CellKey.cellsForEvent Event.user
          (Tally.routed (fun e => tr.route e.user) (tr.sentIn x) p) key) := by
    intro column sum hsum hzero
    rw [s.db.groupSum_eq ⟨x, key⟩ column ((tr.sentIn x).image fun e => tr.route e.user)]
    · refine Finset.sum_congr rfl fun p _ => ?_
      rw [← totals_of_tally, ← cellTally, ← hrow p, Db.rowTotals]
      cases s.db.aggCells.lookup ⟨x, key, p⟩ with
      | none => exact hzero.symm
      | some row => exact hsum row
    · intro p hp
      obtain ⟨e, he, rfl⟩ := (hpart p).mp hp
      exact Finset.mem_image_of_mem _ ((mem_contributors _ _ _ _).mp he).1
  have hroutes : ∀ e ∈ contributors CellKey.cellsForEvent (tr.sentIn x) key,
      tr.route e.user ∈ (tr.sentIn x).image fun e => tr.route e.user := fun e he =>
    Finset.mem_image_of_mem _ ((mem_contributors _ _ _ _).mp he).1
  have hevents := hcolumn AggRow.events Totals.events (fun _ => rfl) rfl
  have husers := hcolumn AggRow.users Totals.users (fun _ => rfl) rfl
  rw [sum_events_routed _ _ _ _ _ _ hroutes] at hevents
  rw [sum_users_routed _ _ tr.route _ _ _ hroutes] at husers
  have hgroups : (⟨x, key⟩ : GroupKey) ∈ s.db.groups ↔
      (contributors CellKey.cellsForEvent (tr.sentIn x) key).Nonempty := by
    simp only [Db.mem_groups, hpart, Finset.Nonempty]
    constructor
    · intro h
      obtain ⟨_, e, he, _⟩ := h
      exact ⟨e, he⟩
    · intro h
      obtain ⟨e, he⟩ := h
      exact ⟨_, e, he, rfl⟩
  rw [lookup_truthOf _ tr.unique.of_map, ← tr.tally_sentIn, HushEngine.lookup_actualCells,
    hevents, husers]
  simp only [hgroups]
  rfl

/-- Once everything has been delivered, closed and flushed, the summed rows are the ground truth
and reconciliation finds no drift. -/
theorem pipeline_eq_truth (tr : Traffic) (actions : List FleetAction) (s : Fleet)
    (hrun : Run step tr.Delivers (idle Db.empty) actions s)
    (hall : ∀ e ∈ tr.events, ∃ offset now,
      FleetAction.act (tr.route (tr.wire e).user) (.deliver ⟨offset, tr.wire e⟩ now) ∈ actions)
    (hdrained : Drained s) :
    (∀ c ∈ truthOf tr.events, s.db.groupSum c.key AggRow.events = c.events ∧
      s.db.groupSum c.key AggRow.users = c.users) ∧
    (∀ g, g ∈ s.db.groups ↔ ∃ c ∈ truthOf tr.events, c.key = g) ∧
    reconcile (truthOf tr.events) s.db = .zero := by
  have hfed : Fed tr s := hrun.invariant (fun _ _ _ hx hg hy => hx.step hg hy) (fed_idle tr)
  have haccepted : ∀ e ∈ tr.events, s.Accepted (tr.route (tr.wire e).user) (tr.wire e) := by
    intro e he
    obtain ⟨offset, now, hmem⟩ := hall e he
    obtain ⟨pre, post, rfl⟩ := List.append_of_mem hmem
    obtain ⟨u, v, hpre, hguard, hstep, hpost⟩ := hrun.guard_at
    have hu : Fed tr u := hpre.invariant (fun _ _ _ hx hg hy => hx.step hg hy) (fed_idle tr)
    have hv : Accepted v (tr.route (tr.wire e).user) (tr.wire e) :=
      accepted_of_deliver hu hguard hstep
    exact hpost.invariant (fun _ _ _ hx hg hy => Accepted.step hx hg hy) hv
  have hlook := hfed.lookup_actualCells hdrained haccepted
  have hactual := HushEngine.lookup_actualCells s.db
  refine ⟨fun c hc => ?_, fun g => ?_, reconcile_eq_zero hlook⟩
  · have hcell := hactual c.key
    rw [hlook, lookup_expectedCells_of_mem hc] at hcell
    split_ifs at hcell
    have htotals := Option.some.inj hcell
    exact ⟨(congrArg Totals.events htotals).symm, (congrArg Totals.users htotals).symm⟩
  · rw [← isSome_lookup_expectedCells, ← hlook, hactual]
    split_ifs with hg <;> simp [hg]

/-- Two users in one window, on two partitions. -/
def sampleTraffic : Traffic where
  events := [evt 1000000000 1 "u1", evt 2000000000 2 "u2"]
  unique := by decide
  pseudonym := id
  injective := Function.injective_id
  route u := if u = "u1" then 0 else 1

/-- One event is sent twice, and idle ticks close the window. -/
def sampleDelivery : List FleetAction :=
  [.start 0 false 0 0, .start 1 false 0 0,
    .act 0 (.deliver ⟨0, evt 1000000000 1 "u1"⟩ 0), .act 1 (.deliver ⟨0, evt 2000000000 2 "u2"⟩ 0),
    .act 0 (.deliver ⟨1, evt 1000000000 1 "u1"⟩ 0), .act 0 (.tickIdle 20000000000 200000000000),
    .act 0 .collect, .act 1 (.tickIdle 20000000000 200000000000), .act 1 .collect,
    .act 1 .commit, .act 0 .commit]

theorem pipeline_eq_truth_sample :
    ∃ s, Run step sampleTraffic.Delivers (idle Db.empty) sampleDelivery s ∧ Drained s ∧
      reconcile (truthOf sampleTraffic.events) s.db = .zero := by
  have hexec : (execute step sampleTraffic.Delivers (idle Db.empty) sampleDelivery).map
      (fun s => decide s.Drained) = some true := by decide
  obtain ⟨s, hs, hdrained⟩ := Option.map_eq_some_iff.mp hexec
  have hdrained := of_decide_eq_true hdrained
  have hall : ∀ e ∈ sampleTraffic.events, ∃ offset now, FleetAction.act
      (sampleTraffic.route (sampleTraffic.wire e).user)
      (.deliver ⟨offset, sampleTraffic.wire e⟩ now) ∈ sampleDelivery := by
    intro e he
    have hdelivered : ∀ e ∈ sampleTraffic.events, FleetAction.act
        (sampleTraffic.route (sampleTraffic.wire e).user)
        (.deliver ⟨0, sampleTraffic.wire e⟩ 0) ∈ sampleDelivery := by decide
    exact ⟨0, 0, hdelivered e he⟩
  exact ⟨s, run_of_execute hs, hdrained,
    (pipeline_eq_truth sampleTraffic sampleDelivery s (run_of_execute hs) hall hdrained).2.2⟩

end Fleet

end HushEngine
