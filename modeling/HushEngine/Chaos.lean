import HushEngine.ExactlyOnce
import HushEngine.Attribution

/-!
Crashes under load. Every partition has a log with copies, is read in order, and
is read again from the stored offset whenever its owner is killed; idle ticks
close what no later event closes. When everything has settled, the rows summed
over the partitions are the ground truth, and reconciliation finds no drift.
-/
namespace HushEngine

open Keyed Tally Runs

/-- A partition that nothing was sent to. -/
def Log.empty : Log := ⟨[], by decide, by decide⟩

/-- The logs hold the traffic, each event in the log of its pseudonym's partition, once or more. -/
structure Traffic.Published (tr : Traffic) (logs : Int → Log) : Prop where
  sent : ∀ p, ∀ m ∈ (logs p).entries,
    (∃ e ∈ tr.events, tr.wire e = m.event) ∧ tr.route m.event.user = p
  all : ∀ e ∈ tr.events, ∃ m ∈ (logs (tr.route (tr.wire e).user)).entries, m.event = tr.wire e

namespace Traffic.Published

variable {tr : Traffic} {logs : Int → Log}

theorem copiesAgree (h : tr.Published logs) (p : Int) : (logs p).CopiesAgree := by
  intro m hm m' hm' hid
  obtain ⟨⟨e, he, hwire⟩, _⟩ := h.sent p m hm
  obtain ⟨⟨e', he', hwire'⟩, _⟩ := h.sent p m' hm'
  rw [← hwire, ← hwire'] at hid ⊢
  rw [tr.eq_of_eventId he he' hid]

theorem eventsIn_log (h : tr.Published logs) (p x : Int) :
    eventsIn (logs p).entries x = Tally.routed (fun e => tr.route e.user) (tr.sentIn x) p := by
  ext e
  simp only [mem_eventsIn, Tally.routed, Finset.mem_filter, tr.mem_sentIn]
  constructor
  · intro hlog
    obtain ⟨m, hm, rfl, rfl⟩ := hlog
    obtain ⟨⟨e', he', hwire⟩, hroute⟩ := h.sent p m hm
    exact ⟨⟨e', he', hwire, rfl⟩, hroute⟩
  · intro hsent
    obtain ⟨⟨e', he', rfl, rfl⟩, rfl⟩ := hsent
    obtain ⟨m, hm, heq⟩ := h.all e' he'
    exact ⟨m, hm, by rw [Message.window, heq], heq⟩

end Traffic.Published

namespace Owner

variable {log : Log} {p : Int} {s : Owner} {w : Worker} {db db' : Db}

theorem Caught.of_samePartition {due : List Message} (h : Caught p due ⟨w, db⟩)
    (hsame : db.SamePartition p db') : Caught p due ⟨w, db'⟩ := by
  have hdurable : ∀ x, db'.Durable p x ↔ db.Durable p x := by
    intro x
    unfold Db.Durable
    rw [hsame.rows _ rfl]
  constructor
  case seen => exact fun m hm hlt => (h.seen m hm hlt).imp (hdurable _).mpr id
  case unseen => exact fun m hm hle => (h.unseen m hm hle).imp (hdurable _).mpr id
  case progress =>
    intro pr hpr m hm hcovered
    dsimp only at hpr
    rw [hsame.progress] at hpr
    exact (hdurable _).mpr (h.progress pr hpr m hm hcovered)

theorem OnLog.of_samePartition (h : OnLog log p ⟨w, db⟩) (hsame : db.SamePartition p db') :
    OnLog log p ⟨w, db'⟩ where
  intact := h.intact.of_samePartition hsame
  caught := h.caught.of_samePartition hsame
  logged := h.logged
  in_time m hm hle := by
    dsimp only
    unfold Db.Durable
    rw [hsame.rows _ rfl]
    exact h.in_time m hm hle
  rows x hx key := by
    dsimp only at hx ⊢
    rw [hsame.rowTotals_eq]
    exact h.rows x ((hsame.settled_iff x).mp hx) key

/-- Every message still to be read is in time for the clock, or its window is in the tables. -/
def UpToDate (log : Log) (p : Int) (s : Owner) (nowUtc : Int) : Prop :=
  ∀ m ∈ log.entries, s.mem.nextOffset ≤ m.offset →
    s.db.Durable p m.window ∨ nowUtc - allowedLateness < windowEnd m.window

instance (log : Log) (p : Int) (s : Owner) (nowUtc : Int) : Decidable (UpToDate log p s nowUtc) :=
  inferInstanceAs (Decidable (∀ m ∈ log.entries, s.mem.nextOffset ≤ m.offset →
    s.db.Durable p m.window ∨ nowUtc - allowedLateness < windowEnd m.window))

theorem OnLog.tickIdle (h : OnLog log p s) {nowWall : Nat} {nowUtc : Int}
    (hupToDate : UpToDate log p s nowUtc)
    (hintact : Intact p { s with mem := s.mem.tickIdle nowWall nowUtc }) :
    OnLog log p { s with mem := s.mem.tickIdle nowWall nowUtc } := by
  refine ⟨hintact, h.caught.tickIdle nowWall nowUtc, h.logged, fun m hm hle => ?_, h.rows⟩
  dsimp only at hle ⊢
  rw [PartitionState.tickIdle_nextOffset] at hle
  unfold PartitionState.watermark
  rcases s.mem.tickIdle_maxEventTs nowWall nowUtc with hkept | ⟨_, hmoved⟩
  · rw [hkept]
    exact h.in_time m hm hle
  · rw [hmoved]
    exact hupToDate m hm hle

/-- An owner with no open window and no batch has settled what it has accepted. -/
theorem Intact.settled_of_drained (h : Intact p s) (hopen : rows s.mem.openWindows = [])
    (hbatch : s.batch = none) {m : Message} (hm : m ∈ s.accepted) : s.db.Settled p m.window := by
  have hend : windowEnd m.window ≤ s.mem.flushedWatermark := by
    by_contra hlt
    obtain ⟨win, hwin, _⟩ := h.contents.still_open m hm (by omega)
    have hrow := (mem_rows _ _ _).mpr hwin
    rw [hopen] at hrow
    cases hrow
  rcases h.conserved m hm hend with ⟨b, hb, _⟩ | hdone
  · rw [hbatch] at hb
    cases hb
  · exact hdone

/-- Having read the log to its end as well, it has settled all of it. -/
theorem OnLog.settled_of_drained (h : OnLog log p s) (hread : log.nextAt s.mem.nextOffset = none)
    (hopen : Keyed.rows s.mem.openWindows = []) (hbatch : s.batch = none) {m : Message}
    (hm : m ∈ log.entries) : s.db.Settled p m.window := by
  have hlt : m.offset < s.mem.nextOffset := by
    have hnot := List.find?_eq_none.mp hread m hm
    simpa using hnot
  rcases h.caught.seen m hm hlt with hdurable | ⟨m', hm', _, hw, _⟩
  · exact h.intact.sound.rows.settled hdurable
  · rw [← hw]
    exact h.intact.settled_of_drained hopen hbatch hm'

end Owner

namespace Fleet

/-- What the logs of the partitions allow: reading in order, idle ticks that are not ahead of what
is still to be read, flushes that succeed, and owners killed at any time. -/
def Chaotic (logs : Int → Log) (s : Fleet) : FleetAction → Prop
  | .start p _ _ nowUtc => (logs p).EndsAfter (nowUtc - oneDay)
  | .act p (.tickIdle _ nowUtc) =>
    ∀ w ∈ s.owners.lookup p, Owner.UpToDate (logs p) p ⟨w, s.db⟩ nowUtc
  | .act p a => ∀ w ∈ s.owners.lookup p, (logs p).Schedule p ⟨w, s.db⟩ a

instance (logs : Int → Log) (s : Fleet) (a : FleetAction) : Decidable (Chaotic logs s a) :=
  match a with
  | .start p _ _ nowUtc => inferInstanceAs
      (Decidable (∀ m ∈ (logs p).entries, nowUtc - oneDay < windowEnd m.window))
  | .act p (.tickIdle _ nowUtc) => inferInstanceAs (Decidable
      (∀ w ∈ s.owners.lookup p, Owner.UpToDate (logs p) p ⟨w, s.db⟩ nowUtc))
  | .act p (.deliver m now) => inferInstanceAs (Decidable
      (∀ w ∈ s.owners.lookup p, (logs p).Schedule p ⟨w, s.db⟩ (.deliver m now)))
  | .act p .collect => inferInstanceAs (Decidable
      (∀ w ∈ s.owners.lookup p, (logs p).Schedule p ⟨w, s.db⟩ .collect))
  | .act p .commit => inferInstanceAs (Decidable
      (∀ w ∈ s.owners.lookup p, (logs p).Schedule p ⟨w, s.db⟩ .commit))
  | .act p .fail => inferInstanceAs (Decidable
      (∀ w ∈ s.owners.lookup p, (logs p).Schedule p ⟨w, s.db⟩ .fail))
  | .act p (.crash now nowUtc) => inferInstanceAs (Decidable
      (∀ w ∈ s.owners.lookup p, (logs p).Schedule p ⟨w, s.db⟩ (.crash now nowUtc)))

/-- A partition that nobody has owned has no progress; owners never leave. -/
theorem unowned_step {s t : Fleet} {a : FleetAction}
    (h : ∀ p, s.owners.lookup p = none → s.db.loadProgress p = none)
    (hstep : step s a = some t) (q : Int) (hq : t.owners.lookup q = none) :
    t.db.loadProgress q = none := by
  cases a with
  | start p hllEnabled now nowUtc =>
    obtain ⟨_, rfl⟩ := step_start hstep
    have hqp : q ≠ p := by
      rintro rfl
      rw [advance_owners_self] at hq
      cases hq
    rw [advance_owners_ne s _ hqp] at hq
    exact h q hq
  | act p b =>
    obtain ⟨w, o, _, ho, rfl⟩ := step_act hstep
    have hqp : q ≠ p := by
      rintro rfl
      rw [advance_owners_self] at hq
      cases hq
    rw [advance_owners_ne s _ hqp] at hq
    rw [advance_db, (samePartition_of_step hqp ho).progress]
    exact h q hq

/-- Every owner has followed its log, and a partition without an owner has written nothing. -/
structure OnLogs (logs : Int → Log) (s : Fleet) : Prop where
  rows : ∀ p, s.db.RowsCovered p
  unowned : ∀ p, s.owners.lookup p = none → s.db.loadProgress p = none
  owners : ∀ p w, s.owners.lookup p = some w → Owner.OnLog (logs p) p ⟨w, s.db⟩

section OnLogs

variable {logs : Int → Log} {s t : Fleet} {a : FleetAction}

theorem onLogs_idle (logs : Int → Log) : OnLogs logs (idle Db.empty) where
  rows := Db.rowsCovered_empty
  unowned p _ := rfl
  owners p w hw := by cases hw

theorem OnLogs.onLog_start (h : OnLogs logs s) {p : Int} (hnone : s.owners.lookup p = none)
    (hllEnabled : Bool) (now : Nat) {nowUtc : Int}
    (hends : (logs p).EndsAfter (nowUtc - oneDay)) :
    Owner.OnLog (logs p) p (Owner.boot s.db p hllEnabled now nowUtc []) := by
  have hload := h.unowned p hnone
  refine Owner.onLog_boot (h.rows p) _ _ _ _ (fun pr hpr => ?_) (fun _ => hends) fun x hx => ?_
  · rw [hload] at hpr
    cases hpr
  · obtain ⟨pr, hpr, _⟩ := hx
    rw [hload] at hpr
    cases hpr

theorem onLog_act {p : Int} {w : Worker} {b : Action} {o : Owner}
    (h : Owner.OnLog (logs p) p ⟨w, s.db⟩) (hcopies : (logs p).CopiesAgree)
    (hw : s.owners.lookup p = some w) (hguard : Chaotic logs s (.act p b))
    (hstep : Owner.step p ⟨w, s.db⟩ b = some o) : Owner.OnLog (logs p) p o := by
  cases b with
  | tickIdle nowWall nowUtc =>
    have hintact := h.intact.step (by simp) hstep
    obtain rfl := Owner.step_tickIdle hstep
    exact h.tickIdle (hguard w hw) hintact
  | deliver m now => exact h.step hcopies (hguard w hw) hstep
  | collect => exact h.step hcopies (hguard w hw) hstep
  | commit => exact h.step hcopies (hguard w hw) hstep
  | fail => exact h.step hcopies (hguard w hw) hstep
  | crash now nowUtc => exact h.step hcopies (hguard w hw) hstep

theorem OnLogs.step (h : OnLogs logs s) (hcopies : ∀ p, (logs p).CopiesAgree)
    (hguard : Chaotic logs s a) (hstep : Fleet.step s a = some t) : OnLogs logs t := by
  have howners : ∀ p w, t.owners.lookup p = some w → Owner.OnLog (logs p) p ⟨w, t.db⟩ := by
    refine lift_step (fun p w db => Owner.OnLog (logs p) p ⟨w, db⟩) ?_ ?_
      (fun _ _ _ hsame hw => hw.of_samePartition hsame) h.owners hstep
    · rintro p hllEnabled now nowUtc rfl
      exact h.onLog_start (step_start hstep).1 hllEnabled now hguard
    · rintro p b w o rfl hw hlog ho
      exact onLog_act hlog (hcopies p) hw hguard ho
  refine ⟨fun q => ?_, unowned_step h.unowned hstep, howners⟩
  cases hq : t.owners.lookup q with
  | some w => exact (howners q w hq).intact.sound.rows
  | none =>
    cases a with
    | start p hllEnabled now nowUtc =>
      obtain ⟨_, rfl⟩ := step_start hstep
      exact h.rows q
    | act p b =>
      obtain ⟨w, o, _, ho, rfl⟩ := step_act hstep
      have hqp : q ≠ p := by
        rintro rfl
        rw [advance_owners_self] at hq
        cases hq
      exact (h.rows q).of_samePartition (samePartition_of_step hqp ho)

/-- The partition's rows of a window are the tally of its log once they are settled, and there are
none before. -/
theorem OnLogs.rowTotals_eq (h : OnLogs logs s) {p x : Int} (key : CellKey)
    (hsettled : (eventsIn (logs p).entries x).Nonempty → s.db.Settled p x) :
    s.db.rowTotals p x key = cellTally (eventsIn (logs p).entries x) key := by
  by_cases hx : s.db.Settled p x
  · cases hw : s.owners.lookup p with
    | some w => exact (h.owners p w hw).rows x hx key
    | none =>
      obtain ⟨pr, hpr, _⟩ := hx
      rw [h.unowned p hw] at hpr
      cases hpr
  · rw [(h.rows p).rowTotals_eq_none hx key,
      Finset.not_nonempty_iff_eq_empty.mp fun hne => hx (hsettled hne), cellTally_empty]

end OnLogs

/-- Every partition with traffic has an owner that has read its log to the end. -/
def ReadToEnd (tr : Traffic) (logs : Int → Log) (s : Fleet) : Prop :=
  ∀ e ∈ tr.events, ∃ w ∈ s.owners.lookup (tr.route (tr.wire e).user),
    (logs (tr.route (tr.wire e).user)).nextAt w.mem.nextOffset = none

instance (tr : Traffic) (logs : Int → Log) (s : Fleet) : Decidable (ReadToEnd tr logs s) :=
  inferInstanceAs (Decidable (∀ e ∈ tr.events, ∃ w ∈ s.owners.lookup (tr.route (tr.wire e).user),
    (logs (tr.route (tr.wire e).user)).nextAt w.mem.nextOffset = none))

section Published

variable {tr : Traffic} {logs : Int → Log} {s : Fleet}

theorem onLogs_of_run (hpublished : tr.Published logs) {actions : List FleetAction}
    (hrun : Run step (Chaotic logs) (idle Db.empty) actions s) : OnLogs logs s :=
  hrun.invariant (fun _ _ _ hs hguard hstep => hs.step hpublished.copiesAgree hguard hstep)
    (onLogs_idle logs)

/-- A window that its partitions have settled is tallied, each event where it was routed. -/
theorem OnLogs.tallied (h : OnLogs logs s) (hpublished : tr.Published logs) {x : Int}
    (hx : ∀ e ∈ tr.sentIn x, s.db.Settled (tr.route e.user) x) :
    s.db.Tallied x (Tally.routed (fun e => tr.route e.user) (tr.sentIn x)) := by
  intro p key
  rw [← hpublished.eventsIn_log]
  refine h.rowTotals_eq key fun hne => ?_
  obtain ⟨e, he⟩ := hne
  rw [hpublished.eventsIn_log, Tally.routed, Finset.mem_filter] at he
  exact he.2 ▸ hx e he.1

/-- Its cells are the ground truth. -/
theorem OnLogs.lookup_actualCells (h : OnLogs logs s) (hpublished : tr.Published logs)
    {g : GroupKey}
    (hg : ∀ e ∈ tr.sentIn g.windowStart, s.db.Settled (tr.route e.user) g.windowStart) :
    (actualCells s.db).lookup g = (expectedCells (truthOf tr.events)).lookup g := by
  rw [lookup_truthOf _ tr.unique.of_map, ← tr.tally_sentIn]
  exact (h.tallied hpublished hg).lookup_actualCells g.cell

theorem OnLogs.settled_of_read (h : OnLogs logs s) (hpublished : tr.Published logs)
    (hread : ReadToEnd tr logs s) (hdrained : Drained s) {x : Int} {e : Event}
    (he : e ∈ tr.sentIn x) : s.db.Settled (tr.route e.user) x := by
  obtain ⟨e', he', rfl, hwindow⟩ := (tr.mem_sentIn _ _).mp he
  obtain ⟨m, hm, heq⟩ := hpublished.all e' he'
  obtain ⟨w, hw, hend⟩ := hread e' he'
  obtain ⟨hopen, hbatch⟩ := hdrained (_, w) ((mem_rows _ _ _).mpr hw)
  have hdone := (h.owners _ w hw).settled_of_drained hend hopen hbatch hm
  rw [Message.window, heq, hwindow] at hdone
  exact hdone

end Published

/-- Whoever is killed and whenever, the cells of a window that its partitions have settled are the
ground truth, and once all logs are read and flushed reconciliation finds no drift. -/
theorem chaos_no_drift (tr : Traffic) (logs : Int → Log) (hpublished : tr.Published logs)
    (actions : List FleetAction) (s : Fleet)
    (hrun : Run step (Chaotic logs) (idle Db.empty) actions s) :
    (∀ g, (∀ e ∈ tr.sentIn g.windowStart, s.db.Settled (tr.route e.user) g.windowStart) →
      (actualCells s.db).lookup g = (expectedCells (truthOf tr.events)).lookup g) ∧
    (ReadToEnd tr logs s → Drained s → reconcile (truthOf tr.events) s.db = .zero) := by
  have hlogs := onLogs_of_run hpublished hrun
  refine ⟨fun g => hlogs.lookup_actualCells hpublished, fun hread hdrained => ?_⟩
  exact reconcile_eq_zero fun g => hlogs.lookup_actualCells hpublished fun e =>
    hlogs.settled_of_read hpublished hread hdrained

/-- All the traffic in the first partition. -/
def onlyFirst (log : Log) (p : Int) : Log := if p = 0 then log else .empty

theorem onlyFirst_published {tr : Traffic} {log : Log} (hroute : ∀ user, tr.route user = 0)
    (hsent : ∀ m ∈ log.entries, ∃ e ∈ tr.events, tr.wire e = m.event)
    (hall : ∀ e ∈ tr.events, ∃ m ∈ log.entries, m.event = tr.wire e) :
    tr.Published (onlyFirst log) where
  sent p m hm := by
    unfold onlyFirst at hm
    split_ifs at hm with hp
    · exact ⟨hsent m hm, (hroute _).trans hp.symm⟩
    · cases hm
  all e he := by
    rw [hroute]
    exact hall e he

/-- The first user's event comes twice; the second partition is killed with a batch in hand. -/
def sampleLogs (p : Int) : Log :=
  if p = 0 then ⟨[⟨0, evt 1000000000 1 "u1"⟩, ⟨1, evt 1000000000 1 "u1"⟩], by decide, by decide⟩
  else if p = 1 then ⟨[⟨0, evt 2000000000 2 "u2"⟩], by decide, by decide⟩
  else .empty

def sampleChaos : List FleetAction :=
  [.start 0 false 0 0, .start 1 false 0 0,
    .act 1 (.deliver ⟨0, evt 2000000000 2 "u2"⟩ 0), .act 0 (.deliver ⟨0, evt 1000000000 1 "u1"⟩ 0),
    .act 0 (.crash 1 0), .act 1 (.tickIdle 20000000000 200000000000), .act 1 .collect,
    .act 0 (.deliver ⟨0, evt 1000000000 1 "u1"⟩ 2), .act 1 (.crash 3 0),
    .act 1 (.deliver ⟨0, evt 2000000000 2 "u2"⟩ 4), .act 0 (.deliver ⟨1, evt 1000000000 1 "u1"⟩ 5),
    .act 0 (.tickIdle 20000000000 200000000000), .act 0 .collect, .act 0 .commit,
    .act 1 (.tickIdle 20000000000 200000000000), .act 1 .collect, .act 1 .commit,
    .act 1 (.crash 20000000001 200000000001)]

theorem sampleLogs_published : sampleTraffic.Published sampleLogs where
  sent p m hm := by
    unfold sampleLogs at hm
    split_ifs at hm with h0 h1
    · subst h0
      revert m
      decide
    · subst h1
      revert m
      decide
    · cases hm
  all := by decide

theorem chaos_no_drift_sample :
    ∃ s, Run step (Chaotic sampleLogs) (idle Db.empty) sampleChaos s ∧
      reconcile (truthOf sampleTraffic.events) s.db = .zero := by
  have hexec : (execute step (Chaotic sampleLogs) (idle Db.empty) sampleChaos).map
      (fun s => decide (s.Drained ∧ ReadToEnd sampleTraffic sampleLogs s)) = some true := by
    decide
  obtain ⟨s, hs, hdone⟩ := Option.map_eq_some_iff.mp hexec
  obtain ⟨hdrained, hread⟩ := of_decide_eq_true hdone
  exact ⟨s, run_of_execute hs, (chaos_no_drift sampleTraffic sampleLogs sampleLogs_published
    sampleChaos s (run_of_execute hs)).2 hread hdrained⟩

end Fleet

end HushEngine
