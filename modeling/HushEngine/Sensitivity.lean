import HushEngine.Repartitioning
import Mathlib.Algebra.BigOperators.Group.Finset.Piecewise

/-!
What one user changes. The noise of a released count is calibrated to a change
of one, and one is what a stored count changes by when a user's events are left
out, however the rest is spread, read and flushed. The merged row adds counts
up, and changes by one for every merged cell the user is in.
-/
namespace HushEngine

open Keyed Tally Runs Fallible Grouping

/-- The events of everyone else. -/
def withoutUser (events : Finset Event) (u : String) : Finset Event :=
  events.filter fun e => e.user ≠ u

theorem card_usersIn_withoutUser (events : Finset Event) (u : String) (c : CellKey) :
    (usersIn events c).card =
      (usersIn (withoutUser events u) c).card + if u ∈ usersIn events c then 1 else 0 := by
  rw [usersIn, usersIn, withoutUser, users_filter_ne]
  split_ifs with hu
  · exact (Finset.card_erase_add_one hu).symm
  · rw [Finset.erase_eq_of_notMem hu, Nat.add_zero]

section Neighbours

variable {db db' : Db} {route route' : String → Int} {events : Finset Event} {u : String}

section Counts

variable {x : Int} (h : db.Tallied x (Tally.routed (fun e => route e.user) events))
  (h' : db'.Tallied x (Tally.routed (fun e => route' e.user) (withoutUser events u)))

include h h'

/-- A user is counted once in a cell, or not at all. -/
theorem groupSum_users_withoutUser (key : CellKey) :
    db.groupSum ⟨x, key⟩ AggRow.users =
      db'.groupSum ⟨x, key⟩ AggRow.users + if u ∈ usersIn events key then 1 else 0 := by
  rw [(h.groupSum_routed key).2, (h'.groupSum_routed key).2]
  exact card_usersIn_withoutUser events u key

theorem childKeys_subset_withoutUser (key : CellKey) :
    db'.childKeys x key ⊆ db.childKeys x key := by
  intro c hc
  rw [mem_childKeys_iff, h'.mem_groups_routed] at hc
  rw [mem_childKeys_iff, h.mem_groups_routed]
  obtain ⟨hchild, e, he⟩ := hc
  obtain ⟨hmem, hcell⟩ := (mem_contributors _ _ _ _).mp he
  exact ⟨hchild, e, (mem_contributors _ _ _ _).mpr ⟨(Finset.mem_filter.mp hmem).1, hcell⟩⟩

theorem askedKeys_subset_withoutUser {q : StatsQuery} (hx : q.window = x) :
    db'.askedKeys q ⊆ db.askedKeys q := by
  unfold Db.askedKeys
  split_ifs
  · exact subset_rfl
  · cases parentKey q with
    | ok key =>
      subst hx
      exact childKeys_subset_withoutUser h h' key
    | error e => exact subset_rfl

omit h in
/-- A cell that only the user was in has nobody left. -/
theorem groupSum_users_of_not_asked {q : StatsQuery} (hx : q.window = x) {c : CellKey}
    (hc : c ∈ db.askedKeys q) (hc' : c ∉ db'.askedKeys q) :
    db'.groupSum ⟨x, c⟩ AggRow.users = 0 := by
  subst hx
  unfold Db.askedKeys at hc hc'
  split_ifs at hc hc' with hlevel
  · exact absurd hc hc'
  · cases hparent : parentKey q with
    | error e =>
      rw [hparent] at hc
      cases Finset.notMem_empty _ hc
    | ok key =>
      rw [hparent] at hc hc'
      dsimp only at hc hc'
      rw [mem_childKeys_iff] at hc
      rw [mem_childKeys_iff, h'.mem_groups_routed] at hc'
      have hempty := Finset.not_nonempty_iff_eq_empty.mp fun hne => hc' ⟨hc.1, hne⟩
      rw [(h'.groupSum_routed c).2, Tally.totals]
      dsimp only
      rw [Tally.users, hempty, Finset.image_empty, Finset.card_empty]

end Counts

/-- Where both answers show the same cells, the merged row of the one is that of the other and one
more for every merged cell that the user is in. -/
theorem other_withoutUser {estimate : HyperLogLog → UInt64} {k : UInt64} {q : StatsQuery}
    {cells cells' : List ResultCell}
    (h : db.Tallied q.window (Tally.routed (fun e => route e.user) events))
    (h' : db'.Tallied q.window (Tally.routed (fun e => route' e.user) (withoutUser events u)))
    (hq : q.estimator = .exact) (hcells : computeCells estimate db k q = .ok cells)
    (hcells' : computeCells estimate db' k q = .ok cells')
    (hshown : shownKeys q cells' = shownKeys q cells) {ev us ev' us' : UInt64}
    (hother : ResultCell.other ev us ∈ cells) (hother' : ResultCell.other ev' us' ∈ cells') :
    us.toNat = ∑ c ∈ db.hiddenKeys q cells, (usersIn events c).card ∧
      us.toNat = us'.toNat + {c ∈ db.hiddenKeys q cells | u ∈ usersIn events c}.card := by
  obtain ⟨_, hus⟩ := h.sum_other hq hcells hother
  obtain ⟨_, hus'⟩ := h'.sum_other hq hcells' hother'
  -- the second answer merges the same cells but those that nobody else was in
  have hkept : ∑ c ∈ db'.hiddenKeys q cells', db'.groupSum ⟨q.window, c⟩ AggRow.users =
      ∑ c ∈ db.hiddenKeys q cells, db'.groupSum ⟨q.window, c⟩ AggRow.users := by
    unfold Db.hiddenKeys
    rw [hshown]
    refine Finset.sum_subset
      (Finset.sdiff_subset_sdiff (askedKeys_subset_withoutUser h h' rfl) subset_rfl) ?_
    intro c hc hgone
    obtain ⟨hasked, hapart⟩ := Finset.mem_sdiff.mp hc
    exact groupSum_users_of_not_asked h' rfl hasked fun hmem =>
      hgone (Finset.mem_sdiff.mpr ⟨hmem, hapart⟩)
  constructor
  · exact hus.trans (Finset.sum_congr rfl fun c _ => (h.groupSum_routed c).2)
  · rw [hus, hus', hkept, Finset.card_filter, ← Finset.sum_add_distrib]
    exact Finset.sum_congr rfl fun c _ => groupSum_users_withoutUser h h' c

end Neighbours

namespace Fleet

/-- Two deployments whose traffic differs in one user's events, each spread, read, killed and
flushed in its own way: a settled count differs by one if the user is in the cell and not at all
otherwise, and a merged row by as many as the merged cells that the user is in. -/
theorem user_sensitivity (estimate : HyperLogLog → UInt64) (tr tr' : Traffic) (user : String)
    (hevents : tr'.events = tr.events.filter fun e => e.user ≠ user)
    (hpseudonym : tr'.pseudonym = tr.pseudonym) (logs logs' : Int → Log)
    (hpublished : tr.Published logs) (hpublished' : tr'.Published logs')
    (actions actions' : List FleetAction) (s s' : Fleet)
    (hrun : Run step (Chaotic logs) (idle Db.empty) actions s)
    (hrun' : Run step (Chaotic logs') (idle Db.empty) actions' s') (x : Int)
    (hsettled : ∀ e ∈ tr.sentIn x, s.db.Settled (tr.route e.user) x)
    (hsettled' : ∀ e ∈ tr'.sentIn x, s'.db.Settled (tr'.route e.user) x) :
    (∀ key, s.db.groupSum ⟨x, key⟩ AggRow.users = s'.db.groupSum ⟨x, key⟩ AggRow.users +
      if tr.pseudonym user ∈ usersIn (tr.sentIn x) key then 1 else 0) ∧
    ∀ k q cells cells', q.window = x → q.estimator = .exact →
      computeCells estimate s.db k q = .ok cells →
      computeCells estimate s'.db k q = .ok cells' → shownKeys q cells' = shownKeys q cells →
      ∀ ev us ev' us', ResultCell.other ev us ∈ cells → ResultCell.other ev' us' ∈ cells' →
      us.toNat = ∑ c ∈ s.db.hiddenKeys q cells, (usersIn (tr.sentIn x) c).card ∧
        us.toNat = us'.toNat +
          {c ∈ s.db.hiddenKeys q cells | tr.pseudonym user ∈ usersIn (tr.sentIn x) c}.card := by
  have htallied := (onLogs_of_run hpublished hrun).tallied hpublished hsettled
  have htallied' := (onLogs_of_run hpublished' hrun').tallied hpublished' hsettled'
  have hsent : tr'.sentIn x = withoutUser (tr.sentIn x) (tr.pseudonym user) := by
    ext e
    simp only [withoutUser, Finset.mem_filter, Traffic.mem_sentIn, hevents, List.mem_filter,
      decide_eq_true_eq]
    constructor
    · intro he
      obtain ⟨e', ⟨he', hne⟩, rfl, hwindow⟩ := he
      refine ⟨⟨e', he', ?_, hwindow⟩, fun heq => hne (tr.injective ?_)⟩
      · rw [Traffic.wire, Traffic.wire, hpseudonym]
      · rw [← heq, Traffic.wire, hpseudonym]
    · intro he
      obtain ⟨⟨e', he', rfl, hwindow⟩, hne⟩ := he
      refine ⟨e', ⟨he', fun heq => hne ?_⟩, ?_, hwindow⟩
      · rw [Traffic.wire, heq]
      · rw [Traffic.wire, Traffic.wire, hpseudonym]
  rw [hsent] at htallied'
  refine ⟨groupSum_users_withoutUser htallied htallied', ?_⟩
  rintro k q cells cells' rfl hq hcells hcells' hshown ev us ev' us' hother hother'
  exact other_withoutUser htallied htallied' hq hcells hcells' hshown hother hother'

/-- Three wikis with two editors each. Only the first user edits more than one of them. -/
def editorsEvents : List Event :=
  [{ evt 1000000000 1 "u1" with wiki := "dewiki" },
    { evt 1000000000 2 "u2" with wiki := "dewiki" },
    { evt 1000000000 3 "u1" with wiki := "frwiki" },
    { evt 1000000000 4 "u3" with wiki := "frwiki" },
    evt 1000000000 5 "u1", evt 1000000000 6 "u4"]

def othersEvents : List Event := editorsEvents.filter fun e => e.user ≠ "u1"

def editorsTraffic : Traffic := ⟨editorsEvents, by decide, id, Function.injective_id, fun _ => 0⟩

def othersTraffic : Traffic := ⟨othersEvents, by decide, id, Function.injective_id, fun _ => 0⟩

/-- The events in the order given, at consecutive offsets. -/
def logOf (events : List Event) (n : Nat) : List Message :=
  match events with
  | [] => []
  | e :: events => ⟨n, e⟩ :: logOf events (n + 1)

def editorsLog : Log := ⟨logOf editorsEvents 0, by decide, by decide⟩

def othersLog : Log := ⟨logOf othersEvents 0, by decide, by decide⟩

def readAll (log : Log) : List FleetAction :=
  .start 0 false 0 0 :: log.entries.map (fun m => .act 0 (.deliver m 0)) ++
    [.act 0 (.tickIdle 20000000000 200000000000), .act 0 .collect, .act 0 .commit]

/-- Without the first user the merged row loses three, one for each wiki that is not shown. -/
theorem user_sensitivity_editors :
    editorsTraffic.Published (onlyFirst editorsLog) ∧
    othersTraffic.Published (onlyFirst othersLog) ∧
    ∃ s s', Run step (Chaotic (onlyFirst editorsLog)) (idle Db.empty) (readAll editorsLog) s ∧
      Run step (Chaotic (onlyFirst othersLog)) (idle Db.empty) (readAll othersLog) s' ∧
      computeCells (fun _ => 0) s.db 3 familyQuery = .ok [.other 6 6] ∧
      computeCells (fun _ => 0) s'.db 3 familyQuery = .ok [.other 3 3] ∧
      {c ∈ s.db.hiddenKeys familyQuery [.other 6 6] |
        "u1" ∈ usersIn (editorsTraffic.sentIn 0) c}.card = 3 := by
  have hrun : ∃ s, Run step (Chaotic (onlyFirst editorsLog)) (idle Db.empty)
      (readAll editorsLog) s ∧
      computeCells (fun _ => 0) s.db 3 familyQuery = .ok [.other 6 6] ∧ s.db.Settled 0 0 :=
    ⟨_, run_of_execute rfl, by rfl, _, rfl, by decide⟩
  have hrun' : ∃ s, Run step (Chaotic (onlyFirst othersLog)) (idle Db.empty)
      (readAll othersLog) s ∧
      computeCells (fun _ => 0) s.db 3 familyQuery = .ok [.other 3 3] ∧ s.db.Settled 0 0 :=
    ⟨_, run_of_execute rfl, by rfl, _, rfl, by decide⟩
  obtain ⟨s, hs, hcells, hsettled⟩ := hrun
  obtain ⟨s', hs', hcells', hsettled'⟩ := hrun'
  have hpublished : editorsTraffic.Published (onlyFirst editorsLog) :=
    onlyFirst_published (fun _ => rfl) (by decide) (by decide)
  have hpublished' : othersTraffic.Published (onlyFirst othersLog) :=
    onlyFirst_published (fun _ => rfl) (by decide) (by decide)
  obtain ⟨_, hdiff⟩ := (user_sensitivity (fun _ => 0) editorsTraffic othersTraffic "u1"
    rfl rfl _ _ hpublished hpublished' _ _ s s' hs hs' 0 (fun _ _ => hsettled)
    fun _ _ => hsettled').2 3 familyQuery _ _ rfl rfl hcells
    hcells' rfl 6 6 3 3 (List.mem_singleton_self _) (List.mem_singleton_self _)
  refine ⟨hpublished, hpublished', s, s', hs, hs', hcells, hcells', ?_⟩
  exact Nat.add_left_cancel (hdiff.symm.trans (rfl : (6 : UInt64).toNat = (3 : UInt64).toNat + 3))

end Fleet

end HushEngine
