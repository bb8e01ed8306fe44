import HushEngine.Chaos
import HushEngine.Ingest

/-!
The load generator. Some of its events are backdated, by less than the
aggregator waits for, and some are sent twice. What it draws is a parameter here;
whatever it draws, the gateway takes its batches, its map counts each event once,
and its events are on time in any order that does not hold one of them back for
more than the seconds it has left.
-/
namespace HushEngine

open Keyed Tally Runs

/-- `WIKIS` -/
def loadWikis : List (String × String) :=
  [("wikipedia", "enwiki"), ("wikipedia", "knwiki"), ("wikipedia", "dewiki"),
    ("wikipedia", "frwiki"), ("wikipedia", "jawiki"), ("wiktionary", "enwiktionary"),
    ("wikidata", "wikidatawiki"), ("commons", "commonswiki")]

def oneSecond : Int := 1000000000

/-- The end of the range a backdate is drawn from, in seconds. -/
def backdateEnd : Nat := max ((allowedLateness / oneSecond).toNat - 2) 2

/-- What is drawn for one event, and the clock when it is. -/
structure LoadDraw where
  userRank : UInt64
  /-- A sample of a Zipf distribution, which starts at one. -/
  wikiRank : Nat
  wikiRank_pos : 1 ≤ wikiRank
  /-- The seconds by which a late event is backdated. -/
  backdate : Option Nat
  backdate_range : ∀ b ∈ backdate, 1 ≤ b ∧ b < backdateEnd
  now : Int
  nsDraw : Fin 10
  kindDraw : Fin 10
  eventId : Uuid
  isDup : Bool
deriving DecidableEq

namespace LoadDraw

variable (d : LoadDraw)

def familyWiki : String × String :=
  loadWikis.get ⟨min (d.wikiRank - 1) (loadWikis.length - 1), by
    have : 0 < loadWikis.length := by decide
    omega⟩

def genOne : Event where
  eventId := d.eventId
  user := "loadgen-user-" ++ toString d.userRank
  ts := match d.backdate with
    | some backdateSecs => d.now - backdateSecs * oneSecond
    | none => d.now
  family := d.familyWiki.1
  wiki := d.familyWiki.2
  ns := if d.nsDraw ≤ 6 then 0 else if d.nsDraw ≤ 8 then 1 else 2
  kind := if d.kindDraw ≤ 6 then .edit else if d.kindDraw = 7 then .new
    else if d.kindDraw = 8 then .log else .categorize
  isBot := false

/-- What a backdate leaves of the time the aggregator waits. -/
def slack : Int := allowedLateness - (backdateEnd - 1 : Nat) * oneSecond

theorem genOne_ts : d.now - allowedLateness + slack ≤ d.genOne.ts ∧ d.genOne.ts ≤ d.now := by
  have hend : backdateEnd = 28 := by decide
  unfold genOne slack allowedLateness oneSecond
  cases hback : d.backdate with
  | none => simp only [hend]; omega
  | some b =>
    have hrange := d.backdate_range b hback
    rw [hend] at hrange ⊢
    dsimp only
    omega

theorem isBlank_genOne : isBlank d.genOne.user = false ∧ isBlank d.genOne.wiki = false ∧
    isBlank d.genOne.family = false := by
  have hwikis : ∀ r ∈ loadWikis, isBlank r.2 = false ∧ isBlank r.1 = false := by decide
  refine ⟨?_, hwikis d.familyWiki (List.getElem_mem _)⟩
  have hprefix : "loadgen-user-".toList.all isWhiteSpace = false := by decide
  unfold isBlank genOne
  rw [String.toList_append, List.all_append, hprefix, Bool.false_and]

/-- The gateway takes the event, if its clock is less than the allowance behind. -/
theorem validate_genOne {now : Int} (hclock : d.now ≤ now + maxFutureSkew) :
    d.genOne.validate now = .ok () := by
  obtain ⟨huser, hwiki, hfamily⟩ := d.isBlank_genOne
  have hns : 0 ≤ d.genOne.ns := by
    unfold genOne
    dsimp only
    split_ifs <;> decide
  exact (Event.validate_ok_iff _ _).mpr
    ⟨huser, hwiki, hfamily, hns, d.genOne_ts.2.trans hclock⟩

end LoadDraw

/-- The events of a batch, and the map of what has been generated. -/
def nextBatch (truth : TruthMap) : List LoadDraw → List Event × TruthMap
  | [] => ([], truth)
  | d :: draws =>
    let event := d.genOne
    let (out, truth) := nextBatch (recordTruth truth event) draws
    (if d.isDup then event :: event :: out else event :: out, truth)

/-- The batches of a run, and the map at its end. -/
def generate (truth : TruthMap) : List (List LoadDraw) → List (List Event) × TruthMap
  | [] => ([], truth)
  | draws :: rest =>
    let (events, truth) := nextBatch truth draws
    let (batches, truth) := generate truth rest
    (events :: batches, truth)

theorem nextBatch_snd (truth : TruthMap) (draws : List LoadDraw) :
    (nextBatch truth draws).2 = (draws.map LoadDraw.genOne).foldl recordTruth truth := by
  induction draws generalizing truth with
  | nil => rfl
  | cons d draws ih => exact ih _

theorem mem_nextBatch (truth : TruthMap) (draws : List LoadDraw) (e : Event) :
    e ∈ (nextBatch truth draws).1 ↔ ∃ d ∈ draws, d.genOne = e := by
  induction draws generalizing truth with
  | nil => simp [nextBatch]
  | cons d draws ih =>
    have hsplit : e ∈ (nextBatch truth (d :: draws)).1 ↔
        d.genOne = e ∨ e ∈ (nextBatch (recordTruth truth d.genOne) draws).1 := by
      simp only [nextBatch]
      split_ifs <;> simp [eq_comm]
    rw [hsplit, ih, List.exists_mem_cons_iff]

/-- A batch is at most twice as long as asked for. -/
theorem length_nextBatch (truth : TruthMap) (draws : List LoadDraw) :
    draws.length ≤ (nextBatch truth draws).1.length ∧
      (nextBatch truth draws).1.length ≤ 2 * draws.length := by
  induction draws generalizing truth with
  | nil => simp [nextBatch]
  | cons d draws ih =>
    have := ih (recordTruth truth d.genOne)
    simp only [nextBatch, List.length_cons]
    split_ifs <;> simp only [List.length_cons] <;> omega

theorem generate_snd (truth : TruthMap) (batches : List (List LoadDraw)) :
    (generate truth batches).2 = (batches.flatten.map LoadDraw.genOne).foldl recordTruth truth := by
  induction batches generalizing truth with
  | nil => rfl
  | cons draws rest ih =>
    rw [List.flatten_cons, List.map_append, List.foldl_append, ← nextBatch_snd truth draws]
    exact ih _

/-- No batch of a run is refused for what is in it, by a gateway that takes batches of twice the
size and whose clock is less than the allowance behind. -/
theorem generate_wellFormed (state : AppState) (now : Int) (truth : TruthMap)
    (batches : List (List LoadDraw))
    (hsize : ∀ draws ∈ batches, draws ≠ [] ∧ 2 * draws.length ≤ state.maxBatchEvents)
    (hclock : ∀ d ∈ batches.flatten, d.now ≤ now + maxFutureSkew) :
    ∀ batch ∈ (generate truth batches).1, ¬ state.Malformed now batch := by
  induction batches generalizing truth with
  | nil =>
    intro batch hbatch
    cases hbatch
  | cons draws rest ih =>
    obtain ⟨⟨hne, hmax⟩, hsizes⟩ := List.forall_mem_cons.mp hsize
    rw [List.flatten_cons] at hclock
    intro batch hbatch hbad
    rcases List.mem_cons.mp hbatch with rfl | hlater
    · obtain ⟨hle, hge⟩ := length_nextBatch truth draws
      rcases hbad with hempty | hlong | ⟨e, he, hinvalid⟩
      · rw [hempty] at hle
        exact hne (List.length_eq_zero_iff.mp (Nat.le_zero.mp hle))
      · omega
      · obtain ⟨d, hd, rfl⟩ := (mem_nextBatch truth draws e).mp he
        exact hinvalid (d.validate_genOne (hclock d (List.mem_append_left _ hd)))
    · exact ih (nextBatch truth draws).2 hsizes
        (fun d hd => hclock d (List.mem_append_right _ hd)) batch hlater hbad

/-- Everything drawn in a run, under distinct ids. -/
structure Load where
  batches : List (List LoadDraw)
  unique : (batches.flatten.map LoadDraw.eventId).Nodup

namespace Load

variable (load : Load)

def draws : List LoadDraw := load.batches.flatten

/-- What the run sends, under pseudonyms and to where they route. -/
def traffic {pseudonym : String → String} (hpseudonym : Function.Injective pseudonym)
    (route : String → Int) : Traffic where
  events := load.draws.map LoadDraw.genOne
  unique := by
    rw [List.map_map]
    exact load.unique
  pseudonym := pseudonym
  injective := hpseudonym
  route := route

/-- The map that the run reports is the truth about its events, each counted once. -/
theorem intoTruth_generate : intoTruth (generate ∅ load.batches).2 =
    truthOf (load.draws.map LoadDraw.genOne) := by
  rw [generate_snd]
  rfl

end Load

/-- What a partition is given, by offset: nothing that was drawn more than the slack earlier comes
after. -/
structure Arrivals where
  records : List (Nat × LoadDraw)
  sorted : records.Pairwise fun r r' => r.1 < r'.1
  punctual : ∀ r ∈ records, ∀ r' ∈ records, r.1 < r'.1 → r.2.now ≤ r'.2.now + LoadDraw.slack

namespace Arrivals

variable (pseudonym : String → String) (arrivals : Arrivals)

/-- A record as it is delivered. -/
def message (r : Nat × LoadDraw) : Message :=
  ⟨r.1, { r.2.genOne with user := pseudonym r.2.genOne.user }⟩

/-- What is not held back for longer is on time. -/
theorem message_onTime {r r' : Nat × LoadDraw} (h : r.2.now ≤ r'.2.now + LoadDraw.slack) :
    (message pseudonym r).event.ts - allowedLateness < windowEnd (message pseudonym r').window := by
  have hts := r.2.genOne_ts.2
  have hts' := r'.2.genOne_ts.1
  have hend : r'.2.genOne.ts < windowEnd (message pseudonym r').window := lt_windowEnd _
  change r.2.genOne.ts - allowedLateness < _
  omega

def log : Log where
  entries := arrivals.records.map (message pseudonym)
  sorted := List.pairwise_map.mpr arrivals.sorted
  onTime := by
    intro m hm m' hm' hlt
    obtain ⟨r, hr, rfl⟩ := List.mem_map.mp hm
    obtain ⟨r', hr', rfl⟩ := List.mem_map.mp hm'
    exact message_onTime pseudonym (arrivals.punctual r hr r' hr' hlt)

end Arrivals

namespace Load

/-- The partitions are given what was drawn, each draw at least once, where its pseudonym routes. -/
structure Carried (load : Load) (pseudonym : String → String) (route : String → Int)
    (arrivals : Int → Arrivals) : Prop where
  sent : ∀ p, ∀ r ∈ (arrivals p).records,
    r.2 ∈ load.draws ∧ route (pseudonym r.2.genOne.user) = p
  all : ∀ d ∈ load.draws, ∃ r ∈ (arrivals (route (pseudonym d.genOne.user))).records, r.2 = d

variable {load : Load} {pseudonym : String → String} {route : String → Int}
  {arrivals : Int → Arrivals}

theorem Carried.published (h : load.Carried pseudonym route arrivals)
    (hpseudonym : Function.Injective pseudonym) :
    (load.traffic hpseudonym route).Published fun p => (arrivals p).log pseudonym where
  sent p m hm := by
    obtain ⟨r, hr, rfl⟩ := List.mem_map.mp hm
    obtain ⟨hdraw, hroute⟩ := h.sent p r hr
    exact ⟨⟨r.2.genOne, List.mem_map_of_mem hdraw, rfl⟩, hroute⟩
  all e he := by
    obtain ⟨d, hd, rfl⟩ := List.mem_map.mp he
    obtain ⟨r, hr, rfl⟩ := h.all d hd
    exact ⟨_, List.mem_map_of_mem hr, rfl⟩

/-- Late events, duplicates and killed owners leave no drift from what the generator reports, as
long as nothing is held back for more than the slack. -/
theorem zero_drift (load : Load) (pseudonym : String → String)
    (hpseudonym : Function.Injective pseudonym) (route : String → Int) (arrivals : Int → Arrivals)
    (hcarried : load.Carried pseudonym route arrivals) (actions : List FleetAction) (s : Fleet)
    (hrun : Run Fleet.step (Fleet.Chaotic fun p => (arrivals p).log pseudonym)
      (Fleet.idle Db.empty) actions s)
    (hread : Fleet.ReadToEnd (load.traffic hpseudonym route)
      (fun p => (arrivals p).log pseudonym) s)
    (hdrained : s.Drained) :
    reconcile (intoTruth (generate ∅ load.batches).2) s.db = .zero := by
  have hpublished := hcarried.published hpseudonym
  have hlogs := Fleet.onLogs_of_run hpublished hrun
  rw [intoTruth_generate]
  exact reconcile_eq_zero fun g => hlogs.lookup_actualCells hpublished fun e =>
    hlogs.settled_of_read hpublished hread hdrained

/-- An edit of this moment, and one backdated as far as it can be and sent twice. -/
def sampleDraws : List LoadDraw :=
  [⟨1, 1, by decide, none, by simp, 90000000000, 0, 0, 1, false⟩,
    ⟨2, 5, by decide, some 27, by decide, 91000000000, 9, 7, 2, true⟩]

def sampleLoad : Load := ⟨[sampleDraws], by decide⟩

def sampleArrivals (p : Int) : Arrivals :=
  if p = 0 then ⟨[(0, sampleDraws[0]), (1, sampleDraws[1]), (2, sampleDraws[1])], by decide,
    by decide⟩
  else ⟨[], by decide, by decide⟩

theorem sampleArrivals_carried : sampleLoad.Carried id (fun _ => 0) sampleArrivals where
  sent p r hr := by
    unfold sampleArrivals at hr
    split_ifs at hr with h0
    · subst h0
      revert r
      decide
    · cases hr
  all := by decide

theorem generate_wellFormed_sample :
    (generate ∅ sampleLoad.batches).1.map List.length = [3] ∧
    ∀ batch ∈ (generate ∅ sampleLoad.batches).1,
      ¬ AppState.aliceGateway.Malformed 90000000000 batch :=
  ⟨by decide, generate_wellFormed AppState.aliceGateway 90000000000 ∅ sampleLoad.batches
    (by decide) (by decide)⟩

/-- The owner is killed between the two copies, and an idle tick closes the window. -/
def sampleActions : List FleetAction :=
  [.start 0 false 0 91000000000,
    .act 0 (.deliver (Arrivals.message id (0, sampleDraws[0])) 0),
    .act 0 (.deliver (Arrivals.message id (1, sampleDraws[1])) 1), .act 0 (.crash 2 92000000000),
    .act 0 (.deliver (Arrivals.message id (0, sampleDraws[0])) 3),
    .act 0 (.deliver (Arrivals.message id (1, sampleDraws[1])) 4),
    .act 0 (.deliver (Arrivals.message id (2, sampleDraws[1])) 5),
    .act 0 (.tickIdle 20000000000 200000000000), .act 0 .collect, .act 0 .commit]

theorem zero_drift_sample :
    ∃ s : Fleet, reconcile (intoTruth (generate ∅ sampleLoad.batches).2) s.db = .zero ∧
      rows s.db.aggCells ≠ [] := by
  have hexec : (execute Fleet.step (Fleet.Chaotic fun p => (sampleArrivals p).log id)
      (Fleet.idle Db.empty) sampleActions).map (fun s => decide (s.Drained ∧
        Fleet.ReadToEnd (sampleLoad.traffic Function.injective_id fun _ => 0)
          (fun p => (sampleArrivals p).log id) s ∧ rows s.db.aggCells ≠ [])) = some true := by
    decide
  obtain ⟨s, hs, hdone⟩ := Option.map_eq_some_iff.mp hexec
  obtain ⟨hdrained, hread, hrows⟩ := of_decide_eq_true hdone
  exact ⟨s, zero_drift sampleLoad id Function.injective_id (fun _ => 0) sampleArrivals
    sampleArrivals_carried sampleActions s (run_of_execute hs) hread hdrained, hrows⟩

end Load

end HushEngine
