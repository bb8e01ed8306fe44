import HushEngine.Chaos
import HushEngine.Production
import HushEngine.Reconciliation

/-!
The whole path. Clients post batches to the gateway, again if they are refused;
the topic is split over the partitions by key and read from there, with owners
killed at any time. If every event has been in some batch that was accepted, and
no send was given up, the settled tables are the ground truth. If not, the
report of a reconciliation is exactly what the topic lacks.
-/
namespace HushEngine

open Keyed Tally Runs

namespace IngestGateway

/-- Only these events have been placed or wait in a request. -/
structure From (events : List Event) (s : IngestGateway) : Prop where
  placed : ∀ r ∈ s.placed, r.2 ∈ events
  postings : ∀ id q, s.postings.lookup id = some q → ∀ e ∈ q.rest, e ∈ events

/-- Clients post nothing but these events. -/
def Posts (events : List Event) (_ : IngestGateway) : IngestAction → Prop
  | .post _ batch => ∀ e ∈ batch, e ∈ events
  | _ => True

instance (events : List Event) (s : IngestGateway) (a : IngestAction) :
    Decidable (Posts events s a) :=
  match a with
  | .post _ batch => inferInstanceAs (Decidable (∀ e ∈ batch, e ∈ events))
  | .enqueue _ | .recv | .append _ | .confirm _ | .expire _ | .expireWritten _ | .crash =>
    inferInstanceAs (Decidable True)

variable {state : AppState} {events : List Event} {s t : IngestGateway} {a : IngestAction}

theorem From.tryNext (h : From events s) {id : Nat} {q : Posting}
    (hq : s.postings.lookup id = some q) : From events (s.tryNext state id q) := by
  have hrest := h.postings id q hq
  unfold IngestGateway.tryNext
  split
  · exact ⟨h.placed, fun id' q' hq' => h.postings id' q' (lookup_of_erase hq').2⟩
  · next e rest heq =>
    rw [heq] at hrest
    obtain ⟨he, hlater⟩ := List.forall_mem_cons.mp hrest
    have hinsert : ∀ id' q', (s.postings.insert id ⟨q.batch, rest⟩).lookup id' = some q' →
        ∀ e ∈ q'.rest, e ∈ events := by
      intro id' q' hq'
      rcases lookup_of_insert hq' with ⟨_, rfl⟩ | ⟨_, hold⟩
      · exact hlater
      · exact h.postings id' q' hold
    split
    · refine ⟨fun r hr => ?_, hinsert⟩
      rcases List.mem_append.mp hr with hold | hnew
      · exact h.placed r hold
      · obtain rfl := List.mem_singleton.mp hnew
        exact he
    · exact ⟨h.placed, fun id' q' hq' => h.postings id' q' (lookup_of_erase hq').2⟩
    · exact ⟨h.placed, hinsert⟩

theorem From.step (h : From events s) (hposts : Posts events s a)
    (hstep : IngestGateway.step state s a = some t) : From events t := by
  cases a with
  | post now batch =>
    simp only [IngestGateway.step] at hstep
    split at hstep <;> cases hstep
    · exact ⟨h.placed, h.postings⟩
    · refine ⟨h.placed, fun id q hq => ?_⟩
      rcases lookup_of_insert hq with ⟨_, rfl⟩ | ⟨_, hold⟩
      · exact hposts
      · exact h.postings id q hold
  | enqueue id =>
    obtain ⟨q, hq, rfl⟩ := Option.map_eq_some_iff.mp hstep
    exact h.tryNext hq
  | recv =>
    obtain ⟨r, _, rfl⟩ := Option.map_eq_some_iff.mp hstep
    exact ⟨h.placed, h.postings⟩
  | crash =>
    cases hstep
    exact ⟨h.placed, fun id q hq => by cases hq⟩
  | append m | confirm m | expire m | expireWritten m =>
    simp only [IngestGateway.step] at hstep
    split_ifs at hstep
    cases hstep
    exact ⟨h.placed, h.postings⟩

end IngestGateway

/-- The partition's log is its share of the topic, decoded. -/
def Log.Reads (log : Log) (topic : List QueuedMessage) (route : String → Int) (p : Int)
    (decode : List UInt8 → Option Event) : Prop :=
  log.entries.map Message.event =
    (topic.filter fun q => decide (route q.key = p)).filterMap fun q => decode q.payload

/-- The part of the traffic that the gateway's messages in the topic hold. -/
def Traffic.arrived (tr : Traffic) (state : AppState) (topic : List QueuedMessage) : Traffic where
  events := tr.events.filter fun e => decide (state.pseudonymizeAndSerialize e ∈ topic)
  unique := tr.unique.sublist (List.filter_sublist.map _)
  pseudonym := tr.pseudonym
  injective := tr.injective
  route := tr.route

namespace Traffic

variable {tr : Traffic} {state : AppState} {topic : List QueuedMessage} {e : Event}

theorem mem_arrived : e ∈ (tr.arrived state topic).events ↔
    e ∈ tr.events ∧ state.pseudonymizeAndSerialize e ∈ topic := by
  rw [arrived, List.mem_filter, decide_eq_true_eq]

theorem arrived_of_all (h : ∀ e ∈ tr.events, state.pseudonymizeAndSerialize e ∈ topic) :
    tr.arrived state topic = tr := by
  obtain ⟨events, unique, pseudonym, injective, route⟩ := tr
  rw [arrived, Traffic.mk.injEq]
  exact ⟨List.filter_eq_self.mpr fun e he => decide_eq_true (h e he), rfl, rfl⟩

theorem sent_arrived_subset : (tr.arrived state topic).sent ⊆ tr.sent := by
  intro e he
  obtain ⟨e', he', rfl⟩ := (mem_sent _).mp he
  exact tr.mem_sent.mpr ⟨e', (mem_arrived.mp he').1, rfl⟩

/-- Events are told apart by their ids, so all that is sent arrives only if every event does. -/
theorem sent_arrived_eq_iff : (tr.arrived state topic).sent = tr.sent ↔
    ∀ e ∈ tr.events, state.pseudonymizeAndSerialize e ∈ topic := by
  constructor
  · intro hsent e he
    have hmem : tr.wire e ∈ (tr.arrived state topic).sent := by
      rw [hsent]
      exact tr.mem_sent.mpr ⟨e, he, rfl⟩
    obtain ⟨e', he', hwire⟩ := (mem_sent _).mp hmem
    obtain ⟨hsent', harrived⟩ := mem_arrived.mp he'
    rwa [← tr.eq_of_eventId hsent' he (congrArg Event.eventId hwire :)]
  · intro hall
    rw [arrived_of_all hall]

end Traffic

/-- A topic that all goes to the first partition. -/
theorem Fleet.onlyFirst_reads {log : Log} {topic : List QueuedMessage} {route : String → Int}
    {decode : List UInt8 → Option Event} (hroute : ∀ user, route user = 0)
    (hlog : log.entries.map Message.event = topic.filterMap fun q => decode q.payload) (p : Int) :
    (onlyFirst log p).Reads topic route p decode := by
  unfold Log.Reads onlyFirst
  simp only [hroute]
  by_cases hp : p = 0
  · subst hp
    simpa using hlog
  · have hother : ¬ (0 = p) := Ne.symm hp
    simp [hp, hother, Log.empty]

namespace IngestGateway

variable {tr : Traffic} {state : AppState} {decode : List UInt8 → Option Event}
  {g : IngestGateway} {logs : Int → Log}

theorem Sound.mem_placed (h : Sound state g) {q : QueuedMessage} (hq : q ∈ g.topic) :
    ∃ r ∈ g.placed, state.pseudonymizeAndSerialize r.2 = q := by
  have hmem : q ∈ (g.placed.map fun r => state.pseudonymizeAndSerialize r.2 :
      Multiset QueuedMessage) := by
    rw [h.conserved]
    simp [hq]
  exact List.mem_map.mp hmem

/-- Whatever was placed is in the topic, when nothing was lost and nothing is on its way. -/
theorem Sound.mem_topic (h : Sound state g)
    (harrived : g.lost = [] ∧ g.sending = [] ∧ g.tx.queued = []) {r : Nat × Event}
    (hr : r ∈ g.placed) : state.pseudonymizeAndSerialize r.2 ∈ g.topic := by
  obtain ⟨hlost, hsending, hqueued⟩ := harrived
  have hconserved := h.conserved
  rw [hlost, hsending, hqueued] at hconserved
  simp only [Multiset.coe_nil, add_zero, Multiset.coe_eq_coe] at hconserved
  exact hconserved.mem_iff.mp (List.mem_map_of_mem hr)

/-- An event of an accepted batch has been placed. -/
theorem Sound.placed_of_accepted (h : Sound state g) {a : Answer} (ha : a ∈ g.answers)
    (hok : a.result.isOk) {e : Event} (he : e ∈ a.batch) : ∃ r ∈ g.placed, r.2 = e := by
  have htruthful := (h.answers a ha).2.2
  unfold Answer.Truthful at htruthful
  cases hresult : a.result with
  | error r =>
    rw [hresult] at hok
    cases hok
  | ok c =>
    rw [hresult] at htruthful
    dsimp only at htruthful
    rw [← htruthful] at he
    obtain ⟨r, hr, rfl⟩ := List.mem_map.mp he
    exact ⟨r, (List.mem_filter.mp hr).1, rfl⟩

/-- What is in the topic is published. -/
theorem published (hpseudonym : ∀ e ∈ tr.events, state.pseudonymize e.user = tr.pseudonym e.user)
    (hdecode : ∀ e ∈ tr.events, decode (state.toVec (tr.wire e)) = some (tr.wire e))
    (hsound : Sound state g) (hfrom : From tr.events g)
    (hlogs : ∀ p, (logs p).Reads g.topic tr.route p decode) :
    (tr.arrived state g.topic).Published logs := by
  have hkey : ∀ e ∈ tr.events, (state.pseudonymizeAndSerialize e).key = (tr.wire e).user :=
    hpseudonym
  have hpayload : ∀ e ∈ tr.events,
      decode (state.pseudonymizeAndSerialize e).payload = some (tr.wire e) := by
    intro e he
    rw [← hdecode e he]
    change decode (state.toVec { e with user := state.pseudonymize e.user }) = _
    rw [hpseudonym e he]
    rfl
  have hentries : ∀ p e, (∃ m ∈ (logs p).entries, m.event = e) ↔
      ∃ q ∈ g.topic, tr.route q.key = p ∧ decode q.payload = some e := by
    intro p e
    rw [← List.mem_map, hlogs p, List.mem_filterMap]
    simp only [List.mem_filter, decide_eq_true_eq, and_assoc]
  refine ⟨fun p m hm => ?_, fun e he => ?_⟩
  · obtain ⟨q, hq, hroute, hdecoded⟩ := (hentries p m.event).mp ⟨m, hm, rfl⟩
    obtain ⟨r, hr, rfl⟩ := hsound.mem_placed hq
    have hr := hfrom.placed r hr
    have hwire : tr.wire r.2 = m.event := Option.some.inj ((hpayload r.2 hr).symm.trans hdecoded)
    rw [hkey r.2 hr, hwire] at hroute
    exact ⟨⟨r.2, Traffic.mem_arrived.mpr ⟨hr, hq⟩, hwire⟩, hroute⟩
  · obtain ⟨he, hq⟩ := Traffic.mem_arrived.mp he
    exact (hentries _ _).mpr ⟨_, hq, by rw [hkey e he]; rfl, hpayload e he⟩

theorem sound_of_run {capacity : Nat} {ingest : List IngestAction} {events : List Event}
    (hrun : Run (step state) (Posts events) (start capacity) ingest g) :
    Sound state g ∧ From events g := by
  constructor
  · exact hrun.invariant (fun _ _ _ hs _ hstep => Sound.step hs hstep) (sound_start state capacity)
  · exact hrun.invariant (fun _ _ _ hs hguard hstep => From.step hs hguard hstep)
      ⟨fun r hr => (by cases hr), fun id q hq => (by cases hq)⟩

/-- Clients that retry what is refused, duplicates, tasks that finish in any order and killed
aggregators leave no drift, if every event is in an accepted batch and no send is given up. -/
theorem end_to_end (tr : Traffic) (state : AppState) (decode : List UInt8 → Option Event)
    (hpseudonym : ∀ e ∈ tr.events, state.pseudonymize e.user = tr.pseudonym e.user)
    (hdecode : ∀ e ∈ tr.events, decode (state.toVec (tr.wire e)) = some (tr.wire e))
    (capacity : Nat) (ingest : List IngestAction) (g : IngestGateway)
    (hingest : Run (step state) (Posts tr.events) (start capacity) ingest g)
    (haccepted : ∀ e ∈ tr.events, ∃ a ∈ g.answers, a.result.isOk ∧ e ∈ a.batch)
    (harrived : g.lost = [] ∧ g.sending = [] ∧ g.tx.queued = []) (logs : Int → Log)
    (hlogs : ∀ p, (logs p).Reads g.topic tr.route p decode) (actions : List FleetAction)
    (s : Fleet) (hrun : Run Fleet.step (Fleet.Chaotic logs) (Fleet.idle Db.empty) actions s)
    (hread : Fleet.ReadToEnd tr logs s) (hdrained : s.Drained) :
    reconcile (truthOf tr.events) s.db = .zero := by
  obtain ⟨hsound, hfrom⟩ := sound_of_run hingest
  have hpublished := published hpseudonym hdecode hsound hfrom hlogs
  have hall : tr.arrived state g.topic = tr := by
    refine Traffic.arrived_of_all fun e he => ?_
    obtain ⟨a, ha, hok, hmem⟩ := haccepted e he
    obtain ⟨r, hr, rfl⟩ := hsound.placed_of_accepted ha hok hmem
    exact hsound.mem_topic harrived hr
  rw [hall] at hpublished
  have hfleet := Fleet.onLogs_of_run hpublished hrun
  exact reconcile_eq_zero fun key => hfleet.lookup_actualCells hpublished fun e =>
    hfleet.settled_of_read hpublished hread hdrained

/-- Without those conditions the report is of what the topic does not have: how many cells are
short of some of their events, and how many of all. -/
theorem end_to_end_lossy (tr : Traffic) (state : AppState) (decode : List UInt8 → Option Event)
    (hpseudonym : ∀ e ∈ tr.events, state.pseudonymize e.user = tr.pseudonym e.user)
    (hdecode : ∀ e ∈ tr.events, decode (state.toVec (tr.wire e)) = some (tr.wire e))
    (capacity : Nat) (ingest : List IngestAction) (g : IngestGateway)
    (hingest : Run (step state) (Posts tr.events) (start capacity) ingest g) (logs : Int → Log)
    (hlogs : ∀ p, (logs p).Reads g.topic tr.route p decode) (actions : List FleetAction)
    (s : Fleet) (hrun : Run Fleet.step (Fleet.Chaotic logs) (Fleet.idle Db.empty) actions s)
    (hread : Fleet.ReadToEnd (tr.arrived state g.topic) logs s) (hdrained : s.Drained) :
    reconcile (truthOf tr.events) s.db =
      ⟨(cellsOf (tr.arrived state g.topic).sent ∩
          cellsOf (tr.sent \ (tr.arrived state g.topic).sent)).card,
        (cellsOf (tr.sent \ (tr.arrived state g.topic).sent) \
          cellsOf (tr.arrived state g.topic).sent).card, 0⟩ ∧
    (reconcile (truthOf tr.events) s.db = .zero ↔
      ∀ e ∈ tr.events, state.pseudonymizeAndSerialize e ∈ g.topic) := by
  obtain ⟨hsound, hfrom⟩ := sound_of_run hingest
  have hpublished := published hpseudonym hdecode hsound hfrom hlogs
  have hfleet := Fleet.onLogs_of_run hpublished hrun
  have hactual : ∀ key, (actualCells s.db).lookup key =
      cellTally (within (tr.arrived state g.topic).sent key.windowStart) key.cell := by
    intro key
    rw [Traffic.within_sent]
    exact (hfleet.tallied hpublished fun e =>
      hfleet.settled_of_read hpublished hread hdrained).lookup_actualCells key.cell
  refine ⟨reconcile_of_part hactual Traffic.sent_arrived_subset, ?_⟩
  rw [reconcile_of_part_eq_zero_iff hactual Traffic.sent_arrived_subset,
    Traffic.sent_arrived_eq_iff]

def aliceTraffic : Traffic where
  events := [evt 0 1 "Alice"]
  unique := by decide
  pseudonym := Equiv.swap "Alice" "6452e4c6223f22e9ef3e9754e5030ca67d52210dc71c78e066e3717b3406e03e"
  injective := Equiv.injective _
  route _ := 0

def aliceSent : Event := aliceTraffic.wire (evt 0 1 "Alice")

def aliceMessage : QueuedMessage := AppState.aliceGateway.pseudonymizeAndSerialize (evt 0 1 "Alice")

def aliceDecode (payload : List UInt8) : Option Event :=
  if payload = AppState.aliceGateway.toVec aliceSent then some aliceSent else none

/-- The edit is posted twice; the second time the channel is full, and it is posted again. -/
def aliceIngest : List IngestAction :=
  [.post 0 [evt 0 1 "Alice"], .enqueue 0, .enqueue 0, .post 1 [evt 0 1 "Alice"], .enqueue 1,
    .recv, .post 2 [evt 0 1 "Alice"], .enqueue 2, .enqueue 2, .recv, .append aliceMessage,
    .append aliceMessage]

def aliceLog : Log := ⟨[⟨0, aliceSent⟩, ⟨1, aliceSent⟩], by decide, by decide⟩

def aliceActions : List FleetAction :=
  [.start 0 false 0 0, .act 0 (.deliver ⟨0, aliceSent⟩ 0), .act 0 (.crash 1 0),
    .act 0 (.deliver ⟨0, aliceSent⟩ 2), .act 0 (.deliver ⟨1, aliceSent⟩ 3),
    .act 0 (.tickIdle 20000000000 200000000000), .act 0 .collect, .act 0 .commit]

theorem alicePseudonym :
    AppState.aliceGateway.pseudonymize "Alice" = aliceTraffic.pseudonym "Alice" :=
  (Equiv.swap_apply_left _ _).symm

theorem aliceDecode_payload : aliceDecode aliceMessage.payload = some aliceSent := by
  unfold aliceMessage AppState.pseudonymizeAndSerialize
  dsimp only
  have huser : (evt 0 1 "Alice").user = "Alice" := rfl
  rw [huser, alicePseudonym]
  exact if_pos rfl

theorem end_to_end_alice : ∃ s : Fleet,
    reconcile (truthOf aliceTraffic.events) s.db = .zero ∧ rows s.db.aggCells ≠ [] := by
  have hingest : (execute (step AppState.aliceGateway) (Posts aliceTraffic.events) (start 1)
      aliceIngest).map (fun g => decide (g.topic = [aliceMessage, aliceMessage] ∧
        (∀ e ∈ aliceTraffic.events, ∃ a ∈ g.answers, a.result.isOk ∧ e ∈ a.batch) ∧
        g.lost = [] ∧ g.sending = [] ∧ g.tx.queued = [])) = some true := by
    decide +kernel
  have hfleet : (execute Fleet.step (Fleet.Chaotic (Fleet.onlyFirst aliceLog))
      (Fleet.idle Db.empty) aliceActions).map (fun s => decide (s.Drained ∧
        Fleet.ReadToEnd aliceTraffic (Fleet.onlyFirst aliceLog) s ∧
        rows s.db.aggCells ≠ [])) = some true := by
    decide +kernel
  obtain ⟨g, hg, hparts⟩ := Option.map_eq_some_iff.mp hingest
  obtain ⟨htopic, haccepted, harrived⟩ := of_decide_eq_true hparts
  obtain ⟨s, hs, hdone⟩ := Option.map_eq_some_iff.mp hfleet
  obtain ⟨hdrained, hread, hrows⟩ := of_decide_eq_true hdone
  refine ⟨s, end_to_end aliceTraffic AppState.aliceGateway aliceDecode ?_ ?_ 1 aliceIngest g
    (run_of_execute hg) haccepted harrived (Fleet.onlyFirst aliceLog)
    (Fleet.onlyFirst_reads (fun _ => rfl) ?_) aliceActions s (run_of_execute hs) hread hdrained,
    hrows⟩
  · intro e he
    obtain rfl := List.mem_singleton.mp he
    exact alicePseudonym
  · intro e he
    obtain rfl := List.mem_singleton.mp he
    exact if_pos rfl
  · rw [htopic]
    simp [aliceLog, aliceDecode_payload]

/-- An edit of each of two wikis. -/
def twoWikis : Traffic where
  events := [evt 0 1 "Alice", { evt 0 2 "Alice" with wiki := "dewiki" }]
  unique := by decide
  pseudonym := aliceTraffic.pseudonym
  injective := aliceTraffic.injective
  route _ := 0

def twoWikisDecode (payload : List UInt8) : Option Event :=
  (twoWikis.events.map twoWikis.wire).find? fun e =>
    decide (AppState.aliceGateway.toVec e = payload)

/-- The channel has room for the first edit only, and the batch is not posted again. -/
def twoWikisIngest : List IngestAction :=
  [.post 0 twoWikis.events, .enqueue 0, .enqueue 0, .recv, .append aliceMessage]

def twoWikisLog : Log := ⟨[⟨0, aliceSent⟩], by decide, by decide⟩

def twoWikisActions : List FleetAction :=
  [.start 0 false 0 0, .act 0 (.deliver ⟨0, aliceSent⟩ 0),
    .act 0 (.tickIdle 20000000000 200000000000), .act 0 .collect, .act 0 .commit]

theorem twoWikisDecode_wire : ∀ e ∈ twoWikis.events,
    twoWikisDecode (AppState.aliceGateway.toVec (twoWikis.wire e)) = some (twoWikis.wire e) := by
  decide +kernel

/-- The two wider cells are one edit short, and the other wiki's two are missing. -/
theorem end_to_end_lossy_twoWikis : ∃ s : Fleet,
    reconcile (truthOf twoWikis.events) s.db = ⟨2, 2, 0⟩ := by
  have hingest : (execute (step AppState.aliceGateway) (Posts twoWikis.events) (start 1)
      twoWikisIngest).map (fun g => decide (g.topic = [aliceMessage])) = some true := by
    decide +kernel
  obtain ⟨g, hg, htopic⟩ := Option.map_eq_some_iff.mp hingest
  have htopic := of_decide_eq_true htopic
  have hfleet : (execute Fleet.step (Fleet.Chaotic (Fleet.onlyFirst twoWikisLog))
      (Fleet.idle Db.empty) twoWikisActions).map (fun s => decide (s.Drained ∧ Fleet.ReadToEnd
        (twoWikis.arrived AppState.aliceGateway [aliceMessage])
          (Fleet.onlyFirst twoWikisLog) s)) = some true := by
    decide +kernel
  obtain ⟨s, hs, hdone⟩ := Option.map_eq_some_iff.mp hfleet
  obtain ⟨hdrained, hread⟩ := of_decide_eq_true hdone
  have hpseudonym : ∀ e ∈ twoWikis.events,
      AppState.aliceGateway.pseudonymize e.user = twoWikis.pseudonym e.user := by
    decide +kernel
  refine ⟨s, (end_to_end_lossy twoWikis AppState.aliceGateway twoWikisDecode hpseudonym
    twoWikisDecode_wire 1 twoWikisIngest g (run_of_execute hg) (Fleet.onlyFirst twoWikisLog)
    (Fleet.onlyFirst_reads (fun _ => rfl) ?_) twoWikisActions s (run_of_execute hs)
    (by rw [htopic]; exact hread) hdrained).1.trans ?_⟩
  · have hdecode : twoWikisDecode aliceMessage.payload = some aliceSent := by decide +kernel
    rw [htopic]
    simp [twoWikisLog, hdecode]
  · rw [htopic]
    decide +kernel

end IngestGateway

end HushEngine
