import HushEngine.EndToEnd
import HushEngine.Reconnects

/-!
The live feed. The source draws a new id for every message it maps, so nothing
downstream could tell a message that is sent twice from two. It does not happen:
however often the stream fails, positions are posted in increasing order. Of
what the gateway has accepted nothing is missing, so an acknowledged edit is in
the topic, and any other at most once.
-/
namespace HushEngine

open Keyed Runs

/-- The source, with the batches it has posted and what came of each. -/
structure Dispatch extends Source where
  posts : List (List (Nat × Event) × GatewayReply)

namespace Source

/-- The batch that a step posts, if it posts one. -/
def posting (up : Upstream) (batchMaxEvents : Nat) (s : Source) :
    SourceAction → Option (List (Nat × Event) × GatewayReply)
  | .connect _ | .connectFailed | .streamError => none
  | .message uuid reply =>
    s.connection.bind fun c => (readMessage up.parse uuid (up.log c.cursor)).bind fun e =>
      let batch := c.batch ++ [(c.cursor, e)]
      if batchMaxEvents ≤ batch.length then some (batch, reply) else none
  | .tick reply | .streamEnd reply => if s.pending = [] then none else some (s.pending, reply)

/-- What a step reads, with the position it is read at. -/
def fresh (up : Upstream) (s : Source) : SourceAction → List (Nat × Event)
  | .message uuid _ => (s.connection.bind fun c =>
      (readMessage up.parse uuid (up.log c.cursor)).map fun e => (c.cursor, e)).toList
  | _ => []

variable {up : Upstream} {batchMaxEvents : Nat} {s t : Source} {c : Connection} {a : SourceAction}

/-- What a step posts, as one list. -/
def posted (up : Upstream) (batchMaxEvents : Nat) (s : Source) (a : SourceAction) :
    List (Nat × Event) :=
  (s.posting up batchMaxEvents a).toList.flatMap Prod.fst

theorem posted_flush (reply : GatewayReply) :
    (if s.pending = [] then none else some (s.pending, reply)).toList.flatMap Prod.fst =
      s.pending := by
  split_ifs with hempty
  · exact hempty.symm
  · exact List.append_nil _

theorem posting_message (hc : s.connection = some c) (uuid : Uuid) (reply : GatewayReply) :
    (¬ s.Fills up batchMaxEvents uuid ∧
      s.posting up batchMaxEvents (.message uuid reply) = none) ∨
    (s.Fills up batchMaxEvents uuid ∧ s.posting up batchMaxEvents (.message uuid reply) =
      some (c.batch ++ s.fresh up (.message uuid reply), reply)) := by
  unfold Fills posting fresh
  rw [hc]
  simp only [Option.bind_some, Option.mem_some_iff, exists_eq_left', List.length_append,
    List.length_singleton]
  cases readMessage up.parse uuid (up.log c.cursor) with
  | none => exact Or.inl ⟨fun h => (by cases h.1), rfl⟩
  | some e =>
    by_cases hfull : batchMaxEvents ≤ c.batch.length + 1
    · exact Or.inr ⟨⟨rfl, hfull⟩, by simp [hfull]⟩
    · exact Or.inl ⟨fun h => hfull h.2, by simp [hfull]⟩

theorem read_pending (hc : s.connection = some c) (uuid : Uuid) (reply : GatewayReply) :
    (s.read up c uuid).pending = s.pending ++ s.fresh up (.message uuid reply) := by
  rw [pending_eq hc, fresh, hc]
  rfl

/-- What a step posts and what it leaves in the batch were in the batch or have just been read, in
this order. -/
theorem posting_sublist (hstep : step up batchMaxEvents s a = some t) :
    (s.posted up batchMaxEvents a ++ t.pending).Sublist (s.pending ++ s.fresh up a) := by
  cases a with
  | connect start =>
    obtain ⟨_, ⟨_, rfl⟩ | ⟨_, _, rfl⟩⟩ := connect_cases hstep <;> exact List.nil_sublist _
  | connectFailed =>
    unfold step at hstep
    split_ifs at hstep
    obtain rfl := Option.some.inj hstep
    exact List.nil_sublist _
  | message uuid reply =>
    obtain ⟨c, hc, rfl⟩ := Option.map_eq_some_iff.mp hstep
    unfold posted
    rcases receive_eq up batchMaxEvents hc uuid reply with
      ⟨hfills, heq⟩ | ⟨hfills, c', hc', _, heq⟩
    · obtain ⟨_, hnone⟩ | ⟨hfull, _⟩ := posting_message hc uuid reply
      · rw [hnone, heq, read_pending hc uuid reply]
        exact List.Sublist.refl _
      · exact absurd hfull hfills
    · obtain ⟨hnot, _⟩ | ⟨_, hsome⟩ := posting_message hc uuid reply
      · exact absurd hfills hnot
      · rw [hsome, heq, flush_pending, pending_eq hc]
        simp
  | tick reply =>
    obtain ⟨c, hc, rfl⟩ := Option.map_eq_some_iff.mp hstep
    rw [flush_pending, posted, posting, posted_flush]
    exact List.Sublist.refl _
  | streamError =>
    obtain ⟨_, _, rfl⟩ := Option.map_eq_some_iff.mp hstep
    exact List.nil_sublist _
  | streamEnd reply =>
    obtain ⟨_, _, rfl⟩ := Option.map_eq_some_iff.mp hstep
    rw [posted, posting, posted_flush]
    exact List.Sublist.refl _

/-- A step acknowledges what it posts, if the answer is a success. -/
theorem mem_acked_step (hstep : step up batchMaxEvents s a = some t) {i : Nat} (hi : i ∈ t.acked) :
    i ∈ s.acked ∨ ∃ r, s.posting up batchMaxEvents a = some r ∧ r.2 = .success ∧
      i ∈ r.1.map Prod.fst := by
  have hflush : ∀ c reply, s.connection = some c → i ∈ (s.flush c reply).acked →
      i ∈ s.acked ∨ ∃ r, (if s.pending = [] then none else some (s.pending, reply)) = some r ∧
        r.2 = .success ∧ i ∈ r.1.map Prod.fst := by
    intro c reply hc hi
    refine (mem_flush_acked.mp hi).imp_right fun h => ?_
    rw [pending_eq hc, if_neg (ne_nil_iff_exists_position.mpr ⟨i, h.2⟩)]
    exact ⟨_, rfl, h.1, h.2⟩
  cases a with
  | connect start =>
    obtain ⟨_, ⟨_, rfl⟩ | ⟨_, _, rfl⟩⟩ := connect_cases hstep <;> exact Or.inl hi
  | connectFailed =>
    unfold step at hstep
    split_ifs at hstep
    obtain rfl := Option.some.inj hstep
    exact Or.inl hi
  | message uuid reply =>
    obtain ⟨c, hc, rfl⟩ := Option.map_eq_some_iff.mp hstep
    rcases receive_eq up batchMaxEvents hc uuid reply with
      ⟨_, heq⟩ | ⟨hfills, c', hc', _, heq⟩
    · rw [heq, read_acked] at hi
      exact Or.inl hi
    · obtain ⟨hnot, _⟩ | ⟨_, hsome⟩ := posting_message hc uuid reply
      · exact absurd hfills hnot
      · rw [heq, mem_flush_acked, read_acked, ← pending_eq hc', read_pending hc uuid reply,
          pending_eq hc] at hi
        exact hi.imp_right fun h => ⟨_, hsome, h.1, h.2⟩
  | tick reply =>
    obtain ⟨c, hc, rfl⟩ := Option.map_eq_some_iff.mp hstep
    exact hflush c reply hc hi
  | streamError =>
    obtain ⟨_, _, rfl⟩ := Option.map_eq_some_iff.mp hstep
    exact Or.inl hi
  | streamEnd reply =>
    obtain ⟨c, hc, rfl⟩ := Option.map_eq_some_iff.mp hstep
    exact hflush c reply hc hi

/-- Only the first connection that is let in sets the position back. -/
theorem frontier_step (h : s.Sound up) (hstep : step up batchMaxEvents s a = some t) :
    s.lastEventId = none ∧ t.pending = [] ∧ s.fresh up a = [] ∨
      t.origin = s.origin ∧ s.frontier up ≤ t.frontier up := by
  cases a with
  | connect start =>
    obtain ⟨_, ⟨hid, rfl⟩ | ⟨id, hid, rfl⟩⟩ := connect_cases hstep
    · exact Or.inl ⟨hid, rfl, rfl⟩
    · exact Or.inr ⟨rfl, le_rfl⟩
  | connectFailed =>
    unfold step at hstep
    split_ifs at hstep
    obtain rfl := Option.some.inj hstep
    exact Or.inr ⟨rfl, le_rfl⟩
  | message uuid reply =>
    obtain ⟨c, hc, rfl⟩ := Option.map_eq_some_iff.mp hstep
    have hread := h.frontier_le_read hc uuid
    rcases receive_eq up batchMaxEvents hc uuid reply with ⟨_, heq⟩ | ⟨_, _, _, _, heq⟩
    · rw [heq]
      exact Or.inr ⟨read_origin uuid, hread⟩
    · rw [heq, flush_origin, flush_frontier]
      exact Or.inr ⟨read_origin uuid, hread⟩
  | tick reply =>
    obtain ⟨c, hc, rfl⟩ := Option.map_eq_some_iff.mp hstep
    rw [flush_origin, flush_frontier]
    exact Or.inr ⟨rfl, le_rfl⟩
  | streamError =>
    obtain ⟨_, _, rfl⟩ := Option.map_eq_some_iff.mp hstep
    exact Or.inr ⟨rfl, le_rfl⟩
  | streamEnd reply =>
    obtain ⟨c, hc, rfl⟩ := Option.map_eq_some_iff.mp hstep
    exact Or.inr ⟨flush_origin reply, (flush_frontier reply).ge⟩

theorem pairwise_fresh {r : Nat × Event → Nat × Event → Prop} :
    (s.fresh up a).Pairwise r := by
  have hone : ∀ o : Option (Nat × Event), o.toList.Pairwise r := by
    intro o
    cases o with
    | none => exact .nil
    | some x => exact List.pairwise_singleton _ _
  cases a with
  | message uuid reply => exact hone _
  | connect _ | connectFailed | tick _ | streamError | streamEnd _ => exact .nil

/-- What a step reads lies past the resume position, which moves past it. -/
theorem mem_fresh (h : s.Sound up) (hstep : step up batchMaxEvents s a = some t)
    {r : Nat × Event} (hr : r ∈ s.fresh up a) : s.frontier up ≤ r.1 ∧ r.1 < t.frontier up ∧
      ∃ uuid, readMessage up.parse uuid (up.log r.1) = some r.2 := by
  cases a with
  | message uuid reply =>
    obtain ⟨c, hc, rfl⟩ := Option.map_eq_some_iff.mp hstep
    rw [fresh, hc, Option.bind_some, Option.mem_toList, Option.map_eq_some_iff] at hr
    obtain ⟨e, hread, rfl⟩ := hr
    have hfrontier : (s.read up c uuid).frontier up = c.cursor + 1 := by
      rw [frontier_read, if_neg (up.identified c.cursor uuid e hread)]
    refine ⟨h.le_cursor c hc, ?_, uuid, hread⟩
    rcases receive_eq up batchMaxEvents hc uuid reply with ⟨_, heq⟩ | ⟨_, _, _, _, heq⟩
    · rw [heq, hfrontier]
      exact Nat.lt_succ_self _
    · rw [heq, flush_frontier, hfrontier]
      exact Nat.lt_succ_self _
  | connect _ | connectFailed | tick _ | streamError | streamEnd _ => cases hr

end Source

namespace Dispatch

def new : Dispatch := ⟨Source.new, []⟩

def step (up : Upstream) (batchMaxEvents : Nat) (d : Dispatch) (a : SourceAction) :
    Option Dispatch :=
  (d.toSource.step up batchMaxEvents a).map fun s =>
    ⟨s, d.posts ++ (d.toSource.posting up batchMaxEvents a).toList⟩

/-- Everything posted so far, with the positions it was read at. -/
def sent (d : Dispatch) : List (Nat × Event) := d.posts.flatMap Prod.fst

/-- What every run keeps: positions are posted and held in increasing order, between where the
stream was joined and the resume position. -/
structure InOrder (up : Upstream) (d : Dispatch) : Prop where
  sound : d.Sound up
  increasing : (d.sent ++ d.pending).Pairwise fun r r' => r.1 < r'.1
  within : ∀ r ∈ d.sent ++ d.pending, d.origin ≤ r.1 ∧ r.1 < d.frontier up
  read : ∀ r ∈ d.sent ++ d.pending, ∃ uuid, readMessage up.parse uuid (up.log r.1) = some r.2
  acked : ∀ i ∈ d.acked, ∃ r ∈ d.posts, r.2 = .success ∧ i ∈ r.1.map Prod.fst

variable {up : Upstream} {batchMaxEvents : Nat} {d d' : Dispatch} {a : SourceAction}

theorem inOrder_new (up : Upstream) : InOrder up new where
  sound := Source.sound_new
  increasing := .nil
  within r hr := by cases hr
  read r hr := by cases hr
  acked i hi := by cases hi

/-- Before an id has been seen nothing has been posted. -/
theorem InOrder.eq_nil (h : InOrder up d) (hid : d.lastEventId = none) :
    d.sent ++ d.pending = [] := by
  refine List.eq_nil_iff_forall_not_mem.mpr fun r hr => ?_
  have hrange := h.within r hr
  simp only [Source.frontier, hid] at hrange
  omega

theorem InOrder.step (h : InOrder up d) (hstep : Dispatch.step up batchMaxEvents d a = some d') :
    InOrder up d' := by
  obtain ⟨s, hs, rfl⟩ := Option.map_eq_some_iff.mp hstep
  have hsent : sent ⟨s, d.posts ++ (d.toSource.posting up batchMaxEvents a).toList⟩ =
      d.sent ++ d.toSource.posted up batchMaxEvents a := List.flatMap_append
  have hsub : (sent ⟨s, d.posts ++ (d.toSource.posting up batchMaxEvents a).toList⟩ ++
      s.pending).Sublist ((d.sent ++ d.pending) ++ d.toSource.fresh up a) := by
    rw [hsent, List.append_assoc, List.append_assoc]
    exact (Source.posting_sublist hs).append_left _
  have hfresh := fun r hr => Source.mem_fresh (r := r) h.sound hs hr
  constructor
  case sound => exact (h.sound.step hs).1
  case increasing =>
    refine (List.pairwise_append.mpr ⟨h.increasing, Source.pairwise_fresh, ?_⟩).sublist hsub
    exact fun r hr r' hr' => (h.within r hr).2.trans_le (hfresh r' hr').1
  case within =>
    intro r hr
    rcases Source.frontier_step h.sound hs with ⟨hid, _, hnone⟩ | ⟨horigin, hle⟩
    · have hmem := hsub.subset hr
      rw [h.eq_nil hid, hnone] at hmem
      cases hmem
    · change s.origin ≤ r.1 ∧ r.1 < s.frontier up
      rw [horigin]
      rcases List.mem_append.mp (hsub.subset hr) with hold | hnew
      · exact ⟨(h.within r hold).1, (h.within r hold).2.trans_le hle⟩
      · exact ⟨h.sound.origin_le.trans (hfresh r hnew).1, (hfresh r hnew).2.1⟩
  case read =>
    intro r hr
    rcases List.mem_append.mp (hsub.subset hr) with hold | hnew
    · exact h.read r hold
    · exact (hfresh r hnew).2.2
  case acked =>
    intro i hi
    rcases Source.mem_acked_step hs hi with hold | ⟨r, hr, hsuccess, hmem⟩
    · obtain ⟨r, hr, hsuccess, hmem⟩ := h.acked i hold
      exact ⟨r, List.mem_append_left _ hr, hsuccess, hmem⟩
    · exact ⟨r, List.mem_append_right _ (Option.mem_toList.mpr hr), hsuccess, hmem⟩

end Dispatch

namespace IngestGateway

/-- The batches that clients have posted. -/
def postedBatches (ingest : List IngestAction) : List (List Event) :=
  ingest.filterMap fun a => match a with
    | .post _ batch => some batch
    | _ => none

/-- What handlers still have to place. -/
def waiting (postings : Table Nat Posting) : Multiset Event :=
  ((rows postings).map fun r => (r.2.rest : Multiset Event)).sum

theorem waiting_eq {postings : Table Nat Posting} {id : Nat} {q : Posting}
    (hq : postings.lookup id = some q) :
    waiting postings = q.rest + waiting (postings.erase id) := by
  have hsplit := sum_rows_erase postings (fun q => (q.rest : Multiset Event)) id
  rwa [hq] at hsplit

theorem waiting_erase_le (postings : Table Nat Posting) (id : Nat) :
    waiting (postings.erase id) ≤ waiting postings := by
  rw [waiting, waiting, sum_rows_erase postings (fun q => (q.rest : Multiset Event)) id]
  exact Multiset.le_add_left _ _

theorem waiting_insert (postings : Table Nat Posting) (id : Nat) (q : Posting) :
    waiting (postings.insert id q) = q.rest + waiting (postings.erase id) :=
  sum_rows_insert postings (fun q => (q.rest : Multiset Event)) id q

/-- What has been placed or still has to be. -/
def taken (s : IngestGateway) : Multiset Event := s.placed.map Prod.snd + waiting s.postings

variable {state : AppState} {s t : IngestGateway} {a : IngestAction}

/-- A handler places what it still had to, or gives it up. -/
theorem taken_tryNext {id : Nat} {q : Posting} (hq : s.postings.lookup id = some q) :
    (s.tryNext state id q).taken ≤ s.taken := by
  unfold IngestGateway.tryNext taken
  split
  · exact add_le_add_right (waiting_erase_le _ id) _
  · next e rest heq =>
    have hrest : (q.rest : Multiset Event) = {e} + rest := by rw [heq]; rfl
    split
    · dsimp only
      rw [waiting_insert, waiting_eq hq, hrest, List.map_append, ← Multiset.coe_add, add_assoc,
        add_assoc]
      rfl
    · exact add_le_add_right (waiting_erase_le _ id) _
    · dsimp only
      rw [waiting_insert, waiting_eq hq, hrest, add_assoc]
      exact add_le_add_right (Multiset.le_add_left _ _) _

theorem taken_step (hstep : step state s a = some t) :
    t.taken ≤ s.taken + ((postedBatches [a]).flatten : List Event) := by
  have hle : ∀ m : Multiset Event, s.taken ≤ s.taken + m := fun m => Multiset.le_add_right _ _
  cases a with
  | post now batch =>
    simp only [IngestGateway.step] at hstep
    split at hstep <;> cases hstep
    · exact hle _
    · have hbatch : (postedBatches [.post now batch]).flatten = batch := List.append_nil _
      rw [hbatch, taken, taken, waiting_insert, add_assoc, add_comm (waiting s.postings)]
      exact add_le_add_right (add_le_add_right (waiting_erase_le _ _) _) _
  | enqueue id =>
    obtain ⟨q, hq, rfl⟩ := Option.map_eq_some_iff.mp hstep
    exact (taken_tryNext hq).trans (hle _)
  | recv =>
    obtain ⟨r, _, rfl⟩ := Option.map_eq_some_iff.mp hstep
    exact hle _
  | append m | confirm m | expire m | expireWritten m =>
    simp only [IngestGateway.step] at hstep
    split_ifs at hstep
    cases hstep
    exact hle _
  | crash =>
    cases hstep
    exact (add_le_add_right (Multiset.zero_le _) _).trans (hle _)

/-- No event is placed more often than it was posted. -/
theorem taken_of_run {ingest : List IngestAction} (hrun : Run (step state) free s ingest t) :
    t.taken ≤ s.taken + ((postedBatches ingest).flatten : List Event) := by
  induction hrun with
  | nil => exact Multiset.le_add_right _ _
  | @cons s u t a rest _ hstep _ ih =>
    have hposted : ((postedBatches (a :: rest)).flatten : Multiset Event) =
        ((postedBatches [a]).flatten : List Event) +
          ((postedBatches rest).flatten : List Event) := by
      rw [Multiset.coe_add, ← List.flatten_append, postedBatches, postedBatches, postedBatches,
        ← List.filterMap_append, List.singleton_append]
    calc t.taken ≤ u.taken + ((postedBatches rest).flatten : List Event) := ih
      _ ≤ s.taken + ((postedBatches [a]).flatten : List Event) +
          ((postedBatches rest).flatten : List Event) := add_le_add_left (taken_step hstep) _
      _ = s.taken + ((postedBatches (a :: rest)).flatten : List Event) := by
        rw [hposted, add_assoc]

end IngestGateway

namespace Dispatch

/-- Each request of the source reaches the gateway at most once, and a success is its answer. -/
structure Exchanged (d : Dispatch) (ingest : List IngestAction) (g : IngestGateway) : Prop where
  posted : (IngestGateway.postedBatches ingest).Subperm (d.posts.map fun r => r.1.map Prod.snd)
  answered : ∀ r ∈ d.posts, r.2 = .success →
    ∃ a ∈ g.answers, a.result.isOk ∧ a.batch = r.1.map Prod.snd

variable {d : Dispatch} {ingest : List IngestAction} {g : IngestGateway} {state : AppState}

theorem Exchanged.placed_le (h : d.Exchanged ingest g) {capacity : Nat}
    (hrun : Run (IngestGateway.step state) free (IngestGateway.start capacity) ingest g) :
    (g.placed.map Prod.snd : Multiset Event) ≤ (d.sent.map Prod.snd : List Event) := by
  obtain ⟨batches, hperm, hsub⟩ := h.posted
  have hsent : (d.posts.map fun r => r.1.map Prod.snd).flatten = d.sent.map Prod.snd := by
    rw [sent, List.flatMap_def, List.map_flatten, List.map_map]
    rfl
  calc (g.placed.map Prod.snd : Multiset Event) ≤ g.taken := Multiset.le_add_right _ _
    _ ≤ 0 + ((IngestGateway.postedBatches ingest).flatten : List Event) :=
      IngestGateway.taken_of_run hrun
    _ = (batches.flatten : List Event) := by
      rw [zero_add, Multiset.coe_eq_coe]
      exact hperm.symm.flatten
    _ ≤ (d.sent.map Prod.snd : List Event) := by
      rw [← hsent]
      exact hsub.flatten.subperm

/-- However the stream and the posts fail, positions are posted in increasing order and no message
is in the topic more often than it was posted. An acknowledged one is there, once the gateway has
passed on what it took and given up none. -/
theorem edits_once (up : Upstream) (batchMaxEvents : Nat) (actions : List SourceAction)
    (d : Dispatch) (hsource : Run (step up batchMaxEvents) free new actions d) (state : AppState)
    (capacity : Nat) (ingest : List IngestAction) (g : IngestGateway)
    (hingest : Run (IngestGateway.step state) free (IngestGateway.start capacity) ingest g)
    (hexchanged : d.Exchanged ingest g) :
    d.sent.Pairwise (fun r r' => r.1 < r'.1) ∧
    (∀ r ∈ d.sent, ∃ uuid, readMessage up.parse uuid (up.log r.1) = some r.2) ∧
    g.topic.Subperm (d.sent.map fun r => state.pseudonymizeAndSerialize r.2) ∧
    (g.lost = [] ∧ g.sending = [] ∧ g.tx.queued = [] → ∀ i ∈ d.acked,
      ∃ e, (i, e) ∈ d.sent ∧ state.pseudonymizeAndSerialize e ∈ g.topic) := by
  have horder : InOrder up d := hsource.invariant (fun _ _ _ hd _ hstep => hd.step hstep)
    (inOrder_new up)
  have hsound : IngestGateway.Sound state g := hingest.invariant
    (fun _ _ _ hs _ hstep => IngestGateway.Sound.step hs hstep)
    (IngestGateway.sound_start state capacity)
  have hplaced := Multiset.map_le_map (f := state.pseudonymizeAndSerialize)
    (hexchanged.placed_le hingest)
  refine ⟨(List.pairwise_append.mp horder.increasing).1,
    fun r hr => horder.read r (List.mem_append_left _ hr), ?_, fun harrived i hi => ?_⟩
  · rw [← Multiset.coe_le]
    refine le_trans ?_ (hplaced.trans_eq ?_)
    · rw [Multiset.map_coe, List.map_map]
      refine le_trans ?_ hsound.conserved.ge
      rw [add_assoc, add_assoc]
      exact Multiset.le_add_right _ _
    · rw [Multiset.map_coe, List.map_map]
      rfl
  · obtain ⟨r, hr, hsuccess, hmem⟩ := horder.acked i hi
    obtain ⟨a, ha, hok, hbatch⟩ := hexchanged.answered r hr hsuccess
    obtain ⟨⟨j, e⟩, he, rfl⟩ := List.mem_map.mp hmem
    have hin : e ∈ a.batch := hbatch ▸ List.mem_map_of_mem he
    obtain ⟨x, hx, rfl⟩ := hsound.placed_of_accepted ha hok hin
    exact ⟨x.2, List.mem_flatMap.mpr ⟨r, hr, he⟩, hsound.mem_topic harrived hx⟩

/-- The first post is answered, the answer to the second is lost, and the third is refused. -/
def sampleFeed : List SourceAction :=
  [.connect 0, .message 7 .success, .message 8 .failed, .streamError, .connect 0,
    .message 9 .rejected]

/-- An edit of the stream under an id. -/
def feedEdit (uuid : Uuid) : Event :=
  ⟨uuid, "Alice", 1700000000000000000, "wikipedia", "enwiki", 0, .edit, false⟩

def feedMessage (uuid : Uuid) : QueuedMessage :=
  AppState.aliceGateway.pseudonymizeAndSerialize (feedEdit uuid)

def sampleReceived : List IngestAction :=
  [.post 1700000000000000000 [feedEdit 7], .enqueue 0, .enqueue 0, .recv, .append (feedMessage 7),
    .post 1700000000000000000 [feedEdit 8], .enqueue 1,
    .post 1700000000000000000 [feedEdit 9], .enqueue 2, .enqueue 1, .recv, .append (feedMessage 8)]

theorem edits_once_sample : ∃ (d : Dispatch) (g : IngestGateway),
    d.sent.map Prod.fst = [0, 1, 2] ∧ d.acked = [0] ∧ g.topic = [feedMessage 7, feedMessage 8] ∧
    g.topic.Subperm (d.sent.map fun r => AppState.aliceGateway.pseudonymizeAndSerialize r.2) ∧
    ∃ e, (0, e) ∈ d.sent ∧ AppState.aliceGateway.pseudonymizeAndSerialize e ∈ g.topic := by
  have hsource : (execute (step edits 1) free new sampleFeed).map (fun d =>
      decide (d.posts = [([(0, feedEdit 7)], .success), ([(1, feedEdit 8)], .failed),
        ([(2, feedEdit 9)], .rejected)] ∧ d.acked = [0])) = some true := by
    decide +kernel
  have hingest : (execute (IngestGateway.step AppState.aliceGateway) free (IngestGateway.start 1)
      sampleReceived).map (fun g => decide (g.topic = [feedMessage 7, feedMessage 8] ∧
        (∃ a ∈ g.answers, a.result.isOk ∧ a.batch = [feedEdit 7]) ∧
        g.lost = [] ∧ g.sending = [] ∧ g.tx.queued = [])) = some true := by
    decide +kernel
  obtain ⟨d, hd, hdone⟩ := Option.map_eq_some_iff.mp hsource
  obtain ⟨hposts, hacked⟩ := of_decide_eq_true hdone
  obtain ⟨g, hg, hdone⟩ := Option.map_eq_some_iff.mp hingest
  obtain ⟨htopic, hanswer, harrived⟩ := of_decide_eq_true hdone
  have hexchanged : d.Exchanged sampleReceived g := by
    constructor
    · rw [hposts]
      exact List.Subperm.refl _
    · rw [hposts]
      intro r hr hsuccess
      simp only [List.mem_cons, List.not_mem_nil, or_false] at hr
      rcases hr with rfl | rfl | rfl
      · exact hanswer
      · cases hsuccess
      · cases hsuccess
  obtain ⟨_, _, hsub, hin⟩ := edits_once edits 1 sampleFeed d (run_of_execute hd)
    AppState.aliceGateway 1 sampleReceived g (run_of_execute hg) hexchanged
  have hfirst : 0 ∈ d.acked := by
    rw [hacked]
    exact List.mem_singleton_self 0
  refine ⟨d, g, ?_, hacked, htopic, hsub, hin harrived 0 hfirst⟩
  rw [sent, hposts]
  rfl

end Dispatch

end HushEngine
