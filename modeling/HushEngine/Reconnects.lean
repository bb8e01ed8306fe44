import HushEngine.WikiSource

/-!
What a reconnection can lose. Nothing mappable lies between the resume position
and the message read next, so an edit is missed only where a batch with events
in it is dropped: by a POST that is not answered with success, or by a stream
that fails before the next POST.
-/
namespace HushEngine

open Runs

namespace Source

/-- Every mappable message up to the resume position was acknowledged or is still to be sent. -/
def MissesNone (up : Upstream) (s : Source) : Prop :=
  ∀ i, s.origin ≤ i → i < s.frontier up → up.Mappable i →
    i ∈ s.acked ∨ i ∈ s.pending.map Prod.fst

/-- A batch with events in it is sent without success, or the stream fails and drops one. -/
def Drops (up : Upstream) (batchMaxEvents : Nat) (s : Source) : SourceAction → Prop
  | .connect _ => False
  | .connectFailed => False
  | .message uuid reply => s.Fills up batchMaxEvents uuid ∧ reply ≠ .success
  | .tick reply => s.pending ≠ [] ∧ reply ≠ .success
  | .streamError => s.pending ≠ []
  | .streamEnd reply => s.pending ≠ [] ∧ reply ≠ .success

variable {up : Upstream} {batchMaxEvents : Nat} {s t : Source} {c : Connection}

/-- What every run keeps: nothing mappable lies between the resume position and the next message,
and a batch holds only events that were read since the start and not acknowledged. -/
structure Sound (up : Upstream) (s : Source) : Prop where
  unidentified : s.lastEventId = none → s.acked = [] ∧ s.pending = []
  origin_le : s.origin ≤ s.frontier up
  acked_lt : ∀ i ∈ s.acked, i < s.frontier up
  pending : ∀ i ∈ s.pending.map Prod.fst,
    s.origin ≤ i ∧ i < s.frontier up ∧ up.Mappable i ∧ i ∉ s.acked
  le_cursor : ∀ c, s.connection = some c → s.frontier up ≤ c.cursor
  skipped : ∀ c, s.connection = some c → ∀ i, s.frontier up ≤ i → i < c.cursor → ¬ up.Mappable i

theorem sound_new : new.Sound up where
  unidentified _ := ⟨rfl, rfl⟩
  origin_le := le_rfl
  acked_lt _ h := absurd h List.not_mem_nil
  pending _ h := absurd h List.not_mem_nil
  le_cursor _ h := by cases h
  skipped _ h := by cases h

theorem missesNone_new : new.MissesNone up := fun i _ hi => absurd hi (Nat.not_lt_zero i)

theorem Sound.flush (h : s.Sound up) (hc : s.connection = some c) (reply : GatewayReply) :
    (s.flush c reply).Sound up where
  unidentified hnone := by
    obtain ⟨hacked, hpending⟩ := h.unidentified ((flush_lastEventId reply).symm.trans hnone)
    rw [pending_eq hc] at hpending
    refine ⟨List.eq_nil_iff_forall_not_mem.mpr fun i hi => ?_, flush_pending reply⟩
    rcases mem_flush_acked.mp hi with hi | ⟨_, hi⟩
    · rw [hacked] at hi
      cases hi
    · rw [hpending] at hi
      cases hi
  origin_le := by simpa using h.origin_le
  acked_lt i hi := by
    rw [flush_frontier]
    rcases mem_flush_acked.mp hi with hi | ⟨_, hi⟩
    · exact h.acked_lt i hi
    · exact (h.pending i (pending_eq hc ▸ hi)).2.1
  pending i hi := by simp at hi
  le_cursor c' hc' := by
    obtain rfl := Option.some.inj ((flush_connection reply).symm.trans hc')
    simpa using h.le_cursor c hc
  skipped c' hc' := by
    obtain rfl := Option.some.inj ((flush_connection reply).symm.trans hc')
    simpa using h.skipped c hc

theorem MissesNone.flush (h : s.MissesNone up) (hc : s.connection = some c) {reply : GatewayReply}
    (hkept : c.batch ≠ [] → reply = .success) : (s.flush c reply).MissesNone up := by
  intro i hlow hhigh hmap
  rw [flush_origin] at hlow
  rw [flush_frontier] at hhigh
  refine Or.inl (mem_flush_acked.mpr ?_)
  rcases h i hlow hhigh hmap with hacked | hpending
  · exact Or.inl hacked
  · rw [pending_eq hc] at hpending
    exact Or.inr ⟨hkept (ne_nil_iff_exists_position.mpr ⟨i, hpending⟩), hpending⟩

/-- A batch that is sent without success is lost. -/
theorem Sound.lost_of_flush (h : s.Sound up) (hc : s.connection = some c) {reply : GatewayReply}
    (hbatch : c.batch ≠ []) (hreply : reply ≠ .success) : ¬ (s.flush c reply).MissesNone up := by
  intro hnone
  obtain ⟨i, hi⟩ := ne_nil_iff_exists_position.mp hbatch
  obtain ⟨hlow, hhigh, hmap, hnot⟩ := h.pending i (pending_eq hc ▸ hi)
  rcases hnone i (by simpa using hlow) (by simpa using hhigh) hmap with hacked | hpending
  · rcases mem_flush_acked.mp hacked with hacked | ⟨hsuccess, _⟩
    · exact hnot hacked
    · exact hreply hsuccess
  · simp at hpending

/-- Leaving a connection changes nothing but the batch. -/
theorem Sound.disconnect (h : s.Sound up) (backoff : Nat) :
    ({ s with connection := none, backoff := backoff } : Source).Sound up where
  unidentified hnone := ⟨(h.unidentified hnone).1, rfl⟩
  origin_le := h.origin_le
  acked_lt := h.acked_lt
  pending _ hi := absurd hi List.not_mem_nil
  le_cursor _ hc := by cases hc
  skipped _ hc := by cases hc

theorem MissesNone.disconnect (h : s.MissesNone up) (hempty : s.pending = []) (backoff : Nat) :
    ({ s with connection := none, backoff := backoff } : Source).MissesNone up := by
  intro i hlow hhigh hmap
  rcases h i hlow hhigh hmap with hacked | hpending
  · exact Or.inl hacked
  · rw [hempty] at hpending
    cases hpending

theorem Sound.lost_of_disconnect (h : s.Sound up) (hpending : s.pending ≠ []) (backoff : Nat) :
    ¬ ({ s with connection := none, backoff := backoff } : Source).MissesNone up := by
  intro hnone
  obtain ⟨i, hi⟩ := ne_nil_iff_exists_position.mp hpending
  obtain ⟨hlow, hhigh, hmap, hnot⟩ := h.pending i hi
  rcases hnone i hlow hhigh hmap with hacked | hpending'
  · exact hnot hacked
  · cases hpending'

/-- A flush loses something exactly if it sends a batch without success. -/
theorem Sound.flush_missesNone_iff (h : s.Sound up) (hnone : s.MissesNone up)
    (hc : s.connection = some c) (reply : GatewayReply) :
    (s.flush c reply).MissesNone up ↔ ¬ (s.pending ≠ [] ∧ reply ≠ .success) := by
  rw [pending_eq hc]
  constructor
  · intro hkept hdrops
    exact h.lost_of_flush hc hdrops.1 hdrops.2 hkept
  · intro hdrops
    exact hnone.flush hc fun hbatch => not_ne_iff.mp fun hreply => hdrops ⟨hbatch, hreply⟩

theorem missesNone_disconnect_iff (hempty : s.pending = []) (backoff : Nat) :
    ({ s with connection := none, backoff := backoff } : Source).MissesNone up ↔
      s.MissesNone up := by
  refine ⟨fun hnone i hlow hhigh hmap => ?_, fun hnone => hnone.disconnect hempty backoff⟩
  exact Or.inl ((hnone i hlow hhigh hmap).resolve_right List.not_mem_nil)

theorem Sound.frontier_le_read (h : s.Sound up) (hc : s.connection = some c) (uuid : Uuid) :
    s.frontier up ≤ (s.read up c uuid).frontier up := by
  rw [frontier_read]
  split_ifs
  · exact le_rfl
  · exact (h.le_cursor c hc).trans (Nat.le_succ _)

theorem Sound.read (h : s.Sound up) (hc : s.connection = some c) (uuid : Uuid) :
    (s.read up c uuid).Sound up where
  unidentified hnone := by
    have hid : (up.log c.cursor).id = "" := by
      by_contra hid
      simp [read_lastEventId, hid] at hnone
    have hkept := h.unidentified (by simpa [read_lastEventId, hid] using hnone)
    refine ⟨(read_acked _).trans hkept.1, ?_⟩
    rw [← not_ne_iff, ne_nil_iff_exists_position]
    rintro ⟨i, hi⟩
    rcases (mem_pending_read hc uuid i).mp hi with hold | ⟨rfl, hmap⟩
    · rw [hkept.2] at hold
      cases hold
    · exact hmap.identified hid
  origin_le := by
    have hle := h.origin_le.trans (h.frontier_le_read hc uuid)
    rwa [read_origin]
  acked_lt i hi := by
    rw [read_acked] at hi
    exact (h.acked_lt i hi).trans_le (h.frontier_le_read hc uuid)
  pending i hi := by
    rw [read_origin, read_acked]
    rcases (mem_pending_read hc uuid i).mp hi with hold | ⟨rfl, hmap⟩
    · obtain ⟨hlow, hhigh, hmap, hnot⟩ := h.pending i hold
      exact ⟨hlow, hhigh.trans_le (h.frontier_le_read hc uuid), hmap, hnot⟩
    · have hcursor := h.le_cursor c hc
      rw [frontier_read, if_neg hmap.identified]
      exact ⟨h.origin_le.trans hcursor, Nat.lt_succ_self _, hmap,
        fun hi => absurd (h.acked_lt _ hi) (not_lt.mpr hcursor)⟩
  le_cursor c' hc' := by
    obtain rfl := Option.some.inj hc'
    have hcursor := h.le_cursor c hc
    rw [frontier_read]
    split_ifs
    · exact hcursor.trans (Nat.le_succ _)
    · exact le_rfl
  skipped c' hc' i hlow hhigh := by
    obtain rfl := Option.some.inj hc'
    rw [frontier_read] at hlow
    split_ifs at hlow with hid
    · rcases Nat.lt_succ_iff_lt_or_eq.mp hhigh with hlt | rfl
      · exact h.skipped c hc i hlow hlt
      · exact fun hmap => hmap.identified hid
    · exact absurd hhigh (not_lt.mpr hlow)

/-- Reading a message moves the resume position past it and puts its event into the batch. -/
theorem MissesNone.read (hnone : s.MissesNone up) (h : s.Sound up) (hc : s.connection = some c)
    (uuid : Uuid) : (s.read up c uuid).MissesNone up := by
  intro i hlow hhigh hmap
  rw [read_origin] at hlow
  rw [read_acked, mem_pending_read hc uuid]
  by_cases hold : i < s.frontier up
  · exact (hnone i hlow hold hmap).imp_right Or.inl
  · refine Or.inr (Or.inr ⟨?_, hmap⟩)
    rw [frontier_read] at hhigh
    split_ifs at hhigh
    · exact absurd hhigh hold
    · rcases Nat.lt_succ_iff_lt_or_eq.mp hhigh with hlt | heq
      · exact absurd hmap (h.skipped c hc i (not_lt.mp hold) hlt)
      · exact heq

theorem Sound.connect_first (h : s.Sound up) (hid : s.lastEventId = none) (start : Nat) :
    ({ s with connection := some ⟨start, []⟩, origin := start } : Source).Sound up ∧
      ({ s with connection := some ⟨start, []⟩, origin := start } : Source).MissesNone up := by
  have hfrontier : ({ s with connection := some ⟨start, []⟩, origin := start } : Source).frontier
      up = start := by
    unfold frontier
    simp only [hid]
  have hacked := (h.unidentified hid).1
  constructor
  · constructor
    case unidentified => exact fun _ => ⟨hacked, rfl⟩
    case origin_le => exact hfrontier.ge
    case acked_lt =>
      intro i hi
      simp [hacked] at hi
    case pending => exact fun _ hi => absurd hi List.not_mem_nil
    case le_cursor =>
      intro c hc
      obtain rfl := Option.some.inj hc
      exact hfrontier.le
    case skipped =>
      intro c hc i hlow hhigh
      obtain rfl := Option.some.inj hc
      rw [hfrontier] at hlow
      exact absurd hhigh (not_lt.mpr hlow)
  · intro i hlow hhigh
    rw [hfrontier] at hhigh
    exact absurd hhigh (not_lt.mpr hlow)

/-- A client that sends an id is let in where its resume position says. -/
theorem Sound.connect_resume (h : s.Sound up) {id : String} (hid : s.lastEventId = some id) :
    ({ s with connection := some ⟨up.resume id, []⟩ } : Source).Sound up := by
  have hfrontier : s.frontier up = up.resume id := by
    unfold frontier
    rw [hid]
  constructor
  case unidentified =>
    intro hnone
    cases hid.symm.trans hnone
  case origin_le => exact h.origin_le
  case acked_lt => exact h.acked_lt
  case pending => exact fun _ hi => absurd hi List.not_mem_nil
  case le_cursor =>
    intro c hc
    obtain rfl := Option.some.inj hc
    exact hfrontier.le
  case skipped =>
    intro c hc i hlow hhigh
    obtain rfl := Option.some.inj hc
    exact absurd hhigh (not_lt.mpr (hfrontier.ge.trans hlow))

/-- A step keeps the source sound, and what was complete stays so exactly if nothing is dropped. -/
theorem Sound.step (h : s.Sound up) {a : SourceAction}
    (hstep : step up batchMaxEvents s a = some t) :
    t.Sound up ∧ (s.MissesNone up → (t.MissesNone up ↔ ¬ s.Drops up batchMaxEvents a)) := by
  cases a with
  | connect start =>
    obtain ⟨hc, ⟨hid, rfl⟩ | ⟨id, hid, rfl⟩⟩ := connect_cases hstep
    · have hfirst := h.connect_first hid start
      exact ⟨hfirst.1, fun _ => iff_of_true hfirst.2 not_false⟩
    · refine ⟨h.connect_resume hid, fun hnone => iff_of_true ?_ not_false⟩
      intro i hlow hhigh hmap
      have hkept := hnone i hlow hhigh hmap
      rwa [pending_eq_nil hc] at hkept
  | connectFailed =>
    unfold Source.step at hstep
    split_ifs at hstep with hc
    obtain rfl := Option.some.inj hstep
    exact ⟨h.disconnect _,
      fun hnone => iff_of_true (hnone.disconnect (pending_eq_nil hc) _) not_false⟩
  | message uuid reply =>
    obtain ⟨c, hc, rfl⟩ := Option.map_eq_some_iff.mp hstep
    have hread := h.read hc uuid
    rcases receive_eq up batchMaxEvents hc uuid reply with
      ⟨hfills, heq⟩ | ⟨hfills, c', hc', hbatch, heq⟩ <;> rw [heq]
    · exact ⟨hread, fun hnone => iff_of_true (hnone.read h hc uuid) fun hdrops => hfills hdrops.1⟩
    · have hpending : (s.read up c uuid).pending ≠ [] := pending_eq hc' ▸ hbatch
      refine ⟨hread.flush hc' reply, fun hnone => ?_⟩
      rw [hread.flush_missesNone_iff (hnone.read h hc uuid) hc' reply]
      exact not_congr (and_congr_left' (iff_of_true hpending hfills))
  | tick reply =>
    obtain ⟨c, hc, rfl⟩ := Option.map_eq_some_iff.mp hstep
    exact ⟨h.flush hc reply, fun hnone => h.flush_missesNone_iff hnone hc reply⟩
  | streamError =>
    obtain ⟨c, hc, rfl⟩ := Option.map_eq_some_iff.mp hstep
    refine ⟨h.disconnect _, fun hnone => ⟨?_, ?_⟩⟩
    · intro hkept hdrops
      exact h.lost_of_disconnect hdrops _ hkept
    · intro hdrops
      exact hnone.disconnect (not_ne_iff.mp hdrops) _
  | streamEnd reply =>
    obtain ⟨c, hc, rfl⟩ := Option.map_eq_some_iff.mp hstep
    refine ⟨(h.flush hc reply).disconnect _, fun hnone => ?_⟩
    exact (missesNone_disconnect_iff (flush_pending reply) _).trans
      (h.flush_missesNone_iff hnone hc reply)

theorem sound_of_run {as : List SourceAction}
    (h : Run (Source.step up batchMaxEvents) free new as s) : s.Sound up :=
  h.invariant (fun _ _ _ hs _ hstep => (hs.step hstep).1) sound_new

/-- The source has missed nothing at any point of a run exactly if no step of the run drops a
batch. -/
theorem misses_none_iff (up : Upstream) (batchMaxEvents : Nat) (actions : List SourceAction)
    (s : Source) (hrun : Run (Source.step up batchMaxEvents) free new actions s) :
    (∀ before rest u, actions = before ++ rest →
      Run (Source.step up batchMaxEvents) free new before u → u.MissesNone up) ↔
    ∀ before a rest u, actions = before ++ a :: rest →
      Run (Source.step up batchMaxEvents) free new before u → ¬ u.Drops up batchMaxEvents a := by
  constructor
  · intro hnone before a rest u heq hu
    rw [heq] at hrun
    obtain ⟨u', t, hu', hfree, hstep, _⟩ := hrun.guard_at
    obtain rfl := hu.deterministic hu'
    have hafter : Run (Source.step up batchMaxEvents) free new (before ++ [a]) t :=
      hu.append (.cons hfree hstep (.nil t))
    refine (((sound_of_run hu).step hstep).2 (hnone before (a :: rest) u heq hu)).mp ?_
    exact hnone (before ++ [a]) rest t (by rw [heq, List.append_assoc]; rfl) hafter
  · intro hkeeps before rest u heq hu
    have hguarded : Run (Source.step up batchMaxEvents)
        (fun v a => ¬ v.Drops up batchMaxEvents a) new before u := by
      apply hu.strengthen
      intro pre a post v _ hpre hv _ _
      exact hkeeps pre a (post ++ rest) v
        (by rw [heq, hpre, List.append_assoc, List.cons_append]) hv
    have hinv : ∀ v a t, v.Sound up ∧ v.MissesNone up → ¬ v.Drops up batchMaxEvents a →
        step up batchMaxEvents v a = some t → t.Sound up ∧ t.MissesNone up := by
      intro v a t hv hdrops hstep
      have hnext := hv.1.step hstep
      exact ⟨hnext.1, (hnext.2 hv.2).mpr hdrops⟩
    exact (hguarded.invariant hinv ⟨sound_new, missesNone_new⟩).2

end Source

/-- The text of an edit on the stream. -/
def editJson : String :=
  "\x7b\"type\":\"edit\",\"namespace\":0,\"user\":\"Alice\",\"bot\":false," ++
    "\"wiki\":\"enwiki\",\"timestamp\":1700000000\x7d"

/-- A stream of edits, each with an id as long as the position after it. -/
def edits : Upstream where
  log i := ⟨String.ofList (List.replicate (i + 1) 'x'), editJson⟩
  parse data :=
    if data = editJson then some ⟨"edit", 0, "Alice", false, "enwiki", 1700000000⟩ else none
  resume id := id.length
  resumes i _ := by simp
  identified i _ _ _ h := by simp [List.replicate_succ] at h

namespace Source

theorem mappable_edits : edits.Mappable 0 :=
  ⟨7, ⟨7, "Alice", 1700000000000000000, "wikipedia", "enwiki", 0, .edit, false⟩, by decide⟩

/-- An edit is read, the stream fails, and the next connection resumes after the edit. -/
theorem stream_error_misses :
    ∃ s, Run (step edits 500) free new
        [.connect 0, .message 7 .success, .streamError, .connect 0] s ∧
      s = ⟨some "x", 2, some ⟨1, []⟩, 0, []⟩ ∧ ¬ s.MissesNone edits := by
  refine ⟨_, run_of_execute (by decide), rfl, fun hnone => ?_⟩
  rcases hnone 0 le_rfl (by decide) mappable_edits with hacked | hpending
  · cases hacked
  · cases hpending

/-- An edit is read and sent. -/
def sentEdit : List SourceAction := [.connect 0, .message 7 .success, .tick .success]

theorem misses_none_iff_sentEdit :
    ∃ s, Run (step edits 500) free new sentEdit s ∧ s.acked = [0] ∧
      (∀ before a rest u, sentEdit = before ++ a :: rest →
        Run (step edits 500) free new before u → ¬ u.Drops edits 500 a) ∧
      ∀ before rest u, sentEdit = before ++ rest →
        Run (step edits 500) free new before u → u.MissesNone edits := by
  have hkeeps : ∀ before a rest u, sentEdit = before ++ a :: rest →
      Run (step edits 500) free new before u → ¬ u.Drops edits 500 a := by
    intro before a rest u heq _
    have ha : a ∈ sentEdit := by
      rw [heq]
      exact List.mem_append_right _ (List.mem_cons_self ..)
    simp only [sentEdit, List.mem_cons, List.not_mem_nil, or_false] at ha
    rcases ha with rfl | rfl | rfl <;> simp [Drops]
  have hrun : ∃ s, Run (step edits 500) free new sentEdit s ∧ s.acked = [0] :=
    ⟨_, run_of_execute rfl, by decide⟩
  obtain ⟨s, hs, hacked⟩ := hrun
  exact ⟨s, hs, hacked, hkeeps, (misses_none_iff edits 500 sentEdit s hs).mpr hkeeps⟩

end Source

end HushEngine
