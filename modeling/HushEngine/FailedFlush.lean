import HushEngine.Replay

/-!
What a failed flush leaves behind. The windows of a batch are gone from memory
when the write is attempted; an error drops them and counts. The next commit
writes a checkpoint computed from that memory, so it covers events that are in
no row. The checkpoint is right exactly as long as no commit follows an error.
-/
namespace HushEngine

open Tally Runs

namespace Owner

/-- Every accepted event the stored checkpoint covers is counted in its window's rows. -/
def Covered (partition : Int) (s : Owner) : Prop :=
  ∀ pr, s.db.loadProgress partition = some pr → ∀ m ∈ s.accepted,
    m.offset < pr.committedOffset ∨ windowEnd m.window ≤ pr.flushedWatermark →
    ∀ key ∈ CellKey.cellsForEvent m.event,
      s.db.rowTotals partition m.window key = cellTally (eventsIn s.accepted m.window) key

/-- Messages and turns of the flush loop, with either outcome, in one process. -/
def Uncrashed (_ : Owner) (a : Action) : Prop := a.isCrash = false

instance (s : Owner) (a : Action) : Decidable (Uncrashed s a) :=
  inferInstanceAs (Decidable (a.isCrash = false))

theorem ExactRows.covered {partition : Int} {s : Owner} (h : ExactRows partition s)
    (hc : Contents partition s) : Covered partition s := by
  intro pr hpr m hm hcovered key _
  have hend : windowEnd m.window ≤ pr.flushedWatermark :=
    hcovered.elim (hc.progress_offset pr hpr m hm) id
  exact h m hm ⟨pr, hpr, hend⟩ key

theorem flushErrors_step {partition : Int} {s t : Owner} {a : Action} (hguard : Uncrashed s a)
    (hfail : a ≠ .fail) (hstep : Owner.step partition s a = some t) :
    t.flushErrors = s.flushErrors := by
  cases a with
  | deliver m now =>
    obtain ⟨_, rfl⟩ := step_deliver hstep
    rfl
  | tickIdle nowWall nowUtc =>
    obtain rfl := step_tickIdle hstep
    rfl
  | collect =>
    obtain ⟨_, rfl⟩ := step_collect hstep
    rfl
  | commit =>
    obtain ⟨_, _, rfl⟩ := step_commit hstep
    rfl
  | fail => exact absurd rfl hfail
  | crash now nowUtc => cases hguard

/-- The state of a process that has not committed after an error. -/
structure Careful (partition : Int) (s : Owner) : Prop where
  sound : Sound partition s
  contents : Contents partition s
  exact_rows : ExactRows partition s
  conserved : s.flushErrors = 0 → Conserved partition s

theorem Careful.step {partition : Int} {s t : Owner} {a : Action} (h : Careful partition s)
    (hguard : Uncrashed s a ∧ (a = .commit → s.flushErrors = 0))
    (hstep : Owner.step partition s a = some t) : Careful partition t where
  sound := h.sound.step hstep
  contents := h.contents.step h.sound hstep
  exact_rows := h.exact_rows.step h.sound h.contents
    (fun hcommit => h.conserved (hguard.2 hcommit)) hstep
  conserved herrors := by
    have hfail : a ≠ .fail := by
      rintro rfl
      obtain ⟨b, _, rfl⟩ := step_fail hstep
      cases herrors
    have hbefore : s.flushErrors = 0 := by
      rw [← flushErrors_step hguard.1 hfail hstep]
      exact herrors
    exact (h.conserved hbefore).step h.sound h.contents hfail hstep

/-- An accepted event that is neither in memory, nor in the batch, nor in the rows. -/
structure Lost (partition : Int) (s : Owner) (m : Message) : Prop where
  accepted : m ∈ s.accepted
  closed : windowEnd m.window ≤ s.mem.flushedWatermark
  not_batch : ∀ b, s.batch = some b → m.window ∉ b.closed.map Prod.fst
  not_durable : ¬ s.db.Durable partition m.window

section Lost

variable {partition : Int} {s : Owner}

/-- A window of a batch holds at least one accepted event. -/
theorem Contents.exists_accepted (hc : Contents partition s) {b : Batch}
    (hfits : b.Fits (s.db.loadProgress partition)) (hb : s.batch = some b) {c : Int × Window}
    (hmem : c ∈ b.closed) : ∃ m ∈ s.accepted, m.window = c.1 := by
  have hpresent := (hc.batch_holds b hb c hmem).present CellKey.global
  rw [contributors_global] at hpresent
  obtain ⟨e, he⟩ := hpresent.mp (hfits.closed_global c hmem)
  obtain ⟨m, hm, hw, _⟩ := (mem_eventsIn _ _ _).mp he
  exact ⟨m, hm, hw⟩

theorem lost_of_fail (hs : Sound partition s) (hc : Contents partition s) {b : Batch}
    (hb : s.batch = some b) :
    ∃ m, Lost partition { s with batch := none, flushErrors := s.flushErrors + 1 } m := by
  have hfits := hs.fits b hb
  obtain ⟨c, hmem⟩ := List.exists_mem_of_ne_nil _ hfits.nonempty
  obtain ⟨m, hm, hw⟩ := hc.exists_accepted hfits hb hmem
  refine ⟨m, hm, ?_, fun b' hb' => (by cases hb'), ?_⟩
  · have := hfits.closed_end c hmem
    rw [(hs.taken b hb).watermark] at this
    rwa [hw]
  · rw [hw]
    exact fun hdurable => hfits.not_settled hmem (hs.rows.settled hdurable)

/-- What is lost stays lost: no step of the process brings it back. -/
theorem Lost.step {m : Message} {t : Owner} {a : Action} (h : Lost partition s m)
    (hs : Sound partition s) (hguard : Uncrashed s a)
    (hstep : Owner.step partition s a = some t) : Lost partition t m := by
  cases a with
  | deliver m' now =>
    obtain ⟨_, rfl⟩ := step_deliver hstep
    have hwm : (s.toWorker.consume m' now).mem.flushedWatermark = s.mem.flushedWatermark :=
      s.mem.processEvent_flushedWatermark m'.event m'.offset now
    exact ⟨mem_consume h.accepted, by dsimp only; rw [hwm]; exact h.closed, h.not_batch,
      h.not_durable⟩
  | tickIdle nowWall nowUtc =>
    obtain rfl := step_tickIdle hstep
    exact ⟨h.accepted, by simpa using h.closed, h.not_batch, h.not_durable⟩
  | collect =>
    obtain ⟨_, rfl⟩ := step_collect hstep
    refine ⟨h.accepted, ?_, ?_, h.not_durable⟩
    · have := h.closed
      dsimp only
      rw [PartitionState.collectBatch_fst, PartitionState.takeClosedWindows_flushedWatermark]
      omega
    · intro b hb hmem
      obtain ⟨_, rfl⟩ := PartitionState.collectBatch_snd_eq_some hb
      obtain ⟨⟨w, win⟩, hc, heq⟩ := List.mem_map.mp hmem
      have hopen := ((s.mem.mem_takeClosedWindows w win).mp hc).1
      have hlt := hs.mem.open_end w win hopen
      have hle := h.closed
      dsimp only at heq
      rw [← heq] at hle
      omega
  | commit =>
    obtain ⟨b, hb, rfl⟩ := step_commit hstep
    refine ⟨h.accepted, h.closed, fun b' hb' => (by cases hb'), ?_⟩
    have hsame := Db.flushWindows_lookup_of_not_mem s.db partition b.closed b.committedOffset
      b.flushedWatermark ⟨m.window, CellKey.global, partition⟩ fun _ => h.not_batch b hb
    change ¬ ((b.flush s.db partition).aggCells.lookup _).isSome
    unfold Batch.flush
    rw [hsame]
    exact h.not_durable
  | fail =>
    obtain ⟨b, _, rfl⟩ := step_fail hstep
    exact ⟨h.accepted, h.closed, fun b' hb' => (by cases hb'), h.not_durable⟩
  | crash now nowUtc => cases hguard

/-- The state of any process: after an error something is lost. -/
structure Faulted (partition : Int) (s : Owner) : Prop where
  sound : Sound partition s
  contents : Contents partition s
  errors_lose : s.flushErrors ≠ 0 → ∃ m, Lost partition s m

theorem Faulted.step {t : Owner} {a : Action} (h : Faulted partition s) (hguard : Uncrashed s a)
    (hstep : Owner.step partition s a = some t) : Faulted partition t where
  sound := h.sound.step hstep
  contents := h.contents.step h.sound hstep
  errors_lose herrors := by
    by_cases hfail : a = .fail
    · subst hfail
      obtain ⟨b, hb, rfl⟩ := step_fail hstep
      exact lost_of_fail h.sound h.contents hb
    · rw [flushErrors_step hguard hfail hstep] at herrors
      obtain ⟨m, hm⟩ := h.errors_lose herrors
      exact ⟨m, hm.step h.sound hguard hstep⟩

/-- The next commit's checkpoint covers what is lost. -/
theorem Lost.not_covered {m : Message} (h : Lost partition s m) (hs : Sound partition s)
    {b : Batch} (hb : s.batch = some b) :
    ¬ Covered partition { s with db := b.flush s.db partition, batch := none } := by
  intro hcovered
  have hend : windowEnd m.window ≤ b.flushedWatermark := by
    rw [(hs.taken b hb).watermark]
    exact h.closed
  have hrow := hcovered _ (b.flush_loadProgress s.db partition) m h.accepted (Or.inr hend)
    CellKey.global (CellKey.global_mem_cellsForEvent _)
  have hnone : s.db.rowTotals partition m.window CellKey.global = none := by
    have := h.not_durable
    unfold Db.Durable at this
    simpa [Db.rowTotals] using this
  dsimp only at hrow
  rw [b.rowTotals_flush_of_not_mem s.db (h.not_batch b hb), hnone] at hrow
  have hsome : (cellTally (eventsIn s.accepted m.window) CellKey.global).isSome :=
    cellTally_global_isSome h.accepted
  rw [← hrow] at hsome
  cases hsome

end Lost

/-- The checkpoint covers nothing that is not durable, throughout the run, if and only if no
commit of the run comes after a failed one. -/
theorem checkpoint_covers_iff (partition : Int) (db : Db) (hrows : db.RowsCovered partition)
    (hllEnabled : Bool) (now : Nat) (nowUtc : Int) (actions : List Action) (s : Owner)
    (hrun : Run (step partition) Uncrashed
      (boot db partition hllEnabled now nowUtc []) actions s) :
    (∀ before after v, actions = before ++ after →
      Run (step partition) Uncrashed (boot db partition hllEnabled now nowUtc []) before v →
      Covered partition v) ↔
    (∀ before after v, actions = before ++ .commit :: after →
      Run (step partition) Uncrashed (boot db partition hllEnabled now nowUtc []) before v →
      v.flushErrors = 0) := by
  have hsound := sound_boot hrows hllEnabled now nowUtc []
  have hcontents := contents_boot db partition hllEnabled now nowUtc []
  constructor
  · intro hcovered before after v hactions hbefore
    by_contra herrors
    have hfaulted : Faulted partition v :=
      hbefore.invariant (fun _ _ _ hx hg hy => hx.step hg hy)
        ⟨hsound, hcontents, fun h => absurd rfl h⟩
    obtain ⟨m, hm⟩ := hfaulted.errors_lose herrors
    rw [hactions] at hrun
    obtain ⟨v', t, hv', _, hstep, _⟩ := hrun.guard_at
    obtain rfl := hbefore.deterministic hv'
    obtain ⟨b, hb, rfl⟩ := step_commit hstep
    refine hm.not_covered hfaulted.sound hb (hcovered (before ++ [.commit]) after _ ?_ ?_)
    · rw [hactions, List.append_assoc, List.singleton_append]
    · exact hbefore.append (.cons rfl hstep (.nil _))
  · intro hcommits before after v hactions hbefore
    have hguarded := hbefore.strengthen
      (fun pre a post x y hpre hx hg _ => (⟨hg, fun hcommit =>
        hcommits pre (post ++ after) x (by rw [hactions, hpre, hcommit]; simp) hx⟩ :
        Uncrashed x a ∧ (a = .commit → x.flushErrors = 0)))
    have hcareful : Careful partition v := hguarded.invariant
      (fun _ _ _ hx hg hy => hx.step hg hy)
      ⟨hsound, hcontents, fun m hm => (by cases hm), fun _ m hm => (by cases hm)⟩
    exact hcareful.exact_rows.covered hcareful.contents

/-- The write of the first window fails; the write of the second covers both. -/
def failedSchedule : List Action :=
  [.deliver ⟨0, evt 1000000000 1 "u1"⟩ 0, .deliver ⟨1, evt 95000000000 2 "u2"⟩ 1, .collect, .fail,
    .deliver ⟨2, evt 155000000000 3 "u3"⟩ 2, .collect, .commit]

theorem execute_failedSchedule :
    (execute (step 0) Uncrashed (boot Db.empty 0 false 0 0 []) failedSchedule).map (fun s =>
      (s.db.loadProgress 0, s.accepted.getLast?, s.db.rowTotals 0 0 CellKey.global)) =
    some (some ⟨2, 125000000000⟩, some ⟨0, evt 1000000000 1 "u1"⟩, none) := by
  decide

theorem failed_flush_uncovered :
    ∃ s, Run (step 0) Uncrashed (boot Db.empty 0 false 0 0 []) failedSchedule s ∧
      ¬ Covered 0 s := by
  obtain ⟨s, hs, hfinal⟩ := Option.map_eq_some_iff.mp execute_failedSchedule
  simp only [Prod.mk.injEq] at hfinal
  obtain ⟨hpr, haccepted, hrow⟩ := hfinal
  refine ⟨s, run_of_execute hs, fun hcovered => ?_⟩
  have hmem := List.mem_of_getLast? haccepted
  have hcount := hcovered _ hpr _ hmem (Or.inl (by decide)) CellKey.global
    (CellKey.global_mem_cellsForEvent _)
  have hsome := cellTally_global_isSome hmem
  rw [← hcount] at hsome
  rw [show (⟨0, evt 1000000000 1 "u1"⟩ : Message).window = 0 by decide, hrow] at hsome
  cases hsome

/-- The write of the second window fails, and nothing is written after it. -/
def lastFails : List Action :=
  [.deliver ⟨0, evt 1000000000 1 "u1"⟩ 0, .deliver ⟨1, evt 95000000000 2 "u2"⟩ 1, .collect,
    .commit, .deliver ⟨2, evt 155000000000 3 "u3"⟩ 2, .collect, .fail]

theorem checkpoint_covers_iff_lastFails :
    ∃ s, Run (step 0) Uncrashed (boot Db.empty 0 false 0 0 []) lastFails s ∧ s.flushErrors = 1 ∧
      (∀ before after v, lastFails = before ++ .commit :: after →
        Run (step 0) Uncrashed (boot Db.empty 0 false 0 0 []) before v → v.flushErrors = 0) ∧
      ∀ before after v, lastFails = before ++ after →
        Run (step 0) Uncrashed (boot Db.empty 0 false 0 0 []) before v → Covered 0 v := by
  have hexec : ∃ s, Run (step 0) (fun s a => a = .commit → s.flushErrors = 0)
        (boot Db.empty 0 false 0 0 []) lastFails s ∧
      Run (step 0) Uncrashed (boot Db.empty 0 false 0 0 []) lastFails s ∧ s.flushErrors = 1 :=
    ⟨_, run_of_execute rfl, run_of_execute rfl, by decide⟩
  obtain ⟨s, hguarded, hs, herrors⟩ := hexec
  have hcommits : ∀ before after v, lastFails = before ++ .commit :: after →
      Run (step 0) Uncrashed (boot Db.empty 0 false 0 0 []) before v → v.flushErrors = 0 := by
    intro before after v heq hv
    rw [heq] at hguarded
    obtain ⟨t, _, ht, hguard, _⟩ := hguarded.guard_at
    obtain rfl := hv.deterministic ht
    exact hguard rfl
  exact ⟨s, hs, herrors, hcommits, (checkpoint_covers_iff 0 Db.empty (Db.rowsCovered_empty 0)
    false 0 0 lastFails s hs).mpr hcommits⟩

end Owner

end HushEngine
