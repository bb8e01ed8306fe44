import HushEngine.Conservation

/-!
Delivery is at least once. A message that comes again finds its event in the
open window it went into, or finds that window handed out, and either way it
changes nothing a take returns. Two runs of which one has further copies are
related by what their states hold, the resume offsets apart.
-/
namespace HushEngine

open Keyed Runs

/-- What a window counts, without the offset to resume from. -/
def Window.contents (win : Window) : Finset Uuid × Table CellKey CellAgg :=
  (win.seenIds, win.cells)

theorem Window.fold_contents {win win' : Window} (h : win.contents = win'.contents) (e : Event)
    (offset offset' : Nat) (hllEnabled : Bool) :
    (win.fold e offset hllEnabled).contents = (win'.fold e offset' hllEnabled).contents := by
  obtain ⟨hids, hcells⟩ := Prod.mk.inj h
  simp only [contents, fold, hids, hcells]

/-- What a take returns, without the offsets. -/
def handedOut (closed : List (Int × Window)) : List (Int × (Finset Uuid × Table CellKey CellAgg)) :=
  closed.map fun c => (c.1, c.2.contents)

namespace PartitionState

/-- The event has been seen: the clock has passed it, and its window has been handed out or is
open with its id. -/
structure Absorbed (ps : PartitionState) (e : Event) : Prop where
  ts_le : e.ts ≤ ps.maxEventTs
  placed : windowEnd e.window ≤ ps.flushedWatermark ∨
    ∃ win, ps.openWindows.lookup e.window = some win ∧ e.eventId ∈ win.seenIds

/-- The states hold the same windows, up to resume offsets, under the same clocks. -/
structure SameContents (ps qs : PartitionState) : Prop where
  maxEventTs : qs.maxEventTs = ps.maxEventTs
  flushedWatermark : qs.flushedWatermark = ps.flushedWatermark
  hllEnabled : qs.hllEnabled = ps.hllEnabled
  windows : ∀ w, (qs.openWindows.lookup w).map Window.contents =
    (ps.openWindows.lookup w).map Window.contents

theorem SameContents.refl (ps : PartitionState) : SameContents ps ps :=
  ⟨rfl, rfl, rfl, fun _ => rfl⟩

theorem SameContents.trans {ps qs rs : PartitionState} (h : SameContents ps qs)
    (h' : SameContents qs rs) : SameContents ps rs where
  maxEventTs := h'.maxEventTs.trans h.maxEventTs
  flushedWatermark := h'.flushedWatermark.trans h.flushedWatermark
  hllEnabled := h'.hllEnabled.trans h.hllEnabled
  windows w := (h'.windows w).trans (h.windows w)

section ProcessEvent

variable {ps qs : PartitionState} {e : Event}

theorem absorbed_processEvent (ps : PartitionState) (e : Event) (offset now : Nat) :
    (ps.processEvent e offset now).1.Absorbed e where
  ts_le := by
    rw [processEvent_maxEventTs]
    exact le_max_right _ _
  placed := by
    rw [processEvent_flushedWatermark]
    rcases ps.processEvent_cases e offset now with
      ⟨_, hend, _⟩ | ⟨_, _, ⟨win, hwin, hseen⟩, hlook⟩ | ⟨_, _, _, hlook⟩
    · exact Or.inl hend
    · exact Or.inr ⟨win, by rw [hlook, hwin], hseen⟩
    · exact Or.inr ⟨_, by rw [hlook, if_pos rfl], Finset.mem_insert_self _ _⟩

theorem Absorbed.processEvent (h : ps.Absorbed e) (e' : Event) (offset now : Nat) :
    (ps.processEvent e' offset now).1.Absorbed e where
  ts_le := by
    rw [processEvent_maxEventTs]
    exact h.ts_le.trans (le_max_left _ _)
  placed := by
    rw [processEvent_flushedWatermark]
    rcases h.placed with hend | ⟨win, hwin, hseen⟩
    · exact Or.inl hend
    · right
      rw [processEvent_lookup]
      split_ifs with hcond
      · refine ⟨_, rfl, Finset.mem_insert_of_mem ?_⟩
        rw [← hcond.1, windowFor, hwin]
        exact hseen
      · exact ⟨win, hwin, hseen⟩

theorem Absorbed.takeClosedWindows (h : ps.Absorbed e) :
    ps.takeClosedWindows.1.Absorbed e where
  ts_le := h.ts_le
  placed := by
    rw [takeClosedWindows_flushedWatermark, takeClosedWindows_lookup]
    rcases h.placed with hend | ⟨win, hwin, hseen⟩
    · exact Or.inl (hend.trans (le_max_left _ _))
    · split_ifs with hclosed
      · exact Or.inl (hclosed.trans (le_max_right _ _))
      · exact Or.inr ⟨win, hwin, hseen⟩

/-- States with the same contents have seen the same events. -/
theorem Absorbed.of_sameContents (h : ps.Absorbed e) (hsame : SameContents ps qs) :
    qs.Absorbed e where
  ts_le := by
    rw [hsame.maxEventTs]
    exact h.ts_le
  placed := by
    rw [hsame.flushedWatermark]
    rcases h.placed with hend | ⟨win, hwin, hseen⟩
    · exact Or.inl hend
    · have hwindow := hsame.windows e.window
      rw [hwin, Option.map_some, Option.map_eq_some_iff] at hwindow
      obtain ⟨win', hwin', heq⟩ := hwindow
      refine Or.inr ⟨win', hwin', ?_⟩
      rwa [(Prod.mk.inj heq).1]

/-- A copy of an event that was seen changes no window and no clock. -/
theorem Absorbed.sameContents_processEvent (h : ps.Absorbed e) (offset now : Nat) :
    SameContents ps (ps.processEvent e offset now).1 where
  maxEventTs := by rw [processEvent_maxEventTs, max_eq_left h.ts_le]
  flushedWatermark := by simp
  hllEnabled := by simp
  windows w := by
    rw [processEvent_lookup]
    split_ifs with hcond
    · rcases h.placed with hend | ⟨win, hwin, hseen⟩
      · exact absurd hcond.2.1 (not_lt.mpr hend)
      · refine absurd ?_ hcond.2.2
        rw [windowFor, hwin]
        exact hseen
    · rfl

theorem SameContents.windowFor (h : SameContents ps qs) (w : Int) (offset offset' : Nat) :
    (qs.windowFor w offset').contents = (ps.windowFor w offset).contents := by
  have hwindow := h.windows w
  unfold PartitionState.windowFor
  cases hps : ps.openWindows.lookup w with
  | none =>
    rw [hps, Option.map_none, Option.map_eq_none_iff] at hwindow
    rw [hwindow]
    rfl
  | some win =>
    rw [hps, Option.map_some, Option.map_eq_some_iff] at hwindow
    obtain ⟨win', hwin', heq⟩ := hwindow
    rw [hwin']
    exact heq

theorem SameContents.processEvent (h : SameContents ps qs) (e : Event)
    (offset offset' now now' : Nat) :
    SameContents (ps.processEvent e offset now).1 (qs.processEvent e offset' now').1 where
  maxEventTs := by rw [processEvent_maxEventTs, processEvent_maxEventTs, h.maxEventTs]
  flushedWatermark := by simpa using h.flushedWatermark
  hllEnabled := by simpa using h.hllEnabled
  windows w := by
    have hfor := h.windowFor e.window offset offset'
    have hids : (qs.windowFor e.window offset').seenIds =
        (ps.windowFor e.window offset).seenIds := (Prod.mk.inj hfor).1
    rw [processEvent_lookup, processEvent_lookup, h.flushedWatermark, h.hllEnabled, hids]
    split_ifs
    · rw [Option.map_some, Option.map_some, Window.fold_contents hfor e offset' offset]
    · exact h.windows w

end ProcessEvent

section TakeClosedWindows

variable {ps qs : PartitionState}

theorem SameContents.watermark (h : SameContents ps qs) : qs.watermark = ps.watermark := by
  unfold PartitionState.watermark
  rw [h.maxEventTs]

theorem SameContents.mem_keys (h : SameContents ps qs) (w : Int) :
    w ∈ qs.openWindows.keys ↔ w ∈ ps.openWindows.keys := by
  have hwindow := congrArg Option.isSome (h.windows w)
  rw [Option.isSome_map, Option.isSome_map] at hwindow
  rw [← AList.mem_keys, ← AList.mem_keys, ← AList.lookup_isSome, ← AList.lookup_isSome, hwindow]

/-- The windows are taken in key order, so the same keys are taken in the same order. -/
theorem SameContents.closedStarts (h : SameContents ps qs) :
    qs.closedStarts = ps.closedStarts := by
  have hperm : qs.openWindows.keys.Perm ps.openWindows.keys :=
    (List.perm_ext_iff_of_nodup qs.openWindows.keys_nodup ps.openWindows.keys_nodup).mpr
      h.mem_keys
  have hsorted : qs.openWindows.keys.insertionSort (· ≤ ·) =
      ps.openWindows.keys.insertionSort (· ≤ ·) :=
    List.Perm.eq_of_pairwise' (r := (· ≤ ·)) (List.pairwise_insertionSort _ _)
      (List.pairwise_insertionSort _ _)
      ((List.perm_insertionSort _ _).trans (hperm.trans (List.perm_insertionSort _ _).symm))
  unfold PartitionState.closedStarts
  rw [hsorted, h.watermark]

theorem handedOut_takeClosedWindows (ps : PartitionState) :
    handedOut ps.takeClosedWindows.2 = ps.closedStarts.filterMap fun start =>
      ((ps.openWindows.lookup start).map Window.contents).map fun held => (start, held) := by
  unfold handedOut PartitionState.takeClosedWindows
  rw [List.map_filterMap]
  simp only [Option.map_map, Function.comp_def]

theorem SameContents.handedOut (h : SameContents ps qs) :
    handedOut qs.takeClosedWindows.2 = handedOut ps.takeClosedWindows.2 := by
  simp only [handedOut_takeClosedWindows, h.closedStarts, h.windows]

theorem SameContents.takeClosedWindows (h : SameContents ps qs) :
    SameContents ps.takeClosedWindows.1 qs.takeClosedWindows.1 where
  maxEventTs := h.maxEventTs
  flushedWatermark := by
    rw [takeClosedWindows_flushedWatermark, takeClosedWindows_flushedWatermark, h.watermark,
      h.flushedWatermark]
  hllEnabled := h.hllEnabled
  windows w := by
    rw [takeClosedWindows_lookup, takeClosedWindows_lookup, h.watermark]
    split_ifs
    · rfl
    · exact h.windows w

end TakeClosedWindows

end PartitionState

/-- The second sequence is the first with further copies of events that came before; offsets and
clocks are what they are in either. Neither has idle ticks. -/
inductive Redelivers : List Call → List Call → Prop
  | nil : Redelivers [] []
  | deliver {calls calls' : List Call} {m m' : Message} (h : Redelivers calls calls')
      (hevent : m'.event = m.event) (now now' : Nat) :
      Redelivers (calls ++ [.processEvent m now]) (calls' ++ [.processEvent m' now'])
  | take {calls calls' : List Call} (h : Redelivers calls calls') :
      Redelivers (calls ++ [.takeClosedWindows]) (calls' ++ [.takeClosedWindows])
  | copy {calls calls' : List Call} {m m' : Message} {now : Nat} (h : Redelivers calls calls')
      (hbefore : .processEvent m now ∈ calls) (hevent : m'.event = m.event) (now' : Nat) :
      Redelivers calls (calls' ++ [.processEvent m' now'])

namespace Ledger

/-- A ledger opened on a state, whatever the state. -/
def ofState (ps : PartitionState) : Ledger := ⟨ps, [], []⟩

/-- What a caller sees of both: the clocks, and everything that was handed out. -/
structure SameAnswers (s t : Ledger) : Prop where
  maxEventTs : t.mem.maxEventTs = s.mem.maxEventTs
  flushedWatermark : t.mem.flushedWatermark = s.mem.flushedWatermark
  returned : t.returned.map handedOut = s.returned.map handedOut

/-- The relation that redelivery keeps between the two runs. -/
structure Redelivered (calls : List Call) (s t : Ledger) : Prop where
  contents : s.mem.SameContents t.mem
  returned : t.returned.map handedOut = s.returned.map handedOut
  absorbed : ∀ m now, .processEvent m now ∈ calls → s.mem.Absorbed m.event

theorem Redelivered.sameAnswers {calls : List Call} {s t : Ledger} (h : Redelivered calls s t) :
    s.SameAnswers t :=
  ⟨h.contents.maxEventTs, h.contents.flushedWatermark, h.returned⟩

theorem run_concat {guard : Ledger → Call → Prop} {s u : Ledger} {calls : List Call} {a : Call}
    (h : Run step guard s (calls ++ [a]) u) :
    ∃ t, Run step guard s calls t ∧ step t a = some u := by
  obtain ⟨t, u', hpre, _, hstep, hpost⟩ := h.guard_at
  cases hpost
  exact ⟨t, hpre, hstep⟩

section Steps

variable {calls : List Call} {s t s' t' : Ledger} {m m' : Message} {now now' : Nat}

theorem Redelivered.deliver (h : Redelivered calls s t) (hevent : m'.event = m.event)
    (hs : step s (.processEvent m now) = some s') (ht : step t (.processEvent m' now') = some t') :
    Redelivered (calls ++ [.processEvent m now]) s' t' := by
  obtain rfl := Option.some.inj hs
  obtain rfl := Option.some.inj ht
  refine ⟨?_, h.returned, ?_⟩
  · dsimp only
    rw [hevent]
    exact h.contents.processEvent m.event m.offset m'.offset now now'
  · intro m₁ now₁ hmem
    rcases List.mem_append.mp hmem with hold | hnew
    · exact (h.absorbed m₁ now₁ hold).processEvent m.event m.offset now
    · cases List.mem_singleton.mp hnew
      exact s.mem.absorbed_processEvent m.event m.offset now

theorem Redelivered.take (h : Redelivered calls s t) (hs : step s .takeClosedWindows = some s')
    (ht : step t .takeClosedWindows = some t') :
    Redelivered (calls ++ [.takeClosedWindows]) s' t' := by
  obtain rfl := Option.some.inj hs
  obtain rfl := Option.some.inj ht
  refine ⟨h.contents.takeClosedWindows, ?_, ?_⟩
  · simp only [List.map_append, List.map_singleton, h.returned, h.contents.handedOut]
  · intro m₁ now₁ hmem
    rcases List.mem_append.mp hmem with hold | hnew
    · exact (h.absorbed m₁ now₁ hold).takeClosedWindows
    · cases List.mem_singleton.mp hnew

theorem Redelivered.copy (h : Redelivered calls s t) (hbefore : .processEvent m now ∈ calls)
    (hevent : m'.event = m.event) (ht : step t (.processEvent m' now') = some t') :
    Redelivered calls s t' := by
  obtain rfl := Option.some.inj ht
  have habsorbed := (h.absorbed m now hbefore).of_sameContents h.contents
  refine ⟨h.contents.trans ?_, h.returned, h.absorbed⟩
  dsimp only
  rw [hevent]
  exact habsorbed.sameContents_processEvent m'.offset now'

end Steps

/-- The relation holds at the end of any two runs of which the second has further copies. -/
theorem redelivered_of_runs (ps : PartitionState) {calls calls' : List Call}
    (h : Redelivers calls calls') {s t : Ledger} (hs : Run step free (ofState ps) calls s)
    (ht : Run step free (ofState ps) calls' t) : Redelivered calls s t := by
  induction h generalizing s t with
  | nil =>
    cases hs
    cases ht
    exact ⟨.refl ps, rfl, fun m now hmem => by cases hmem⟩
  | deliver h hevent now now' ih =>
    obtain ⟨s₁, hs₁, hstep⟩ := run_concat hs
    obtain ⟨t₁, ht₁, hstep'⟩ := run_concat ht
    exact (ih hs₁ ht₁).deliver hevent hstep hstep'
  | take h ih =>
    obtain ⟨s₁, hs₁, hstep⟩ := run_concat hs
    obtain ⟨t₁, ht₁, hstep'⟩ := run_concat ht
    exact (ih hs₁ ht₁).take hstep hstep'
  | copy h hbefore hevent now' ih =>
    obtain ⟨t₁, ht₁, hstep'⟩ := run_concat ht
    exact (ih hs ht₁).copy hbefore hevent hstep'

/-- Every beginning of the first sequence has its counterpart in the second. -/
theorem exists_prefix_of_redelivers {calls calls' : List Call} (h : Redelivers calls calls')
    {pre : List Call} (post : List Call) (heq : calls = pre ++ post) :
    ∃ pre' post', calls' = pre' ++ post' ∧ Redelivers pre pre' := by
  have hlast : ∀ {as post : List Call} {a : Call}, as ++ [a] = pre ++ post →
      pre = as ++ [a] ∨ ∃ post₁, as = pre ++ post₁ := by
    intro as post a heq
    rcases List.eq_nil_or_concat' post with rfl | ⟨post₁, b, rfl⟩
    · exact Or.inl (by rw [heq, List.append_nil])
    · rw [← List.append_assoc] at heq
      exact Or.inr ⟨post₁, (List.append_inj' heq rfl).1⟩
  induction h generalizing post with
  | nil =>
    obtain ⟨rfl, rfl⟩ := List.append_eq_nil_iff.mp heq.symm
    exact ⟨[], [], rfl, .nil⟩
  | @deliver calls calls' m m' h hevent now now' ih =>
    rcases hlast heq with rfl | ⟨post₁, hpre⟩
    · exact ⟨_, [], (List.append_nil _).symm, h.deliver hevent now now'⟩
    · obtain ⟨pre', post', rfl, hpre'⟩ := ih post₁ hpre
      exact ⟨pre', _, List.append_assoc _ _ _, hpre'⟩
  | take h ih =>
    rcases hlast heq with rfl | ⟨post₁, hpre⟩
    · exact ⟨_, [], (List.append_nil _).symm, h.take⟩
    · obtain ⟨pre', post', rfl, hpre'⟩ := ih post₁ hpre
      exact ⟨pre', _, List.append_assoc _ _ _, hpre'⟩
  | copy h hbefore hevent now' ih =>
    obtain ⟨pre', post', rfl, hpre'⟩ := ih post heq
    exact ⟨pre', _, List.append_assoc _ _ _, hpre'⟩

/-- From any state, further copies of delivered events change neither the clocks nor a window
that a take returns, after the last call and after every call before it. -/
theorem redelivery_idempotent (ps : PartitionState) {calls calls' : List Call}
    (h : Redelivers calls calls') {s t : Ledger} (hs : Run step free (ofState ps) calls s)
    (ht : Run step free (ofState ps) calls' t) :
    s.SameAnswers t ∧
    ∀ pre post u, calls = pre ++ post → Run step free (ofState ps) pre u →
      ∃ pre' post' u', calls' = pre' ++ post' ∧ Redelivers pre pre' ∧
        Run step free (ofState ps) pre' u' ∧ u.SameAnswers u' := by
  refine ⟨(redelivered_of_runs ps h hs ht).sameAnswers, ?_⟩
  intro pre post u heq hu
  obtain ⟨pre', post', rfl, hpre⟩ := exists_prefix_of_redelivers h post heq
  obtain ⟨u', hu', _⟩ := ht.split
  exact ⟨pre', post', u', rfl, hpre, hu', (redelivered_of_runs ps hpre hu hu').sameAnswers⟩

def early (offset : Nat) : Message := ⟨offset, evt 1000000000 1 "u1"⟩

def closing (offset : Nat) : Message := ⟨offset, evt 95000000000 2 "u2"⟩

def callsOnce : List Call :=
  [.processEvent (early 0) 0, .processEvent (closing 1) 0, .takeClosedWindows]

/-- The first event comes again while its window is open and after it was handed out. -/
def callsAgain : List Call :=
  [.processEvent (early 0) 0, .processEvent (early 1) 0, .processEvent (closing 2) 0,
    .takeClosedWindows, .processEvent (early 3) 0]

theorem redelivers_callsAgain : Redelivers callsOnce callsAgain := by
  have hfirst := @Redelivers.deliver _ _ (early 0) (early 0) .nil rfl 0 0
  have hcopy := @Redelivers.copy _ _ (early 0) (early 1) 0 hfirst (List.mem_singleton.mpr rfl) rfl 0
  have hclosed := (@Redelivers.deliver _ _ (closing 1) (closing 2) hcopy rfl 0 0).take
  exact @Redelivers.copy _ _ (early 0) (early 3) 0 hclosed (List.mem_cons_self ..) rfl 0

theorem redelivery_idempotent_callsAgain :
    ∃ s t, Run step free (ofState (.resumeFrom 0 0 (-1000000000) 0)) callsOnce s ∧
      Run step free (ofState (.resumeFrom 0 0 (-1000000000) 0)) callsAgain t ∧
      s.returned.flatten.map Prod.fst = [0] ∧ s.SameAnswers t := by
  have honce : ∃ s, Run step free (ofState (.resumeFrom 0 0 (-1000000000) 0)) callsOnce s ∧
      s.returned.flatten.map Prod.fst = [0] := ⟨_, run_of_execute rfl, by decide⟩
  have hagain : ∃ t, Run step free (ofState (.resumeFrom 0 0 (-1000000000) 0)) callsAgain t :=
    ⟨_, run_of_execute rfl⟩
  obtain ⟨s, hs, hreturned⟩ := honce
  obtain ⟨t, ht⟩ := hagain
  exact ⟨s, t, hs, ht, hreturned,
    (redelivery_idempotent _ redelivers_callsAgain hs ht).1⟩

end Ledger

end HushEngine
