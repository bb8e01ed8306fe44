import HushEngine.Fleet
import HushEngine.FlushedRows

/-!
When a served window is final. Completeness is a minimum over the progress rows
that exist; a partition that has none yet is not part of it. The partitions
that have a row keep every complete window as it is, so finality fails exactly
when a first flush writes a window that ends by the minimum of the others.
-/
namespace HushEngine

open Keyed Runs

/-- Windows judged complete stay complete, with the rows they have. -/
def Db.Final (u v : Db) : Prop :=
  ∀ w, Aligned w → u.windowComplete w = true → v.windowComplete w = true ∧
    ∀ k : AggKey, k.windowStart = w → v.aggCells.lookup k = u.aggCells.lookup k

theorem Db.Final.refl (u : Db) : u.Final u := fun _ _ hw => ⟨hw, fun _ _ => rfl⟩

theorem Db.Final.trans {u v x : Db} (h : u.Final v) (h' : v.Final x) : u.Final x := by
  intro w hw hcomplete
  obtain ⟨hv, hrows⟩ := h w hw hcomplete
  obtain ⟨hx, hrows'⟩ := h' w hw hv
  exact ⟨hx, fun k hk => (hrows' k hk).trans (hrows k hk)⟩

/-- A partition's flush writes windows that end after the minimum watermark, unless the
partition already takes part in the minimum. -/
def Batch.EntersAfterMin (b : Batch) (db : Db) (partition : Int) : Prop :=
  db.loadProgress partition = none → ∀ t, db.minFlushedWatermark = some t →
    ∀ c ∈ b.closed, t < windowEnd c.1

/-- A flush that enters after the minimum keeps complete windows complete and writes none of
them. -/
theorem Batch.Fits.complete_flush {b : Batch} {db : Db} {partition : Int}
    (h : b.Fits (db.loadProgress partition)) (henters : b.EntersAfterMin db partition) {w : Int}
    (hcomplete : db.windowComplete w = true) :
    (b.flush db partition).windowComplete w = true ∧ w ∉ b.closed.map Prod.fst := by
  obtain ⟨⟨q, pq, hq⟩, hall⟩ := (db.windowComplete_iff w).mp hcomplete
  have hmin : db.loadProgress partition = none → ∀ c ∈ b.closed, windowEnd w < windowEnd c.1 := by
    intro hnone c hc
    cases ht : db.minFlushedWatermark with
    | none => simp [(db.minFlushedWatermark_eq_none_iff).mp ht q] at hq
    | some t =>
      obtain ⟨⟨r, pr, hr, rfl⟩, _⟩ := (db.minFlushedWatermark_eq_some_iff t).mp ht
      exact (hall r pr hr).trans_lt (henters hnone _ ht c hc)
  constructor
  · rw [Db.windowComplete_iff]
    refine ⟨⟨partition, _, b.flush_loadProgress db partition⟩, fun r pr hr => ?_⟩
    by_cases hp : r = partition
    · subst hp
      rw [Batch.flush_loadProgress] at hr
      cases hr
      cases hload : db.loadProgress r with
      | some old => exact (hall r old hload).trans (h.progress old hload).2
      | none =>
        obtain ⟨c, hc⟩ := List.exists_mem_of_ne_nil _ h.nonempty
        exact (hmin hload c hc).le.trans (h.closed_end c hc)
    · rw [(b.samePartition_flush db hp).progress] at hr
      exact hall r pr hr
  · intro hmem
    obtain ⟨c, hc, rfl⟩ := List.mem_map.mp hmem
    cases hload : db.loadProgress partition with
    | some old =>
      exact absurd (hall partition old hload) (not_le.mpr (h.closed_after old hload c hc))
    | none => exact lt_irrefl _ (hmin hload c hc)

theorem Batch.Fits.final_flush {b : Batch} {db : Db} {partition : Int}
    (h : b.Fits (db.loadProgress partition)) (henters : b.EntersAfterMin db partition) :
    db.Final (b.flush db partition) := by
  intro w _ hcomplete
  obtain ⟨hstays, hnot⟩ := h.complete_flush henters hcomplete
  refine ⟨hstays, fun k hk => Db.flushWindows_lookup_of_not_mem _ _ _ _ _ k fun _ => ?_⟩
  rwa [hk]

namespace Fleet

/-- The commits of a schedule in which first flushes come after the minimum. -/
def EntersAfterMin (s : Fleet) (a : FleetAction) : Prop :=
  ∀ p w b, a = .act p .commit → s.owners.lookup p = some w → w.batch = some b →
    b.EntersAfterMin s.db p

instance (b : Batch) (db : Db) (p : Int) : Decidable (b.EntersAfterMin db p) :=
  inferInstanceAs (Decidable (db.loadProgress p = none → ∀ t ∈ db.minFlushedWatermark,
    ∀ c ∈ b.closed, t < windowEnd c.1))

theorem entersAfterMin_iff (s : Fleet) (a : FleetAction) :
    s.EntersAfterMin a ↔ ∀ r ∈ rows s.owners, a = .act r.1 .commit →
      ∀ b ∈ r.2.batch, b.EntersAfterMin s.db r.1 := by
  constructor
  · intro h r hr ha b hb
    exact h r.1 r.2 b ha ((mem_rows _ _ _).mp hr) hb
  · intro h p w b ha hw hb
    exact h (p, w) ((mem_rows _ _ _).mpr hw) ha b hb

instance (s : Fleet) (a : FleetAction) : Decidable (s.EntersAfterMin a) :=
  decidable_of_iff' _ (entersAfterMin_iff s a)

theorem final_step {s t : Fleet} {a : FleetAction} (hs : s.Steady) (hguard : s.EntersAfterMin a)
    (hstep : Fleet.step s a = some t) : s.db.Final t.db := by
  cases a with
  | start p hllEnabled now nowUtc =>
    obtain ⟨_, rfl⟩ := step_start hstep
    exact .refl _
  | act p a =>
    obtain ⟨w, o, hw, ho, rfl⟩ := step_act hstep
    rcases Owner.step_db ho with hdb | ⟨rfl, b, hb, hdb⟩ <;> rw [advance_db, hdb]
    · exact .refl _
    · exact ((hs p w hw).fits b hb).final_flush (hguard p w b rfl hw hb)

/-- A first flush of a window that ends by the minimum changes a complete window. -/
theorem not_final_of_commit {s t : Fleet} {p : Int} {w : Worker} {b : Batch} (hs : s.Sound)
    (hw : s.owners.lookup p = some w) (hb : w.batch = some b)
    (henters : ¬ b.EntersAfterMin s.db p) (hstep : Fleet.step s (.act p .commit) = some t) :
    ¬ s.db.Final t.db := by
  intro hfinal
  unfold Batch.EntersAfterMin at henters
  push Not at henters
  obtain ⟨hnone, min, hmin, c, hc, hle⟩ := henters
  obtain ⟨w', o, hw', ho, rfl⟩ := step_act hstep
  rw [hw] at hw'
  cases hw'
  obtain ⟨b', hb', rfl⟩ := Owner.step_commit ho
  have hbb : b' = b := Option.some.inj (hb'.symm.trans hb)
  subst hbb
  have hfits := (hs.steady p w hw).fits b' hb
  have hcomplete : s.db.windowComplete c.1 = true := by
    obtain ⟨⟨q, pq, hq, rfl⟩, hall⟩ := (s.db.minFlushedWatermark_eq_some_iff min).mp hmin
    exact (s.db.windowComplete_iff c.1).mpr
      ⟨⟨q, pq, hq⟩, fun r pr hr => hle.trans (hall r pr hr)⟩
  have hdurable := hfits.durable_flush_of_mem (List.mem_map.mpr ⟨c, hc, rfl⟩)
  have hsame := (hfinal c.1 (hfits.closed_aligned c hc) hcomplete).2
    ⟨c.1, CellKey.global, p⟩ rfl
  have hbefore : s.db.Durable p c.1 := by
    unfold Db.Durable at hdurable ⊢
    rw [← hsame]
    exact hdurable
  obtain ⟨pr, hpr, _⟩ := (hs.rows p).settled hbefore
  rw [hnone] at hpr
  cases hpr

/-- Served windows are final throughout a run if every first flush writes only windows that end
after the minimum watermark; and only if, unless the tables began with rows of windows that their
partition had not settled. -/
theorem served_windows_final (db : Db) (actions : List FleetAction) (s : Fleet)
    (hrun : Run step free (idle db) actions s) :
    ((∀ before p after u w b, actions = before ++ .act p .commit :: after →
        Run step free (idle db) before u → u.owners.lookup p = some w → w.batch = some b →
        b.EntersAfterMin u.db p) →
      ∀ before middle after u v, actions = before ++ middle ++ after →
        Run step free (idle db) before u → Run step free u middle v → u.db.Final v.db) ∧
    ((∀ p, db.RowsCovered p) →
      (∀ before middle after u v, actions = before ++ middle ++ after →
        Run step free (idle db) before u → Run step free u middle v → u.db.Final v.db) →
      ∀ before p after u w b, actions = before ++ .act p .commit :: after →
        Run step free (idle db) before u → u.owners.lookup p = some w → w.batch = some b →
        b.EntersAfterMin u.db p) := by
  have hsteady : ∀ {as u}, Run step free (idle db) as u → u.Steady := fun h =>
    h.invariant (fun _ _ _ hx _ hy => hx.step hy) (steady_idle db)
  constructor
  · intro henters before middle after u v hactions hu hv
    have hguarded : Run step EntersAfterMin u middle v := by
      refine hv.strengthen fun pre a post x y hmiddle hx _ _ p w b ha hw hb => ?_
      refine henters (before ++ pre) p (post ++ after) x w b ?_ (hu.append hx) hw hb
      rw [hactions, hmiddle, ha]
      simp
    exact hguarded.related (fun x => Db.Final.refl x.db) (fun _ _ _ h h' => h.trans h')
      (fun _ _ _ hx _ hy => Steady.step hx hy) (fun _ _ _ hx hg hy => final_step hx hg hy)
      (hsteady hu)
  · intro hrows hfinal before p after u w b hactions hu hw hb
    by_contra henters
    have hsound : u.Sound := hu.invariant (fun _ _ _ hx _ hy => Sound.step hx hy)
      ⟨steady_idle db, hrows⟩
    rw [hactions] at hrun
    obtain ⟨x, t, hx, _, hstep, _⟩ := hrun.guard_at
    obtain rfl := hu.deterministic hx
    refine not_final_of_commit hsound hw hb henters hstep ?_
    exact hfinal before [.act p .commit] after u t (by rw [hactions]; simp) hu
      (.cons trivial hstep (.nil _))

/-- Partition 0 flushes the first window before partition 1 has its owner. -/
def earlyPartition : List FleetAction :=
  [.start 0 false 0 0, .act 0 (.deliver ⟨0, evt 1000000000 1 "u1"⟩ 0),
    .act 0 (.deliver ⟨1, evt 95000000000 2 "u1"⟩ 1), .act 0 .collect, .act 0 .commit]

/-- Then partition 1 flushes its part of the same window. -/
def latePartition : List FleetAction :=
  [.start 1 false 2 0, .act 1 (.deliver ⟨0, evt 2000000000 3 "u2"⟩ 2),
    .act 1 (.deliver ⟨1, evt 95000000000 4 "u2"⟩ 3), .act 1 .collect, .act 1 .commit]

theorem complete_window_changed :
    ∃ u v : Fleet, Run step free (idle Db.empty) earlyPartition u ∧
      Run step free u latePartition v ∧ u.db.windowComplete 0 = true ∧
      u.db.aggCells.lookup ⟨0, CellKey.global, 1⟩ = none ∧
      v.db.aggCells.lookup ⟨0, CellKey.global, 1⟩ = some ⟨1, 1, none⟩ :=
  ⟨_, _, run_of_execute rfl, run_of_execute rfl, by decide, by decide, by decide⟩

/-- Partition 1 comes in with the next window. -/
def laterWindow : List FleetAction :=
  [.start 1 false 2 0, .act 1 (.deliver ⟨0, evt 65000000000 3 "u2"⟩ 2),
    .act 1 (.deliver ⟨1, evt 155000000000 4 "u2"⟩ 3), .act 1 .collect, .act 1 .commit]

theorem served_windows_final_laterWindow :
    ∃ s, Run step free (idle Db.empty) (earlyPartition ++ laterWindow) s ∧
      s.db.aggCells.lookup ⟨60000000000, CellKey.global, 1⟩ = some ⟨1, 1, none⟩ ∧
      (∀ before p after u w b, earlyPartition ++ laterWindow = before ++ .act p .commit :: after →
        Run step free (idle Db.empty) before u → u.owners.lookup p = some w → w.batch = some b →
        b.EntersAfterMin u.db p) ∧
      ∀ before middle after u v, earlyPartition ++ laterWindow = before ++ middle ++ after →
        Run step free (idle Db.empty) before u → Run step free u middle v → u.db.Final v.db := by
  have hexec : ∃ s, Run step EntersAfterMin (idle Db.empty) (earlyPartition ++ laterWindow) s ∧
      Run step free (idle Db.empty) (earlyPartition ++ laterWindow) s ∧
      s.db.aggCells.lookup ⟨60000000000, CellKey.global, 1⟩ = some ⟨1, 1, none⟩ :=
    ⟨_, run_of_execute rfl, run_of_execute rfl, by decide⟩
  obtain ⟨s, hguarded, hs, hrow⟩ := hexec
  have henters : ∀ before p after u w b,
      earlyPartition ++ laterWindow = before ++ .act p .commit :: after →
      Run step free (idle Db.empty) before u → u.owners.lookup p = some w → w.batch = some b →
      b.EntersAfterMin u.db p := by
    intro before p after u w b heq hu hw hb
    rw [heq] at hguarded
    obtain ⟨t, _, ht, hguard, _⟩ := hguarded.guard_at
    obtain rfl := hu.deterministic ht
    exact hguard p w b rfl hw hb
  exact ⟨s, hs, hrow, henters, (served_windows_final Db.empty _ s hs).1 henters⟩

end Fleet

end HushEngine
