import Mathlib.Data.List.Basic

/-!
Guarded executions of a partial step function. A run lists its actions; the
guard must hold at every action in the state where it is taken, so a schedule
restriction, an environment assumption and a side condition are all guards.
An invariant is proved for one step and carried to every run here, once.
-/
namespace HushEngine.Runs

variable {S A : Type*}

/-- The actions lead from the first state to the last under the guard. -/
inductive Run (step : S → A → Option S) (guard : S → A → Prop) : S → List A → S → Prop
  | nil (s : S) : Run step guard s [] s
  | cons {s t u : S} {a : A} {as : List A} (hguard : guard s a) (hstep : step s a = some t)
      (hrest : Run step guard t as u) : Run step guard s (a :: as) u

variable {step : S → A → Option S} {guard : S → A → Prop}

/-- The guard of a schedule that may do anything the steps allow. -/
def free (_ : S) (_ : A) : Prop := True

instance (s : S) (a : A) : Decidable (free s a) := inferInstanceAs (Decidable True)

namespace Run

/-- What one guarded step preserves, a whole run preserves. -/
theorem invariant {inv : S → Prop}
    (hinv : ∀ s a t, inv s → guard s a → step s a = some t → inv t)
    {s u : S} {as : List A} (h : Run step guard s as u) (hs : inv s) : inv u := by
  induction h with
  | nil => exact hs
  | cons hguard hstep _ ih => exact ih (hinv _ _ _ hs hguard hstep)

/-- A reflexive and transitive relation that every step satisfies links the ends of a run. -/
theorem related {inv : S → Prop} {r : S → S → Prop} (hrefl : ∀ s, r s s)
    (htrans : ∀ s t u, r s t → r t u → r s u)
    (hinv : ∀ s a t, inv s → guard s a → step s a = some t → inv t)
    (hstep : ∀ s a t, inv s → guard s a → step s a = some t → r s t)
    {s u : S} {as : List A} (h : Run step guard s as u) (hs : inv s) : r s u := by
  induction h with
  | nil => exact hrefl _
  | cons hguard hs' _ ih =>
    exact htrans _ _ _ (hstep _ _ _ hs hguard hs') (ih (hinv _ _ _ hs hguard hs'))

theorem append {s t u : S} {as bs : List A} (h : Run step guard s as t)
    (h' : Run step guard t bs u) : Run step guard s (as ++ bs) u := by
  induction h with
  | nil => exact h'
  | cons hg hs _ ih => exact .cons hg hs (ih h')

theorem split {s u : S} {as bs : List A} (h : Run step guard s (as ++ bs) u) :
    ∃ t, Run step guard s as t ∧ Run step guard t bs u := by
  induction as generalizing s with
  | nil => exact ⟨s, .nil s, h⟩
  | cons a as ih =>
    cases h with
    | cons hg hs hrest =>
      obtain ⟨t, hleft, hright⟩ := ih hrest
      exact ⟨t, .cons hg hs hleft, hright⟩

/-- The step function leaves a run no choice but its actions. -/
theorem deterministic {guard' : S → A → Prop} {s t u : S} {as : List A}
    (h : Run step guard s as t) (h' : Run step guard' s as u) : t = u := by
  induction h with
  | nil => cases h'; rfl
  | cons _ hs _ ih =>
    cases h' with
    | cons _ hs' hrest =>
      have heq := Option.some.inj (hs.symm.trans hs')
      subst heq
      exact ih hrest

/-- The guard holds at every step of a run as soon as it holds wherever the run arrives. -/
theorem strengthen {guard' : S → A → Prop} {s u : S} {as : List A}
    (h : Run step guard s as u)
    (hguard : ∀ pre a post t t', as = pre ++ a :: post → Run step guard s pre t →
      guard t a → step t a = some t' → guard' t a) :
    Run step guard' s as u := by
  induction h with
  | nil s => exact .nil s
  | @cons s t u a as hg hs hrest ih =>
    refine .cons (hguard [] a as s t rfl (.nil s) hg hs) hs (ih ?_)
    intro pre b post v v' heq hpre hb hv
    exact hguard (a :: pre) b post v v' (by rw [heq, List.cons_append])
      (.cons hg hs hpre) hb hv

/-- Every step of a run happens in a state the run reaches. -/
theorem guard_at {s u : S} {pre post : List A} {a : A}
    (h : Run step guard s (pre ++ a :: post) u) :
    ∃ t t', Run step guard s pre t ∧ guard t a ∧ step t a = some t' ∧
      Run step guard t' post u := by
  obtain ⟨t, hpre, hrest⟩ := h.split
  cases hrest with
  | cons hg hs hpost => exact ⟨t, _, hpre, hg, hs, hpost⟩

/-- A run is matched by a run of another system if each of its steps is matched there by one step
or by none. -/
theorem simulate {T B : Type*} {step' : T → B → Option T} {guard' : T → B → Prop}
    {r : S → T → Prop}
    (hsim : ∀ s a s' t, r s t → guard s a → step s a = some s' →
      r s' t ∨ ∃ b t', guard' t b ∧ step' t b = some t' ∧ r s' t')
    {s u : S} {as : List A} (h : Run step guard s as u) {t : T} (hst : r s t) :
    ∃ bs v, Run step' guard' t bs v ∧ r u v := by
  induction h generalizing t with
  | nil => exact ⟨[], t, .nil t, hst⟩
  | cons hguard hstep _ ih =>
    rcases hsim _ _ _ _ hst hguard hstep with hstays | ⟨b, t', hguard', hstep', hst'⟩
    · exact ih hstays
    · obtain ⟨bs, v, hrun, hv⟩ := ih hst'
      exact ⟨b :: bs, v, .cons hguard' hstep' hrun, hv⟩

section Image

variable {T B : Type*} {step' : T → B → Option T} {f : S → T} {g : A → B}

/-- A map of states that commutes with every step carries runs to runs. -/
theorem image (hstep : ∀ s a, step' (f s) (g a) = (step s a).map f) {s u : S} {as : List A}
    (h : Run step guard s as u) : Run step' free (f s) (as.map g) (f u) := by
  induction h with
  | nil => exact .nil _
  | cons _ hs _ ih => exact .cons trivial (by rw [hstep, hs, Option.map_some]) ih

/-- Every run between images is the image of a run. -/
theorem of_image (hstep : ∀ s a, step' (f s) (g a) = (step s a).map f) {s : S} {v : T}
    {as : List A} (h : Run step' free (f s) (as.map g) v) :
    ∃ u, Run step free s as u ∧ f u = v := by
  induction as generalizing s with
  | nil =>
    cases h
    exact ⟨s, .nil s, rfl⟩
  | cons a as ih =>
    rw [List.map_cons] at h
    cases h with
    | cons _ hs hrest =>
      rw [hstep] at hs
      obtain ⟨t, ht, rfl⟩ := Option.map_eq_some_iff.mp hs
      obtain ⟨u, hrun, hu⟩ := ih hrest
      exact ⟨u, .cons trivial ht hrun, hu⟩

end Image

end Run

/-- Executes the actions in order, or fails at the first one that is not enabled. -/
def execute (step : S → A → Option S) (guard : S → A → Prop) [∀ s a, Decidable (guard s a)] :
    S → List A → Option S
  | s, [] => some s
  | s, a :: as =>
    if guard s a then (step s a).bind fun t => execute step guard t as else none

theorem run_of_execute [∀ s a, Decidable (guard s a)] {s u : S} {as : List A}
    (h : execute step guard s as = some u) : Run step guard s as u := by
  induction as generalizing s with
  | nil =>
    cases h
    exact .nil _
  | cons a as ih =>
    simp only [execute] at h
    split_ifs at h with hguard
    obtain ⟨t, hs, hrest⟩ := Option.bind_eq_some_iff.mp h
    exact .cons hguard hs (ih hrest)

end HushEngine.Runs
