import Mathlib.Data.List.Forall2

/-!
Inversion rules for computations that may fail: what a sequence of steps, and
a step made for every element of a list, have done when they return.
-/
namespace HushEngine.Fallible

universe u

variable {ε α β : Type u}

/-- A sequence returns when both steps do. -/
theorem bind_eq_ok {x : Except ε α} {f : α → Except ε β} {b : β} :
    (x >>= f) = .ok b ↔ ∃ a, x = .ok a ∧ f a = .ok b := by
  cases x with
  | error e => simp [bind, Except.bind]
  | ok a => simp [bind, Except.bind]

/-- A step over a list returns the list of what it returned for each element. -/
theorem mapM_eq_ok {f : α → Except ε β} {as : List α} {bs : List β} :
    as.mapM f = .ok bs ↔ List.Forall₂ (fun a b => f a = .ok b) as bs := by
  induction as generalizing bs with
  | nil =>
    rw [List.mapM_nil, List.forall₂_nil_left_iff]
    exact ⟨fun h => by cases h; rfl, fun h => by rw [h]; rfl⟩
  | cons a as ih =>
    rw [List.mapM_cons, bind_eq_ok]
    constructor
    · intro h
      obtain ⟨b, hb, hrest⟩ := h
      obtain ⟨bs', hbs', hcons⟩ := bind_eq_ok.mp hrest
      cases hcons
      exact .cons hb (ih.mp hbs')
    · intro h
      cases h with
      | cons hb hbs => exact ⟨_, hb, bind_eq_ok.mpr ⟨_, ih.mpr hbs, rfl⟩⟩

/-- What a step over a list returned was returned for some element. -/
theorem exists_of_mem_mapM {f : α → Except ε β} {as : List α} {bs : List β} {b : β}
    (h : as.mapM f = .ok bs) (hb : b ∈ bs) : ∃ a ∈ as, f a = .ok b := by
  replace h := mapM_eq_ok.mp h
  induction h with
  | nil => cases hb
  | cons hhead _ ih =>
    rcases List.mem_cons.mp hb with rfl | htail
    · exact ⟨_, List.mem_cons_self .., hhead⟩
    · obtain ⟨a, ha, hf⟩ := ih htail
      exact ⟨a, List.mem_cons_of_mem _ ha, hf⟩

/-- A step over a list returns when it returns for every element. -/
theorem exists_mapM_ok_iff {f : α → Except ε β} {as : List α} :
    (∃ bs, as.mapM f = .ok bs) ↔ ∀ a ∈ as, ∃ b, f a = .ok b := by
  induction as with
  | nil => exact ⟨fun _ a ha => absurd ha List.not_mem_nil, fun _ => ⟨[], rfl⟩⟩
  | cons a as ih =>
    constructor
    · intro h
      obtain ⟨bs, hbs⟩ := h
      cases mapM_eq_ok.mp hbs with
      | cons hb htail =>
        exact List.forall_mem_cons.mpr ⟨⟨_, hb⟩, ih.mp ⟨_, mapM_eq_ok.mpr htail⟩⟩
    · intro h
      obtain ⟨b, hb⟩ := h a (List.mem_cons_self ..)
      obtain ⟨bs, hbs⟩ := ih.mpr fun a' ha' => h a' (List.mem_cons_of_mem _ ha')
      exact ⟨b :: bs, mapM_eq_ok.mpr (.cons hb (mapM_eq_ok.mp hbs))⟩

/-- A fold whose steps return and keep a property returns, and has the property then. -/
theorem exists_foldlM_ok {f : β → α → Except ε β} {p : β → Prop} {as : List α} {b : β}
    (hstep : ∀ a ∈ as, ∀ b, p b → ∃ b', f b a = .ok b' ∧ p b') (hb : p b) :
    ∃ b', as.foldlM f b = .ok b' ∧ p b' := by
  induction as generalizing b with
  | nil => exact ⟨b, rfl, hb⟩
  | cons a as ih =>
    obtain ⟨hhead, htail⟩ := List.forall_mem_cons.mp hstep
    obtain ⟨b', hb', hp⟩ := hhead b hb
    obtain ⟨b'', hb'', hp'⟩ := ih htail hp
    rw [List.foldlM_cons]
    exact ⟨b'', bind_eq_ok.mpr ⟨b', hb', hb''⟩, hp'⟩

end HushEngine.Fallible
