import Mathlib.Algebra.Order.BigOperators.Group.List
import Mathlib.Algebra.Order.Ring.Nat
import Mathlib.Data.List.Dedup

/-!
Sums over the groups of a list. Elements are grouped by a label; summing every
group and then the sums is summing the list, provided each label occurs once.
-/
namespace HushEngine.Grouping

variable {α L : Type*} [DecidableEq L]

/-- The elements under each label, one label after another. -/
def groupOn (label : α → L) (as : List α) : List (L × List α) :=
  (as.map label).dedup.map fun l => (l, as.filter fun a => decide (label a = l))

theorem mem_groupOn {label : α → L} {as : List α} {g : L × List α} :
    g ∈ groupOn label as ↔
      (∃ a ∈ as, label a = g.1) ∧ g.2 = as.filter fun a => decide (label a = g.1) := by
  constructor
  · intro h
    obtain ⟨l, hl, rfl⟩ := List.mem_map.mp h
    obtain ⟨a, ha, rfl⟩ := List.mem_map.mp (List.mem_dedup.mp hl)
    exact ⟨⟨a, ha, rfl⟩, rfl⟩
  · intro h
    obtain ⟨⟨a, ha, hl⟩, hgroup⟩ := h
    have hlabel := List.mem_dedup.mpr (List.mem_map.mpr ⟨a, ha, hl⟩)
    exact List.mem_map.mpr ⟨g.1, hlabel, Prod.ext rfl hgroup.symm⟩

/-- Elements changed under their labels fall into the same groups. -/
theorem groupOn_map (label : α → L) (f : α → α) (hf : ∀ a, label (f a) = label a) (as : List α) :
    groupOn label (as.map f) = (groupOn label as).map fun g => (g.1, g.2.map f) := by
  have hlabels : (as.map f).map label = as.map label := by
    rw [List.map_map]
    exact List.map_congr_left fun a _ => hf a
  rw [groupOn, groupOn, hlabels, List.map_map]
  apply List.map_congr_left
  intro l _
  refine Prod.ext rfl ?_
  dsimp only [Function.comp]
  rw [List.filter_map]
  exact congrArg (List.map f) (List.filter_congr fun a _ => by simp [hf])

/-- An indicator summed over distinct labels counts its label once. -/
theorem sum_indicator {ls : List L} (hnodup : ls.Nodup) {l : L} (hl : l ∈ ls) (n : Nat) :
    (ls.map fun l' => if l = l' then n else 0).sum = n := by
  induction ls with
  | nil => cases hl
  | cons l' ls ih =>
    rw [List.nodup_cons] at hnodup
    rw [List.map_cons, List.sum_cons]
    by_cases heq : l = l'
    · subst heq
      have hzero : (ls.map fun l' => if l = l' then n else 0) = ls.map fun _ => 0 := by
        apply List.map_congr_left
        intro l' hl'
        refine if_neg fun heq => hnodup.1 ?_
        rwa [heq]
      simp [hzero]
    · rw [if_neg heq, Nat.zero_add]
      exact ih hnodup.2 ((List.mem_cons.mp hl).resolve_left heq)

theorem sum_fibers (label : α → L) (value : α → Nat) {ls : List L} (hnodup : ls.Nodup)
    {as : List α} (h : ∀ a ∈ as, label a ∈ ls) :
    (ls.map fun l => ((as.filter fun a => decide (label a = l)).map value).sum).sum =
      (as.map value).sum := by
  induction as with
  | nil => simp
  | cons a as ih =>
    have hsplit : ∀ l, (((a :: as).filter fun a => decide (label a = l)).map value).sum =
        (if label a = l then value a else 0) +
          ((as.filter fun a => decide (label a = l)).map value).sum := by
      intro l
      by_cases hl : label a = l <;> simp [hl]
    simp only [hsplit]
    rw [List.sum_map_add, ih fun b hb => h b (List.mem_cons_of_mem _ hb),
      sum_indicator hnodup (h a (List.mem_cons_self ..)), List.map_cons, List.sum_cons]

theorem sum_groupOn (label : α → L) (value : α → Nat) (as : List α) :
    ((groupOn label as).map fun g => (g.2.map value).sum).sum = (as.map value).sum := by
  rw [groupOn, List.map_map]
  exact sum_fibers label value (List.nodup_dedup _)
    fun a ha => List.mem_dedup.mpr (List.mem_map_of_mem ha)

/-- Two selections that differ only in elements of value zero have the same sum. -/
theorem sum_filter_eq {value : α → Nat} {p q : α → Bool} {as : List α}
    (h : ∀ a ∈ as, p a ≠ q a → value a = 0) :
    ((as.filter p).map value).sum = ((as.filter q).map value).sum := by
  induction as with
  | nil => rfl
  | cons a as ih =>
    have hrest := ih fun b hb => h b (List.mem_cons_of_mem _ hb)
    by_cases heq : p a = q a
    · by_cases hq : q a = true <;> simp [heq, hq, hrest]
    · have hzero := h a (List.mem_cons_self ..) heq
      by_cases hp : p a = true <;> by_cases hq : q a = true <;> simp [hp, hq, hzero, hrest]

/-- One group's sum is at most the whole. -/
theorem sum_group_le {label : α → L} (value : α → Nat) {as : List α} {g : L × List α}
    (hg : g ∈ groupOn label as) : (g.2.map value).sum ≤ (as.map value).sum := by
  rw [← sum_groupOn label value as]
  exact List.single_le_sum (fun _ _ => Nat.zero_le _) _
    (List.mem_map_of_mem (f := fun g => (g.2.map value).sum) hg)

end HushEngine.Grouping
