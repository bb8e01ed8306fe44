import HushEngine.Suppression
import Mathlib.Data.List.Count

/-!
Two answers about related children, or under two thresholds. The hidden
children enter an answer through their two totals and through there being any;
a higher threshold starts the loop further along the same ascending list, and
it stops where the lower one would have stopped or later.
-/
namespace HushEngine

open SortedCut

/-- The children that reach the threshold, in their order. -/
def atLeast (k : UInt64) (children : List RawCell) : List RawCell :=
  children.filter fun c => decide (k ≤ c.users)

theorem smallestFirst_eq (k : UInt64) (children : List RawCell) :
    smallestFirst k children =
      (atLeast k children).insertionSort fun a b => a.users ≤ b.users := by
  have hpred : (fun c : RawCell => !decide (c.users < k)) = fun c => decide (k ≤ c.users) := by
    funext c
    simp [← UInt64.not_lt]
  rw [smallestFirst, atLeast, hpred]

theorem sumBy_eq_ofNat (column : RawCell → UInt64) (cs : List RawCell) :
    sumBy column cs = UInt64.ofNat (natSumBy column cs) := by
  induction cs with
  | nil => rfl
  | cons c cs ih =>
    rw [sumBy, ih, natSumBy_cons, UInt64.ofNat_add, UInt64.ofNat_toNat]

section HiddenTotals

variable {k : UInt64} {cs ds : List RawCell}

theorem hiddenMass_eq_of_totals (parentUsers : UInt64) (hshown : atLeast k cs = atLeast k ds)
    (husers : natSumBy RawCell.users (belowThreshold k cs) =
      natSumBy RawCell.users (belowThreshold k ds)) :
    hiddenMass parentUsers k cs = hiddenMass parentUsers k ds := by
  have hbelow : sumBy RawCell.users (belowThreshold k cs) =
      sumBy RawCell.users (belowThreshold k ds) := by
    rw [sumBy_eq_ofNat, sumBy_eq_ofNat, husers]
  have hall : sumBy RawCell.users cs = sumBy RawCell.users ds := by
    rw [← sum_parts k cs, ← sum_parts k ds, hbelow, smallestFirst_eq, smallestFirst_eq, hshown]
  rw [hiddenMass, hiddenMass, hbelow, hall]

/-- The answer does not depend on the hidden children beyond their two totals and whether there
are any. -/
theorem suppress_eq_of_hidden_totals (parentUsers k : UInt64) (cs ds : List RawCell)
    (hshown : atLeast k cs = atLeast k ds)
    (hempty : belowThreshold k cs = [] ↔ belowThreshold k ds = [])
    (husers : natSumBy RawCell.users (belowThreshold k cs) =
      natSumBy RawCell.users (belowThreshold k ds))
    (hevents : natSumBy RawCell.events (belowThreshold k cs) =
      natSumBy RawCell.events (belowThreshold k ds)) :
    suppress parentUsers cs k = suppress parentUsers ds k := by
  obtain ⟨n, hn, hcs⟩ := suppress_eq parentUsers k cs
  obtain ⟨m, hm, hds⟩ := suppress_eq parentUsers k ds
  have hsorted : smallestFirst k cs = smallestFirst k ds := by
    rw [smallestFirst_eq, smallestFirst_eq, hshown]
  -- the loops start from the same mass on the same list, so they pull the same children
  rw [hiddenMass_eq_of_totals parentUsers hshown husers, hsorted] at hn hcs
  obtain rfl := hn.unique hm
  have hother : sumBy RawCell.events (belowThreshold k cs ++ (smallestFirst k ds).take n) =
      sumBy RawCell.events (belowThreshold k ds ++ (smallestFirst k ds).take n) := by
    rw [sumBy_append, sumBy_append, sumBy_eq_ofNat, hevents, ← sumBy_eq_ofNat]
  have hnil : belowThreshold k cs ++ (smallestFirst k ds).take n ≠ [] ↔
      belowThreshold k ds ++ (smallestFirst k ds).take n ≠ [] := by
    rw [ne_eq, ne_eq, List.append_eq_nil_iff, List.append_eq_nil_iff, hempty]
  rw [hcs, hds, hother]
  simp only [hnil]

/-- Three hidden children or two, of seven users and fifteen events together. -/
theorem suppress_eq_of_hidden_totals_seven :
    suppress 30 [⟨"f", "a", 0, 9, 3⟩, ⟨"f", "b", 0, 40, 12⟩, ⟨"f", "c", 0, 5, 3⟩,
        ⟨"f", "d", 0, 1, 1⟩] 10 =
      suppress 30 [⟨"f", "b", 0, 40, 12⟩, ⟨"f", "x", 0, 6, 6⟩, ⟨"f", "y", 0, 9, 1⟩] 10 :=
  suppress_eq_of_hidden_totals 30 10 _ _ (by decide) (by decide) (by decide) (by decide)

end HiddenTotals

section Monotone

variable {parentUsers k k₁ k₂ : UInt64} {children : List RawCell}

/-- The visible rows of an answer are the children the loop leaves, each as often. -/
theorem count_toVisible_suppress {n : Nat}
    (hstops : StopsAt k (hiddenMass parentUsers k children)
      ((smallestFirst k children).map RawCell.users) n) (c : RawCell) :
    (suppress parentUsers children k).count c.toVisible =
      ((smallestFirst k children).drop n).count c := by
  obtain ⟨m, hm, heq⟩ := suppress_eq parentUsers k children
  obtain rfl := hm.unique hstops
  have hinj : Function.Injective RawCell.toVisible := by
    intro a b hab
    cases a
    cases b
    cases hab
    rfl
  have hother : ∀ (p : Prop) [Decidable p] (events users : UInt64),
      (if p then [ResultCell.other events users] else []).count c.toVisible = 0 := by
    intro p _ events users
    apply List.count_eq_zero.mpr
    split_ifs <;> simp [RawCell.toVisible]
  rw [heq, List.count_append, hother, Nat.add_zero, List.count_map_of_injective _ _ hinj]

/-- Under a higher threshold the loop runs on a final part of the same ascending list. -/
theorem smallestFirst_suffix (hk : k₁ ≤ k₂) (children : List RawCell) :
    smallestFirst k₂ children <:+ smallestFirst k₁ children := by
  have hselect : atLeast k₂ children =
      (atLeast k₁ children).filter fun c => decide (k₂.toNat ≤ c.users.toNat) := by
    rw [atLeast, atLeast, List.filter_filter]
    apply List.filter_congr
    intro c _
    have hle := UInt64.le_iff_toNat_le.mp hk
    simp only [UInt64.le_iff_toNat_le, ← Bool.decide_and]
    apply decide_eq_decide.mpr
    omega
  have hfilter : smallestFirst k₂ children =
      (smallestFirst k₁ children).filter fun c => decide (k₂.toNat ≤ c.users.toNat) := by
    rw [smallestFirst_eq, smallestFirst_eq, hselect, filter_insertionSort]
  rw [hfilter]
  exact (sortedBy_smallestFirst k₁ children).filter_le_suffix k₂.toNat

/-- The loop under the higher threshold does not leave more children: what it leaves is reached by
the other loop with the same mass, at which that one stops. -/
theorem length_drop_le (hk : k₁ ≤ k₂) (hfits : natSumBy RawCell.users children < 2 ^ 64)
    {n₁ n₂ : Nat}
    (hstops₁ : StopsAt k₁ (hiddenMass parentUsers k₁ children)
      ((smallestFirst k₁ children).map RawCell.users) n₁)
    (hstops₂ : StopsAt k₂ (hiddenMass parentUsers k₂ children)
      ((smallestFirst k₂ children).map RawCell.users) n₂)
    (hsuffix : (smallestFirst k₂ children).drop n₂ <:+ smallestFirst k₁ children) :
    ((smallestFirst k₂ children).drop n₂).length ≤
      ((smallestFirst k₁ children).drop n₁).length := by
  by_contra hmore
  have hdrop := List.suffix_iff_eq_drop.mp hsuffix
  have hlength := hsuffix.length_le
  have hmass₂ := toNat_massAfter parentUsers k₂ hfits n₂
  have hstop := hstops₂.stop
  rw [List.length_map] at hstop
  rw [List.length_drop, List.length_drop] at hmore
  rw [List.length_drop] at hdrop hlength
  -- the lower loop passes the position from which the higher one leaves the children
  obtain ⟨i, hi⟩ : ∃ i, i = (smallestFirst k₁ children).length -
    ((smallestFirst k₂ children).length - n₂) := ⟨_, rfl⟩
  rw [← hi] at hdrop
  have hmass₁ := toNat_massAfter parentUsers k₁ hfits i
  obtain ⟨hpos, hlt⟩ := between_iff.mp (hstops₁.before i (by omega))
  rw [← hdrop] at hmass₁
  have hk' := UInt64.le_iff_toNat_le.mp hk
  exact hstop (by omega) (between_iff.mpr ⟨by omega, by omega⟩)

/-- Raising the threshold does not make a row visible, nor one more copy of it. -/
theorem visible_mono (parentUsers : UInt64) (children : List RawCell) (hk : k₁ ≤ k₂)
    (hfits : natSumBy RawCell.users children < 2 ^ 64) (c : RawCell) :
    (suppress parentUsers children k₂).count c.toVisible ≤
      (suppress parentUsers children k₁).count c.toVisible := by
  obtain ⟨n₁, hstops₁, _⟩ := suppress_eq parentUsers k₁ children
  obtain ⟨n₂, hstops₂, _⟩ := suppress_eq parentUsers k₂ children
  rw [count_toVisible_suppress hstops₁, count_toVisible_suppress hstops₂]
  have hsuffix : (smallestFirst k₂ children).drop n₂ <:+ smallestFirst k₁ children :=
    (List.drop_suffix _ _).trans (smallestFirst_suffix hk children)
  have hle := length_drop_le hk hfits hstops₁ hstops₂ hsuffix
  have hshown := List.suffix_of_suffix_length_le hsuffix (List.drop_suffix _ _) hle
  exact hshown.sublist.count_le _

/-- Under 20 the largest child is pulled in as well, under 10 it is not. -/
theorem visible_mono_twenty :
    suppress 40 oneSmallChild 10 = [.visible "f" "c" 0 50 23, .other 39 17] ∧
      suppress 40 oneSmallChild 20 = [.other 89 40] ∧
      ∀ c : RawCell, (suppress 40 oneSmallChild 20).count c.toVisible ≤
        (suppress 40 oneSmallChild 10).count c.toVisible :=
  ⟨by decide, by decide, visible_mono 40 oneSmallChild (by decide) (by decide)⟩

end Monotone

end HushEngine
