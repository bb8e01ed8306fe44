import Mathlib.Data.Nat.ModEq
import Mathlib.Data.Nat.Prime.Basic

/-!
Rounds of a hash that lose nothing. Mixing a word with its own upper part and
multiplying it by an odd number are injective, whatever the width. A step that
is injective in the state and in the input separates inputs of one length that
differ at one position: what comes after the difference cannot undo it.
-/
namespace HushEngine.Mixing

section Words

variable {w : Nat}

/-- The word with its upper bits mixed into its lower ones. -/
def xorShift (s : Nat) (x : BitVec w) : BitVec w := x ^^^ (x >>> s)

/-- Only the zero word stays the same when it is shifted. -/
theorem eq_zero_of_eq_shift {s : Nat} (hs : 0 < s) {x : BitVec w} (h : x = x >>> s) : x = 0#w := by
  have hdiv : x.toNat = x.toNat / 2 ^ s := by
    conv_lhs => rw [h]
    rw [BitVec.toNat_ushiftRight, Nat.shiftRight_eq_div_pow]
  apply BitVec.eq_of_toNat_eq
  by_contra hne
  have hpos : 0 < x.toNat := Nat.pos_of_ne_zero hne
  have hlt : x.toNat / 2 ^ s < x.toNat := Nat.div_lt_self hpos (Nat.one_lt_two_pow (by omega))
  omega

theorem xorShift_xor (s : Nat) (x y : BitVec w) :
    xorShift s (x ^^^ y) = xorShift s x ^^^ xorShift s y := by
  unfold xorShift
  rw [BitVec.ushiftRight_xor_distrib]
  ac_rfl

theorem xorShift_injective {s : Nat} (hs : 0 < s) :
    Function.Injective (xorShift s : BitVec w → BitVec w) := by
  intro x y h
  have hzero : xorShift s (x ^^^ y) = 0#w := by rw [xorShift_xor, h, BitVec.xor_self]
  -- the difference of two words with one image is its own shift
  have hshift : x ^^^ y = (x ^^^ y) >>> s := BitVec.xor_eq_zero_iff.mp hzero
  exact BitVec.xor_eq_zero_iff.mp (eq_zero_of_eq_shift hs hshift)

theorem mul_injective_of_odd {m : BitVec w} (hm : m.toNat % 2 = 1) :
    Function.Injective fun x : BitVec w => x * m := by
  intro x y h
  have hmod : x.toNat * m.toNat ≡ y.toNat * m.toNat [MOD 2 ^ w] := by
    have hmul := congrArg BitVec.toNat h
    rwa [BitVec.toNat_mul, BitVec.toNat_mul] at hmul
  have hcoprime : Nat.gcd (2 ^ w) m.toNat = 1 :=
    Nat.Coprime.pow_left w (Nat.coprime_two_left.mpr (Nat.odd_iff.mpr hm))
  have hxy := Nat.ModEq.cancel_right_of_coprime hcoprime hmod
  exact BitVec.eq_of_toNat_eq (hxy.eq_of_lt_of_lt x.isLt y.isLt)

end Words

section Folds

variable {S A : Type*} {step : S → A → S}

/-- Neither the state nor the input is lost in a step. -/
structure Separating (step : S → A → S) : Prop where
  state : ∀ a, Function.Injective fun s => step s a
  input : ∀ s, Function.Injective (step s)

theorem Separating.foldl_injective (h : Separating step) (as : List A) :
    Function.Injective fun s => as.foldl step s := by
  induction as with
  | nil => exact Function.injective_id
  | cons a as ih => exact ih.comp (h.state a)

/-- Lists of one length that differ at one position are the same before it and after it. -/
theorem exists_parts {as bs : List A} (hlen : as.length = bs.length)
    (hone : ∃! i : Nat, as[i]? ≠ bs[i]?) :
    ∃ before a b after, as = before ++ a :: after ∧ bs = before ++ b :: after ∧ a ≠ b := by
  induction as generalizing bs with
  | nil =>
    obtain ⟨i, hi, _⟩ := hone
    rw [List.eq_nil_of_length_eq_zero hlen.symm] at hi
    exact absurd rfl hi
  | cons a as ih =>
    cases bs with
    | nil => cases hlen
    | cons b bs =>
      obtain ⟨i, hi, hunique⟩ := hone
      cases i with
      | zero =>
        have hsame : as = bs := by
          apply List.ext_getElem?
          intro j
          by_contra hne
          exact absurd (hunique (j + 1) hne) (Nat.succ_ne_zero j)
        exact ⟨[], a, b, as, rfl, by rw [hsame]; rfl, fun heq => hi (congrArg some heq)⟩
      | succ i =>
        have hhead : a = b := by
          by_contra hne
          exact absurd (hunique 0 fun heq => hne (Option.some.inj heq)) (Nat.succ_ne_zero i).symm
        obtain ⟨before, c, d, after, hc, hd, hne⟩ := ih (Nat.succ.inj hlen)
          ⟨i, hi, fun j hj => Nat.succ.inj (hunique (j + 1) hj)⟩
        exact ⟨a :: before, c, d, after, by rw [hc]; rfl, by rw [hd, hhead]; rfl, hne⟩

theorem Separating.foldl_ne (h : Separating step) {as bs : List A}
    (hlen : as.length = bs.length) (hone : ∃! i : Nat, as[i]? ≠ bs[i]?) (s : S) :
    as.foldl step s ≠ bs.foldl step s := by
  obtain ⟨before, a, b, after, rfl, rfl, hne⟩ := exists_parts hlen hone
  rw [List.foldl_append, List.foldl_append, List.foldl_cons, List.foldl_cons]
  intro heq
  exact hne (h.input _ (h.foldl_injective after heq))

end Folds

end HushEngine.Mixing
