import HushEngine.Mixing
import HushEngine.Sketch

/-!
The hash of the sketch. The finalizer is a chain of shifts and odd multipliers
and loses nothing, and neither does a step of the hash before it, so two byte
strings of one length that differ in one byte never share a hash.
-/
namespace HushEngine

open Mixing

/-- One byte of the hash before the finalizer. -/
def hashStep (hash : UInt64) (b : UInt8) : UInt64 := (hash ^^^ b.toUInt64) * hashPrime

theorem hashItem_eq (bytes : List UInt8) :
    hashItem bytes = fmix64 (bytes.foldl hashStep hashSeed) := rfl

theorem toBitVec_fmix64 (k : UInt64) : (fmix64 k).toBitVec =
    xorShift 33 (xorShift 33 (xorShift 33 k.toBitVec * 0xff51afd7ed558ccd) *
      0xc4ceb9fe1a85ec53) := rfl

theorem fmix64_injective : Function.Injective fmix64 := by
  have hshift : Function.Injective (xorShift 33 : BitVec 64 → BitVec 64) :=
    xorShift_injective (by decide)
  have hfirst : Function.Injective fun x : BitVec 64 => x * 0xff51afd7ed558ccd :=
    mul_injective_of_odd (by decide)
  have hsecond : Function.Injective fun x : BitVec 64 => x * 0xc4ceb9fe1a85ec53 :=
    mul_injective_of_odd (by decide)
  intro k l h
  have hbits := congrArg UInt64.toBitVec h
  rw [toBitVec_fmix64, toBitVec_fmix64] at hbits
  exact UInt64.toBitVec_inj.mp (hshift (hfirst (hshift (hsecond (hshift hbits)))))

theorem mul_hashPrime_injective : Function.Injective fun hash : UInt64 => hash * hashPrime := by
  have hodd : hashPrime.toBitVec.toNat % 2 = 1 := by decide
  intro x y h
  have hbits := congrArg UInt64.toBitVec h
  exact UInt64.toBitVec_inj.mp (mul_injective_of_odd hodd hbits)

/-- A step loses neither the hash so far nor the byte. -/
theorem separating_hashStep : Separating hashStep where
  state b := by
    intro x y h
    exact (UInt64.xor_left_inj b.toUInt64).mp (mul_hashPrime_injective h)
  input hash := by
    intro b c h
    exact UInt8.toUInt64_inj.mp ((UInt64.xor_right_inj hash).mp (mul_hashPrime_injective h))

/-- The finalizer is injective, and byte strings of one length that differ at exactly one position
have different hashes. -/
theorem hash_separates_one_byte :
    Function.Injective fmix64 ∧
      ∀ xs ys : List UInt8, xs.length = ys.length → (∃! i : Nat, xs[i]? ≠ ys[i]?) →
        hashItem xs ≠ hashItem ys := by
  refine ⟨fmix64_injective, ?_⟩
  intro xs ys hlen hone
  rw [hashItem_eq, hashItem_eq]
  exact fmix64_injective.ne (separating_hashStep.foldl_ne hlen hone hashSeed)

/-- The bytes of `user-0`. -/
def userZero : List UInt8 := [0x75, 0x73, 0x65, 0x72, 0x2d, 0x30]

/-- The bytes of `user-1`. -/
def userOne : List UInt8 := [0x75, 0x73, 0x65, 0x72, 0x2d, 0x31]

theorem hash_separates_userZero : hashItem userZero ≠ hashItem userOne := by
  refine hash_separates_one_byte.2 userZero userOne rfl ⟨5, by decide, ?_⟩
  intro i hi
  by_contra hne
  rcases Nat.lt_or_ge i 6 with hlt | hge
  · have hsame : ∀ j < 6, j ≠ 5 → userZero[j]? = userOne[j]? := by decide
    exact hi (hsame i hlt hne)
  · exact hi (by rw [List.getElem?_eq_none hge, List.getElem?_eq_none hge])

end HushEngine
