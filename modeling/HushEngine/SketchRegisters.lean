import HushEngine.Sketch
import Mathlib.Data.UInt

/-!
The registers of a sketch. Inserting raises one register to a rank, merging
takes the larger of two registers at every index, so both only ever raise. A
valid sketch, as `new` builds it and the operations keep it, has a register for
every index that an insertion computes.
-/
namespace HushEngine

/-!
Folding an operation whose order and repetitions do not matter. Such a fold
depends on which elements occur, so any two lists with the same elements give
the same result, however often and in whatever order they have them.
-/
namespace SetFold

variable {S A : Type*}

/-- The order of two operations and the repetition of one do not matter. -/
structure Absorbing (f : S → A → S) : Prop where
  comm : ∀ s a b, f (f s a) b = f (f s b) a
  idem : ∀ s a, f (f s a) a = f s a

variable {f : S → A → S}

theorem Absorbing.foldl_swap (h : Absorbing f) (s : S) (a : A) (l : List A) :
    l.foldl f (f s a) = f (l.foldl f s) a := by
  induction l generalizing s with
  | nil => rfl
  | cons b l ih => rw [List.foldl_cons, List.foldl_cons, h.comm, ih]

/-- An element that occurs in the list can be applied before it without effect. -/
theorem Absorbing.foldl_of_mem (h : Absorbing f) (s : S) {a : A} {l : List A} (ha : a ∈ l) :
    l.foldl f (f s a) = l.foldl f s := by
  induction l generalizing s with
  | nil => cases ha
  | cons b l ih =>
    rw [List.foldl_cons, List.foldl_cons]
    rcases List.mem_cons.mp ha with rfl | hmem
    · rw [h.idem]
    · rw [h.comm, ih _ hmem]

theorem Absorbing.foldl_of_subset (h : Absorbing f) (s : S) {l l' : List A} (hsub : l ⊆ l') :
    l'.foldl f (l.foldl f s) = l'.foldl f s := by
  induction l generalizing s with
  | nil => rfl
  | cons a l ih =>
    obtain ⟨ha, hl⟩ := List.cons_subset.mp hsub
    rw [List.foldl_cons, ih _ hl, h.foldl_of_mem s ha]

theorem Absorbing.foldl_comm (h : Absorbing f) (s : S) (l l' : List A) :
    l'.foldl f (l.foldl f s) = l.foldl f (l'.foldl f s) := by
  induction l generalizing s with
  | nil => rfl
  | cons a l ih => rw [List.foldl_cons, List.foldl_cons, ih, h.foldl_swap]

/-- The result of the fold is determined by the elements that occur. -/
theorem Absorbing.foldl_congr (h : Absorbing f) (s : S) {l l' : List A}
    (hmem : ∀ a, a ∈ l ↔ a ∈ l') : l.foldl f s = l'.foldl f s :=
  calc l.foldl f s = l.foldl f (l'.foldl f s) :=
        (h.foldl_of_subset s fun a ha => (hmem a).mpr ha).symm
    _ = l'.foldl f (l.foldl f s) := h.foldl_comm s l' l
    _ = l'.foldl f s := h.foldl_of_subset s fun a ha => (hmem a).mp ha

end SetFold

/-- The larger of two register values, written as the code compares them. -/
def raise (b r : UInt8) : UInt8 := if b > r then b else r

theorem toNat_raise (b r : UInt8) : (raise b r).toNat = max b.toNat r.toNat := by
  unfold raise
  split_ifs with h
  · exact (max_eq_left (UInt8.lt_iff_toNat_lt.mp h).le).symm
  · exact (max_eq_right (UInt8.le_iff_toNat_le.mp (UInt8.not_lt.mp h))).symm

theorem raise_comm (b c r : UInt8) : raise b (raise c r) = raise c (raise b r) := by
  apply UInt8.toNat_inj.mp
  simp only [toNat_raise]
  omega

theorem raise_idem (b r : UInt8) : raise b (raise b r) = raise b r := by
  apply UInt8.toNat_inj.mp
  simp only [toNat_raise]
  omega

theorem raise_swap (b r : UInt8) : raise b r = raise r b := by
  apply UInt8.toNat_inj.mp
  simp only [toNat_raise]
  omega

theorem raise_raise_raise (b r s : UInt8) : raise (raise b s) r = raise b (raise s r) := by
  apply UInt8.toNat_inj.mp
  simp only [toNat_raise]
  omega

theorem modify_raise_comm (registers : List UInt8) (i j : Nat) (b c : UInt8) :
    (registers.modify i (raise b)).modify j (raise c) =
      (registers.modify j (raise c)).modify i (raise b) := by
  by_cases hij : i = j
  · have hswap : raise c ∘ raise b = raise b ∘ raise c := funext fun r => raise_comm c b r
    rw [hij, List.modify_modify_eq, List.modify_modify_eq, hswap]
  · rw [List.modify_modify_ne _ _ _ hij]

theorem modify_raise_idem (registers : List UInt8) (i : Nat) (b : UInt8) :
    (registers.modify i (raise b)).modify i (raise b) = registers.modify i (raise b) := by
  have hself : raise b ∘ raise b = raise b := funext fun r => raise_idem b r
  rw [List.modify_modify_eq, hself]

namespace HyperLogLog

/-- The register an item is counted in. -/
def indexOf (precision : UInt8) (item : String) : Nat :=
  (hashItem item.toUTF8.data.toList >>> (64 - precision.toUInt32).toUInt64).toNat

def rankOf (precision : UInt8) (item : String) : UInt8 :=
  UInt8.ofNat (min (leadingZeros (hashItem item.toUTF8.data.toList <<<
    precision.toUInt32.toUInt64) + 1) (64 - precision.toUInt32).toNat)

/-- What `new` establishes and `insert` and `merge` keep. -/
structure Valid (h : HyperLogLog) : Prop where
  precision_bounds : 4 ≤ h.precision ∧ h.precision ≤ 16
  length_registers : h.registers.length = 2 ^ h.precision.toNat
  register_le : ∀ r ∈ h.registers, r.toNat ≤ 64 - h.precision.toNat

theorem Valid.toNat_precision {h : HyperLogLog} (hv : h.Valid) :
    4 ≤ h.precision.toNat ∧ h.precision.toNat ≤ 16 :=
  ⟨UInt8.le_iff_toNat_le.mp hv.precision_bounds.1, UInt8.le_iff_toNat_le.mp hv.precision_bounds.2⟩

section Insert

/-- An insertion raises the register of the item to its rank. -/
theorem insert_eq (h : HyperLogLog) (item : String) :
    h.insert item = ⟨h.precision, h.registers.modify (indexOf h.precision item)
      (raise (rankOf h.precision item))⟩ := by
  obtain ⟨precision, registers⟩ := h
  have hdef : (⟨precision, registers⟩ : HyperLogLog).insert item =
      if rankOf precision item > registers.getD (indexOf precision item) 0 then
        ⟨precision, registers.set (indexOf precision item) (rankOf precision item)⟩
      else ⟨precision, registers⟩ := rfl
  rw [hdef]
  dsimp only
  generalize indexOf precision item = i
  generalize rankOf precision item = rank
  rcases Nat.lt_or_ge i registers.length with hi | hi
  · have hget : registers.getD i 0 = registers[i] := by
      rw [List.getD_eq_getElem?_getD, List.getElem?_eq_getElem hi, Option.getD_some]
    have hmodify : registers.modify i (raise rank) = registers.set i (raise rank registers[i]) := by
      rw [List.modify_eq_set]
      simp [hi]
    rw [hget, hmodify, raise]
    split_ifs
    · rfl
    · rw [List.set_getElem_self]
  · rw [List.modify_eq_self hi, List.set_eq_of_length_le hi]
    split_ifs <;> rfl

@[simp] theorem insert_precision (h : HyperLogLog) (item : String) :
    (h.insert item).precision = h.precision := by
  rw [insert_eq]

@[simp] theorem length_insert_registers (h : HyperLogLog) (item : String) :
    (h.insert item).registers.length = h.registers.length := by
  rw [insert_eq, List.length_modify]

theorem insert_comm (h : HyperLogLog) (item item' : String) :
    (h.insert item).insert item' = (h.insert item').insert item := by
  simp only [insert_eq, modify_raise_comm _ (indexOf h.precision item)]

theorem insert_idem (h : HyperLogLog) (item : String) :
    (h.insert item).insert item = h.insert item := by
  simp only [insert_eq, modify_raise_idem]

theorem absorbing_insert : SetFold.Absorbing insert := ⟨insert_comm, insert_idem⟩

end Insert

section Merge

theorem length_mergeRegisters (as bs : List UInt8) :
    (mergeRegisters as bs).length = as.length := by
  induction as generalizing bs with
  | nil => cases bs <;> rfl
  | cons a as ih =>
    cases bs with
    | nil => rfl
    | cons b bs => rw [mergeRegisters, List.length_cons, List.length_cons, ih]

theorem mergeRegisters_comm {as bs : List UInt8} (hlength : as.length = bs.length) :
    mergeRegisters as bs = mergeRegisters bs as := by
  induction as generalizing bs with
  | nil =>
    obtain rfl := List.length_eq_zero_iff.mp hlength.symm
    rfl
  | cons a as ih =>
    cases bs with
    | nil => cases hlength
    | cons b bs =>
      rw [mergeRegisters, mergeRegisters, ih (Nat.succ.inj hlength)]
      congr 1
      exact raise_swap b a

theorem mergeRegisters_self (as : List UInt8) : mergeRegisters as as = as := by
  induction as with
  | nil => rfl
  | cons a as ih => rw [mergeRegisters, ih, ite_self]

theorem mergeRegisters_zero (as : List UInt8) (n : Nat) :
    mergeRegisters as (List.replicate n 0) = as := by
  induction as generalizing n with
  | nil => cases n <;> rfl
  | cons a as ih =>
    cases n with
    | zero => rfl
    | succ n =>
      rw [List.replicate_succ, mergeRegisters, ih, if_neg (by simp)]

/-- Raising a register before a merge or after it comes to the same. -/
theorem mergeRegisters_modify {as bs : List UInt8} (hlength : as.length = bs.length) (i : Nat)
    (rank : UInt8) :
    mergeRegisters as (bs.modify i (raise rank)) =
      (mergeRegisters as bs).modify i (raise rank) := by
  induction as generalizing bs i with
  | nil =>
    obtain rfl := List.length_eq_zero_iff.mp hlength.symm
    simp [mergeRegisters]
  | cons a as ih =>
    cases bs with
    | nil => cases hlength
    | cons b bs =>
      cases i with
      | zero =>
        rw [List.modify_zero_cons, mergeRegisters, mergeRegisters, List.modify_zero_cons]
        congr 1
        exact raise_raise_raise rank a b
      | succ i =>
        rw [List.modify_succ_cons, mergeRegisters, mergeRegisters, List.modify_succ_cons,
          ih (Nat.succ.inj hlength)]

end Merge

section Valid

variable {h : HyperLogLog}

theorem valid_new (precision : UInt8) (hp : 4 ≤ precision ∧ precision ≤ 16) :
    (new precision hp).Valid where
  precision_bounds := hp
  length_registers := List.length_replicate
  register_le r hr := by
    rw [List.eq_of_mem_replicate hr]
    exact Nat.zero_le _

theorem toNat_shift {precision : UInt8} (hle : precision.toNat ≤ 64) :
    (64 - precision.toUInt32).toNat = 64 - precision.toNat := by
  rw [UInt32.toNat_sub_of_le]
  · rfl
  · exact UInt32.le_iff_toNat_le.mpr (by simpa using hle)

/-- An insertion counts the item in a register there is. -/
theorem indexOf_lt {precision : UInt8} (hp : 1 ≤ precision.toNat ∧ precision.toNat ≤ 64)
    (item : String) : indexOf precision item < 2 ^ precision.toNat := by
  unfold indexOf
  generalize hashItem item.toUTF8.data.toList = hash
  have hshift : (64 - precision.toUInt32).toUInt64.toNat % 64 = 64 - precision.toNat := by
    rw [UInt32.toNat_toUInt64, toNat_shift hp.2]
    omega
  rw [UInt64.toNat_shiftRight, hshift, Nat.shiftRight_eq_div_pow]
  apply Nat.div_lt_of_lt_mul
  rw [← Nat.pow_add, show 64 - precision.toNat + precision.toNat = 64 by omega]
  exact hash.toNat_lt

theorem toNat_rankOf_le {precision : UInt8} (hle : precision.toNat ≤ 64) (item : String) :
    (rankOf precision item).toNat ≤ 64 - precision.toNat := by
  unfold rankOf
  rw [toNat_shift hle, UInt8.toNat_ofNat']
  exact (Nat.mod_le _ _).trans (Nat.min_le_right _ _)

theorem Valid.insert (hv : h.Valid) (item : String) : (h.insert item).Valid where
  precision_bounds := by simpa using hv.precision_bounds
  length_registers := by simpa using hv.length_registers
  register_le := by
    have hp := hv.toNat_precision
    intro r hr
    rw [insert_precision]
    rw [insert_eq] at hr
    obtain ⟨i, hi, rfl⟩ := List.getElem_of_mem hr
    rw [List.length_modify] at hi
    rw [List.getElem_modify]
    have hold := hv.register_le _ (List.getElem_mem hi)
    split_ifs
    · rw [toNat_raise]
      exact max_le (toNat_rankOf_le (by omega) item) hold
    · exact hold

theorem Valid.mergeRegisters_le {as bs : List UInt8} {bound : Nat}
    (has : ∀ r ∈ as, r.toNat ≤ bound) (hbs : ∀ r ∈ bs, r.toNat ≤ bound) :
    ∀ r ∈ mergeRegisters as bs, r.toNat ≤ bound := by
  induction as generalizing bs with
  | nil => cases bs <;> simp [mergeRegisters]
  | cons a as ih =>
    cases bs with
    | nil => exact has
    | cons b bs =>
      intro r hr
      obtain ⟨ha, has⟩ := List.forall_mem_cons.mp has
      obtain ⟨hb, hbs⟩ := List.forall_mem_cons.mp hbs
      rcases List.mem_cons.mp hr with rfl | hrest
      · exact (toNat_raise b a).trans_le (max_le hb ha)
      · exact ih has hbs r hrest

theorem Valid.merge {other merged : HyperLogLog} (hv : h.Valid) (hother : other.Valid)
    (hmerge : h.merge other = some merged) : merged.Valid := by
  unfold HyperLogLog.merge at hmerge
  split_ifs at hmerge with hprecision
  obtain rfl := Option.some.inj hmerge
  refine ⟨hv.precision_bounds, ?_, ?_⟩
  · rw [length_mergeRegisters]
    exact hv.length_registers
  · apply Valid.mergeRegisters_le hv.register_le
    rw [hprecision]
    exact hother.register_le

/-- Two valid sketches of one precision have as many registers. -/
theorem Valid.length_eq {other : HyperLogLog} (hv : h.Valid) (hother : other.Valid)
    (hprecision : h.precision = other.precision) :
    h.registers.length = other.registers.length := by
  rw [hv.length_registers, hother.length_registers, hprecision]

theorem Valid.merge_comm {other : HyperLogLog} (hv : h.Valid) (hother : other.Valid) :
    h.merge other = other.merge h := by
  unfold HyperLogLog.merge
  by_cases hprecision : h.precision = other.precision
  · rw [if_pos hprecision, if_pos hprecision.symm,
      mergeRegisters_comm (hv.length_eq hother hprecision), hprecision]
  · rw [if_neg hprecision, if_neg (Ne.symm hprecision)]

theorem merge_self (h : HyperLogLog) : h.merge h = some h := by
  unfold merge
  rw [if_pos rfl, mergeRegisters_self]

theorem Valid.merge_insert {other : HyperLogLog} (hv : h.Valid) (hother : other.Valid)
    (hprecision : h.precision = other.precision) (item : String) :
    h.merge (other.insert item) = (h.merge other).map fun merged => merged.insert item := by
  unfold HyperLogLog.merge
  rw [insert_precision, if_pos hprecision, if_pos hprecision, Option.map_some, insert_eq, insert_eq]
  dsimp only
  rw [mergeRegisters_modify (hv.length_eq hother hprecision), hprecision]

end Valid

end HyperLogLog

end HushEngine
