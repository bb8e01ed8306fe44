import HushEngine.SketchRegisters

/-!
Decoding stored bytes as a sketch. The length test shifts by the first byte:
with overflow checks a shift by 64 or more ends the call, without them it is
masked. Neither the precision nor the registers are tested, so what decodes can
be a sketch that `new` would refuse and no insertion could have produced.
-/
namespace HushEngine.HyperLogLog

/-- `from_bytes` of a build with or without overflow checks; `none` is the panic of the shift. -/
def fromBytesIn (overflowChecks : Bool) : List UInt8 → Option (Option HyperLogLog)
  | [] => some none
  | precision :: registers =>
    if overflowChecks ∧ 64 ≤ precision.toNat then none
    else if registers.length ≠ 2 ^ (precision.toNat % 64) then some none
    else some (some ⟨precision, registers⟩)

theorem fromBytesIn_false (bytes : List UInt8) :
    fromBytesIn false bytes = some (fromBytes bytes) := by
  cases bytes with
  | nil => rfl
  | cons precision registers =>
    simp only [fromBytesIn, fromBytes, Bool.false_eq_true, false_and, if_false]
    split_ifs <;> rfl

/-- No shift of the insertion is by more than the width, and the register it reads is there. -/
structure InsertInRange (h : HyperLogLog) (item : String) : Prop where
  shift_right : h.precision.toNat ≤ 64 ∧ 64 - h.precision.toNat < 64
  shift_left : h.precision.toNat < 64
  index : indexOf h.precision item < h.registers.length

theorem Valid.insertInRange {h : HyperLogLog} (hv : h.Valid) (item : String) :
    h.InsertInRange item := by
  have hp := hv.toNat_precision
  refine ⟨⟨by omega, by omega⟩, by omega, ?_⟩
  rw [hv.length_registers]
  exact indexOf_lt ⟨by omega, by omega⟩ item

/-- Decoding ends, accepts the encodings of valid sketches and nothing else, and what it accepts
can be inserted into. -/
structure DecodesValid (overflowChecks : Bool) (bytes : List UInt8) : Prop where
  returns : (fromBytesIn overflowChecks bytes).isSome
  accepts : ∀ h, fromBytesIn overflowChecks bytes = some (some h) ↔ h.Valid ∧ h.toBytes = bytes
  inserts : ∀ h, fromBytesIn overflowChecks bytes = some (some h) → ∀ item, h.InsertInRange item

/-- Bytes on which the tests that are missing would change nothing. -/
def NeedsNoCheck (overflowChecks : Bool) : List UInt8 → Prop
  | [] => True
  | precision :: registers => (overflowChecks = true → precision.toNat < 64) ∧
    (registers.length = 2 ^ (precision.toNat % 64) →
      4 ≤ precision ∧ precision ≤ 16 ∧ ∀ r ∈ registers, r.toNat ≤ 64 - precision.toNat)

section Decode

variable {overflowChecks : Bool} {precision : UInt8} {registers : List UInt8}

theorem fromBytesIn_isSome_iff : (fromBytesIn overflowChecks (precision :: registers)).isSome ↔
    (overflowChecks = true → precision.toNat < 64) := by
  rw [fromBytesIn]
  split_ifs with hpanic hlength
  · simp only [Option.isSome_none, Bool.false_eq_true, false_iff]
    intro h
    have := h hpanic.1
    omega
  all_goals
    simp only [Option.isSome_some, true_iff]
    intro h
    by_contra hge
    exact hpanic ⟨h, by omega⟩

theorem fromBytesIn_cons_eq (hshift : overflowChecks = true → precision.toNat < 64)
    (h : HyperLogLog) :
    fromBytesIn overflowChecks (precision :: registers) = some (some h) ↔
      registers.length = 2 ^ (precision.toNat % 64) ∧ h = ⟨precision, registers⟩ := by
  have hpanic : ¬ (overflowChecks = true ∧ 64 ≤ precision.toNat) := by
    intro hp
    have := hshift hp.1
    omega
  rw [fromBytesIn, if_neg hpanic]
  split_ifs with hlength
  · simp [hlength]
  · simp only [Option.some.injEq, not_not.mp hlength, true_and]
    exact eq_comm

end Decode

/-- Decoding accepts exactly the valid sketches, on just the bytes that need no further test. -/
theorem decodesValid_iff (overflowChecks : Bool) (bytes : List UInt8) :
    DecodesValid overflowChecks bytes ↔ NeedsNoCheck overflowChecks bytes := by
  cases bytes with
  | nil =>
    refine ⟨fun _ => trivial, fun _ => ⟨rfl, ?_, ?_⟩⟩
    · intro h
      simp [fromBytesIn, toBytes]
    · intro h hdecoded
      simp [fromBytesIn] at hdecoded
  | cons precision registers =>
    constructor
    · intro hdecodes
      have hshift := fromBytesIn_isSome_iff.mp hdecodes.returns
      refine ⟨hshift, fun hlength => ?_⟩
      have hdecoded := (fromBytesIn_cons_eq hshift _).mpr ⟨hlength, rfl⟩
      have hvalid := ((hdecodes.accepts _).mp hdecoded).1
      exact ⟨hvalid.precision_bounds.1, hvalid.precision_bounds.2, hvalid.register_le⟩
    · intro hcheck
      obtain ⟨hshift, hvalid⟩ := hcheck
      have haccepts : ∀ h, fromBytesIn overflowChecks (precision :: registers) = some (some h) ↔
          h.Valid ∧ h.toBytes = precision :: registers := by
        intro h
        rw [fromBytesIn_cons_eq hshift]
        constructor
        · rintro ⟨hlength, rfl⟩
          obtain ⟨hge, hle, hregisters⟩ := hvalid hlength
          have hle' : precision.toNat ≤ 16 := UInt8.le_iff_toNat_le.mp hle
          refine ⟨⟨⟨hge, hle⟩, ?_, hregisters⟩, rfl⟩
          rw [hlength, Nat.mod_eq_of_lt (by omega)]
        · rintro ⟨hv, hbytes⟩
          obtain ⟨precision', registers'⟩ := h
          obtain ⟨rfl, rfl⟩ := List.cons.inj hbytes
          have hp := hv.toNat_precision
          refine ⟨?_, rfl⟩
          rw [Nat.mod_eq_of_lt (by omega)]
          exact hv.length_registers
      refine ⟨fromBytesIn_isSome_iff.mpr hshift, haccepts, fun h hdecoded item => ?_⟩
      exact ((haccepts h).mp hdecoded).1.insertInRange item

/-- Two zero bytes decode to a sketch of precision zero with one register, into which an insertion
shifts by 64. -/
theorem decodes_invalid_zero :
    fromBytes [0, 0] = some ⟨0, [0]⟩ ∧ ¬ (⟨0, [0]⟩ : HyperLogLog).Valid ∧
      ¬ (⟨0, [0]⟩ : HyperLogLog).InsertInRange "u1" ∧
      ∀ overflowChecks, ¬ DecodesValid overflowChecks [0, 0] := by
  have hinvalid : ¬ (⟨0, [0]⟩ : HyperLogLog).Valid := fun h =>
    absurd h.precision_bounds.1 (by decide)
  refine ⟨by decide, hinvalid, fun h => absurd h.shift_right.2 (by decide), ?_⟩
  intro overflowChecks h
  refine hinvalid ((h.accepts ⟨0, [0]⟩).mp ?_).1
  cases overflowChecks <;> decide

end HushEngine.HyperLogLog
