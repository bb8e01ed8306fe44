import Mathlib.Algebra.Ring.Nat
import Mathlib.Data.List.Basic

/-!
The HyperLogLog sketch kept next to the exact user sets. Arithmetic is that of
a release build: additions wrap and shift amounts are taken modulo the width.
A failed assertion is `none`. The floating-point estimate is not defined here;
whoever reads a sketch takes the rounded estimate as a parameter.
-/
namespace HushEngine

def hashSeed : UInt64 := 0xcbf29ce484222325

def hashPrime : UInt64 := 0x100000001b3

def fmix64 (k : UInt64) : UInt64 :=
  let k := k ^^^ (k >>> 33)
  let k := k * 0xff51afd7ed558ccd
  let k := k ^^^ (k >>> 33)
  let k := k * 0xc4ceb9fe1a85ec53
  k ^^^ (k >>> 33)

def hashItem (bytes : List UInt8) : UInt64 :=
  fmix64 (bytes.foldl (fun hash b => (hash ^^^ b.toUInt64) * hashPrime) hashSeed)

def leadingZeros (x : UInt64) : Nat := if x = 0 then 64 else 63 - x.toNat.log2

def defaultPrecision : UInt8 := 12

structure HyperLogLog where
  precision : UInt8
  registers : List UInt8
deriving DecidableEq

namespace HyperLogLog

/-- The assertion on the precision is the caller's obligation. -/
def new (precision : UInt8) (_ : 4 ≤ precision ∧ precision ≤ 16) : HyperLogLog :=
  ⟨precision, List.replicate (2 ^ precision.toNat) 0⟩

def withDefaultPrecision : HyperLogLog := new defaultPrecision (by decide)

def insert (h : HyperLogLog) (item : String) : HyperLogLog :=
  let hash := hashItem item.toUTF8.data.toList
  let mBits : UInt32 := h.precision.toUInt32
  let index := (hash >>> (64 - mBits).toUInt64).toNat
  let remaining := hash <<< mBits.toUInt64
  let rho := UInt8.ofNat (min (leadingZeros remaining + 1) (64 - mBits).toNat)
  if rho > h.registers.getD index 0 then { h with registers := h.registers.set index rho } else h

/-- The zipped loop of `merge`: registers past the shorter sketch stay as they are. -/
def mergeRegisters : List UInt8 → List UInt8 → List UInt8
  | a :: as, b :: bs => (if b > a then b else a) :: mergeRegisters as bs
  | as, [] => as
  | [], _ :: _ => []

/-- `none` is the panic of the assertion on the two precisions. -/
def merge (h other : HyperLogLog) : Option HyperLogLog :=
  if h.precision = other.precision then
    some { h with registers := mergeRegisters h.registers other.registers }
  else none

def toBytes (h : HyperLogLog) : List UInt8 := h.precision :: h.registers

/-- The length test shifts by the first byte, which a release build masks to six bits. -/
def fromBytes : List UInt8 → Option HyperLogLog
  | [] => none
  | precision :: registers =>
    if registers.length ≠ 2 ^ (precision.toNat % 64) then none
    else some ⟨precision, registers⟩

end HyperLogLog

end HushEngine
