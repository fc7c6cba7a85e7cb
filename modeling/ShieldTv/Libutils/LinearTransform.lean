import Mathlib

/-!
# `libutils/LinearTransform.cpp`

A value is moved by a base, scaled by a fraction and moved by another base, in 64-bit words.
-/

namespace ShieldTv.Libutils

structure LinearTransform where
  aZero : Int64
  bZero : Int64
  aToBNumer : Int32
  aToBDenom : UInt32
  deriving Repr, DecidableEq

namespace LinearTransform

/-! ## Machine words -/

def u64 (x : Int) : Nat := (x % 2 ^ 64).toNat

/-- The conversion to `int64_t`, and what is left of a result in that type. -/
def s64 (x : Int) : Int := x.bmod (2 ^ 64)

def u32 (x : Int) : Nat := (x % 2 ^ 32).toNat

def s32 (x : Int) : Int := x.bmod (2 ^ 32)

/-- `INT64_MIN` as a word, the sign bit. -/
def int64Min : Nat := 2 ^ 63

def int64Max : Nat := 2 ^ 63 - 1

def uint32Max : Nat := 2 ^ 32 - 1

def abs32 (x : Int) : Int := if x < 0 then s32 (-x) else x

def abs64 (x : Int) : Int := if x < 0 then s64 (-x) else x

/-! ## Scaling -/

/-- `val * N / D` with a remainder cut off or rounded up, or nothing if it has more than 64 bits. -/
def scaleU64ToU64 (val N D : Nat) (roundUpNotDown : Bool) : Option Nat :=
  let tmp2 := (val >>> 32) * N % 2 ^ 64
  let tmp1 := (val &&& uint32Max) * N % 2 ^ 64
  let tmp2 := (tmp2 + tmp1 >>> 32) % 2 ^ 64
  if D ≤ tmp2 >>> 32 then
    none
  else
    let r := tmp2 % D
    let tmp2 := tmp2 / D
    let tmp1 := (tmp1 &&& uint32Max) ||| r <<< 32
    let r := tmp1 % D
    let tmp1 := tmp1 / D
    let res := tmp2 <<< 32 ||| tmp1
    if r ≠ 0 ∧ roundUpNotDown then
      let res := (res + 1) % 2 ^ 64
      if res = 0 then none else some res
    else
      some res

def addBasis (scaled : Nat) (isNeg : Bool) (basis2 : Int) : Option Int :=
  if scaled &&& int64Min ≠ 0 then
    if isNeg ∧ basis2 < 0 then
      none -- certain underflow
    else if ¬ isNeg ∧ 0 ≤ basis2 then
      none -- certain overflow
    else if abs64 basis2 ≤ (scaled &&& int64Max : Nat) then
      none -- not enough
    else
      some (s64 ((if isNeg then u64 (-scaled) else scaled) + u64 basis2 : Nat))
  else
    let scaled := if isNeg then u64 (-scaled) else scaled
    let res := (scaled + u64 basis2) % 2 ^ 64
    -- the operands have the same sign and the result has the other
    if (scaled ^^^ u64 basis2 ^^^ int64Min) &&& (scaled ^^^ res) &&& int64Min ≠ 0 then
      none
    else
      some (s64 res)

def linearTransformS64ToS64 (val basis1 N : Int) (D : Nat) (invertFrac : Bool) (basis2 : Int) :
    Option Int :=
  let isNeg : Bool := val < basis1
  let absVal := u64 (s64 (if val < basis1 then basis1 - val else val - basis1))
  let isNeg := if N < 0 then !isNeg else isNeg
  match scaleU64ToU64 absVal (if invertFrac then D else u32 (abs32 N))
      (if invertFrac then u32 (abs32 N) else D) isNeg with
  | none => none
  | some scaled => addBasis scaled isNeg basis2

/-! ## The two directions -/

/-- The value from A in B, or nothing for a zero denominator or an overflow. -/
def doForwardTransform (t : LinearTransform) (aIn : Int64) : Option Int :=
  if t.aToBDenom = 0 then
    none
  else
    linearTransformS64ToS64 aIn.toInt t.aZero.toInt t.aToBNumer.toInt t.aToBDenom.toNat false
      t.bZero.toInt

/-- The value from B in A, or nothing for a zero numerator or an overflow. -/
def doReverseTransform (t : LinearTransform) (bIn : Int64) : Option Int :=
  if t.aToBNumer = 0 then
    none
  else
    linearTransformS64ToS64 bIn.toInt t.bZero.toInt t.aToBNumer.toInt t.aToBDenom.toNat true
      t.aZero.toInt

end LinearTransform

end ShieldTv.Libutils
