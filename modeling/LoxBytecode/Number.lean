/-!
# Numbers

The numbers of the language are IEEE 754 binary64 words. A `Number` is the word itself, so
that equality of numbers as data (`=`) is decidable and tells the two zeros apart, while
`Number.equals` is the comparison that programs see.

## Layout

A word holds, from the top, one sign bit, eleven exponent bits and fifty-two fraction bits.
With exponent field `e` and fraction field `f` a finite word stands for
`significand * 2 ^ power`, where `significand` is `f` when `e = 0` and `2 ^ 52 + f` otherwise,
and `power` is `max e 1 - 1075`.
-/

namespace LoxBytecode

/-- A binary64 word. -/
structure Number where
  bits : UInt64
deriving DecidableEq, Repr

namespace Number

/-! ### Fields -/

/-- The weight of the lowest exponent bit. -/
def hidden : Nat := 1 <<< 52

/-- The exponent field of infinities and NaNs. -/
def exponentTop : Nat := 2047

/-- Whether the sign bit is set. -/
def isNegative (x : Number) : Bool :=
  decide (1 <<< 63 ≤ x.bits.toNat)

/-- The eleven exponent bits. -/
def exponentField (x : Number) : Nat :=
  x.bits.toNat / hidden % (1 <<< 11)

/-- The fifty-two fraction bits. -/
def fractionField (x : Number) : Nat :=
  x.bits.toNat % hidden

/-- Not a number: the top exponent with a fraction. -/
def isNaN (x : Number) : Bool :=
  x.exponentField == exponentTop && x.fractionField != 0

/-- Plus or minus infinity: the top exponent with no fraction. -/
def isInfinite (x : Number) : Bool :=
  x.exponentField == exponentTop && x.fractionField == 0

/-- Plus or minus zero. -/
def isZero (x : Number) : Bool :=
  x.exponentField == 0 && x.fractionField == 0

/-- The integer part of a finite magnitude `significand * 2 ^ power`. -/
def significand (x : Number) : Nat :=
  if x.exponentField = 0 then x.fractionField else hidden + x.fractionField

/-- The power of two of a finite magnitude `significand * 2 ^ power`. -/
def power (x : Number) : Int :=
  (max x.exponentField 1 : Int) - 1075

/-! ### Words -/

/-- The word of a sign and the sixty-three bits of a magnitude. -/
def ofMagnitude (negative : Bool) (magnitude : Nat) : Number :=
  ⟨UInt64.ofNat (magnitude + if negative then 1 <<< 63 else 0)⟩

/-- The magnitude bits of infinity. -/
def infiniteMagnitude : Nat := exponentTop * hidden

/-- Plus or minus infinity. -/
def infinity (negative : Bool) : Number :=
  ofMagnitude negative infiniteMagnitude

/-- A NaN. -/
def nan : Number :=
  ofMagnitude false (infiniteMagnitude + 1 <<< 51)

/-! ### Comparison -/

/-- Numeric equality: a NaN differs from everything, itself included, and the two zeros are
equal. -/
def equals (x y : Number) : Bool :=
  !x.isNaN && !y.isNaN && (x.bits == y.bits || (x.isZero && y.isZero))

end Number

end LoxBytecode
