import LoxBytecode.Number

/-!
# Shortest Decimal Text

`Number.text` writes a number with the fewest significant digits that read back as the same
word, always positionally. For each digit count from one upwards the two neighbours of the
value on that decimal grid are tested, in integer arithmetic, against the interval of reals
that round to the word; the first grid with a hit wins, and of two hits the nearer, or the
upper one when they are equally near.
-/

namespace LoxBytecode

namespace Number

/-- A decimal `digits * 10 ^ exponent`. -/
structure Decimal where
  digits : Nat
  exponent : Int
deriving DecidableEq, Repr

/-! ### The interval of a word -/

/-- The reals that round to a finite positive word, in quarters of its unit `2 ^ power`: the
value lies at `4 * significand`, the upper end half a unit above it, and the lower end half a
unit below it, or a quarter where the words below lie twice as close. The ends belong to the
interval when the significand is even. -/
structure Interval where
  lower : Nat
  value : Nat
  upper : Nat
  closed : Bool
  unit : Int

/-- The interval of a finite nonzero word, its sign left aside. -/
def interval (x : Number) : Interval where
  lower := 4 * x.significand - if x.significand = hidden ∧ 1 < x.exponentField then 1 else 2
  value := 4 * x.significand
  upper := 4 * x.significand + 2
  closed := x.significand % 2 == 0
  unit := x.power - 2

/-- Factors `(a, b)` with `m * 2 ^ two` and `n * 10 ^ ten` in the order of `m * a` and
`n * b`. -/
def commonScale (two ten : Int) : Nat × Nat :=
  (Nat.pow 10 (-ten).toNat <<< two.toNat, Nat.pow 10 ten.toNat <<< (-two).toNat)

/-! ### Candidates -/

/-- The count of decimal digits before the point of a value: the least `k` with
`value < 10 ^ k`. The binary logarithm leaves three candidates. -/
def pointPosition (i : Interval) : Int :=
  let estimate := ((Nat.log2 i.value : Int) + i.unit) * 30103 / 100000
  let isAbove (k : Int) : Bool :=
    let (a, b) := commonScale i.unit k
    decide (i.value * a < b)
  if isAbove estimate then estimate
  else if isAbove (estimate + 1) then estimate + 1
  else estimate + 2

/-- The nearest decimal with the given exponent that lies in the interval, if one does. Only
the two neighbours of the value can be nearest. -/
def candidate? (i : Interval) (exponent : Int) : Option Nat :=
  let (a, b) := commonScale i.unit exponent
  let below := i.value * a / b
  let isInside (n : Nat) : Bool :=
    if i.closed then decide (i.lower * a ≤ n * b) && decide (n * b ≤ i.upper * a)
    else decide (i.lower * a < n * b) && decide (n * b < i.upper * a)
  match isInside below, isInside (below + 1) with
  | true, true =>
    if i.value * a - below * b < (below + 1) * b - i.value * a then some below
    else some (below + 1)
  | true, false => some below
  | false, true => some (below + 1)
  | false, false => none

/-- The first candidate on the grids of `count`, `count + 1`, … digits. A candidate that is a
power of ten is written as a single one. -/
def firstCandidate (i : Interval) (point : Int) : Nat → Nat → Decimal
  | 0, _ => ⟨0, 0⟩
  | tries + 1, count =>
    match candidate? i (point - count) with
    | some n => if n = Nat.pow 10 count then ⟨1, point⟩ else ⟨n, point - count⟩
    | none => firstCandidate i point tries (count + 1)

/-- The shortest decimal of a finite nonzero word, its sign left aside. Seventeen digits tell
any two words apart, so no more grids need a try. -/
def shortest (x : Number) : Decimal :=
  let i := x.interval
  firstCandidate i (pointPosition i) 17 1

/-! ### Layout -/

/-- Some zeros. -/
def zeros (count : Nat) : List Char :=
  List.replicate count '0'

/-- A decimal without exponent notation: no point in an integer, and a zero before a leading
point. -/
def Decimal.positional (d : Decimal) : List Char :=
  let digits := Nat.toDigits 10 d.digits
  let places := (-d.exponent).toNat
  if places = 0 then digits ++ zeros d.exponent.toNat
  else if places < digits.length then
    digits.take (digits.length - places) ++ '.' :: digits.drop (digits.length - places)
  else '0' :: '.' :: zeros (places - digits.length) ++ digits

/-- The text of a number: `nan`, `inf` and `-inf`, or the shortest digits that read back. Minus
zero keeps its sign. -/
def text (x : Number) : String :=
  if x.isNaN then "nan"
  else
    let magnitude :=
      if x.isInfinite then "inf".toList
      else if x.isZero then ['0']
      else x.shortest.positional
    String.ofList (if x.isNegative then '-' :: magnitude else magnitude)

end Number

end LoxBytecode
