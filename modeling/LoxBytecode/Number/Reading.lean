import LoxBytecode.Number

/-!
# Reading Numbers

`Number.ofDecimal` rounds an exact decimal `digits * 10 ^ exponent` to the nearest binary64
word, ties to the even significand, in integer arithmetic. `Number.ofText?` reads the texts
that stand for a number:

* an optional sign, then one of `inf`, `infinity`, `nan` in any case; or
* an optional sign, digits with at most one point among, before or after them, and an optional
  exponent `e` or `E` with an optional sign and at least one digit.
-/

namespace LoxBytecode

namespace Number

/-! ### Rounding -/

/-- The quotient `n / d` rounded to the nearest integer, a tie to the even one. -/
def roundQuotient (n d : Nat) : Nat :=
  let q := n / d
  let r := n % d
  if 2 * r > d || (2 * r == d && q % 2 == 1) then q + 1 else q

/-- The exponent `k` with `2 ^ k ≤ n / d < 2 ^ (k + 1)`, for positive `n` and `d`: the
difference of the logarithms, or one less. -/
def floorLog2 (n d : Nat) : Int :=
  let k : Int := (Nat.log2 n : Int) - (Nat.log2 d : Int)
  if d <<< k.toNat ≤ n <<< (-k).toNat then k else k - 1

/-- The magnitude bits of the word nearest to `n / d`, for positive `n` and `d`. The spacing of
words near the quotient is `2 ^ unit`; counting the quotient in it puts a significand that
carries over into the exponent by itself. -/
def roundedMagnitude (n d : Nat) : Nat :=
  let unit : Int := max (floorLog2 n d - 52) (-1074)
  let count := roundQuotient (n <<< (-unit).toNat) (d <<< unit.toNat)
  min ((unit + 1074).toNat * hidden + count) infiniteMagnitude

/-- The word nearest to `digits * 10 ^ exponent`. A magnitude past `10 ^ 310` is infinite and
one below `10 ^ -330` is zero whatever its digits, which bounds the powers computed. -/
def ofDecimal (negative : Bool) (digits : Nat) (exponent : Int) : Number :=
  let size : Int := (Nat.log2 digits : Int) * 30103 / 100000 + exponent
  if digits = 0 ∨ size < -330 then ofMagnitude negative 0
  else if size > 310 then infinity negative
  else ofMagnitude negative
    (roundedMagnitude (digits * Nat.pow 10 exponent.toNat) (Nat.pow 10 (-exponent).toNat))

/-! ### Texts -/

/-- The value of a run of decimal digits. -/
def digitsValue (cs : List Char) : Nat :=
  cs.foldl (fun n c => 10 * n + (c.toNat - '0'.toNat)) 0

/-- The exponent at the end of a number text; the empty text is the exponent zero. -/
def exponentOf? : List Char → Option Int
  | [] => some 0
  | mark :: cs =>
    if mark = 'e' ∨ mark = 'E' then
      match cs with
      | '-' :: ds => unsigned ds |>.map fun n => -(n : Int)
      | '+' :: ds => unsigned ds |>.map fun n => (n : Int)
      | ds => unsigned ds |>.map fun n => (n : Int)
    else none
where
  /-- The value of a text made of digits only, with at least one. -/
  unsigned (ds : List Char) : Option Nat :=
    if ds.isEmpty || !ds.all Char.isDigit then none else some (digitsValue ds)

/-- A decimal text without its sign. -/
def decimalOf? (negative : Bool) (cs : List Char) : Option Number :=
  let whole := cs.takeWhile Char.isDigit
  let afterWhole := cs.dropWhile Char.isDigit
  let (fraction, rest) := match afterWhole with
    | '.' :: ds => (ds.takeWhile Char.isDigit, ds.dropWhile Char.isDigit)
    | _ => ([], afterWhole)
  if whole.isEmpty && fraction.isEmpty then none
  else exponentOf? rest |>.map fun exponent =>
    ofDecimal negative (digitsValue (whole ++ fraction)) (exponent - fraction.length)

/-- A number text without its sign. -/
def unsignedOf? (negative : Bool) (cs : List Char) : Option Number :=
  let word := String.ofList (cs.map Char.toLower)
  if word = "inf" ∨ word = "infinity" then some (infinity negative)
  else if word = "nan" then some nan
  else decimalOf? negative cs

/-- The number that a text stands for, if it stands for one. -/
def ofText? (text : String) : Option Number :=
  match text.toList with
  | '-' :: cs => unsignedOf? true cs
  | '+' :: cs => unsignedOf? false cs
  | cs => unsignedOf? false cs

end Number

end LoxBytecode
