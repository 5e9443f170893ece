/-!
# The range of floating-point numbers

A decimal number is out of range if the double-precision number nearest to it is infinite. That is
the case from `2 ^ 1024 - 2 ^ 970` on, halfway between the largest number and the next power of two.

A number is read with two limits, which only show in very long ones. Of the significant digits in
front of the point, no more than `maxWhole` are counted to find where the point stands; and the
digits of the exponent are read up to the first by which it reaches `enoughExponent`.

* `Decimal`: significant digits and the place of the point;
* `Decimal.parse`: the number written by a text;
* `Decimal.overflows`: whether it is out of range.
-/

namespace EvmFlow.Toml

/-- The number with the decimal digits `digits`, the first of which is no zero, and the point behind
the first `point` of them; without digits, zero. The sign is left out. -/
structure Decimal where
  digits : List Char
  point : Int
deriving DecidableEq

namespace Decimal

/-- The number written by the decimal digits of `cs`. -/
def ofDigits (cs : List Char) : Nat :=
  cs.foldl (fun n c => 10 * n + (c.toNat - '0'.toNat)) 0

/-! ## Reading -/

/-- The largest number of digits that are counted in front of the point. -/
def maxWhole : Nat := 800

/-- An exponent that is large enough to be read no further. -/
def enoughExponent : Nat := 10000

/-- The exponent written by the decimal digits of `cs`. -/
def exponentDigits (cs : List Char) : Nat :=
  cs.foldl (fun n c => if n < enoughExponent then 10 * n + (c.toNat - '0'.toNat) else n) 0

/-- The exponent written by digits that may have a sign. -/
def exponent (cs : List Char) : Int :=
  match cs with
  | '-' :: rest => -Int.ofNat (exponentDigits rest)
  | '+' :: rest => Int.ofNat (exponentDigits rest)
  | _ => Int.ofNat (exponentDigits cs)

/-- Digits without the zeros in front. -/
def significant (cs : List Char) : List Char := cs.dropWhile (· = '0')

/-- Where the point of a number without an exponent stands among its significant digits: behind
those in front of it or, if there are none, in front of the zeros that the fraction begins with. -/
def pointOf (whole fraction : List Char) : Int :=
  match significant whole with
  | [] => -Int.ofNat (fraction.takeWhile (· = '0')).length
  | cs => Int.ofNat (min cs.length maxWhole)

/-- The magnitude of the number written by `cs`: digits that may have a sign, a fraction and an
exponent. -/
def parse (cs : List Char) : Decimal :=
  let cs := if cs.head? = some '-' ∨ cs.head? = some '+' then cs.tail else cs
  let mantissa := cs.takeWhile fun c => c ≠ 'e' ∧ c ≠ 'E'
  let whole := mantissa.takeWhile (· ≠ '.')
  let fraction := (mantissa.dropWhile (· ≠ '.')).drop 1
  let shift := exponent ((cs.dropWhile fun c => c ≠ 'e' ∧ c ≠ 'E').drop 1)
  ⟨significant (whole ++ fraction), pointOf whole fraction + shift⟩

/-! ## Range -/

/-- The least magnitude that is out of range. -/
def limit : Nat := Nat.pow 2 1024 - Nat.pow 2 970

/-- The number of digits of the limit. -/
def limitDigits : Nat := 309

/-- Whether the number is out of range: its point stands further to the right than that of the
limit, or at the same place and its digits are not less. -/
def overflows (d : Decimal) : Bool :=
  !d.digits.isEmpty && (limitDigits < d.point ||
    (d.point = limitDigits &&
      limit * Nat.pow 10 d.digits.length ≤ ofDigits d.digits * Nat.pow 10 limitDigits))

end Decimal

end EvmFlow.Toml
