import EvmFlow.Signed64

/-!
# Integer literals

An integer with an optional sign, in one of four bases: `0b`, `0o` or `0` alone, and `0x` lead
binary, octal and hexadecimal digits. An underscore may stand between two digits, or between such a
mark and the first digit. The value has to fit in 64 bits with a sign.

* `IntLiteral.Error`: a text that is no integer, and an integer that does not fit;
* `IntLiteral.parse`: the value of a literal.
-/

namespace EvmFlow.IntLiteral

/-- What can be wrong with a literal. -/
inductive Error where
  | malformed
  | outOfRange
deriving DecidableEq

/-- The wording of an error. -/
def Error.message : Error → String
  | malformed => "parse error"
  | outOfRange => "value out of range"

/-- The value of a digit or letter, in whatever base. -/
def digit? (c : Char) : Option Nat :=
  if c.isDigit then some (c.toNat - '0'.toNat)
  else if c.isAlpha then some (c.toLower.toNat - 'a'.toNat + 10)
  else none

/-- The magnitude written by digits of a base, `n` being that of the digits before. The digits are
read up to the first that is wrong, or the first with which the magnitude does not fit in
64 bits. -/
def magnitude (base : Nat) (n : Nat) : List Char → Except Error Nat
  | [] => .ok n
  | c :: rest =>
    if c = '_' then magnitude base n rest
    else match digit? c with
      | none => .error .malformed
      | some d =>
        if base ≤ d then .error .malformed
        else if Signed64.modulus ≤ base * n + d then .error .outOfRange
        else magnitude base (base * n + d) rest

/-- Whether each underscore stands behind a digit and before one; `afterDigit` tells of the
character before. -/
def separated (afterDigit : Bool) : List Char → Bool
  | [] => true
  | '_' :: rest => afterDigit && !rest.isEmpty && separated false rest
  | _ :: rest => separated true rest

/-- The base of a literal without sign, whether a mark leads its digits, and the digits. -/
def split : List Char → Nat × Bool × List Char
  | '0' :: mark :: c :: rest =>
    match mark.toLower with
    | 'b' => (2, true, c :: rest)
    | 'o' => (8, true, c :: rest)
    | 'x' => (16, true, c :: rest)
    | _ => (8, true, mark :: c :: rest)
  | '0' :: rest => (8, true, rest)
  | cs => (10, false, cs)

/-- The value of a literal without sign. -/
def parseMagnitude (cs : List Char) : Except Error Nat := do
  if cs.isEmpty then throw .malformed
  let (base, marked, digits) := split cs
  let n ← magnitude base 0 digits
  if separated marked digits then return n else throw .malformed

/-- The value of a literal, of whatever size. -/
def parseSigned : List Char → Except Error Int
  | '-' :: rest => return -Int.ofNat (← parseMagnitude rest)
  | '+' :: rest => return Int.ofNat (← parseMagnitude rest)
  | cs => return Int.ofNat (← parseMagnitude cs)

/-- The value of a literal. -/
def parse (s : String) : Except Error Int := do
  let i ← parseSigned s.toList
  if Signed64.fits i then return i else throw .outOfRange

end EvmFlow.IntLiteral
