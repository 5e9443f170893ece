/-!
# Hexadecimal text

Numbers and bytes in base sixteen, as every report of the library writes them.

* `Hex.digits`: a natural number without leading zeros;
* `Hex.padded`: the same with zeros on the left up to a width;
* `Hex.signed`: an integer, with its sign in front of the digits;
* `Hex.ofBytes`: two digits for each byte;
* `Hex.digit?`: the value of an ASCII digit, in either case.
-/

namespace EvmFlow.Hex

/-- The lower-case digits of `n`, without leading zeros; zero is `0`. -/
def digits (n : Nat) : String := String.ofList (Nat.toDigits 16 n)

/-- The digits of `n`, filled with zeros on the left to at least `width` places. -/
def padded (width n : Nat) : String :=
  String.ofList ((Nat.toDigits 16 n).leftpad width '0')

/-- The digits of the magnitude of `i`, after a minus sign if `i` is negative. -/
def signed (i : Int) : String :=
  if i < 0 then "-" ++ digits i.natAbs else digits i.natAbs

/-- Two digits for each byte, in order. -/
def ofBytes (bytes : List UInt8) : String :=
  String.join (bytes.map fun b => padded 2 b.toNat)

/-- The value of the ASCII digit `b`, in either case. -/
def digit? (b : UInt8) : Option UInt8 :=
  if 0x30 ≤ b ∧ b ≤ 0x39 then some (b - 0x30)
  else if 0x61 ≤ b ∧ b ≤ 0x66 then some (b - 0x61 + 10)
  else if 0x41 ≤ b ∧ b ≤ 0x46 then some (b - 0x41 + 10)
  else none

end EvmFlow.Hex
