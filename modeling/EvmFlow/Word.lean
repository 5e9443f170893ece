import EvmFlow.Text.Hex

/-!
# Machine words

The EVM computes on words of 256 bits.

* `Word`: a bit vector of width 256;
* `bytesToNat`: the number that a byte string denotes, most significant byte first;
* `Word.ofBytes`: that number as a word, which keeps the last 32 bytes of a longer string;
* `Word.pow`, `Word.signExtendFrom`, `Word.byteAt`: the word operations that are no single operation
  on bit vectors.
-/

namespace EvmFlow

/-- A machine word. -/
abbrev Word := BitVec 256

/-- The number denoted by `bytes`, most significant byte first. -/
def bytesToNat (bytes : List UInt8) : Nat :=
  bytes.foldl (fun n b => 256 * n + b.toNat) 0

namespace Word

/-- The word denoted by `bytes`, most significant byte first, modulo `2 ^ 256`. -/
def ofBytes (bytes : List UInt8) : Word := BitVec.ofNat 256 (bytesToNat bytes)

/-- A truth value as a word. -/
def ofBool (b : Bool) : Word := if b then 1 else 0

/-- The hexadecimal text of a word, without leading zeros. -/
def render (w : Word) : String := "0x" ++ Hex.digits w.toNat

/-! ## Exponentiation -/

/-- `acc * base ^ e`, for an exponent `e` of at most `bits` bits, by repeated squaring. -/
def powAux : (bits : Nat) → (acc base : Word) → (e : Nat) → Word
  | 0, acc, _, _ => acc
  | bits + 1, acc, base, e =>
    powAux bits (if e % 2 = 1 then acc * base else acc) (base * base) (e / 2)

/-- `base ^ e` modulo `2 ^ 256`. -/
def pow (base e : Word) : Word := powAux 256 1 base e.toNat

/-! ## Bytes and signs inside a word -/

/-- Reads `w` as a signed number of `k + 1` bytes; for `k` of 31 and above that is `w` itself. -/
def signExtendFrom (k w : Word) : Word :=
  if k < 31 then (w.setWidth (8 * (k.toNat + 1))).signExtend 256 else w

/-- Byte `k` of `w`, counted from the most significant one; zero past the last byte. -/
def byteAt (k w : Word) : Word :=
  if k < 32 then (w >>> (8 * (31 - k.toNat))) &&& 0xff else 0

end Word

end EvmFlow
