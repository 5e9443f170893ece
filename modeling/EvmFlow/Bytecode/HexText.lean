import EvmFlow.Text.Blank
import EvmFlow.Text.Hex
import EvmFlow.Text.Printable

/-!
# Code given as hexadecimal text

The text may hold white space anywhere and may start with `0x` or `0X`. Its length and its digits
are those of its UTF-8 bytes.

* `HexText.Error`: what can be wrong with a text, and its wording;
* `HexText.pairs`: bytes from pairs of digits;
* `HexText.parse`: the code denoted by a text.
-/

namespace EvmFlow.HexText

/-- What can be wrong with a text: an odd number of digits, or a byte that is no digit. -/
inductive Error where
  | oddLength (digits : Nat)
  | badByte (b : UInt8)
deriving DecidableEq

/-- The code point `n` in the notation of the Unicode standard, followed by the character itself if
it is printable. -/
def codePoint (n : Nat) : String :=
  let c := Char.ofNat n
  let code := "U+" ++ (Hex.padded 4 n).map Char.toUpper
  if isPrintable c then code ++ " '" ++ String.singleton c ++ "'" else code

/-- The wording of an error. -/
def Error.message : Error → String
  | oddLength digits => s!"odd length hex string ({digits} digits)"
  | badByte b => "decode bytecode: encoding/hex: invalid byte: " ++ codePoint b.toNat

/-- The value of a digit, or the error that names the byte. -/
def digit (b : UInt8) : Except Error UInt8 :=
  match Hex.digit? b with
  | some d => .ok d
  | none => .error (.badByte b)

/-- The bytes written as pairs of digits. -/
def pairs : List UInt8 → Except Error (List UInt8)
  | hi :: lo :: rest => do
    let h ← digit hi
    let l ← digit lo
    return (16 * h + l) :: (← pairs rest)
  | _ => .ok []

/-- The text behind a leading `0` and `mark`, or the whole text if it does not start so. -/
def dropMark (mark : Char) : List Char → List Char
  | '0' :: c :: rest => if c = mark then rest else '0' :: c :: rest
  | cs => cs

/-- The digits of a text: white space is dropped, then a leading `0x`, then a leading `0X`. -/
def digitsOf (s : String) : List UInt8 :=
  let cs := dropMark 'X' (dropMark 'x' (removeBlanks s.toList))
  cs.flatMap String.utf8EncodeChar

/-- The code denoted by a text. -/
def parse (s : String) : Except Error (List UInt8) :=
  let ds := digitsOf s
  if ds.length % 2 = 1 then .error (.oddLength ds.length) else pairs ds

end EvmFlow.HexText
