import EvmFlow.Text.Hex
import EvmFlow.Text.Printable

/-!
# Quoted text

A string between double quotes. Printable characters stand for themselves, a quote and a backslash
follow a backslash, seven control characters have a letter of their own, and every other character
is written by its code.

* `Quoted.escape`: how one character is written;
* `Quoted.render`: the quoted string.
-/

namespace EvmFlow.Quoted

/-- The letter that names a control character after a backslash. -/
def letter? (c : Char) : Option Char :=
  match c.toNat with
  | 0x07 => some 'a'
  | 0x08 => some 'b'
  | 0x09 => some 't'
  | 0x0a => some 'n'
  | 0x0b => some 'v'
  | 0x0c => some 'f'
  | 0x0d => some 'r'
  | _ => none

/-- The code of a character that is neither printable nor named: two digits in the ASCII range, four
in the basic plane, eight above. -/
def byCode (c : Char) : String :=
  if c.toNat < 0x80 then "\\x" ++ Hex.padded 2 c.toNat
  else if c.toNat < 0x10000 then "\\u" ++ Hex.padded 4 c.toNat
  else "\\U" ++ Hex.padded 8 c.toNat

/-- How a character is written between the quotes. -/
def escape (c : Char) : String :=
  if c = '"' ∨ c = '\\' then String.ofList ['\\', c]
  else if isPrintable c then String.singleton c
  else match letter? c with
    | some l => String.ofList ['\\', l]
    | none => byCode c

/-- The quoted form of `s`. -/
def render (s : String) : String :=
  "\"" ++ String.join (s.toList.map escape) ++ "\""

end EvmFlow.Quoted
