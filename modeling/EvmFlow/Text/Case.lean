/-!
# Lower case

Keywords are recognised in either case. The keywords are ASCII, so only the characters whose
lower-case form is ASCII matter: the capital letters, the dotted capital I and the Kelvin sign.

* `lowerAscii`: the lower-case form of these characters, and every other character unchanged;
* `sameKeyword`: whether a text spells a keyword.
-/

namespace EvmFlow

/-- The lower-case form of `c` if that is an ASCII character, else `c`. -/
def lowerAscii (c : Char) : Char :=
  if c.toNat = 0x130 then 'i'
  else if c.toNat = 0x212a then 'k'
  else c.toLower

/-- Whether `s` spells the lower-case ASCII text `keyword` up to case. -/
def sameKeyword (s keyword : String) : Bool := s.toList.map lowerAscii == keyword.toList

end EvmFlow
