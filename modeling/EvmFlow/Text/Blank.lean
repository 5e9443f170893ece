/-!
# White space

* `isBlank`: the white space characters of Unicode;
* `removeBlanks`: a text without them.
-/

namespace EvmFlow

/-- The white space characters of Unicode. -/
def isBlank (c : Char) : Bool :=
  let n := c.toNat
  (0x09 ≤ n && n ≤ 0x0d) || n == 0x20 || n == 0x85 || n == 0xa0 || n == 0x1680 ||
    (0x2000 ≤ n && n ≤ 0x200a) || n == 0x2028 || n == 0x2029 || n == 0x202f || n == 0x205f ||
    n == 0x3000

/-- The characters of `s` that are not white space, in order. -/
def removeBlanks (s : List Char) : List Char := s.filter fun c => !isBlank c

end EvmFlow
