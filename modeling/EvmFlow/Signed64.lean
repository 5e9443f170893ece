/-!
# Signed 64-bit numbers

Counts and indices are integers that fit in 64 bits with a sign.

* `Signed64.modulus`: the number of such integers;
* `Signed64.wrap`: the one that an integer is congruent to;
* `Signed64.fits`: whether an integer is one of them.
-/

namespace EvmFlow.Signed64

/-- The number of integers of 64 bits. -/
def modulus : Nat := 0x10000000000000000

/-- The signed number of 64 bits that is congruent to `i`. -/
def wrap (i : Int) : Int := i.bmod modulus

/-- Whether `i` is a signed number of 64 bits. -/
def fits (i : Int) : Bool := -0x8000000000000000 ≤ i && i < 0x8000000000000000

end EvmFlow.Signed64
