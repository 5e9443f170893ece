/-!
# Keccak-256

The hash by which code is known: a sponge over 25 lanes of 64 bits, of which each block of the
padded input fills the first 17.

* `Keccak.permute`: the permutation, in 24 rounds;
* `Keccak.pad`, `Keccak.absorb`: the blocks of the input;
* `Keccak.hash256`: the hash, 32 bytes.
-/

namespace EvmFlow.Keccak

/-- The lanes of a state; the one in column `x` and row `y` stands at `x + 5 * y`. -/
abbrev State := List UInt64

/-- A lane; columns and rows count round. -/
def lane (s : State) (x y : Nat) : UInt64 := s.getD (x % 5 + 5 * (y % 5)) 0

/-- The state with given lanes. -/
def ofLanes (f : Nat → Nat → UInt64) : State := (List.range 25).map fun i => f (i % 5) (i / 5)

/-- Turns a lane to the left. -/
def rotate (w n : UInt64) : UInt64 := w <<< n ||| w >>> (64 - n)

/-- Adds to each lane the parities of the columns on its two sides. -/
def theta (s : State) : State :=
  let parities := (List.range 5).map fun x => (List.range 5).foldl (fun p y => p ^^^ lane s x y) 0
  let parity (x : Nat) : UInt64 := parities.getD (x % 5) 0
  ofLanes fun x y => lane s x y ^^^ parity (x + 4) ^^^ rotate (parity (x + 1)) 1

/-- How far each lane is turned. -/
def turns : List UInt64 :=
  [0, 1, 62, 28, 27, 36, 44, 6, 55, 20, 3, 10, 43, 25, 39, 41, 45, 15, 21, 8, 18, 2, 61, 56, 14]

/-- Turns each lane and moves it to its new place. -/
def rhoPi (s : State) : State :=
  let turned := List.zipWith rotate s turns
  ofLanes fun x y => lane turned (x + 3 * y) x

/-- Mixes each lane with the next two of its row. -/
def chi (s : State) : State :=
  ofLanes fun x y => lane s x y ^^^ (~~~ lane s (x + 1) y &&& lane s (x + 2) y)

/-- The constants of the rounds. -/
def constants : List UInt64 :=
  [0x0000000000000001, 0x0000000000008082, 0x800000000000808a, 0x8000000080008000,
    0x000000000000808b, 0x0000000080000001, 0x8000000080008081, 0x8000000000008009,
    0x000000000000008a, 0x0000000000000088, 0x0000000080008009, 0x000000008000000a,
    0x000000008000808b, 0x800000000000008b, 0x8000000000008089, 0x8000000000008003,
    0x8000000000008002, 0x8000000000000080, 0x000000000000800a, 0x800000008000000a,
    0x8000000080008081, 0x8000000000008080, 0x0000000080000001, 0x8000000080008008]

/-- The permutation: one round for each constant. -/
def permute (s : State) : State :=
  constants.foldl (fun s k => (chi (rhoPi (theta s))).modifyHead (· ^^^ k)) s

/-- The number of bytes in a block. -/
def rate : Nat := 136

/-- Fills the last block up: a first bit and a last one, and none between them. -/
def pad (bytes : List UInt8) : List UInt8 :=
  let room := rate - bytes.length % rate
  if room = 1 then bytes ++ [0x81] else bytes ++ 0x01 :: List.replicate (room - 2) 0 ++ [0x80]

/-- The lane of eight bytes, the least significant first. -/
def ofBytes (bytes : List UInt8) : UInt64 := bytes.foldr (fun b w => w <<< 8 ||| b.toUInt64) 0

/-- The eight bytes of a lane. -/
def toBytes (w : UInt64) : List UInt8 :=
  (List.range 8).map fun i => (w >>> (8 * i.toUInt64)).toUInt8

/-- Takes in a block. -/
def absorb (s : State) (block : List UInt8) : State :=
  permute (s.mapIdx fun i w => w ^^^ ofBytes ((block.drop (8 * i)).take 8))

/-- The hash of a byte string. -/
def hash256 (bytes : List UInt8) : List UInt8 :=
  let padded := pad bytes
  let s := (List.range (padded.length / rate)).foldl
    (fun s i => absorb s ((padded.drop (rate * i)).take rate)) (List.replicate 25 0)
  (s.take 4).flatMap toBytes

end EvmFlow.Keccak
