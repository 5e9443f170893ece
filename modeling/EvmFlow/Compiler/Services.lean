/-!
# Services

What the compiler takes from outside, as parameters: how code is hashed, the map that keeps recent
programs, the pool of workers that compile lists, and the number of processors.

* `BoundedMap`: maps with room for a limited number of entries;
* `WorkerPool`: pools that tasks are handed over to;
* `Services`: all that a compiler relies on.
-/

namespace EvmFlow

/-- Maps with room for a limited number of entries. Reading may change a map too, for it can depend
on the reads which entry makes room for the next. -/
structure BoundedMap (κ α : Type) where
  Entries : Type
  /-- The empty map with room for a number of entries. -/
  new : Int → Entries
  get : Entries → κ → Option α × Entries
  add : Entries → κ → α → Entries
  remove : Entries → κ → Entries
  size : Entries → Nat

/-- Pools of workers. -/
structure WorkerPool where
  Pool : Type
  Error : Type
  /-- A pool of a number of workers. -/
  new : Int → Except Error Pool
  /-- Hands a task over, if the pool takes it. -/
  submit : Pool → Except Error Unit × Pool
  /-- Closes the pool. -/
  release : Pool → Pool
  /-- Whether an error says that the pool is closed. -/
  isClosed : Error → Bool
  message : Error → String

/-- What a compiler relies on. -/
structure Services where
  Hash : Type
  [hashEq : DecidableEq Hash]
  /-- The hash of a code. -/
  hash : List UInt8 → Hash
  /-- The digits of a hash. -/
  hex : Hash → String
  /-- The map that keeps the handles of programs by the hashes of their codes. -/
  map : BoundedMap Hash Nat
  workers : WorkerPool
  processors : Nat

instance (s : Services) : DecidableEq s.Hash := s.hashEq

end EvmFlow
