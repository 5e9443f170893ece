import EvmFlow.Compiler.Services
import EvmFlow.Keccak
import EvmFlow.Text.Hex

/-!
# The standard services

* `Cache`: a map that makes room by dropping the entry that was used least recently;
* `Cache.map`, `ClosablePool.workers`: maps and pools of this kind;
* `Services.standard`: code hashed by Keccak-256, a least-recently-used map, and a pool that takes
  tasks until it is closed.
-/

namespace EvmFlow

/-- Entries by key, the most recent first. -/
structure Cache (κ : Type) (α : Type) where
  capacity : Nat
  entries : List (κ × α) := []

namespace Cache

variable {κ α : Type} [DecidableEq κ]

/-- The number of entries. -/
def size (c : Cache κ α) : Nat := c.entries.length

/-- Removes the entry of a key. -/
def erase (c : Cache κ α) (k : κ) : Cache κ α :=
  { c with entries := c.entries.filter (·.1 ≠ k) }

/-- Makes an entry the most recent one and drops the least recent ones beyond the capacity. -/
def insert (c : Cache κ α) (k : κ) (v : α) : Cache κ α :=
  { c with entries := ((k, v) :: (c.erase k).entries).take c.capacity }

/-- The entry of a key, which becomes the most recent one. -/
def get (c : Cache κ α) (k : κ) : Option α × Cache κ α :=
  match c.entries.lookup k with
  | some v => (some v, c.insert k v)
  | none => (none, c)

/-- The maps that keep the entries used most recently; there is room for one entry at least. -/
def map (κ α : Type) [DecidableEq κ] : BoundedMap κ α where
  Entries := Cache κ α
  new n := { capacity := if n ≤ 0 then 1 else n.toNat }
  get := get
  add := insert
  remove := erase
  size := size

end Cache

/-- A pool that is open or closed. -/
structure ClosablePool where
  closed : Bool := false

/-- Why a pool takes no task: it is closed. -/
inductive ClosablePool.Error where
  | closed
deriving DecidableEq

/-- The pools that take every task until they are closed. -/
def ClosablePool.workers : WorkerPool where
  Pool := ClosablePool
  Error := ClosablePool.Error
  new _ := .ok {}
  submit p := (if p.closed then .error .closed else .ok (), p)
  release _ := { closed := true }
  isClosed _ := true
  message _ := "this pool has been closed"

/-- The services of a machine with a number of processors. -/
def Services.standard (processors : Nat) : Services where
  Hash := List UInt8
  hash := Keccak.hash256
  hex := Hex.ofBytes
  map := Cache.map (List UInt8) Nat
  workers := ClosablePool.workers
  processors := processors

end EvmFlow
