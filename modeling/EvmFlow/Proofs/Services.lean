import EvmFlow.Compiler.Standard
import Mathlib.Data.Set.Function

/-!
# The laws of services

What is assumed of the services of a compiler. The laws speak about the operations that a map or a
pool has seen since it was made, and not about how it is made up.

* `BoundedMap.Op`, `BoundedMap.after`: the operations on a map, and the map they leave;
* `BoundedMap.lastStored`: what was last stored for a key and has not been removed;
* `BoundedMap.Lawful`: a map keeps to its room, and what is read was last stored;
* `WorkerPool.Op`, `WorkerPool.after`, `WorkerPool.Lawful`: a pool takes every task until it is
  released and then none;
* `Services.Lawful`: lawful maps and pools, and no two codes in use with the same hash;
* **`Services.lawful_standard`**: the standard services are lawful wherever Keccak-256 has no
  collisions.
-/

namespace EvmFlow

/-! ## Maps -/

namespace BoundedMap

variable {κ α : Type}

/-- An operation on a map. -/
inductive Op (κ α : Type) where
  | get (k : κ)
  | add (k : κ) (v : α)
  | remove (k : κ)

/-- The map that an operation leaves. -/
def apply (m : BoundedMap κ α) (e : m.Entries) : Op κ α → m.Entries
  | .get k => (m.get e k).2
  | .add k v => m.add e k v
  | .remove k => m.remove e k

/-- A map with room for `n` entries after operations, of which the latest stands first. -/
def after (m : BoundedMap κ α) (n : Int) : List (Op κ α) → m.Entries
  | [] => m.new n
  | op :: earlier => m.apply (m.after n earlier) op

/-- What was last stored for a key and has not been removed. -/
def lastStored [DecidableEq κ] (k : κ) : List (Op κ α) → Option α
  | [] => none
  | .get _ :: earlier => lastStored k earlier
  | .add k' v :: earlier => if k' = k then some v else lastStored k earlier
  | .remove k' :: earlier => if k' = k then none else lastStored k earlier

/-- A map keeps at most as many entries as it has room for, and gives for a key only what was last
stored for it, and nothing once that was removed. It may lose entries at any time. -/
structure Lawful [DecidableEq κ] (m : BoundedMap κ α) : Prop where
  size_le : ∀ {n : Int}, 0 < n → ∀ ops, (m.size (m.after n ops) : Int) ≤ n
  lastStored_of_get : ∀ {n : Int}, 0 < n → ∀ {ops k v},
    (m.get (m.after n ops) k).1 = some v → lastStored k ops = some v

end BoundedMap

/-! ## Pools -/

namespace WorkerPool

/-- An operation on a pool. -/
inductive Op where
  | submit
  | release

/-- The pool that an operation leaves. -/
def apply (w : WorkerPool) (p : w.Pool) : Op → w.Pool
  | .submit => (w.submit p).2
  | .release => w.release p

/-- A pool after operations, of which the latest stands first. -/
def after (w : WorkerPool) (p : w.Pool) : List Op → w.Pool
  | [] => p
  | op :: earlier => w.apply (w.after p earlier) op

/-- A pool can be had with any number of workers. It takes every task until it is released; from
then on it says that it is closed. -/
structure Lawful (w : WorkerPool) : Prop where
  exists_new : ∀ n, ∃ p, w.new n = .ok p
  submit_of_open : ∀ {n p}, w.new n = .ok p → ∀ {ops}, Op.release ∉ ops →
    (w.submit (w.after p ops)).1 = .ok ()
  submit_of_released : ∀ {n p}, w.new n = .ok p → ∀ {ops}, Op.release ∈ ops →
    ∃ e, (w.submit (w.after p ops)).1 = .error e ∧ w.isClosed e = true

end WorkerPool

/-- What is assumed of services where certain codes are in use. -/
structure Services.Lawful (s : Services) (used : Set (List UInt8)) : Prop where
  map : s.map.Lawful
  workers : s.workers.Lawful
  hash : Set.InjOn s.hash used

/-! ## The standard services -/

namespace Cache

variable {κ α : Type} [DecidableEq κ] {c : Cache κ α} {k : κ} {v : α} {x : κ × α}

theorem mem_erase : x ∈ (c.erase k).entries ↔ x ∈ c.entries ∧ x.1 ≠ k := by simp [erase]

theorem mem_of_mem_insert (h : x ∈ (c.insert k v).entries) :
    x = (k, v) ∨ x ∈ c.entries ∧ x.1 ≠ k := by
  rcases List.mem_cons.mp (List.mem_of_mem_take h) with h | h
  · exact .inl h
  · exact .inr (mem_erase.mp h)

theorem mem_of_lookup (h : c.entries.lookup k = some v) : (k, v) ∈ c.entries := by
  obtain ⟨front, back, heq, -⟩ := List.lookup_eq_some_iff.mp h
  rw [heq]
  exact List.mem_append_right front List.mem_cons_self

theorem mem_of_get (h : (c.get k).1 = some v) : (k, v) ∈ c.entries := by
  unfold get at h
  split at h
  · next w hw =>
    obtain rfl := Option.some.inj h
    exact mem_of_lookup hw
  · cases h

/-- Reading takes nothing in. -/
theorem mem_of_mem_get (h : x ∈ (c.get k).2.entries) : x ∈ c.entries := by
  unfold get at h
  split at h
  · next w hw =>
    rcases mem_of_mem_insert h with rfl | h
    · exact mem_of_lookup hw
    · exact h.1
  · exact h

theorem size_insert_le : (c.insert k v).size ≤ c.capacity := List.length_take_le _ _

theorem size_erase_le : (c.erase k).size ≤ c.size := List.length_filter_le _ _

theorem capacity_get : (c.get k).2.capacity = c.capacity := by
  unfold get
  split <;> rfl

theorem size_get_le (h : c.size ≤ c.capacity) : (c.get k).2.size ≤ c.capacity := by
  unfold get
  split
  · exact size_insert_le
  · exact h

/-- A cache keeps its capacity and keeps to it. -/
theorem after_fits {n : Int} (hn : 0 < n) (ops : List (BoundedMap.Op κ α)) :
    ((map κ α).after n ops).capacity = n.toNat ∧
      ((map κ α).after n ops).size ≤ n.toNat := by
  induction ops with
  | nil => exact ⟨if_neg (by omega), Nat.zero_le _⟩
  | cons op earlier ih =>
    obtain ⟨hcapacity, hsize⟩ := ih
    cases op with
    | get k =>
      exact ⟨capacity_get.trans hcapacity, hcapacity ▸ size_get_le (hsize.trans hcapacity.ge)⟩
    | add k v => exact ⟨hcapacity, hcapacity ▸ size_insert_le⟩
    | remove k => exact ⟨hcapacity, size_erase_le.trans hsize⟩

/-- An entry of a cache is what was last stored for its key. -/
theorem lastStored_of_mem {n : Int} {ops : List (BoundedMap.Op κ α)}
    (h : (k, v) ∈ ((map κ α).after n ops).entries) : BoundedMap.lastStored k ops = some v := by
  induction ops with
  | nil => cases h
  | cons op earlier ih =>
    cases op with
    | get k' => exact ih (mem_of_mem_get h)
    | add k' w =>
      rcases mem_of_mem_insert h with heq | ⟨hold, hne⟩
      · obtain ⟨rfl, rfl⟩ := Prod.mk.inj heq
        exact if_pos rfl
      · exact (if_neg (Ne.symm hne)).trans (ih hold)
    | remove k' =>
      obtain ⟨hold, hne⟩ := mem_erase.mp h
      exact (if_neg (Ne.symm hne)).trans (ih hold)

theorem lawful_map : (map κ α).Lawful where
  size_le hn ops := by
    have hsize : (map κ α).size ((map κ α).after _ ops) ≤ _ := (after_fits hn ops).2
    omega
  lastStored_of_get _ _ _ _ h := lastStored_of_mem (mem_of_get h)

end Cache

namespace ClosablePool

theorem closed_after (ops : List WorkerPool.Op) :
    (workers.after ({} : ClosablePool) ops).closed = true ↔ WorkerPool.Op.release ∈ ops := by
  induction ops with
  | nil => simp [WorkerPool.after]
  | cons op earlier ih =>
    cases op with
    | submit => exact ih.trans (by simp)
    | release => exact iff_of_true rfl List.mem_cons_self

theorem lawful_workers : workers.Lawful where
  exists_new _ := ⟨{}, rfl⟩
  submit_of_open := by
    rintro n p ⟨⟩ ops h
    exact if_neg (mt (closed_after ops).mp h)
  submit_of_released := by
    rintro n p ⟨⟩ ops h
    exact ⟨.closed, if_pos ((closed_after ops).mpr h), rfl⟩

end ClosablePool

/-- **The standard services are lawful** for codes with different hashes. -/
theorem Services.lawful_standard (processors : Nat) {used : Set (List UInt8)}
    (h : Set.InjOn Keccak.hash256 used) : (standard processors).Lawful used :=
  ⟨Cache.lawful_map, ClosablePool.lawful_workers, h⟩

end EvmFlow
