import EvmFlow.Proofs.LiftedStack
import Mathlib.Algebra.Order.Ring.Nat
import Mathlib.Data.List.Basic

/-!
# Lifted code follows the stack machine

The symbolic model satisfies the laws of a stack model. Between two instructions the stack of the
machine is the local stack, followed by the entry stack without the entries taken, where an entry
that has a symbol is read through it. Slots have 32 bits, so this holds as long as no more than
`2 ^ 32` entries of the entry stack are in reach.

* `LiftedStack.argumentAt?`, `LiftedStack.view`: the entry stack, read through its symbols;
* `LiftedStack.Detached`: symbols that no later exchange assigns;
* `LiftedRun`, `LiftedRun.Agrees`, `LiftedRun.Rel`: a run of the code made so far, and its relation
  to the machine;
* `LiftedRun.Agrees.setLocal`, `LiftedRun.Agrees.setEntry`: the two ways in which an exchange
  changes the stack;
* `LiftedRun.simulation`: the laws of the model.
-/

namespace EvmFlow

open Stateful

/-! ## The entry stack -/

theorem int32_ofNat_inj {j k : Nat} (hj : j < 2 ^ 32) (hk : k < 2 ^ 32)
    (h : Int32.ofNat j = Int32.ofNat k) : j = k := by
  have hbits : (BitVec.ofNat 32 j).toNat = (BitVec.ofNat 32 k).toNat :=
    congrArg (fun i => i.toBitVec.toNat) h
  rwa [BitVec.toNat_ofNat, BitVec.toNat_ofNat, Nat.mod_eq_of_lt hj, Nat.mod_eq_of_lt hk] at hbits

namespace LiftedStack

/-- The symbol of the entry at a depth. -/
def argumentAt? (s : LiftedStack) (k : Nat) : Option SymbolRef :=
  if k < 2 ^ 32 then s.arguments.lookup (Int32.ofNat k) else none

/-- The entry stack, where an entry that has a symbol is read through it. -/
def view (s : LiftedStack) (values : SymbolRef → Word) (entry : List Word) : List Word :=
  entry.mapIdx fun k w => ((s.argumentAt? k).map values).getD w

/-- A known symbol that belongs to no entry still on the stack. -/
structure Detached (s : LiftedStack) (x : SymbolRef) : Prop where
  knows : s.symbols.Knows x
  lt_borrows : ∀ {k}, s.argumentAt? k = some x → k < s.borrows

variable {s s' : LiftedStack} {k n : Nat} {x ref : SymbolRef}

theorem argumentAt?_of_lt (h : k < 2 ^ 32) :
    s.argumentAt? k = s.arguments.lookup (Int32.ofNat k) := if_pos h

theorem argumentAt?_eq_some (h : s.argumentAt? k = some ref) :
    k < 2 ^ 32 ∧ s.arguments.lookup (Int32.ofNat k) = some ref := by
  unfold argumentAt? at h
  split at h
  · next hk => exact ⟨hk, h⟩
  · cases h

theorem WellFormed.isSlot (h : s.WellFormed) (ha : s.argumentAt? k = some ref) :
    s.symbols.IsSlot s.node (Int32.ofNat k) ref := h.argument (argumentAt?_eq_some ha).2

theorem WellFormed.knows (h : s.WellFormed) (ha : s.argumentAt? k = some ref) :
    s.symbols.Knows ref := (h.isSlot ha).knows

/-- Different entries have different symbols. -/
theorem WellFormed.depth_unique (h : s.WellFormed) {j : Nat} (hj : s.argumentAt? j = some ref)
    (hk : s.argumentAt? k = some ref) : j = k :=
  int32_ofNat_inj (argumentAt?_eq_some hj).1 (argumentAt?_eq_some hk).1
    ((h.isSlot hj).slot_unique (h.isSlot hk))

theorem Extends.argumentAt? (h : s.Extends s') (ha : s.argumentAt? k = some ref) :
    s'.argumentAt? k = some ref := by
  obtain ⟨hk, hl⟩ := argumentAt?_eq_some ha
  rw [argumentAt?_of_lt hk]
  exact h.argument hl

theorem Extends.argumentAt?_cases (h : s.Extends s') (ha : s'.argumentAt? k = some ref) :
    s.argumentAt? k = some ref ∨ ¬ s.symbols.Knows ref := by
  obtain ⟨hk, hl⟩ := argumentAt?_eq_some ha
  rw [argumentAt?_of_lt hk]
  exact h.argument_cases hl

theorem Detached.extends (hx : s.Detached x) (h : s.Extends s') : s'.Detached x where
  knows := h.grows.knows hx.knows
  lt_borrows ha := by
    rw [h.borrows]
    rcases h.argumentAt?_cases ha with ha | hnew
    · exact hx.lt_borrows ha
    · exact absurd hx.knows hnew

theorem Detached.of_eq (hx : s.Detached x) (hs : s'.symbols = s.symbols)
    (ha : s'.arguments = s.arguments) (hb : s.borrows ≤ s'.borrows) : s'.Detached x where
  knows := by
    rw [hs]
    exact hx.knows
  lt_borrows {k} hk := by
    unfold argumentAt? at hk
    rw [ha] at hk
    exact Nat.lt_of_lt_of_le (hx.lt_borrows hk) hb

/-- Symbols that are no entry slots are detached. -/
theorem WellFormed.detached_of_isTemporary (h : s.WellFormed) (hx : s.symbols.IsTemporary x) :
    s.Detached x := ⟨hx.knows, fun ha => absurd (h.isSlot ha) hx.not_isSlot⟩

theorem WellFormed.detached_of_isConstant (h : s.WellFormed) {w : Word}
    (hx : s.symbols.IsConstant x w) : s.Detached x :=
  ⟨hx.knows, fun ha => absurd hx (h.isSlot ha).not_isConstant⟩

theorem slot_eq (h : s.stack.length ≤ n) :
    s.slot n = Int32.ofNat (n - s.stack.length + s.borrows) := by
  rw [slot, ← Int32.ofInt_eq_ofNat]
  congr 1
  omega

/-- The symbol that is read below the local stack is that of the entry there. -/
theorem argumentAt?_of_lookup_slot (h : s.stack.length ≤ n)
    (hl : s'.arguments.lookup (s.slot n) = some ref)
    (hk : n - s.stack.length + s.borrows < 2 ^ 32) :
    s'.argumentAt? (n - s.stack.length + s.borrows) = some ref := by
  rw [argumentAt?_of_lt hk, ← slot_eq h, hl]

/-- An entry that is taken from the stack is detached from it. -/
theorem WellFormed.detached_of_taken (h : s.WellFormed)
    (hl : s.arguments.lookup (Int32.ofNat s.borrows) = some ref) :
    Detached { s with borrows := s.borrows + 1 } ref where
  knows := (h.argument hl).knows
  lt_borrows {k} ha := by
    obtain ⟨hk, hl'⟩ := argumentAt?_eq_some (s := s) ha
    have hslot := (h.argument hl').slot_unique (h.argument hl)
    change k < s.borrows + 1
    by_cases hb : s.borrows < 2 ^ 32
    · rw [int32_ofNat_inj hk hb hslot]
      exact Nat.lt_succ_self _
    · omega

end LiftedStack

/-! ## Runs of the code made so far -/

/-- What a run of lifted code depends on: the environment, the table and the symbols of the entries
in the end, the machine at the start and the entry stack; at the start constants have their values
and symbols of entries hold the entries. -/
structure LiftedRun (σ : Type) where
  environment : Environment σ
  table : SymbolTable
  arguments : Nat → Option SymbolRef
  start : Machine σ
  entry : List Word
  consistent : table.Consistent
  depth : entry.length ≤ 2 ^ 32
  constant : ∀ {ref w}, table.IsConstant ref w → start.values ref = w
  argument : ∀ {k ref w}, arguments k = some ref → entry[k]? = some w → start.values ref = w

namespace LiftedRun

variable {σ : Type} (r : LiftedRun σ)

/-- The machine after the code made so far. -/
def machine (s : LiftedStack) : Machine σ := r.start.run r.environment r.table s.out.toList

/-- The run is one of code that the state can still become. -/
structure Later (s : LiftedStack) : Prop where
  grows : s.symbols.Grows r.table
  argument : ∀ {k ref}, s.argumentAt? k = some ref → r.arguments k = some ref

/-- The word of the entry stack at a depth. -/
def wordAt (s : LiftedStack) (m : Machine σ) (k : Nat) : Option Word :=
  r.entry[k]?.map fun w => ((s.argumentAt? k).map m.values).getD w

/-- The word at a depth: on the local stack, or else among the entries not taken. -/
def entryAt (s : LiftedStack) (m : Machine σ) (i : Nat) : Option Word :=
  match s.stack[i]? with
  | some ref => some (m.values ref)
  | none => r.wordAt s m (i - s.stack.length + s.borrows)

/-- The machine `m` stands for a state of the stack machine. -/
structure Agrees (s : LiftedStack) (e : Evm.State σ) (m : Machine σ) : Prop where
  constant : ∀ {ref w}, r.table.IsConstant ref w → m.values ref = w
  unassigned : ∀ {ref}, ¬ s.symbols.Knows ref → m.values ref = r.start.values ref
  stack : ∀ i, e.stack[i]? = r.entryAt s m i
  env : m.env = e.env
  trace : m.trace = e.trace
  borrows : s.borrows ≤ r.entry.length

/-- The code made so far leads to the given state of the machine. -/
structure Rel (s : LiftedStack) (e : Evm.State σ) : Prop where
  wellFormed : s.WellFormed
  detached : ∀ ref ∈ s.stack, s.Detached ref
  agrees : r.Later s → r.Agrees s e (r.machine s)

/-- A detached symbol holds a word. -/
structure Holds (s : LiftedStack) (x : SymbolRef) (w : Word) : Prop where
  detached : s.Detached x
  value : r.Later s → (r.machine s).values x = w

variable {r}

section Extends

variable {s s' : LiftedStack} {e : Evm.State σ} {x : SymbolRef} {w : Word}

theorem machine_extends (h : s.Extends s') : r.machine s' = r.machine s := by
  rw [machine, machine, h.out]

theorem Later.of_extends (hl : r.Later s') (h : s.Extends s') : r.Later s :=
  ⟨h.grows.trans hl.grows, fun ha => hl.argument (h.argumentAt? ha)⟩

/-- A symbol that is put in for an entry holds the entry, so reading through it changes nothing. -/
theorem Agrees.wordAt_extends {m : Machine σ} (ha : r.Agrees s e m) (h : s.Extends s')
    (hl : r.Later s') (k : Nat) : r.wordAt s' m k = r.wordAt s m k := by
  unfold wordAt
  cases hk : r.entry[k]? with
  | none => rfl
  | some w =>
    cases hs : s.argumentAt? k with
    | some ref => rw [h.argumentAt? hs]
    | none =>
      cases hs' : s'.argumentAt? k with
      | none => rfl
      | some ref =>
        rcases h.argumentAt?_cases hs' with hold | hnew
        · rw [hs] at hold
          cases hold
        · simp [ha.unassigned hnew, r.argument (hl.argument hs') hk]

theorem Agrees.extends {m : Machine σ} (ha : r.Agrees s e m) (h : s.Extends s') (hl : r.Later s') :
    r.Agrees s' e m where
  constant := ha.constant
  unassigned hn := ha.unassigned fun hk => hn (h.grows.knows hk)
  stack i := by
    rw [ha.stack, entryAt, entryAt, h.stack, h.borrows, ha.wordAt_extends h hl]
  env := ha.env
  trace := ha.trace
  borrows := h.borrows ▸ ha.borrows

theorem Rel.extends (hr : r.Rel s e) (h : s.Extends s') : r.Rel s' e where
  wellFormed := h.wellFormed
  detached ref hx := by
    rw [h.stack] at hx
    exact (hr.detached ref hx).extends h
  agrees hl := by
    rw [machine_extends h]
    exact (hr.agrees (hl.of_extends h)).extends h hl

theorem Holds.extends (hx : r.Holds s x w) (h : s.Extends s') : r.Holds s' x w where
  detached := hx.detached.extends h
  value hl := by
    rw [machine_extends h]
    exact hx.value (hl.of_extends h)

theorem Rel.holds_constant (hr : r.Rel s e) (hx : s.symbols.IsConstant x w) : r.Holds s x w :=
  ⟨hr.wellFormed.detached_of_isConstant hx, fun hl => (hr.agrees hl).constant (hx.grows hl.grows)⟩

theorem Holds.map_values {refs : List SymbolRef} {ws : List Word}
    (h : List.Forall₂ (r.Holds s) refs ws) (hl : r.Later s) :
    refs.map (r.machine s).values = ws := by
  induction h with
  | nil => rfl
  | cons hx _ ih => rw [List.map_cons, hx.value hl, ih]

end Extends

/-! ## Changes of the stack and of values -/

section Changes

variable {s : LiftedStack} {e : Evm.State σ} {m : Machine σ}

theorem entryAt_local {i : Nat} {ref : SymbolRef} (h : s.stack[i]? = some ref) :
    r.entryAt s m i = some (m.values ref) := by
  simp only [entryAt, h]

theorem entryAt_entry {i : Nat} (h : s.stack.length ≤ i) :
    r.entryAt s m i = r.wordAt s m (i - s.stack.length + s.borrows) := by
  simp only [entryAt, List.getElem?_eq_none h]

/-- Words on the stack depend on the values of its symbols only. -/
theorem entryAt_congr {m' : Machine σ} (hlocal : ∀ ref ∈ s.stack, m'.values ref = m.values ref)
    {i : Nat} (hentry : s.stack.length ≤ i →
      r.wordAt s m' (i - s.stack.length + s.borrows) =
        r.wordAt s m (i - s.stack.length + s.borrows)) :
    r.entryAt s m' i = r.entryAt s m i := by
  cases hi : s.stack[i]? with
  | some ref =>
    rw [entryAt_local hi, entryAt_local hi, hlocal ref (List.mem_of_getElem? hi)]
  | none =>
    have hle := List.getElem?_eq_none_iff.mp hi
    rw [entryAt_entry hle, entryAt_entry hle, hentry hle]

theorem wordAt_congr {m' : Machine σ} {k : Nat}
    (h : ∀ ref, s.argumentAt? k = some ref → m'.values ref = m.values ref) :
    r.wordAt s m' k = r.wordAt s m k := by
  unfold wordAt
  cases hs : s.argumentAt? k with
  | none => rfl
  | some ref => simp only [Option.map_some, h ref hs]

/-- An assignment to a temporary that is not on the stack. -/
theorem Agrees.assign (ha : r.Agrees s e m) (hw : s.WellFormed) (hg : s.symbols.Grows r.table)
    {x : SymbolRef} (hx : s.symbols.IsTemporary x) (hstack : x ∉ s.stack) (w : Word) :
    r.Agrees s e (m.assign (some x) w) := by
  have hne : ∀ {ref}, ref ≠ x → (m.assign (some x) w).values ref = m.values ref := fun h =>
    Function.update_of_ne h _ _
  refine ⟨fun {ref v} hc => ?_, fun {ref} hn => ?_, fun i => ?_, ha.env, ha.trace, ha.borrows⟩
  · rw [hne fun he => (hx.grows hg).not_isConstant (he ▸ hc)]
    exact ha.constant hc
  · rw [hne fun he : ref = x => hn (he ▸ hx.knows)]
    exact ha.unassigned hn
  · rw [ha.stack]
    refine (entryAt_congr (fun ref hr => hne fun he => hstack (he ▸ hr)) fun _ => ?_).symm
    exact wordAt_congr fun ref hk => hne fun he => hx.not_isSlot (he ▸ hw.isSlot hk)

/-- A change of a local entry of the stack. -/
theorem Agrees.setLocal (ha : r.Agrees s e m) {j : Nat} (hj : j < s.stack.length) (x : SymbolRef) :
    r.Agrees { s with stack := s.stack.set j x }
      { e with stack := e.stack.set j (m.values x) } m := by
  refine ⟨ha.constant, ha.unassigned, fun i => ?_, ha.env, ha.trace, ha.borrows⟩
  obtain ⟨ref, href⟩ : ∃ ref, s.stack[j]? = some ref := ⟨_, List.getElem?_eq_getElem hj⟩
  have hold : e.stack[j]? = some (m.values ref) := by rw [ha.stack, entryAt_local href]
  change (e.stack.set j (m.values x))[i]? = _
  by_cases hij : j = i
  · subst hij
    have hnew : (s.stack.set j x)[j]? = some x := List.getElem?_set_self hj
    rw [entryAt_local (s := { s with stack := s.stack.set j x }) hnew,
      List.getElem?_set_self (List.getElem?_eq_some_iff.mp hold).1]
  · rw [List.getElem?_set_ne hij, ha.stack]
    simp only [entryAt, List.getElem?_set_ne hij, List.length_set]
    rfl

/-- A change of an entry below the local stack, through its symbol. -/
theorem Agrees.setEntry (ha : r.Agrees s e m) (hw : s.WellFormed) (hg : s.symbols.Grows r.table)
    (hd : ∀ ref ∈ s.stack, s.Detached ref) {j : Nat} (hj : s.stack.length ≤ j) {x : SymbolRef}
    (hx : s.argumentAt? (j - s.stack.length + s.borrows) = some x) (hlt : j < e.stack.length)
    (w : Word) :
    r.Agrees s { e with stack := e.stack.set j w } (m.assign (some x) w) := by
  have hne : ∀ {ref}, ref ≠ x → (m.assign (some x) w).values ref = m.values ref := fun h =>
    Function.update_of_ne h _ _
  have hself : (m.assign (some x) w).values x = w := Function.update_self _ _ _
  have hlocal : ∀ ref ∈ s.stack, ref ≠ x := fun ref hr he => by
    have := (hd ref hr).lt_borrows (he ▸ hx)
    omega
  refine ⟨fun {ref v} hc => ?_, fun {ref} hn => ?_, fun i => ?_, ha.env, ha.trace, ha.borrows⟩
  · rw [hne fun he => ((hw.isSlot hx).grows hg).not_isConstant (he ▸ hc)]
    exact ha.constant hc
  · rw [hne fun he : ref = x => hn (he ▸ hw.knows hx)]
    exact ha.unassigned hn
  change (e.stack.set j w)[i]? = _
  by_cases hij : j = i
  · subst hij
    have hentry : (r.entryAt s m j).isSome := by
      rw [← ha.stack, List.getElem?_eq_getElem hlt]
      rfl
    rw [entryAt_entry hj, wordAt, Option.isSome_map] at hentry
    obtain ⟨v, hv⟩ := Option.isSome_iff_exists.mp hentry
    rw [List.getElem?_set_self hlt, entryAt_entry hj, wordAt, hv, hx, Option.map_some,
      Option.map_some, Option.getD_some, hself]
  · rw [List.getElem?_set_ne hij, ha.stack]
    refine (entryAt_congr (fun ref hr => hne (hlocal ref hr)) fun hi => ?_).symm
    refine wordAt_congr fun ref hk => hne fun he => hij ?_
    have := hw.depth_unique hx (he ▸ hk)
    omega

theorem Agrees.push (ha : r.Agrees s e m) (x : SymbolRef) (height : Int32) :
    r.Agrees { s with stack := x :: s.stack, height }
      { e with stack := m.values x :: e.stack } m := by
  refine ⟨ha.constant, ha.unassigned, fun i => ?_, ha.env, ha.trace, ha.borrows⟩
  cases i with
  | zero => rfl
  | succ i =>
    change e.stack[i]? = _
    rw [ha.stack]
    simp only [entryAt, List.getElem?_cons_succ, List.length_cons, Nat.add_sub_add_right]
    rfl

theorem Agrees.popLocal (ha : r.Agrees s e m) {x : SymbolRef} {rest : List SymbolRef}
    (hs : s.stack = x :: rest) {w : Word} {ws : List Word} (he : e.stack = w :: ws)
    (height : Int32) :
    m.values x = w ∧ r.Agrees { s with stack := rest, height } { e with stack := ws } m := by
  have htop := ha.stack 0
  rw [he, entryAt_local (by rw [hs]; rfl)] at htop
  refine ⟨(Option.some.inj htop).symm, ha.constant, ha.unassigned, fun i => ?_, ha.env, ha.trace,
    ha.borrows⟩
  have hnext := ha.stack (i + 1)
  rw [he, List.getElem?_cons_succ] at hnext
  simp only [entryAt, hs, List.getElem?_cons_succ, List.length_cons,
    Nat.add_sub_add_right] at hnext
  exact hnext

theorem Agrees.popEntry (ha : r.Agrees s e m) (hs : s.stack = []) {w : Word} {ws : List Word}
    (he : e.stack = w :: ws) :
    r.wordAt s m s.borrows = some w ∧
      r.Agrees { s with borrows := s.borrows + 1 } { e with stack := ws } m := by
  have hentry : ∀ i, r.entryAt s m i = r.wordAt s m (i + s.borrows) := fun i => by
    rw [entryAt_entry (by rw [hs]; exact Nat.zero_le i), hs, List.length_nil, Nat.sub_zero]
  have htop : r.wordAt s m s.borrows = some w := by
    have := ha.stack 0
    rw [he, hentry, Nat.zero_add] at this
    exact this.symm
  refine ⟨htop, ha.constant, ha.unassigned, fun i => ?_, ha.env, ha.trace, ?_⟩
  · have hnext := ha.stack (i + 1)
    rw [he, List.getElem?_cons_succ, hentry, Nat.add_right_comm, Nat.add_assoc] at hnext
    simp only [entryAt, hs, List.getElem?_nil, List.length_nil, Nat.sub_zero]
    exact hnext
  · obtain ⟨v, hv, -⟩ := Option.map_eq_some_iff.mp htop
    exact (List.getElem?_eq_some_iff.mp hv).1

/-- An action is seen by the environment and leaves the stack alone. -/
theorem Agrees.act (ha : r.Agrees s e m) (a : Action) (ws : List Word) :
    r.Agrees s ⟨e.stack, (r.environment a ws e.env).2, e.trace ++ [⟨a, ws⟩]⟩
      (m.act r.environment none a ws) :=
  ⟨ha.constant, ha.unassigned, ha.stack, by rw [Machine.act_env, ha.env],
    by rw [Machine.act_trace, ha.trace], ha.borrows⟩

end Changes

/-! ## The operations -/

section Operations

variable {s s' : LiftedStack} {e e' : Evm.State σ}

/-- Neither the code nor the local stack matters for which runs come later. -/
theorem Later.of_eq (hl : r.Later s') (hs : s'.symbols = s.symbols)
    (ha : s'.arguments = s.arguments) : r.Later s :=
  ⟨hs ▸ hl.grows, fun hk => hl.argument (by
    unfold LiftedStack.argumentAt? at hk ⊢
    rw [ha]
    exact hk)⟩

theorem Holds.of_eq {y : SymbolRef} {v : Word} (hy : r.Holds s y v) (hs : s'.symbols = s.symbols)
    (ha : s'.arguments = s.arguments) (ho : s'.out = s.out) (hb : s.borrows ≤ s'.borrows) :
    r.Holds s' y v :=
  ⟨hy.detached.of_eq hs ha hb, fun hl => by
    rw [machine, ho]
    exact hy.value (hl.of_eq hs ha)⟩

theorem machine_emitted (s : LiftedStack) (i : Instruction) :
    r.machine (s.emitted i) = (r.machine s).step r.environment r.table i := by
  rw [machine, machine, LiftedStack.emitted, Array.toList_push, Machine.run_concat]

theorem values_emitted (s : LiftedStack) {i : Instruction} {y : SymbolRef}
    (hne : i.definition? ≠ some y) :
    (r.machine (s.emitted i)).values y = (r.machine s).values y := by
  rw [machine_emitted, Machine.step_values_of_ne _ _ _ hne]

theorem Rel.emitted {i : Instruction} (hr : r.Rel s e)
    (h : r.Later s → r.Agrees s e (r.machine s) →
      r.Agrees s e' ((r.machine s).step r.environment r.table i)) : r.Rel (s.emitted i) e' where
  wellFormed := hr.wellFormed.emitted i
  detached ref hx := (hr.detached ref hx).of_eq rfl rfl (Nat.le_refl _)
  agrees hl := by
    have hl' : r.Later s := hl.of_eq rfl rfl
    have ha := h hl' (hr.agrees hl')
    rw [machine_emitted]
    exact ⟨ha.constant, ha.unassigned, ha.stack, ha.env, ha.trace, ha.borrows⟩

theorem nth {n : Nat} {w : Word} (hr : r.Rel s e) (hget : e.stack[n]? = some w) :
    ∃ ref s', Yields (Lifted.nth n) s ref s' ∧ s.Extends s' ∧ s'.symbols.Knows ref ∧
      (r.Later s' → (r.machine s').values ref = w) ∧
      (s.stack[n]? = some ref ∨
        (r.Later s' → s'.argumentAt? (n - s.stack.length + s.borrows) = some ref)) := by
  cases hs : s.stack[n]? with
  | some ref =>
    refine ⟨ref, s, Lifted.yields_nth_local hs, .refl hr.wellFormed,
      hr.wellFormed.stack ref (List.mem_of_getElem? hs), fun hl => ?_, .inl rfl⟩
    have := (hr.agrees hl).stack n
    rw [hget, entryAt_local hs] at this
    exact (Option.some.inj this).symm
  | none =>
    have hle := List.getElem?_eq_none_iff.mp hs
    obtain ⟨ref, s', hyields, hext, hl⟩ := Lifted.yields_nth_entry hr.wellFormed hs
    have hslot := hext.wellFormed.argument hl
    have hword : r.Later s' →
        r.wordAt s' (r.machine s') (n - s.stack.length + s.borrows) = some w := fun hlater => by
      have := ((hr.extends hext).agrees hlater).stack n
      rw [hget, entryAt_entry (by rw [hext.stack]; exact hle), hext.stack, hext.borrows] at this
      exact this.symm
    have harg : r.Later s' → s'.argumentAt? (n - s.stack.length + s.borrows) = some ref :=
      fun hlater => by
        refine LiftedStack.argumentAt?_of_lookup_slot hle hl ?_
        obtain ⟨v, hv, -⟩ := Option.map_eq_some_iff.mp (hword hlater)
        have hlt := (List.getElem?_eq_some_iff.mp hv).1
        have hdepth := r.depth
        omega
    refine ⟨ref, s', hyields, hext, hslot.knows, fun hlater => ?_, .inr harg⟩
    have hw := hword hlater
    obtain ⟨v, -, hv⟩ := Option.map_eq_some_iff.mp hw
    rw [harg hlater] at hv
    exact hv

theorem pop {w : Word} {ws : List Word} (hr : r.Rel s e) (he : e.stack = w :: ws) :
    ∃ x s', Yields Lifted.pop s x s' ∧ r.Rel s' { e with stack := ws } ∧ r.Holds s' x w ∧
      ∀ {y v}, r.Holds s y v → r.Holds s' y v := by
  cases hs : s.stack with
  | cons x rest =>
    refine ⟨x, _, Lifted.yields_pop_local hs, ⟨hr.wellFormed.drop hs _, fun ref hx => ?_,
      fun hl => ?_⟩, ⟨?_, fun hl => ?_⟩, fun hy => hy.of_eq rfl rfl rfl (Nat.le_refl _)⟩
    · have hmem : ref ∈ s.stack := by rw [hs]; exact List.mem_cons_of_mem _ hx
      exact (hr.detached ref hmem).of_eq rfl rfl (Nat.le_refl _)
    · exact ((hr.agrees (hl.of_eq rfl rfl)).popLocal hs he _).2
    · have hmem : x ∈ s.stack := by rw [hs]; exact List.mem_cons_self
      exact (hr.detached x hmem).of_eq rfl rfl (Nat.le_refl _)
    · exact ((hr.agrees (hl.of_eq rfl rfl)).popLocal hs he 0).1
  | nil =>
    obtain ⟨x, s₁, hpop, hext, hl⟩ := Lifted.yields_pop_entry hr.wellFormed hs
    have hr₁ := hr.extends hext
    have hs₁ : s₁.stack = [] := hext.stack.trans hs
    have hlookup : s₁.arguments.lookup (Int32.ofNat s₁.borrows) = some x := by
      have hslot := LiftedStack.slot_eq (s := s) (n := 0) (by rw [hs]; exact Nat.le_refl 0)
      rw [Nat.zero_sub, Nat.zero_add, ← hext.borrows] at hslot
      rw [← hslot]
      exact hl
    refine ⟨x, _, hpop, ⟨hext.wellFormed.withBorrows _, fun ref hx => ?_, fun hlater => ?_⟩,
      ⟨hext.wellFormed.detached_of_taken hlookup, fun hlater => ?_⟩,
      fun hy => (hy.extends hext).of_eq rfl rfl rfl (Nat.le_succ _)⟩
    · exact (hr₁.detached ref hx).of_eq rfl rfl (Nat.le_succ _)
    · exact ((hr₁.agrees (hlater.of_eq rfl rfl)).popEntry hs₁ he).2
    · have hword := ((hr₁.agrees (hlater.of_eq rfl rfl)).popEntry hs₁ he).1
      obtain ⟨v, hv, hx⟩ := Option.map_eq_some_iff.mp hword
      have hlt := (List.getElem?_eq_some_iff.mp hv).1
      have hdepth := r.depth
      rw [LiftedStack.argumentAt?_of_lt (by omega), hlookup] at hx
      exact hx

theorem push {x : SymbolRef} {w : Word} (hr : r.Rel s e) (hx : r.Holds s x w) :
    r.Rel { s with stack := x :: s.stack, height := s.height + 1 }
      { e with stack := w :: e.stack } where
  wellFormed := hr.wellFormed.push hx.detached.knows _
  detached ref hmem := by
    rcases List.mem_cons.mp hmem with rfl | hmem
    · exact hx.detached.of_eq rfl rfl (Nat.le_refl _)
    · exact (hr.detached ref hmem).of_eq rfl rfl (Nat.le_refl _)
  agrees hl := by
    have hl' : r.Later s := hl.of_eq rfl rfl
    have ha := (hr.agrees hl').push x (s.height + 1)
    rw [hx.value hl'] at ha
    exact ha

/-- `x` was put into the table after `s₀` and is not assigned yet. -/
structure Fresh (r : LiftedRun σ) (s₀ s : LiftedStack) (x : SymbolRef) : Prop where
  isTemporary : s.symbols.IsTemporary x
  notStacked : x ∉ s.stack
  holds : ∀ {y v}, r.Holds s₀ y v → r.Holds s y v

theorem Fresh.extends {s₀ : LiftedStack} {x : SymbolRef} (h : r.Fresh s₀ s x) (he : s.Extends s') :
    r.Fresh s₀ s' x where
  isTemporary := h.isTemporary.grows he.grows
  notStacked := by
    rw [he.stack]
    exact h.notStacked
  holds hy := (h.holds hy).extends he

theorem temporary (hr : r.Rel s e) : ∃ x s', Yields Lifted.temporary s x s' ∧ s.Extends s' ∧
    ¬ s.symbols.Knows x ∧ r.Fresh s s' x := by
  obtain ⟨x, s', hx, hext, -, hnew, htmp⟩ := Lifted.yields_temporary hr.wellFormed
  refine ⟨x, s', hx, hext, hnew, htmp, fun hmem => ?_, fun hy => hy.extends hext⟩
  rw [hext.stack] at hmem
  exact hnew (hr.wellFormed.stack x hmem)

/-- Code that gives a fresh temporary a word. -/
theorem assigned {s₀ : LiftedStack} {x : SymbolRef} {i : Instruction} {w : Word} (hr : r.Rel s e)
    (hx : r.Fresh s₀ s x) (hstep : r.Later s →
      (r.machine s).step r.environment r.table i = (r.machine s).assign (some x) w) :
    r.Rel (s.emitted i) e ∧ r.Holds (s.emitted i) x w := by
  refine ⟨hr.emitted fun hl ha => ?_,
    (hr.wellFormed.emitted i).detached_of_isTemporary hx.isTemporary, fun hl => ?_⟩
  · rw [hstep hl]
    exact ha.assign hr.wellFormed hl.grows hx.isTemporary hx.notStacked w
  · rw [machine_emitted, hstep (hl.of_eq rfl rfl), Machine.assign_some_values, Function.update_self]

theorem dup {n : Nat} {w : Word} (hr : r.Rel s e) (hget : e.stack[n]? = some w) :
    ∃ s', Yields (Lifted.dup (n + 1)) s () s' ∧ r.Rel s' { e with stack := w :: e.stack } := by
  obtain ⟨source, s₁, hnth, hext, hknows, hvalue, -⟩ := nth hr hget
  obtain ⟨x, hx, hsym⟩ := Lifted.yields_symbol hknows
  have hr₁ := hr.extends hext
  cases hc : x.isConstant with
  | true =>
    obtain ⟨v, hv⟩ := Option.isSome_iff_exists.mp hc
    have hconst := SymbolTable.isConstant_of_symbol hsym hv
    exact ⟨_, Lifted.yields_dup_constant hnth hx hc,
      push hr₁ ⟨hext.wellFormed.detached_of_isConstant hconst, hvalue⟩⟩
  | false =>
    obtain ⟨y, s₂, hy, hext₂, -, hfresh⟩ := temporary hr₁
    obtain ⟨hr₃, hhold⟩ := assigned (i := .copy y source) (hr₁.extends hext₂) hfresh fun hl => by
      rw [Machine.step_copy, machine_extends hext₂, hvalue (hl.of_extends hext₂)]
    exact ⟨_, Lifted.yields_dup_copy hnth hx hc hy, push hr₃ hhold⟩

/-- Code that changes an entry of the stack below the local part. -/
theorem storeEntry {i : Instruction} {j : Nat} {x : SymbolRef} {w : Word} (hr : r.Rel s e)
    (hj : s.stack.length ≤ j) (hlt : j < e.stack.length)
    (hx : r.Later s → s.argumentAt? (j - s.stack.length + s.borrows) = some x)
    (hstep : r.Later s →
      (r.machine s).step r.environment r.table i = (r.machine s).assign (some x) w) :
    r.Rel (s.emitted i) { e with stack := e.stack.set j w } :=
  hr.emitted fun hl ha => by
    rw [hstep hl]
    exact ha.setEntry hr.wellFormed hl.grows hr.detached hj (hx hl) hlt w

/-- The local stack with one entry replaced. -/
theorem storeLocal {j : Nat} {x : SymbolRef} {w : Word} (hr : r.Rel s e) (hj : j < s.stack.length)
    (hx : r.Holds s x w) :
    r.Rel { s with stack := s.stack.set j x } { e with stack := e.stack.set j w } := by
  have hmem : ∀ ref ∈ s.stack.set j x, s.Detached ref := fun ref h => by
    rcases List.mem_or_eq_of_mem_set h with h | rfl
    · exact hr.detached ref h
    · exact hx.detached
  refine ⟨⟨hr.wellFormed.consistent, hr.wellFormed.argument, fun ref h => (hmem ref h).knows⟩,
    fun ref h => (hmem ref h).of_eq rfl rfl (Nat.le_refl _), fun hl => ?_⟩
  have hl' : r.Later s := hl.of_eq rfl rfl
  have ha := (hr.agrees hl').setLocal hj x
  rw [hx.value hl'] at ha
  exact ha

theorem holds_local {n : Nat} {w : Word} {x : SymbolRef} (hr : r.Rel s e)
    (hs : s.stack[n]? = some x) (hget : e.stack[n]? = some w) : r.Holds s x w := by
  refine ⟨hr.detached x (List.mem_of_getElem? hs), fun hl => ?_⟩
  have := (hr.agrees hl).stack n
  rw [hget, entryAt_local hs] at this
  exact (Option.some.inj this).symm

/-- The exchange of the top with an entry below a local stack that is not empty. -/
theorem swapEntry_local {n : Nat} {a b : Word} {top : SymbolRef} {rest : List SymbolRef}
    (hr : r.Rel s e) (hs : s.stack = top :: rest) (hn : s.stack.length ≤ n)
    (ha : e.stack[0]? = some a) (hb : e.stack[n]? = some b) :
    ∃ s', Yields (Lifted.swapEntry n) s () s' ∧
      r.Rel s' { e with stack := (e.stack.set n a).set 0 b } := by
  obtain ⟨other, s₁, hnth, hext₁, hknows, hvalue, hcase⟩ := nth hr hb
  have hr₁ := hr.extends hext₁
  obtain ⟨x, s₂, hx, hext₂, hnew, hfresh⟩ := temporary hr₁
  have hr₂ := hr₁.extends hext₂
  have hs₁ : s₁.stack = top :: rest := hext₁.stack.trans hs
  have hs₂ : s₂.stack = top :: rest := hext₂.stack.trans hs₁
  have hother : r.Later s₂ → s₂.argumentAt? (n - s₂.stack.length + s₂.borrows) = some other :=
    fun hl => by
      rw [hext₂.stack, hext₂.borrows, hext₁.stack, hext₁.borrows]
      rcases hcase with hlocal | harg
      · rw [List.getElem?_eq_none hn] at hlocal
        cases hlocal
      · exact hext₂.argumentAt? (harg (hl.of_extends hext₂))
  -- The word of the entry goes to `x`, then the top goes to the entry, and `x` becomes the top.
  obtain ⟨hr₃, hhold₃⟩ := assigned (i := .copy x other) hr₂ hfresh fun hl => by
    rw [Machine.step_copy, machine_extends hext₂, hvalue (hl.of_extends hext₂)]
  have htop : r.Holds (s₂.emitted (.copy x other)) top a :=
    holds_local (n := 0) hr₃ (by change s₂.stack[0]? = _; rw [hs₂]; rfl) ha
  have hr₄ := storeEntry (i := .copy other top) hr₃
    (by change s₂.stack.length ≤ n; rw [hs₂, ← hs]; exact hn)
    (List.getElem?_eq_some_iff.mp hb).1 (fun hl => hother (hl.of_eq rfl rfl))
    fun hl => by rw [Machine.step_copy, htop.value hl]
  have hne : (Instruction.copy other top).definition? ≠ some x := fun he =>
    hnew (Option.some.inj he ▸ hknows)
  have hhold₄ : r.Holds ((s₂.emitted (.copy x other)).emitted (.copy other top)) x b :=
    ⟨hhold₃.detached.of_eq rfl rfl (Nat.le_refl _), fun hl => by
      rw [values_emitted _ hne]
      exact hhold₃.value (hl.of_eq rfl rfl)⟩
  have hpos : 0 < s₂.stack.length := by
    rw [hs₂]
    exact Nat.succ_pos _
  have hr₅ := storeLocal (j := 0) hr₄ hpos hhold₄
  have hset : s₂.stack.set 0 x = x :: rest := by rw [hs₂]; rfl
  refine ⟨_, Lifted.yields_swapEntry_local hnth hs₁ hx, ?_⟩
  rw [← hset]
  exact hr₅

/-- The exchange of two entries below an empty local stack. -/
theorem swapEntry_empty {n : Nat} {a b : Word} (hr : r.Rel s e) (hs : s.stack = [])
    (ha : e.stack[0]? = some a) (hb : e.stack[n]? = some b) :
    ∃ s', Yields (Lifted.swapEntry n) s () s' ∧
      r.Rel s' { e with stack := (e.stack.set 0 b).set n a } := by
  obtain ⟨other, s₁, hnth₁, hext₁, hknows₁, hvalue₁, hcase₁⟩ := nth hr hb
  have hs₁ : s₁.stack = [] := hext₁.stack.trans hs
  have hr₁ := hr.extends hext₁
  obtain ⟨first, s₂, hnth₂, hext₂, hknows₂, hvalue₂, hcase₂⟩ := nth hr₁ ha
  have hr₂ := hr₁.extends hext₂
  obtain ⟨x, s₃, hx, hext₃, hnew, hfresh⟩ := temporary hr₂
  have hs₃ : s₃.stack = [] := (hext₃.stack.trans hext₂.stack).trans hs₁
  have hborrows : s₃.borrows = s.borrows :=
    (hext₃.borrows.trans hext₂.borrows).trans hext₁.borrows
  have hfirst : r.Later s₃ → s₃.argumentAt? (0 - s₃.stack.length + s₃.borrows) = some first :=
    fun hl => by
      rw [hext₃.stack, hext₃.borrows, hext₂.stack, hext₂.borrows]
      rcases hcase₂ with hlocal | harg
      · rw [hs₁] at hlocal
        cases hlocal
      · exact hext₃.argumentAt? (harg (hl.of_extends hext₃))
  have hother : r.Later s₃ → s₃.argumentAt? (n - s₃.stack.length + s₃.borrows) = some other :=
    fun hl => by
      rw [hs₃, hborrows, ← hs]
      rcases hcase₁ with hlocal | harg
      · rw [hs] at hlocal
        cases hlocal
      · exact (hext₂.trans hext₃).argumentAt? (harg (hl.of_extends (hext₂.trans hext₃)))
  obtain ⟨hr₄, hhold₄⟩ := assigned (i := .copy x first) (hr₂.extends hext₃) hfresh fun hl => by
    rw [Machine.step_copy, machine_extends hext₃, hvalue₂ (hl.of_extends hext₃)]
  have hne₁ : (Instruction.copy x first).definition? ≠ some other := fun he =>
    hnew (hext₂.grows.knows ((Option.some.inj he).symm ▸ hknows₁))
  have hne₂ : (Instruction.copy first other).definition? ≠ some x := fun he =>
    hnew (Option.some.inj he ▸ hknows₂)
  have hr₅ := storeEntry (i := .copy first other) (j := 0) (w := b) hr₄
    (by change s₃.stack.length ≤ 0; rw [hs₃]; exact Nat.le_refl 0)
    (List.getElem?_eq_some_iff.mp ha).1 (fun hl => hfirst (hl.of_eq rfl rfl)) fun hl => by
      have hl₃ : r.Later s₃ := hl.of_eq rfl rfl
      have hl₁ := hl₃.of_extends (hext₂.trans hext₃)
      rw [Machine.step_copy, values_emitted _ hne₁, machine_extends (hext₂.trans hext₃),
        hvalue₁ hl₁]
  have hr₆ := storeEntry (i := .copy other x) (j := n) (w := a) hr₅
    (by change s₃.stack.length ≤ n; rw [hs₃]; exact Nat.zero_le n)
    (by rw [List.length_set]; exact (List.getElem?_eq_some_iff.mp hb).1)
    (fun hl => hother (hl.of_eq rfl rfl)) fun hl => by
      rw [Machine.step_copy, values_emitted _ hne₂, hhold₄.value (hl.of_eq rfl rfl)]
  exact ⟨_, Lifted.yields_swapEntry_empty hnth₁ hs₁ hnth₂ hx, hr₆⟩

theorem swap {a b : Word} {mid rest : List Word} (hr : r.Rel s e)
    (he : e.stack = a :: (mid ++ b :: rest)) :
    ∃ s', Yields (Lifted.swap (mid.length + 1)) s () s' ∧
      r.Rel s' { e with stack := b :: (mid ++ a :: rest) } := by
  have ha : e.stack[0]? = some a := by rw [he]; rfl
  have hb : e.stack[mid.length + 1]? = some b := by rw [he]; simp
  have hswap : (e.stack.set 0 b).set (mid.length + 1) a = b :: (mid ++ a :: rest) := by
    rw [he]
    simp
  have hcomm : (e.stack.set (mid.length + 1) a).set 0 b = b :: (mid ++ a :: rest) := by
    rw [List.set_comm _ _ (Nat.succ_ne_zero _), hswap]
  cases hn : s.stack[mid.length + 1]? with
  | some other =>
    have hlen := (List.getElem?_eq_some_iff.mp hn).1
    obtain ⟨top, htop⟩ : ∃ top, s.stack[0]? = some top :=
      ⟨_, List.getElem?_eq_getElem (by omega)⟩
    have hr₁ := storeLocal (j := 0) hr (by omega) (holds_local hr hn hb)
    have hhold : r.Holds { s with stack := s.stack.set 0 other } top a :=
      (holds_local hr htop ha).of_eq rfl rfl rfl (Nat.le_refl _)
    have hr₂ := storeLocal (j := mid.length + 1) hr₁ (by rw [List.length_set]; exact hlen) hhold
    rw [← hswap]
    exact ⟨_, Lifted.yields_swap_local htop hn, hr₂⟩
  | none =>
    cases hs : s.stack with
    | nil =>
      obtain ⟨s', hyields, hr'⟩ := swapEntry_empty hr hs ha hb
      rw [hswap] at hr'
      exact ⟨s', Lifted.yields_swap_entry hn hyields, hr'⟩
    | cons top locals =>
      obtain ⟨s', hyields, hr'⟩ :=
        swapEntry_local hr hs (List.getElem?_eq_none_iff.mp hn) ha hb
      rw [hcomm] at hr'
      exact ⟨s', Lifted.yields_swap_entry hn hyields, hr'⟩

end Operations

/-! ## The laws of the model -/

section Laws

variable {s s₀ : LiftedStack} {e : Evm.State σ} {i : Instruction} {a : Action} {ws : List Word}

theorem act (region : SymbolRef → Region) (hr : r.Rel s e) (hdef : i.definition? = none)
    (hact : i.action? region = some a)
    (hbase : ∀ x ∈ i.base?, ∃ g, s.symbols.IsGlobal g x ∧ g ≠ .stack ∧ region x = .global g)
    (hops : List.Forall₂ (r.Holds s) i.operands ws) :
    r.Rel (s.emitted i) ⟨e.stack, (r.environment a ws e.env).2, e.trace ++ [⟨a, ws⟩]⟩ := by
  refine hr.emitted fun hl ha => ?_
  rw [Machine.step_of_action _ _ _ (r.consistent.action?_eq hl.grows hact hbase _), hdef,
    Holds.map_values hops hl]
  exact ha.act a ws

theorem assignAct {x : SymbolRef} (region : SymbolRef → Region) (hr : r.Rel s e)
    (hx : r.Fresh s₀ s x) (hdef : i.definition? = some x) (hact : i.action? region = some a)
    (hbase : ∀ x ∈ i.base?, ∃ g, s.symbols.IsGlobal g x ∧ g ≠ .stack ∧ region x = .global g)
    (hops : List.Forall₂ (r.Holds s₀) i.operands ws) :
    r.Rel (s.emitted i) ⟨e.stack, (r.environment a ws e.env).2, e.trace ++ [⟨a, ws⟩]⟩ ∧
      r.Holds (s.emitted i) x (r.environment a ws e.env).1 := by
  have hops' : List.Forall₂ (r.Holds s) i.operands ws := hops.imp fun _ _ hy => hx.holds hy
  have hstep : r.Later s → (r.machine s).step r.environment r.table i =
      (r.machine s).act r.environment (some x) a ws := fun hl => by
    rw [Machine.step_of_action _ _ _ (r.consistent.action?_eq hl.grows hact hbase _), hdef,
      Holds.map_values hops' hl]
  refine ⟨hr.emitted fun hl ha => ?_,
    (hr.wellFormed.emitted i).detached_of_isTemporary hx.isTemporary, fun hl => ?_⟩
  · rw [hstep hl]
    exact (ha.act a ws).assign hr.wellFormed hl.grows hx.isTemporary hx.notStacked _
  · have hl' : r.Later s := hl.of_eq rfl rfl
    rw [machine_emitted, hstep hl', Machine.act_values, Machine.assign_some_values,
      Function.update_self, (hr.agrees hl').env]

theorem assign {x : SymbolRef} (hr : r.Rel s e) (hx : r.Fresh s₀ s x)
    (hdef : i.definition? = some x) (hact : ∀ region, i.action? region = none)
    (hops : List.Forall₂ (r.Holds s₀) i.operands ws) :
    r.Rel (s.emitted i) e ∧ r.Holds (s.emitted i) x (i.compute ws) := by
  have hops' : List.Forall₂ (r.Holds s) i.operands ws := hops.imp fun _ _ hy => hx.holds hy
  refine assigned hr hx fun hl => ?_
  rw [Machine.step_of_no_action _ _ _ (hact _), hdef, Holds.map_values hops' hl]

theorem Holds.knows_of_mem {refs : List SymbolRef} (h : List.Forall₂ (r.Holds s) refs ws) :
    ∀ ref ∈ refs, s.symbols.Knows ref := by
  induction h with
  | nil => exact fun _ hx => by cases hx
  | cons hx _ ih => exact List.forall_mem_cons.mpr ⟨hx.detached.knows, ih⟩

/-- The constants among held symbols are what they hold. -/
theorem Holds.eq_of_isConstant {refs : List SymbolRef} {vs : List Word} (hr : r.Rel s e)
    (hl : r.Later s) (hrefs : List.Forall₂ (r.Holds s) refs ws)
    (hconst : List.Forall₂ s.symbols.IsConstant refs vs) : vs = ws := by
  induction hrefs generalizing vs with
  | nil => cases hconst; rfl
  | cons hx _ ih =>
    cases hconst with
    | cons hc hcs => rw [ih hcs, ← hx.value hl, ← (hr.holds_constant hc).value hl]

theorem fold (op : Operator) {refs : List SymbolRef} (hr : r.Rel s e)
    (hrefs : List.Forall₂ (r.Holds s) refs ws) :
    ∃ x s', Yields (Lifted.fold op refs) s x s' ∧ r.Rel s' e ∧
      (∀ {y v}, r.Holds s y v → r.Holds s' y v) ∧
      ∀ y ∈ x, r.Holds s' y ((op.eval ws).getD 0) := by
  obtain ⟨x, s', hx, hext, -, hfold⟩ :=
    Lifted.yields_fold op hr.wellFormed (Holds.knows_of_mem hrefs)
  have hr' := hr.extends hext
  refine ⟨x, s', hx, hr', fun hy => hy.extends hext, fun y hy => ?_⟩
  obtain ⟨vs, w, hvs, hw, hc⟩ := hfold y hy
  refine ⟨hext.wellFormed.detached_of_isConstant hc, fun hl => ?_⟩
  rw [← Holds.eq_of_isConstant hr (hl.of_extends hext) hrefs hvs, hw, Option.getD_some]
  exact (hr'.holds_constant hc).value hl

end Laws

/-- **The symbolic model satisfies the laws of a stack model.** -/
def simulation (r : LiftedRun σ) (bound : Nat) : Simulation Lifted r.environment bound where
  Rel := r.Rel
  Holds := r.Holds
  Fit := r.Holds
  Names s x g := s.symbols.IsGlobal g x
  Fresh := r.Fresh
  pop := pop
  push hr _ hx := ⟨_, Lifted.yields_push _ _, push hr hx⟩
  drop hr he := by
    obtain ⟨x, s', hpop, hr', -⟩ := pop hr he
    exact ⟨s', Lifted.yields_drop hpop, hr'⟩
  dup hr _ _ hget := dup hr hget
  swap hr _ he := swap hr he
  constant w type hr := by
    obtain ⟨x, s', hx, hext, -, hc⟩ := Lifted.yields_constant w type hr.wellFormed
    exact ⟨x, s', hx, hr.extends hext, (hr.extends hext).holds_constant hc⟩
  fold op hr hrefs := fold op hr hrefs
  global g hr := by
    obtain ⟨x, s', hx, hext, -, hg⟩ := Lifted.yields_global g hr.wellFormed
    exact ⟨x, s', hx, hr.extends hext, hg, fun hy => hy.extends hext, fun hf => hf.extends hext⟩
  temporary hr := by
    obtain ⟨x, s', hx, hext, -, hfresh⟩ := temporary hr
    exact ⟨x, s', hx, hr.extends hext, hfresh⟩
  act region hr hdef hact hbase hops :=
    ⟨_, Lifted.yields_emit _ _, act region hr hdef hact hbase hops⟩
  assignAct region hr hx hdef hact hbase hops :=
    ⟨_, Lifted.yields_emit _ _, assignAct region hr hx hdef hact hbase hops⟩
  assign hr hx hdef hact hops := ⟨_, Lifted.yields_emit _ _, assign hr hx hdef hact hops⟩

end LiftedRun

end EvmFlow
