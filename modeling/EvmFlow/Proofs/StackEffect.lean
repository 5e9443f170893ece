import EvmFlow.Proofs.LiftedCode
import Mathlib.Algebra.Order.Ring.Int
import Mathlib.Order.Bounds.Basic

/-!
# The stack summary is the effect on the stack

The summary of lifted code against the stack machine: the change of height is the sum of what the
instructions leave less what they take, the arguments are the deepest that words are taken from the
entry stack, and the slots that have symbols tell how high a stack the code needs. Copying and
exchanging take no words, but they read entries, so code may need a higher stack than it takes
arguments from.

* `Opcode.pops`, `Evm.rise`, `Evm.drops`, `Evm.RunsOn`: the effect of code on the stack;
* `Levels`: the height at a point of the code, how deep words were taken until then, and how deep
  entries were read; `Levels.step`, `Levels.run`;
* `SymbolTable.NewSlot`: the slots whose symbols were put in;
* `LiftedStack.At`, `Lifted.Moves`: the numbers of a state of the symbolic model, and what a
  computation does to them;
* **`Lifted.moves_lowerCode`**: lowered code moves the numbers as the instructions do;
* **`LiftedStack.liftAll_measures_stack`**: the summary; heights and slots have 32 bits, and are
  exact precisely when the numbers fit;
* **`LiftedStack.liftAll_wraps_on_logs`**: code that is short enough, with numbers that do not fit.
-/

namespace EvmFlow

open Stateful

/-! ## The effect of code -/

/-- The number of words that an opcode removes from the stack; copying and exchanging remove
none. -/
def Opcode.pops : Opcode → Nat
  | dup _ | swap _ => 0
  | op => op.inputs

theorem Opcode.pops_le (op : Opcode) : op.pops ≤ op.inputs := by
  cases op <;> simp [pops]

theorem Opcode.inputs_le (op : Opcode) : op.inputs ≤ op.outputs + op.pops := by
  cases op <;> simp [pops, inputs, outputs]

namespace Evm

/-- The words that code leaves less the words it takes. -/
def rise (code : List Located) : Int :=
  (code.map fun i => (i.instr.op.outputs : Int) - i.instr.op.inputs).sum

/-- How far below the height at entry the removal of words goes, at each instruction of the code;
0 stands for code that never goes below. -/
def drops (code : List Located) : Set Int :=
  {k | k = 0 ∨ ∃ before i after, code = before ++ i :: after ∧
    k = i.instr.op.pops - rise before}

/-- Code runs on every stack of `depth` words. -/
def RunsOn (code : List Located) (depth : Nat) : Prop :=
  ∀ {σ : Type} (I : Environment σ) (e : State σ), e.stack.length = depth → (run I code e).isSome

theorem isLeast_required (code : List Located) : IsLeast {d | RunsOn code d} (required code) := by
  refine ⟨fun I e he => (run_isSome_iff I code e).mpr (Nat.le_of_eq he.symm), fun d hd => ?_⟩
  let I : Environment Unit := fun _ _ env => (0, env)
  have hrun := hd I ⟨List.replicate d 0, (), []⟩ List.length_replicate
  rwa [run_isSome_iff, List.length_replicate] at hrun

@[simp] theorem rise_nil : rise [] = 0 := rfl

@[simp] theorem rise_cons (i : Located) (code : List Located) :
    rise (i :: code) = i.instr.op.outputs - i.instr.op.inputs + rise code := List.sum_cons

theorem rise_le_length (code : List Located) : rise code ≤ code.length := by
  induction code with
  | nil => exact Int.le_refl 0
  | cons i rest ih =>
    have := i.instr.op.outputs_le
    rw [rise_cons, List.length_cons]
    omega

end Evm

/-! ## Levels -/

/-- Numbers of words above and below the height at entry. -/
@[ext]
structure Levels where
  /-- How far the stack is above the height at entry. -/
  height : Int
  /-- How many words of the entry stack were removed. -/
  drawn : Int
  /-- How many words of the entry stack were needed. -/
  reach : Int
  neg_height_le : -height ≤ drawn
  drawn_le : drawn ≤ reach

namespace Levels

/-- The levels at entry. -/
def entry : Levels := ⟨0, 0, 0, by decide, by decide⟩

/-- One more word. -/
def raise (l : Levels) : Levels :=
  ⟨l.height + 1, l.drawn, l.reach, by have := l.neg_height_le; omega, l.drawn_le⟩

/-- `n` words are needed. -/
def touch (l : Levels) (n : Nat) : Levels :=
  ⟨l.height, l.drawn, max l.reach (n - l.height), l.neg_height_le, by have := l.drawn_le; omega⟩

/-- `n` words are removed. -/
def take (l : Levels) (n : Nat) : Levels :=
  ⟨l.height - n, max l.drawn (n - l.height), max l.reach (n - l.height), by omega,
    by have := l.drawn_le; omega⟩

/-- An opcode needs its inputs, removes some of them and changes the height. -/
def step (l : Levels) (op : Opcode) : Levels :=
  ⟨l.height + op.outputs - op.inputs, max l.drawn (op.pops - l.height),
    max l.reach (op.inputs - l.height), by have := op.inputs_le; omega,
    by have := l.drawn_le; have := op.pops_le; omega⟩

/-- Straight-line code. -/
def run (l : Levels) (code : List Located) : Levels := code.foldl (fun l i => l.step i.instr.op) l

variable (l : Levels)

theorem take_zero : l.take 0 = l := by
  have h₁ := l.neg_height_le
  have h₂ := l.drawn_le
  ext <;> simp only [take] <;> omega

theorem take_take (m n : Nat) : (l.take m).take n = l.take (m + n) := by
  ext <;> simp only [take] <;> omega

theorem touch_touch {m n : Nat} (h : m ≤ n) : (l.touch n).touch m = l.touch n := by
  ext <;> simp only [touch]
  omega

/-- What is not below the height at entry is there without being needed from it. -/
theorem touch_of_le {n : Nat} (h : n ≤ l.height + l.drawn) : l.touch n = l := by
  have h₂ := l.drawn_le
  ext <;> simp only [touch]
  omega

/-! ### The levels after code -/

theorem height_run (code : List Located) : (l.run code).height = l.height + Evm.rise code := by
  induction code generalizing l with
  | nil => exact (Int.add_zero _).symm
  | cons i rest ih =>
    change ((l.step i.instr.op).run rest).height = _
    simp only [ih, Evm.rise_cons, step]
    omega

theorem reach_run (code : List Located) :
    (l.run code).reach = max l.reach (Evm.required code - l.height) := by
  induction code generalizing l with
  | nil =>
    have h₁ := l.neg_height_le
    have h₂ := l.drawn_le
    simp only [run, List.foldl_nil, Evm.required]
    omega
  | cons i rest ih =>
    change ((l.step i.instr.op).run rest).reach = _
    rw [ih, Evm.required]
    simp only [step]
    omega

/-- Words are removed as deep as the deepest removal goes. -/
theorem isGreatest_drawn_run (code : List Located) :
    IsGreatest {k | k = l.drawn ∨ ∃ before i after, code = before ++ i :: after ∧
      k = i.instr.op.pops - (l.height + Evm.rise before)} (l.run code).drawn := by
  induction code generalizing l with
  | nil =>
    refine ⟨.inl rfl, ?_⟩
    rintro k (rfl | ⟨before, i, after, hcode, -⟩)
    · exact Int.le_refl _
    · simp at hcode
  | cons j rest ih =>
    obtain ⟨hmem, hbound⟩ := ih (l.step j.instr.op)
    -- A removal of the rest is one of the whole, after `j`.
    have hshift : ∀ before, (l.step j.instr.op).height + Evm.rise before =
        l.height + Evm.rise (j :: before) := fun before => by
      simp only [Evm.rise_cons, step]
      omega
    constructor
    · rcases hmem with hdrawn | ⟨before, i, after, rfl, hk⟩
      · rcases Int.le_total (j.instr.op.pops - l.height) l.drawn with hle | hle
        · exact .inl (hdrawn.trans (max_eq_left hle))
        · refine .inr ⟨[], j, rest, rfl, (hdrawn.trans (max_eq_right hle)).trans ?_⟩
          rw [Evm.rise_nil, Int.add_zero]
      · exact .inr ⟨j :: before, i, after, rfl, hk.trans (by rw [hshift])⟩
    · have hstep : (l.step j.instr.op).drawn ≤ (l.run (j :: rest)).drawn := hbound (.inl rfl)
      rintro k (rfl | ⟨before, i, after, hcode, rfl⟩)
      · exact Int.le_trans (le_max_left _ _) hstep
      · cases before with
        | nil =>
          cases hcode
          rw [Evm.rise_nil, Int.add_zero]
          exact Int.le_trans (le_max_right _ _) hstep
        | cons j' before =>
          cases hcode
          exact hbound (.inr ⟨before, i, after, rfl, by rw [hshift]⟩)

theorem isGreatest_drops (code : List Located) :
    IsGreatest (Evm.drops code) (entry.run code).drawn := by
  have h := entry.isGreatest_drawn_run code
  have hheight : entry.height = 0 := rfl
  simp only [hheight, Int.zero_add] at h
  exact h

theorem reach_entry_run (code : List Located) : (entry.run code).reach = Evm.required code := by
  rw [reach_run]
  simp only [entry]
  omega

theorem height_entry_run (code : List Located) : (entry.run code).height = Evm.rise code := by
  rw [height_run]
  exact Int.zero_add _

end Levels

/-- What a shape of code does to the levels. -/
def Lowering.move : Lowering → Levels → Levels
  | skip, l => l
  | push, l | counter, l => l.raise
  | drop, l | jump, l => l.take 1
  | dup n, l => (l.touch n).raise
  | swap n, l => l.touch (n + 1)
  | jumpIf, l | store _, l => l.take 2
  | load _, l | unary _, l => (l.take 1).raise
  | binary _, l => (l.take 2).raise
  | function _ n, l => (l.take n).raise
  | procedure _ n, l => l.take n

/-- The shape of an opcode moves the levels as the opcode does. -/
theorem Levels.step_eq_move {op : Opcode} {s : Lowering} (h : op.lowering? = some s) (l : Levels) :
    l.step op = s.move l := by
  have h₁ := l.neg_height_le
  have h₂ := l.drawn_le
  cases op with
  | undefined b hb => cases h
  | _ =>
    cases h
    ext <;> simp only [step, Lowering.move, take, touch, raise, Opcode.pops, Opcode.inputs,
      Opcode.outputs] <;> omega

theorem Levels.step_of_no_lowering {op : Opcode} (h : op.lowering? = none) (l : Levels) :
    l.step op = l := by
  have h₁ := l.neg_height_le
  have h₂ := l.drawn_le
  cases op with
  | undefined b hb =>
    ext <;> simp only [step, Opcode.pops, Opcode.inputs, Opcode.outputs] <;> omega
  | _ => cases h

/-! ## New slots -/

namespace SymbolTable

/-- A symbol of the slot was put into `t` on the way to `t'`. -/
def NewSlot (t t' : SymbolTable) (slot : Int32) : Prop :=
  ∃ ref x, ¬ t.Knows ref ∧ t'.identity? ref = some x ∧ x.address = .stackSlot slot

/-- Every slot symbol of `t'` is in `t`. -/
def AddsNoSlot (t t' : SymbolTable) : Prop :=
  ∀ ref x slot, t'.identity? ref = some x → x.address = .stackSlot slot →
    t.identity? ref = some x

theorem AddsNoSlot.refl (t : SymbolTable) : t.AddsNoSlot t := fun _ _ _ h _ => h

theorem addsNoSlot_insert (t : SymbolTable) (sc : Scope) {s : Symbol}
    (hs : ∀ slot, s.address ≠ .stackSlot slot) : t.AddsNoSlot (t.insert sc s).2 := by
  intro ref x slot hx hslot
  rw [identity?_insert] at hx
  split at hx
  · cases hx
    exact absurd hslot (hs slot)
  · exact hx

theorem Puts.addsNoSlot {t t' : SymbolTable} {s : Symbol} (h : t.Puts s t')
    (hs : ∀ slot, s.address ≠ .stackSlot slot) : t.AddsNoSlot t' :=
  fun ref x slot hx => t.addsNoSlot_insert .program hs ref x slot ((h.identity? ref).symm.trans hx)

theorem addsNoSlot_global (t : SymbolTable) (g : Global) : t.AddsNoSlot (t.global g).2 := by
  cases h : t.globals.lookup g with
  | some ref =>
    rw [global_of_isGlobal h]
    exact .refl t
  | none =>
    obtain ⟨t', heq, hputs, -, -⟩ := global_of_none h
    rw [heq]
    exact hputs.addsNoSlot fun _ => Address.noConfusion

theorem addsNoSlot_constant (t : SymbolTable) (w : Word) (type : TypeHint) :
    t.AddsNoSlot (t.constant w type).2 := by
  cases h : t.shares.get? (.constant w type) with
  | some ref =>
    rw [constant_of_held h]
    exact .refl t
  | none =>
    obtain ⟨t', heq, hputs, -, -⟩ := constant_of_free h
    rw [heq]
    exact hputs.addsNoSlot fun _ => Address.noConfusion

variable {t t₁ t₂ : SymbolTable} {slot slot' : Int32}

theorem NewSlot.grows (h : t.NewSlot t₁ slot) (hg : t₁.Grows t₂) : t.NewSlot t₂ slot := by
  obtain ⟨ref, x, hnew, hx, hslot⟩ := h
  exact ⟨ref, x, hnew, hg.identity hx, hslot⟩

theorem NewSlot.of_addsNoSlot (hs : t.NewSlot t₂ slot) (h : t₁.AddsNoSlot t₂) :
    t.NewSlot t₁ slot := by
  obtain ⟨ref, x, hnew, hx, hslot⟩ := hs
  exact ⟨ref, x, hnew, h ref x slot hx hslot, hslot⟩

theorem newSlot_insert_iff (hg : t.Grows t₁) (sc : Scope) :
    t.NewSlot (t₁.insert sc (.stackSlot slot)).2 slot' ↔ t.NewSlot t₁ slot' ∨ slot' = slot := by
  constructor
  · rintro ⟨ref, x, hnew, hx, hslot⟩
    rw [identity?_insert] at hx
    split at hx
    · cases hx
      exact .inr (Address.stackSlot.inj hslot).symm
    · exact .inl ⟨ref, x, hnew, hx, hslot⟩
  · rintro (hs | rfl)
    · exact hs.grows (t₁.insert_grows sc _)
    · refine ⟨t₁.size, _, fun hk => t₁.not_knows_size (hg.knows hk), t₁.identity?_insert_self sc _,
        rfl⟩

theorem not_newSlot_self : ¬ t.NewSlot t slot := by
  rintro ⟨ref, x, hnew, hx, -⟩
  exact hnew ⟨x, hx⟩

end SymbolTable

/-! ## The levels of a state -/

/-- The numbers of a state of the model are those of the levels, and the slots that were put into
`t` reach as deep as the levels do. -/
structure LiftedStack.At (s : LiftedStack) (t : SymbolTable) (l : Levels) : Prop where
  grows : t.Grows s.symbols
  filed : ∀ {slot ref}, s.arguments.lookup slot = some ref → t.NewSlot s.symbols slot
  stack : (s.stack.length : Int) = l.height + l.drawn
  borrows : (s.borrows : Int) = l.drawn
  slots : ∀ {slot}, t.NewSlot s.symbols slot → ∃ k : Nat, k < l.reach ∧ slot = Int32.ofNat k
  deepest : ∀ {k : Nat}, k + 1 = l.reach → t.NewSlot s.symbols (Int32.ofNat k)

namespace LiftedStack.At

variable {s s' : LiftedStack} {t : SymbolTable} {l l' : Levels}

theorem start (t : SymbolTable) (node : NodeId) : At { symbols := t, node } t .entry where
  grows := .refl t
  filed h := by cases h
  stack := rfl
  borrows := rfl
  slots h := absurd h SymbolTable.not_newSlot_self
  deepest h := by simp only [Levels.entry] at h; omega

/-- The stack changes and the symbols do not. -/
theorem of_eq (h : s.At t l) (hsymbols : s'.symbols = s.symbols)
    (harguments : s'.arguments = s.arguments) (hreach : l'.reach = l.reach)
    (hstack : (s'.stack.length : Int) = l'.height + l'.drawn)
    (hborrows : (s'.borrows : Int) = l'.drawn) : s'.At t l' where
  grows := hsymbols ▸ h.grows
  filed ha := by
    rw [harguments] at ha
    rw [hsymbols]
    exact h.filed ha
  stack := hstack
  borrows := hborrows
  slots hs := by
    rw [hsymbols] at hs
    rw [hreach]
    exact h.slots hs
  deepest hk := by
    rw [hsymbols]
    exact h.deepest (hk.trans hreach)

/-- The state with another table. -/
theorem of_table (h : s.At t l) {u : SymbolTable} (hg : s.symbols.Grows u)
    (hu : s.symbols.AddsNoSlot u) : At { s with symbols := u } t l where
  grows := h.grows.trans hg
  filed ha := (h.filed ha).grows hg
  stack := h.stack
  borrows := h.borrows
  slots hs := h.slots (hs.of_addsNoSlot hu)
  deepest hk := (h.deepest hk).grows hg

/-- The slot of the entry that is the `n`-th from the top, at the depth `k` of the entry stack, is
put in, or was there already. -/
theorem touch (h : s.At t l) {k n : Nat} (hk : (k : Int) + 1 = n - l.height)
    (hgrows : t.Grows s'.symbols)
    (hslots : ∀ {slot}, t.NewSlot s'.symbols slot ↔
      t.NewSlot s.symbols slot ∨ slot = Int32.ofNat k)
    (hfiled : ∀ {slot ref}, s'.arguments.lookup slot = some ref →
      s.arguments.lookup slot = some ref ∨ slot = Int32.ofNat k)
    (hstack : s'.stack = s.stack) (hborrows : s'.borrows = s.borrows) : s'.At t (l.touch n) where
  grows := hgrows
  filed ha := hslots.mpr ((hfiled ha).imp_left h.filed)
  stack := by rw [hstack]; exact h.stack
  borrows := by rw [hborrows]; exact h.borrows
  slots hs := by
    rcases hslots.mp hs with hs | rfl
    · obtain ⟨j, hj, rfl⟩ := h.slots hs
      exact ⟨j, lt_of_lt_of_le hj (le_max_left _ _), rfl⟩
    · refine ⟨k, lt_of_lt_of_le ?_ (le_max_right _ _), rfl⟩
      omega
  deepest {j} hj := by
    simp only [Levels.touch] at hj
    rcases Int.le_total (n - l.height) l.reach with hle | hle
    · rw [max_eq_left hle] at hj
      exact hslots.mpr (.inl (h.deepest hj))
    · rw [max_eq_right hle] at hj
      have hjk : j = k := by omega
      exact hslots.mpr (.inr (by rw [hjk]))

end LiftedStack.At

/-! ## The operations of the model -/

namespace Lifted

variable {α β : Type} {t : SymbolTable} {f g : Levels → Levels}

/-- A computation that takes states from one level to another. -/
def Moves (t : SymbolTable) (f : Levels → Levels) (x : Lifted α) : Prop :=
  ∀ s a s' l, Yields x s a s' → s.At t l → s'.At t (f l)

namespace Moves

theorem congr {x : Lifted α} (h : Moves t f x) (hfg : ∀ l, f l = g l) : Moves t g x :=
  fun _ _ _ l hx hs => hfg l ▸ h _ _ _ _ hx hs

theorem pure (a : α) : Moves t id (pure a) := fun _ _ _ _ h hs => by
  cases h
  exact hs

theorem bind {x : Lifted α} {k : α → Lifted β} (hx : Moves t f x) (hk : ∀ a, Moves t g (k a)) :
    Moves t (fun l => g (f l)) (x >>= k) := fun _ _ _ _ h hs => by
  obtain ⟨a, s', hxs, hks⟩ := exists_of_yields_bind h
  exact hk a _ _ _ _ hks (hx _ _ _ _ hxs hs)

/-- The levels stay in the first part. -/
theorem still_bind {x : Lifted α} {k : α → Lifted β} (hx : Moves t id x)
    (hk : ∀ a, Moves t g (k a)) : Moves t g (x >>= k) := hx.bind hk

/-- The levels stay in the second part. -/
theorem bind_still {x : Lifted α} {k : α → Lifted β} (hx : Moves t f x)
    (hk : ∀ a, Moves t id (k a)) : Moves t f (x >>= k) := hx.bind hk

theorem get : Moves t id (get : Lifted LiftedStack) := fun _ _ _ _ h hs => by
  cases h
  exact hs

theorem onTable {op : SymbolTable → SymbolRef × SymbolTable}
    (hg : ∀ u : SymbolTable, u.Grows (op u).2) (hn : ∀ u : SymbolTable, u.AddsNoSlot (op u).2) :
    Moves t id (onTable op) := fun s _ _ _ h hs => by
  cases h
  exact hs.of_table (hg s.symbols) (hn s.symbols)

theorem temporary : Moves t id temporary :=
  get.still_bind fun s => .onTable (fun u => u.temporary_grows (.block s.node)) fun u =>
    u.addsNoSlot_insert _ (s := .temporary) fun _ => Address.noConfusion

theorem global (g : Global) : Moves t id (global g) :=
  .onTable (fun u => u.global_grows g) fun u => u.addsNoSlot_global g

theorem constant (w : Word) (type : TypeHint) : Moves t id (constant w type) :=
  .onTable (fun u => u.constant_grows w type) fun u => u.addsNoSlot_constant w type

theorem emit (i : Instruction) : Moves t id (emit i) := fun _ _ _ _ h hs => by
  cases h
  exact hs.of_eq rfl rfl rfl hs.stack hs.borrows

theorem symbol (ref : SymbolRef) : Moves t id (symbol ref) := by
  refine get.still_bind fun s => ?_
  split
  · exact .pure _
  · exact fun _ _ _ _ h => by cases h

theorem values? (refs : List SymbolRef) : Moves t id (values? refs) := by
  induction refs with
  | nil => exact .pure _
  | cons ref rest ih =>
    refine (symbol ref).still_bind fun x => ?_
    split
    · exact ih.still_bind fun _ => .pure _
    · exact .pure _

theorem fold (op : Operator) (refs : List SymbolRef) : Moves t id (fold op refs) := by
  refine (values? refs).still_bind fun vs => ?_
  split
  · exact (constant _ _).still_bind fun _ => .pure _
  · exact .pure _

/-! ### Reading the stack -/

/-- The slot of an entry is put in at its first use. -/
theorem argument {s s' : LiftedStack} {l : Levels} {ref : SymbolRef} {k n : Nat}
    (h : Yields (argument (Int32.ofNat k)) s ref s') (hs : s.At t l)
    (hk : (k : Int) + 1 = n - l.height) : s'.At t (l.touch n) := by
  obtain ⟨_, s₁, hget, h₁⟩ := exists_of_yields_bind h
  cases hget
  split at h₁
  · next ref hl =>
    cases h₁
    refine hs.touch hk hs.grows ⟨.inl, ?_⟩ .inl rfl rfl
    rintro (hslot | rfl)
    · exact hslot
    · exact hs.filed hl
  · obtain ⟨_, s₂, hinsert, h₂⟩ := exists_of_yields_bind h₁
    cases hinsert
    cases h₂
    refine hs.touch hk (hs.grows.trans (s.symbols.insert_grows _ _))
      (SymbolTable.newSlot_insert_iff hs.grows _) (fun ha => ?_) rfl rfl
    simp only [List.lookup_cons] at ha
    split at ha
    · next hslot => exact .inr (eq_of_beq hslot)
    · exact .inl ha

/-- Reading an entry needs it and those above it. -/
theorem nth (n : Nat) : Moves t (·.touch (n + 1)) (nth n) := fun s ref s' l h hs => by
  obtain ⟨_, s₁, hget, h₁⟩ := exists_of_yields_bind h
  cases hget
  have hstack := hs.stack
  have hborrows := hs.borrows
  split at h₁
  · next hn =>
    cases h₁
    have hlt := (List.getElem?_eq_some_iff.mp hn).1
    have hsame : l.touch (n + 1) = l := l.touch_of_le (by omega)
    change s.At t (l.touch (n + 1))
    rwa [hsame]
  · next hn =>
    have hle := List.getElem?_eq_none_iff.mp hn
    rw [LiftedStack.slot_eq hle] at h₁
    exact argument h₁ hs (by omega)

/-! ### Changing the stack -/

theorem push (ref : SymbolRef) : Moves t Levels.raise (push ref) := fun _ _ _ _ h hs => by
  cases h
  refine hs.of_eq rfl rfl rfl ?_ hs.borrows
  have := hs.stack
  simp only [Levels.raise, List.length_cons]
  omega

theorem pop : Moves t (·.take 1) pop := fun s ref s' l h hs => by
  obtain ⟨_, s₁, hm, h₁⟩ := exists_of_yields_bind h
  cases hm
  obtain ⟨_, s₂, hget, h₂⟩ := exists_of_yields_bind h₁
  cases hget
  have hstack := hs.stack
  have hborrows := hs.borrows
  have hdrawn := l.drawn_le
  simp only at h₂
  split at h₂
  · next ref rest hlocal =>
    cases h₂
    rw [hlocal, List.length_cons] at hstack
    refine hs.of_eq rfl rfl ?_ ?_ ?_ <;> simp only [Levels.take] <;> omega
  · next hempty =>
    obtain ⟨ref, s₃, hnth, h₃⟩ := exists_of_yields_bind h₂
    cases h₃
    have hs₁ : LiftedStack.At { s with height := s.height - 1 } t l :=
      hs.of_eq rfl rfl rfl hs.stack hs.borrows
    have hs₃ := nth 0 _ _ _ _ hnth hs₁
    have hstack₃ := hs₃.stack
    have hborrows₃ := hs₃.borrows
    rw [hempty, List.length_nil] at hstack
    simp only [Levels.touch] at hstack₃ hborrows₃
    refine hs₃.of_eq rfl rfl rfl ?_ ?_ <;> simp only [Levels.take] <;> omega

theorem drop : Moves t (·.take 1) (StackMachine.drop : Lifted Unit) :=
  pop.bind_still fun _ => .pure ()

/-- A copy reads as deep as its source and is pushed. -/
theorem dup (n : Nat) : Moves t (fun l => (l.touch (n + 1)).raise) (dup (n + 1)) := by
  refine (nth n).bind fun source => (symbol source).still_bind fun x => ?_
  split
  · exact .push source
  · exact temporary.still_bind fun y => (emit _).still_bind fun _ => .push y

theorem swapEntry (n : Nat) : Moves t (·.touch (n + 1)) (swapEntry n) := fun _ _ _ l h hs => by
  obtain ⟨other, s₁, hnth, h₁⟩ := exists_of_yields_bind h
  have hs₁ := nth n _ _ _ _ hnth hs
  obtain ⟨_, _, hget, h₂⟩ := exists_of_yields_bind h₁
  cases hget
  split at h₂
  · next top rest hlocal =>
    obtain ⟨x, s₂, hx, h₃⟩ := exists_of_yields_bind h₂
    cases h₃
    have hs₂ := temporary _ _ _ _ hx hs₁
    have hlength : (x :: rest).length = s₁.stack.length := by rw [hlocal]; rfl
    refine hs₂.of_eq rfl rfl rfl ?_ hs₂.borrows
    exact (congrArg Int.ofNat hlength).trans hs₁.stack
  · -- The top was read with the entry below it.
    have hcopies : Moves t (·.touch 1) (do
        let first ← Lifted.nth 0
        let x ← Lifted.temporary
        Lifted.emit (.copy x first)
        Lifted.emit (.copy first other)
        Lifted.emit (.copy other x)) :=
      (nth 0).bind_still fun _ => temporary.still_bind fun _ => (emit _).still_bind fun _ =>
        (emit _).still_bind fun _ => emit _
    have hs₂ : LiftedStack.At _ t ((l.touch (n + 1)).touch 1) := hcopies _ _ _ _ h₂ hs₁
    rwa [l.touch_touch (Nat.le_add_left 1 n)] at hs₂

theorem swap (n : Nat) : Moves t (·.touch (n + 1)) (swap n) := fun s _ _ l h hs => by
  obtain ⟨_, _, hget, h₁⟩ := exists_of_yields_bind h
  cases hget
  dsimp only at h₁
  split at h₁
  · next hn =>
    cases h₁
    have hlt := (List.getElem?_eq_some_iff.mp hn).1
    have hstack := hs.stack
    have hsame : l.touch (n + 1) = l := l.touch_of_le (by omega)
    refine hs.of_eq rfl rfl (congrArg Levels.reach hsame) ?_ hs.borrows
    rw [List.length_set, List.length_set]
    exact hs.stack
  · exact swapEntry n _ _ _ _ h₁ hs

/-! ### Lowered code -/

theorem popN (n : Nat) : Moves t (·.take n) (popN n : Lifted (List SymbolRef)) := by
  induction n with
  | zero => exact (pure _).congr fun l => l.take_zero.symm
  | succ n ih =>
    have hrest : ∀ ref : SymbolRef, Moves t (·.take n) (do
        let rest ← EvmFlow.popN (m := Lifted) n
        return ref :: rest) := fun ref => ih.bind_still fun _ => pure _
    refine (pop.bind hrest).congr fun l => ?_
    rw [Levels.take_take, Nat.add_comm]

theorem pop_pop {k : SymbolRef → SymbolRef → Lifted α} (hk : ∀ x y, Moves t f (k x y)) :
    Moves t (fun l => f (l.take 2)) (do k (← Lifted.pop) (← Lifted.pop)) :=
  (pop.bind fun x => pop.bind (hk x)).congr fun l => by rw [Levels.take_take]

theorem emit_push (i : Instruction) (x : SymbolRef) :
    Moves t Levels.raise (do Lifted.emit i; Lifted.push x) := (emit i).still_bind fun _ => push x

theorem pushResult (op : Operator) (refs : List SymbolRef) (assign : SymbolRef → Instruction) :
    Moves t Levels.raise (pushResult op refs assign : Lifted Unit) := by
  refine (fold op refs).still_bind fun r => ?_
  cases r with
  | some x => exact push x
  | none => exact temporary.still_bind fun x => emit_push _ x

/-- The code of a shape moves the levels as the shape says. -/
theorem lower (i : Located) {w : Lowering} (hw : w.Proper) :
    Moves t w.move (lower i w : Lifted Unit) := by
  cases w with
  | skip => exact pure ()
  | push | counter => exact (constant _ _).still_bind push
  | drop => exact drop
  | dup n =>
    obtain ⟨k, -, rfl⟩ := hw
    exact dup k
  | swap n => exact swap n
  | jump => exact pop.bind_still fun _ => emit _
  | jumpIf => exact pop_pop (f := id) fun _ _ => emit _
  | store region =>
    exact pop_pop (f := id) fun _ _ => (global region).still_bind fun _ => emit _
  | load region =>
    exact pop.bind fun _ => temporary.still_bind fun x =>
      (global region).still_bind fun _ => emit_push _ x
  | binary op => exact pop_pop fun _ _ => pushResult _ _ _
  | unary op => exact pop.bind fun _ => pushResult _ _ _
  | function g n => exact (popN n).bind fun _ => temporary.still_bind fun x => emit_push _ x
  | procedure g n => exact (popN n).bind_still fun _ => emit _

theorem lowerInstr (i : Located) :
    Moves t (·.step i.instr.op) (lowerInstr i : Lifted Bool) := by
  unfold EvmFlow.lowerInstr
  cases hw : i.instr.op.lowering? with
  | some w =>
    have hlower := lower (t := t) i (Lowering.proper_of_lowering? hw)
    refine (hlower.bind_still fun _ => pure true).congr fun l => ?_
    exact (l.step_eq_move hw).symm
  | none => exact (pure false).congr fun l => (l.step_of_no_lowering hw).symm

end Moves

/-- **Lowered code moves the levels as the instructions do.** -/
theorem moves_lowerCode (t : SymbolTable) (code : List Located) :
    Moves t (·.run code) (lowerCode code : Lifted (List Located)) := by
  induction code with
  | nil => exact .pure []
  | cons i rest ih => exact (Moves.lowerInstr i).bind fun _ => ih.bind_still fun _ => .pure _

end Lifted

/-! ## Summaries -/

namespace LiftedStack

/-- Lifting succeeds on every instruction list, at the levels of the list. -/
theorem exists_liftAll_at {t : SymbolTable} (ht : t.Consistent) (node : NodeId)
    (code : List Located) :
    ∃ s, liftAll t node code = .ok s ∧ s.Balanced ∧ s.At t (Levels.entry.run code) := by
  obtain ⟨s, hs, -, -⟩ := exists_liftAll ht node code
  obtain ⟨gaps, hyields⟩ := liftAll_eq_ok.mp hs
  have hbalanced : s.Balanced := (Lifted.Balances.closed.lowerCode code _ _ _ hyields).2 rfl
  exact ⟨s, hs, hbalanced, Lifted.moves_lowerCode t code _ _ _ _ hyields (.start t node)⟩

variable {s : LiftedStack} {t : SymbolTable} {code : List Located}

theorem At.length_stack (h : s.At t (Levels.entry.run code)) :
    (s.stack.length : Int) = s.borrows + Evm.rise code := by
  rw [h.stack, h.borrows, Levels.height_entry_run, Int.add_comm]

/-- The change of height is the rise of the code, in 32 bits. -/
theorem At.height_eq (h : s.At t (Levels.entry.run code)) (hb : s.Balanced) :
    s.height = Int32.ofInt (Evm.rise code) := by
  have hrise : (s.stack.length : Int) - s.borrows = Evm.rise code := by
    have := h.length_stack
    omega
  rw [show s.height = _ from hb, hrise]

theorem toInt_ofInt_rise_iff (hlength : code.length < 2 ^ 31) :
    (Int32.ofInt (Evm.rise code)).toInt = Evm.rise code ↔ -2 ^ 31 ≤ Evm.rise code := by
  constructor
  · intro h
    rw [← h]
    exact Int32.le_toInt _
  · intro h
    have := Evm.rise_le_length code
    exact Int32.toInt_ofInt_of_le h (by omega)

/-- The numbers one above the slots whose symbols were put in; 0 stands for none. -/
def slotDepths (s : LiftedStack) (t : SymbolTable) : Set Int :=
  {k | k = 0 ∨ ∃ slot, t.NewSlot s.symbols slot ∧ k = slot.toInt + 1}

theorem le_of_mem_slotDepths {k : Int} (h : k ∈ s.slotDepths t) : k ≤ 2 ^ 31 := by
  rcases h with rfl | ⟨slot, -, rfl⟩
  · decide
  · have := slot.toInt_lt
    omega

/-- The deepest slot tells how high a stack the code needs, as long as slots are not negative. -/
theorem At.isGreatest_slotDepths_iff (h : s.At t (Levels.entry.run code)) :
    IsGreatest (s.slotDepths t) (Evm.required code) ↔ Evm.required code ≤ 2 ^ 31 := by
  constructor
  · intro hg
    have := le_of_mem_slotDepths hg.1
    omega
  intro hle
  have hreach := Levels.reach_entry_run code
  have htoInt : ∀ {k : Nat}, k < Evm.required code → (Int32.ofNat k).toInt = k := fun hk =>
    Int32.toInt_ofNat_of_lt (by omega)
  constructor
  · rcases Nat.eq_zero_or_pos (Evm.required code) with hzero | hpos
    · exact .inl (congrArg Int.ofNat hzero)
    · obtain ⟨k, hk⟩ := Nat.exists_eq_add_one_of_ne_zero (Nat.ne_of_gt hpos)
      refine .inr ⟨Int32.ofNat k, h.deepest (by rw [hreach]; omega), ?_⟩
      rw [htoInt (by omega)]
      omega
  · rintro k (rfl | ⟨slot, hslot, rfl⟩)
    · exact Int.natCast_nonneg _
    · obtain ⟨k, hk, rfl⟩ := h.slots hslot
      rw [hreach] at hk
      rw [htoInt (by omega)]
      omega

/-- **The summary of lifted code is its effect on the stack.** Lifting succeeds and the summary adds
up: the arguments are as many as the deepest removal takes from the entry stack, and together with
the rise of the code they give the number of values left. The height is the rise in 32 bits, and the
rise itself exactly if that is not too small. One more than the largest slot with a symbol is the
least depth of stack that the code runs on, exactly if the slots count that far. -/
theorem liftAll_measures_stack (ht : t.Consistent) (node : NodeId) (code : List Located)
    (hlength : code.length < 2 ^ 31) :
    ∃ s depth, liftAll t node code = .ok s ∧ s.summary = .ok s.info ∧
      IsGreatest (Evm.drops code) s.info.arguments ∧
      (s.info.generates.length : Int) = s.info.arguments + Evm.rise code ∧
      s.info.height = Int32.ofInt (Evm.rise code) ∧
      (s.info.height.toInt = Evm.rise code ↔ -2 ^ 31 ≤ Evm.rise code) ∧
      IsLeast {d | Evm.RunsOn code d} depth ∧
      (IsGreatest (s.slotDepths t) depth ↔ depth ≤ 2 ^ 31) := by
  obtain ⟨s, hs, hbalanced, hat⟩ := exists_liftAll_at ht node code
  have hheight : s.info.height = Int32.ofInt (Evm.rise code) := hat.height_eq hbalanced
  refine ⟨s, Evm.required code, hs, hbalanced.summary, ?_, ?_, hheight, ?_,
    Evm.isLeast_required code, hat.isGreatest_slotDepths_iff⟩
  · have := Levels.isGreatest_drops code
    rwa [← hat.borrows] at this
  · rw [info, List.length_reverse]
    exact hat.length_stack
  · rw [hheight]
    exact toInt_ofInt_rise_iff hlength

/-- Code that copies the third entry and discards the copy, adds the two topmost entries, exchanges
the sum with the fourth entry, and pushes a word: it takes two entries but needs four. -/
theorem liftAll_measures_stack_exchange :
    let code := locate 0 (decode [0x82, 0x50, 0x01, 0x91, 0x60, 0x05])
    SymbolTable.Consistent {} ∧ code.length < 2 ^ 31 ∧
      ∃ s, liftAll {} 0 code = .ok s ∧ s.summary = .ok s.info ∧ s.info.arguments = 2 ∧
        s.info.generates.length = 2 ∧ s.info.height.toInt = 0 ∧
        IsLeast {d | Evm.RunsOn code d} 4 ∧ IsGreatest (s.slotDepths {}) 4 := by
  intro code
  have hlength : code.length < 2 ^ 31 := by decide +kernel
  have hrise : Evm.rise code = 0 := by decide +kernel
  have hdrawn : (Levels.entry.run code).drawn = 2 := by decide +kernel
  have hrequired : Evm.required code = 4 := by decide +kernel
  obtain ⟨s, depth, hs, hsummary, hdrops, hgenerates, -, hheight, hleast, hslots⟩ :=
    liftAll_measures_stack SymbolTable.consistent_empty 0 code hlength
  have harguments : s.info.arguments = 2 :=
    (hdrops.unique (Levels.isGreatest_drops code)).trans hdrawn
  have hdepth : depth = 4 := (hleast.unique (Evm.isLeast_required code)).trans hrequired
  rw [harguments, hrise] at hgenerates
  rw [hrise] at hheight
  subst hdepth
  exact ⟨SymbolTable.consistent_empty, hlength, s, hs, hsummary, harguments,
    Int.ofNat_inj.mp hgenerates, hheight.mpr (by decide), hleast, hslots.mpr (by decide)⟩

/-! ## Beyond 32 bits -/

theorem rise_logs (count : Nat) :
    Evm.rise (locate 0 (List.replicate count ⟨.log 4, []⟩)) = -6 * count := by
  have hmap : (locate 0 (List.replicate count ⟨.log 4, []⟩)).map
      (fun i => (i.instr.op.outputs : Int) - i.instr.op.inputs) = List.replicate count (-6) := by
    refine List.eq_replicate_iff.mpr ⟨?_, fun k hk => ?_⟩
    · rw [List.length_map, length_locate, List.length_replicate]
    · obtain ⟨i, hi, rfl⟩ := List.mem_map.mp hk
      rw [op_of_mem_logs i hi]
      rfl
  rw [Evm.rise, hmap, List.sum_replicate_int, Int.mul_comm]

/-- **Short code may leave 32 bits**: each of the instructions, which are fewer than `2 ^ 31 - 32`,
takes six words, so that the change of height and the deepest slot wrap around. -/
theorem liftAll_wraps_on_logs :
    let code := locate 0 (List.replicate 357913942 ⟨.log 4, []⟩)
    code.length < 2 ^ 31 - 32 ∧ ∃ s, liftAll {} 4 code = .ok s ∧
      s.info.height.toInt ≠ Evm.rise code ∧
      ∀ depth : Nat, IsLeast {d | Evm.RunsOn code d} depth →
        ¬ IsGreatest (s.slotDepths {}) depth := by
  intro code
  have hlength : code.length = 357913942 := (length_locate 0 _).trans List.length_replicate
  have hrise : Evm.rise code = -6 * (357913942 : Nat) := rise_logs 357913942
  obtain ⟨s, hs, -, -⟩ := exists_liftAll SymbolTable.consistent_empty 4 code
  refine ⟨by omega, s, hs, fun hheight => ?_, fun depth hleast hgreatest => ?_⟩
  · have := Int32.le_toInt s.info.height
    omega
  · -- Code needs at least the words by which it lowers the stack.
    have hneg := (Levels.entry.run code).neg_height_le
    have hdrawn := (Levels.entry.run code).drawn_le
    rw [Levels.height_entry_run] at hneg
    rw [Levels.reach_entry_run, ← hleast.unique (Evm.isLeast_required code)] at hdrawn
    have := le_of_mem_slotDepths hgreatest.1
    omega

end LiftedStack

end EvmFlow
