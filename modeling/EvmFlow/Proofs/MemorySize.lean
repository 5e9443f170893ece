import EvmFlow.Proofs.BlockDiscipline

/-!
# Dead reads and the size of memory

Memory grows when it is read: a load makes it cover the word that is loaded, and a hash the bytes
that are hashed. Dead code elimination takes such reads for mere computations. Once one of them is
gone, a later `MemorySize` call can find less memory than before: up to the first call that does,
the size before is the larger of the size after and of what the removed reads account for.

* `Environment.metered`: an environment that keeps the size of memory;
* `Machine.lost`: the size of memory that the removed instructions account for;
* `Measures`, `SameSizes`, `Covered`: the `MemorySize` calls of code, whether they find the same
  sizes before and after, and whether the remaining code makes up for what is lost before each call;
* `Close`: the relation between the two runs, kept by each step and by code (`Pruned.close_run`);
* **`Program.sameSizes_iff_covered`**: `MemorySize` calls find the same sizes in the blocks of a
  program where memory is covered, and nowhere else;
* `Program.memorySize_discarded`: a block where they do not.
-/

namespace EvmFlow

/-! ## The size of memory -/

/-- Where the memory that a read accesses ends. -/
def Action.extent : Action → List Word → Nat
  | .load (.global .memory), [index] => index.toNat + 32
  | .function .sha3, [offset, length] => if length = 0 then 0 else offset.toNat + length.toNat
  | _, _ => 0

/-- Memory grows by whole words. -/
def wholeWords (size : Nat) : Nat := (size + 31) / 32 * 32

/-- An environment that keeps the size of memory and answers it to `MemorySize` calls. A read makes
memory cover what it accesses, and any other action makes it cover what `grow` says. -/
def Environment.metered {σ : Type} (I : Environment σ) (grow : Action → List Word → Nat) :
    Environment (σ × Nat) := fun a ws s =>
  (if a = .function .memorySize then BitVec.ofNat 256 s.2 else (I a ws s.1).1, (I a ws s.1).2,
    max s.2 (wholeWords (if a.isObservable then grow a ws else a.extent ws)))

namespace Machine

variable {σ : Type}

/-- The size of memory that an instruction accounts for if it is a read. -/
def reach (t : SymbolTable) (m : Machine σ) (i : Instruction) : Nat :=
  match i.action? (t.region m.values) with
  | some a => wholeWords (a.extent (i.operands.map m.values))
  | none => 0

/-- The size of memory that the reads of `code` which are not among `kept` account for. -/
def lost (I : Environment σ) (t : SymbolTable) (kept : List Instruction) :
    Machine σ → List Instruction → Nat
  | _, [] => 0
  | m, i :: code => max (if i ∈ kept then 0 else m.reach t i) (lost I t kept (m.step I t i) code)

end Machine

/-- After `front`, the code puts the size of memory into `x`. -/
def Measures (code front : List Instruction) (x : SymbolRef) : Prop :=
  ∃ parameters rest, code = front ++ .function .memorySize x parameters :: rest

section Sizes

variable {σ : Type} (I : Environment (σ × Nat)) (t : SymbolTable)

/-- Each `MemorySize` call in `kept` finds the size of memory that it finds in `code`. -/
def SameSizes (m m' : Machine (σ × Nat)) (code kept : List Instruction) : Prop :=
  ∀ x front front', Measures code front x → Measures kept front' x →
    (m.run I t front).env.2 = (m'.run I t front').env.2

/-- The memory that each `MemorySize` call in `kept` finds is as large as the reads account for that
went away in front of it. -/
def Covered (m : Machine (σ × Nat)) (code kept : List Instruction) : Prop :=
  ∀ x front front', Measures code front x → Measures kept front' x →
    m.lost I t kept front ≤ (m.run I t front').env.2

end Sizes

/-! ## One call -/

section Calls

variable {code front before : List Instruction} {i : Instruction} {x : SymbolRef}

@[simp] theorem not_measures_nil : ¬ Measures [] front x := by simp [Measures]

theorem Measures.cons (h : Measures code front x) (i : Instruction) :
    Measures (i :: code) (i :: front) x := by
  obtain ⟨parameters, rest, rfl⟩ := h
  exact ⟨parameters, rest, rfl⟩

@[simp] theorem measures_cons : Measures (i :: code) front x ↔
    (front = [] ∧ ∃ parameters, i = .function .memorySize x parameters) ∨
      ∃ rest, front = i :: rest ∧ Measures code rest x := by
  constructor
  · rintro ⟨parameters, rest, h⟩
    cases front with
    | nil => exact .inl ⟨rfl, parameters, (List.cons.inj h).1⟩
    | cons j front =>
      obtain ⟨rfl, hrest⟩ := List.cons.inj h
      exact .inr ⟨front, rfl, parameters, rest, hrest⟩
  · rintro (⟨rfl, parameters, rfl⟩ | ⟨rest, rfl, h⟩)
    · exact ⟨parameters, code, rfl⟩
    · exact h.cons i

theorem Measures.append (h : Measures front before x) (rest : List Instruction) :
    Measures (front ++ rest) before x := by
  obtain ⟨parameters, after, rfl⟩ := h
  exact ⟨parameters, after ++ rest, by simp⟩

theorem Measures.trans {y : SymbolRef} (h : Measures front before y)
    (hfront : Measures code front x) : Measures code before y := by
  obtain ⟨parameters, rest, rfl⟩ := hfront
  exact h.append _

theorem Measures.length_lt (h : Measures code front x) : front.length < code.length := by
  obtain ⟨parameters, rest, rfl⟩ := h
  simp

/-- Where a symbol is assigned once, the code in front of the assignment assigns it nowhere. -/
theorem takeWhile_of_once {rest : List Instruction} (hi : i.definition? = some x)
    (honce : (assigned (front ++ i :: rest)).count x ≤ 1) :
    (front ++ i :: rest).takeWhile (fun j => j.definition? ≠ some x) = front := by
  have hnone : x ∉ assigned front := by
    intro hmem
    have hpos := List.count_pos_iff.mpr hmem
    have hsplit : assigned (front ++ i :: rest) = assigned front ++ x :: assigned rest := by
      simp [assigned, hi]
    rw [hsplit, List.count_append, List.count_cons_self] at honce
    omega
  have hfront : ∀ j ∈ front, decide (j.definition? ≠ some x) = true := by
    intro j hj
    simp only [decide_eq_true_eq]
    exact fun hdef => hnone (mem_assigned.mpr ⟨j, hj, hdef⟩)
  rw [List.takeWhile_append_of_pos hfront, List.takeWhile_cons_of_neg (by simp [hi]),
    List.append_nil]

/-- A result that is assigned once belongs to one call. -/
theorem Measures.unique (h : Measures code front x) (h' : Measures code before x)
    (honce : (assigned code).count x ≤ 1) : before = front := by
  obtain ⟨parameters, rest, rfl⟩ := h
  obtain ⟨parameters', rest', heq⟩ := h'
  have hfront := takeWhile_of_once (i := .function .memorySize x parameters) rfl honce
  rw [heq] at honce hfront
  exact (takeWhile_of_once (i := .function .memorySize x parameters') rfl honce).symm.trans hfront

end Calls

/-! ## Pruned code -/

namespace Pruned

variable {dead : SymbolRef → Prop} {code kept : List Instruction}

/-- If dead symbols are assigned once, then those whose assignments were removed are not assigned
any more. -/
theorem unassigned (h : Pruned dead code kept)
    (honce : ∀ x, dead x → (assigned code).count x ≤ 1) :
    Pruned (fun x => dead x ∧ x ∈ assigned code ∧ x ∉ assigned kept) code kept := by
  induction h with
  | nil => exact .nil
  | @keep i code kept h ih =>
    have hcount : ∀ x, dead x → i.definition?.toList.count x + (assigned code).count x ≤ 1 := by
      simpa only [assigned_cons, List.count_append] using honce
    have hrest := ih fun x hx => by
      have hle := hcount x hx
      omega
    refine .keep i (hrest.mono fun x ⟨hdead, hcode, hkept⟩ => ?_)
    have hle := hcount x hdead
    have hpos := List.count_pos_iff.mpr hcode
    have hi : x ∉ i.definition?.toList := List.count_eq_zero.mp (by omega)
    simp only [assigned_cons, List.mem_append, not_or]
    exact ⟨hdead, .inr hcode, hi, hkept⟩
  | @drop i x code kept hpure hdef hdead h ih =>
    have hcount : ∀ y, dead y → [x].count y + (assigned code).count y ≤ 1 := by
      simpa only [assigned_cons, hdef, Option.toList_some, List.count_append] using honce
    have hrest := ih fun y hy => by
      have hle := hcount y hy
      omega
    simp only [assigned_cons, hdef, Option.toList_some, List.singleton_append, List.mem_cons]
    refine .drop hpure hdef ⟨hdead, .inl rfl, fun hmem => ?_⟩
      (hrest.mono fun y ⟨hy, hcode, hkept⟩ => ⟨hy, .inr hcode, hkept⟩)
    have hle := hcount x hdead
    have hcode : x ∈ assigned code := (h.sublist.filterMap _).subset hmem
    have hpos := List.count_pos_iff.mpr hcode
    rw [List.count_singleton_self] at hle
    omega

end Pruned

/-! ## Runs before and after -/

theorem Instruction.eq_function_of_action? {i : Instruction} {r : SymbolRef → Region} {g : Global}
    (h : i.action? r = some (.function g)) : ∃ x parameters, i = .function g x parameters := by
  cases i <;> cases h
  exact ⟨_, _, rfl⟩

section Runs

variable {σ : Type} {I : Environment σ} {grow : Action → List Word → Nat} {t : SymbolTable}
  {dead : SymbolRef → Prop} {gap : Nat} {m m' : Machine (σ × Nat)}

/-- Two runs that differ at the symbols among `dead` only, and in that the first one has memory that
covers `gap`. -/
structure Close (dead : SymbolRef → Prop) (gap : Nat) (m m' : Machine (σ × Nat)) : Prop where
  values : ∀ x, ¬ dead x → m.values x = m'.values x
  env : m.env.1 = m'.env.1
  size : m.env.2 = max m'.env.2 gap

namespace Close

theorem refl (dead : SymbolRef → Prop) (m : Machine (σ × Nat)) : Close dead 0 m m :=
  ⟨fun _ _ => rfl, rfl, (Nat.max_zero _).symm⟩

theorem act (h : Close dead gap m m') (x : Option SymbolRef) {a : Action} (ws : List Word)
    (hsize : a = .function .memorySize → m.env.2 = m'.env.2) :
    Close dead gap (m.act (I.metered grow) x a ws) (m'.act (I.metered grow) x a ws) := by
  have hanswer : (I.metered grow a ws m.env).1 = (I.metered grow a ws m'.env).1 := by
    by_cases ha : a = .function .memorySize
    · simp only [Environment.metered, ha, if_true, hsize ha]
    · simp only [Environment.metered, ha, if_false, h.env]
  refine ⟨fun y hy => ?_, ?_, ?_⟩
  · rw [Machine.act_values, Machine.act_values, hanswer]
    exact m.assign_values_congr (h.values y hy) x _
  · simp only [Machine.act_env, Environment.metered, h.env]
  · simp only [Machine.act_env, Environment.metered, h.size]
    omega

/-- Both runs take an instruction that reads no symbol among `dead`. A `MemorySize` call finds the
same size in both. -/
theorem step (h : Close dead gap m m') {i : Instruction} (hi : ∀ x ∈ i.uses, ¬ dead x)
    (hsize : ∀ x parameters, i = .function .memorySize x parameters → m.env.2 = m'.env.2) :
    Close dead gap (m.step (I.metered grow) t i) (m'.step (I.metered grow) t i) := by
  obtain ⟨hoperands, haction⟩ := Instruction.congr_of_uses t fun x hx => h.values x (hi x hx)
  cases ha : i.action? (t.region m'.values) with
  | some a =>
    rw [m.step_of_action _ _ (haction.trans ha), m'.step_of_action _ _ ha, hoperands]
    refine h.act _ _ fun hcall => ?_
    obtain ⟨x, parameters, hi⟩ := Instruction.eq_function_of_action? (hcall ▸ ha)
    exact hsize x parameters hi
  | none =>
    rw [m.step_of_no_action _ _ (haction.trans ha), m'.step_of_no_action _ _ ha, hoperands]
    refine ⟨fun y hy => m.assign_values_congr (h.values y hy) _ _, ?_, ?_⟩
    · rw [Machine.assign_env, Machine.assign_env, h.env]
    · rw [Machine.assign_env, Machine.assign_env, h.size]

/-- The first run takes an instruction that only computes a symbol among `dead`. It may make memory
grow. -/
theorem step_left (hI : I.KeptByReads) (h : Close dead gap m m') {i : Instruction} {x : SymbolRef}
    (hp : i.isPure = true) (hx : i.definition? = some x) (hdead : dead x) :
    Close dead (max gap (m.reach t i)) (m.step (I.metered grow) t i) m' := by
  refine ⟨fun y hy => ?_, ?_, ?_⟩
  · rw [Machine.step_values_of_not_dead hx hdead hy, h.values y hy]
  · cases ha : i.action? (t.region m.values) with
    | none => rw [m.step_of_no_action _ t ha, Machine.assign_env, h.env]
    | some a =>
      have hread := Instruction.isObservable_of_isPure hp ha
      rw [m.step_of_action _ t ha, Machine.act_env]
      exact (hI _ _ _ hread).trans h.env
  · unfold Machine.reach
    cases ha : i.action? (t.region m.values) with
    | none =>
      rw [m.step_of_no_action _ t ha, Machine.assign_env, h.size]
      dsimp only
      omega
    | some a =>
      have hread := Instruction.isObservable_of_isPure hp ha
      rw [m.step_of_action _ t ha, Machine.act_env]
      simp only [Environment.metered, hread, h.size, Bool.false_eq_true, if_false]
      omega

end Close

/-- Code and what is left of it keep two runs close as long as `MemorySize` calls find the same
sizes. Here `all` are the instructions that were not removed, before and after this code. -/
theorem Pruned.close_run (hI : I.KeptByReads) {code kept all : List Instruction}
    (hpruned : Pruned dead code kept) (hread : ∀ i ∈ kept, ∀ x ∈ i.uses, ¬ dead x)
    (hall : ∀ i ∈ kept, i ∈ all) (hdead : ∀ i ∈ all, ∀ x, i.definition? = some x → ¬ dead x)
    (hsame : SameSizes (I.metered grow) t m m' code kept) (h : Close dead gap m m') :
    Close dead (max gap (m.lost (I.metered grow) t all code)) (m.run (I.metered grow) t code)
      (m'.run (I.metered grow) t kept) := by
  induction hpruned generalizing m m' gap with
  | nil =>
    rw [Machine.lost, Nat.max_zero]
    exact h
  | @keep i code kept _ ih =>
    obtain ⟨hi, hread⟩ := List.forall_mem_cons.mp hread
    obtain ⟨hmem, hall⟩ := List.forall_mem_cons.mp hall
    have hsize : ∀ x parameters, i = .function .memorySize x parameters → m.env.2 = m'.env.2 :=
      fun x parameters hcall => hsame x [] [] ⟨parameters, code, congrArg (· :: code) hcall⟩
        ⟨parameters, kept, congrArg (· :: kept) hcall⟩
    rw [Machine.lost, if_pos hmem, Nat.zero_max]
    refine ih hread hall (fun x front front' hcode hkept => ?_) (h.step hi hsize)
    exact hsame x (i :: front) (i :: front') (hcode.cons i) (hkept.cons i)
  | @drop i x code kept hpure hdef hx _ ih =>
    have hgone : i ∉ all := fun hmem => hdead i hmem x hdef hx
    rw [Machine.lost, if_neg hgone, ← Nat.max_assoc]
    refine ih hread hall (fun x front front' hcode hkept => ?_) (h.step_left hI hpure hdef hx)
    exact hsame x (i :: front) front' (hcode.cons i) hkept

/-- Up to a call in front of which the sizes are the same, removed reads make up the difference. -/
theorem Pruned.size_eq (hI : I.KeptByReads) {code kept front front' : List Instruction}
    {x : SymbolRef} (hpruned : Pruned dead code kept)
    (hread : ∀ i ∈ kept, ∀ x ∈ i.uses, ¬ dead x)
    (honce : ∀ x, dead x → (assigned code).count x ≤ 1) (hcall : (assigned code).count x ≤ 1)
    (hfront : Measures code front x) (hfront' : Measures kept front' x)
    (hsame : SameSizes (I.metered grow) t m m front front') :
    (m.run (I.metered grow) t front).env.2 =
      max (m.run (I.metered grow) t front').env.2 (m.lost (I.metered grow) t kept front) := by
  obtain ⟨parameters, rest', hkept⟩ := hfront'
  obtain ⟨before, rest, hcode, hbefore⟩ := (hpruned.unassigned honce).split hkept
  -- The call that was kept is the given one, since its result is assigned once.
  obtain rfl : before = front := hfront.unique ⟨parameters, rest, hcode⟩ hcall
  have hsub : ∀ i ∈ front', i ∈ kept := fun i hi => by
    rw [hkept]
    exact List.mem_append_left _ hi
  have hclose := hbefore.close_run hI
    (fun i hi y hy hdead => hread i (hsub i hi) y hy hdead.1) hsub
    (fun i hi y hy hdead => hdead.2.2 (EvmFlow.mem_assigned.mpr ⟨i, hi, hy⟩)) hsame (.refl _ m)
  rw [hclose.size, Nat.zero_max]

/-- **Sizes are the same where memory is covered.** -/
theorem Pruned.sameSizes_iff (hI : I.KeptByReads) {code kept : List Instruction}
    (hpruned : Pruned dead code kept) (hread : ∀ i ∈ kept, ∀ x ∈ i.uses, ¬ dead x)
    (honce : ∀ x, dead x → (assigned code).count x ≤ 1)
    (hcall : ∀ {front x}, Measures code front x → (assigned code).count x ≤ 1) :
    SameSizes (I.metered grow) t m m code kept ↔ Covered (I.metered grow) t m code kept := by
  have hsize : ∀ {x front front'}, Measures code front x → Measures kept front' x →
      SameSizes (I.metered grow) t m m front front' →
        (m.run (I.metered grow) t front).env.2 =
          max (m.run (I.metered grow) t front').env.2 (m.lost (I.metered grow) t kept front) :=
    fun h h' hsame => hpruned.size_eq hI hread honce (hcall h) h h' hsame
  constructor
  · intro hsame x front front' h h'
    have heq := hsize h h' fun y before before' hb hb' =>
      hsame y before before' (hb.trans h) (hb'.trans h')
    have hfound := hsame x front front' h h'
    omega
  · -- All calls in front of a call find the same sizes, by induction on where it stands.
    intro hcovered
    suffices hall : ∀ n x front front', front'.length = n → Measures code front x →
        Measures kept front' x → (m.run (I.metered grow) t front).env.2 =
          (m.run (I.metered grow) t front').env.2 from
      fun x front front' => hall _ x front front' rfl
    intro n
    induction n using Nat.strong_induction_on with
    | _ n ih =>
      intro x front front' hn h h'
      have heq := hsize h h' fun y before before' hb hb' =>
        ih _ (hn ▸ hb'.length_lt) y before before' rfl (hb.trans h) (hb'.trans h')
      have hle := hcovered x front front' h h'
      omega

/-- Where the sizes are the same, so are the values of all symbols that are still assigned. -/
theorem Pruned.values_eq (hI : I.KeptByReads) {code kept : List Instruction} {x : SymbolRef}
    (hpruned : Pruned dead code kept) (hread : ∀ i ∈ kept, ∀ x ∈ i.uses, ¬ dead x)
    (honce : ∀ x, dead x → (assigned code).count x ≤ 1)
    (hsame : SameSizes (I.metered grow) t m m code kept) (hx : x ∈ assigned kept) :
    (m.run (I.metered grow) t code).values x = (m.run (I.metered grow) t kept).values x := by
  have hclose := (hpruned.unassigned honce).close_run hI
    (fun i hi y hy hdead => hread i hi y hy hdead.1) (fun _ => id)
    (fun i hi y hy hdead => hdead.2.2 (EvmFlow.mem_assigned.mpr ⟨i, hi, hy⟩)) hsame (.refl _ m)
  exact hclose.values x fun hdead => hdead.2.2 hx

end Runs

/-! ## Blocks of programs -/

namespace Program

variable {p q : Program} {n : NodeId}

theorem Sound.symbols_of_eliminateDeadCode (hp : p.Sound) {changes : Int}
    (hq : p.eliminateDeadCode = .ok (changes, q)) : q.symbols = p.symbols := by
  obtain ⟨-, -, r, found, -, -, -, hretained, htrimmed⟩ :=
    exists_of_eliminateDeadCode hp.graph.forward hq
  rw [htrimmed.symbols, hretained.others]

/-- Blocks that dead code elimination leaves have pruned code, which reads no dead symbol. -/
theorem Sound.pruned_of_eliminateDeadCode (hp : p.Sound) {changes : Int}
    (hq : p.eliminateDeadCode = .ok (changes, q)) (hn : n ∈ q.blocks) :
    ∃ b, p.graph.label? n = some b ∧ p.isSentinel n = false ∧
      Pruned q.Dead b.instructions (q.codeAt n) ∧ ∀ i ∈ q.codeAt n, ∀ x ∈ i.uses, ¬ q.Dead x := by
  obtain ⟨-, -, r, found, -, -, -, hretained, htrimmed⟩ :=
    exists_of_eliminateDeadCode hp.graph.forward hq
  obtain ⟨hlive, hreal⟩ := mem_blocks.mp hn
  obtain ⟨b', hb'⟩ := Graph.contains_iff_label?.mp hlive
  obtain ⟨b, kept, hb, rfl, hpruned⟩ := htrimmed.label? hb'
  have hreal' : p.isSentinel n = false := by
    rw [← hretained.isSentinel, ← isSentinel_congr htrimmed.sentinels]
    exact hreal
  rw [codeAt_of_label? hb']
  exact ⟨b, (hretained.mem_of_label? hb hreal').2, hreal', hpruned,
    fun i hi x hx => not_dead hb' hreal (.inl ⟨i, hi, hx⟩)⟩

/-- **Removing dead reads keeps what `MemorySize` calls find where memory is covered, and nowhere
else.** Whatever built-in passes have run on the program of a code, dead code elimination succeeds.
Each `MemorySize` call that is left in a block is one call of the block before, and from every entry
state all these calls find the same sizes as before exactly if the memory that the remaining code
has by then is as large as what the removed reads account for. In this case, all symbols that the
block still assigns get the values that they got before. -/
theorem sameSizes_iff_covered (instrs : List Instr) : ∃ p₀, build instrs = .ok p₀ ∧
    ∀ passes : List Pass, (∀ pass ∈ passes, pass = .deadCode ∨ pass = .lift) →
      ∃ p q, p₀.runAll passes = (p, .ok ()) ∧ p.run .deadCode = .ok q ∧ q.symbols = p.symbols ∧
        ∀ n ∈ q.blocks,
          (∀ x front', Measures (q.codeAt n) front' x → ∃! front, Measures (p.codeAt n) front x) ∧
          ∀ {σ : Type} (I : Environment σ) (grow : Action → List Word → Nat), I.KeptByReads →
            ∀ m : Machine (σ × Nat),
              (SameSizes (I.metered grow) p.symbols m m (p.codeAt n) (q.codeAt n) ↔
                Covered (I.metered grow) p.symbols m (p.codeAt n) (q.codeAt n)) ∧
              (Covered (I.metered grow) p.symbols m (p.codeAt n) (q.codeAt n) →
                ∀ x ∈ assigned (q.codeAt n),
                  (m.run (I.metered grow) p.symbols (p.codeAt n)).values x =
                    (m.run (I.metered grow) q.symbols (q.codeAt n)).values x) := by
  obtain ⟨p₀, hp₀, hruns⟩ := exists_steps_runAll instrs
  refine ⟨p₀, hp₀, fun passes hpasses => ?_⟩
  obtain ⟨p, hp, hsteps⟩ := hruns passes hpasses
  obtain ⟨hsound, htidy⟩ :=
    hsteps.induct (sound_ofInstrs instrs) (allTidy_ofInstrs instrs) AllTidy.step
  obtain ⟨changes, q, hq, hdce⟩ := hsound.exists_eliminateDeadCode
  have hsymbols := hsound.symbols_of_eliminateDeadCode hq
  refine ⟨p, _, hp, run_eq_ok (mapError_eq_ok.mpr hq) (hdce.sound hsound), hsymbols, fun n hn => ?_⟩
  obtain ⟨b, hb, hreal, hpruned, hread⟩ := hsound.pruned_of_eliminateDeadCode hq hn
  obtain ⟨slots, hcode⟩ := (htidy.block n b hb hreal).code
  have honce : ∀ x, q.Dead x → (assigned b.instructions).count x ≤ 1 :=
    fun x hx => hcode.once x (hsymbols ▸ hx.1)
  have hcall : ∀ {front x}, Measures b.instructions front x →
      (assigned b.instructions).count x ≤ 1 := by
    rintro front x ⟨parameters, rest, heq⟩
    have hmem : .function .memorySize x parameters ∈ b.instructions := by
      rw [heq]
      exact List.mem_append_right _ List.mem_cons_self
    exact hcode.once x (hcode.call hmem)
  rw [codeAt_of_label? hb]
  refine ⟨fun x front' hfront' => ?_, fun I grow hI m => ?_⟩
  · obtain ⟨parameters, rest', hkept⟩ := hfront'
    obtain ⟨front, rest, heq, -⟩ := hpruned.split hkept
    have hfront : Measures b.instructions front x := ⟨parameters, rest, heq⟩
    exact ⟨front, hfront, fun before hbefore => hfront.unique hbefore (hcall hfront)⟩
  · have hiff : SameSizes (I.metered grow) p.symbols m m b.instructions (q.codeAt n) ↔
        Covered (I.metered grow) p.symbols m b.instructions (q.codeAt n) :=
      hpruned.sameSizes_iff hI hread honce hcall
    refine ⟨hiff, fun hcovered x hx => ?_⟩
    dsimp only
    rw [hsymbols]
    exact hpruned.values_eq hI hread honce (hiff.mpr hcovered) hx

/-- The lifted program of a code, before and after dead code elimination. -/
def liftedAndTrimmed (instrs : List Instr) : Option (Program × Program) :=
  (build instrs).toOption.bind fun p =>
    ((p.runAll [.lift]).1.run .deadCode).toOption.map ((p.runAll [.lift]).1, ·)

theorem liftedAndTrimmed_eq {p₀ : Program} {instrs : List Instr} (hp₀ : build instrs = .ok p₀)
    (hp : p₀.runAll [.lift] = (p, .ok ())) (hq : p.run .deadCode = .ok q) :
    liftedAndTrimmed instrs = some (p, q) := by
  rw [liftedAndTrimmed, hp₀]
  change ((p₀.runAll [.lift]).1.run .deadCode).toOption.map ((p₀.runAll [.lift]).1, ·) = _
  rw [hp, hq]
  rfl

/-- An environment that answers zero. -/
def idle : Environment Unit := fun _ _ e => (0, e)

/-- Stores make memory cover the word that is stored. -/
def growByStores : Action → List Word → Nat
  | .store (.global .memory), [index, _] => index.toNat + 32
  | _, _ => 0

/-- All symbols are zero, and there is no memory. -/
def blank : Machine (Unit × Nat) := { values := fun _ => 0, env := ((), 0) }

/-- Stores zero, loads it and discards it, and asks for the size of memory. -/
def reloading : List Instr := decode [0x60, 0, 0x60, 0, 0x52, 0x60, 0, 0x51, 0x50, 0x59]

/-- The load is covered by the store. -/
theorem sameSizes_iff_covered_reloading :
    (∀ pass ∈ [Pass.lift], pass = .deadCode ∨ pass = .lift) ∧ idle.KeptByReads ∧
      ∃ p₀ p q, build reloading = .ok p₀ ∧ p₀.runAll [.lift] = (p, .ok ()) ∧
        p.run .deadCode = .ok q ∧ q.blocks = [4] ∧
        p.codeAt 4 = [.indexedAssign 6 0 0, .indexedCopy 10 6 0, .function .memorySize 11 []] ∧
        q.codeAt 4 = [.indexedAssign 6 0 0, .function .memorySize 11 []] ∧
        Covered (idle.metered growByStores) p.symbols blank (p.codeAt 4) (q.codeAt 4) ∧
        SameSizes (idle.metered growByStores) p.symbols blank blank (p.codeAt 4) (q.codeAt 4) := by
  have hpasses : ∀ pass ∈ [Pass.lift], pass = .deadCode ∨ pass = .lift := by simp
  have hidle : idle.KeptByReads := fun _ _ _ _ => rfl
  obtain ⟨p₀, hp₀, hall⟩ := sameSizes_iff_covered reloading
  obtain ⟨p, q, hp, hq, -, hblocks⟩ := hall _ hpasses
  have hdata : (liftedAndTrimmed reloading).map (fun s => (s.2.blocks, s.1.codeAt 4, s.2.codeAt 4,
        blank.lost (idle.metered growByStores) s.1.symbols (s.2.codeAt 4) ((s.1.codeAt 4).take 2),
        (blank.run (idle.metered growByStores) s.1.symbols ((s.2.codeAt 4).take 1)).env.2)) =
      some ([4], [.indexedAssign 6 0 0, .indexedCopy 10 6 0, .function .memorySize 11 []],
        [.indexedAssign 6 0 0, .function .memorySize 11 []], 32, 32) := by
    decide +kernel
  rw [liftedAndTrimmed_eq hp₀ hp hq] at hdata
  simp only [Option.map_some, Option.some.injEq, Prod.mk.injEq] at hdata
  obtain ⟨hblocks', hcode, hkept, hlost, hsize⟩ := hdata
  obtain ⟨-, hiff⟩ := hblocks 4 (by simp [hblocks'])
  have hcovered :
      Covered (idle.metered growByStores) p.symbols blank (p.codeAt 4) (q.codeAt 4) := by
    rw [hcode, hkept] at hlost ⊢
    rw [hkept] at hsize
    intro x front front' hfront hfront'
    obtain ⟨rfl, -⟩ : front = [.indexedAssign 6 0 0, .indexedCopy 10 6 0] ∧ 11 = x := by
      simpa using hfront
    obtain ⟨rfl, -⟩ : front' = [.indexedAssign 6 0 0] ∧ 11 = x := by
      simpa using hfront'
    exact Nat.le_of_eq (hlost.trans hsize.symm)
  exact ⟨hpasses, hidle, p₀, p, q, hp₀, hp, hq, hblocks', hcode, hkept, hcovered,
    ((hiff idle growByStores hidle blank).1).mpr hcovered⟩

/-- Loads a word and discards it, and asks for the size of memory. -/
def discarding : List Instr := decode [0x60, 0, 0x51, 0x50, 0x59]

/-- **A dead load that is not covered**: `MemorySize` answers 32 before dead code elimination, and 0
after it. -/
theorem memorySize_discarded : ∃ p₀ p q, build discarding = .ok p₀ ∧
    p₀.runAll [.lift] = (p, .ok ()) ∧ p.run .deadCode = .ok q ∧ q.blocks = [4] ∧
      p.codeAt 4 = [.indexedCopy 8 6 0, .function .memorySize 9 []] ∧
      q.codeAt 4 = [.function .memorySize 9 []] ∧
      (blank.run (idle.metered growByStores) p.symbols (p.codeAt 4)).values 9 = 32 ∧
      (blank.run (idle.metered growByStores) q.symbols (q.codeAt 4)).values 9 = 0 := by
  have hdata : (liftedAndTrimmed discarding).map (fun s => (s.2.blocks, s.1.codeAt 4,
        s.2.codeAt 4, (blank.run (idle.metered growByStores) s.1.symbols (s.1.codeAt 4)).values 9,
        (blank.run (idle.metered growByStores) s.2.symbols (s.2.codeAt 4)).values 9)) =
      some ([4], [.indexedCopy 8 6 0, .function .memorySize 9 []], [.function .memorySize 9 []],
        32, 0) := by
    decide +kernel
  obtain ⟨p₀, hp₀, hruns⟩ := exists_steps_runAll discarding
  obtain ⟨p, hp, hsteps⟩ := hruns [.lift] (by simp)
  obtain ⟨q, hq, -⟩ := (hsteps.sound (sound_ofInstrs _)).exists_run (.inl rfl)
  rw [liftedAndTrimmed_eq hp₀ hp hq] at hdata
  simp only [Option.map_some, Option.some.injEq, Prod.mk.injEq] at hdata
  exact ⟨p₀, p, q, hp₀, hp, hq, hdata⟩

end Program

end EvmFlow
