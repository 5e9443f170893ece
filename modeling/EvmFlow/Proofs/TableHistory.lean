import EvmFlow.Proofs.Calls
import EvmFlow.Proofs.SymbolTable

/-!
# The table of symbols under any sequence of calls

Symbols of any kind may be put in under any scope, and any symbol may change its type, constants
and globals included. Whatever is done in whatever order, a table keeps its promises.

* `SymbolTable.Call`, `SymbolTable.Answer`, `SymbolTable.attempt`: the calls of a table, where a
  call at fault leaves what it has written;
* `SymbolTable.Indexed`, **`SymbolTable.symbolsIn_eq_filter`**: the index of scopes lists the
  symbols of each scope, in order;
* `SymbolTable.Issued`: the handles given out so far are those of the table, in order, with the step
  lemma `SymbolTable.Issued.attempt`;
* `SymbolTable.Faithful`: what look-up and each call promise of a table;
* `SymbolTable.Keeps`: what a later table has kept;
* **`SymbolTable.run_faithful`**: every sequence of calls from the empty table leads to a faithful
  one, and every further sequence keeps what there is.
-/

namespace EvmFlow

theorem ScopeIndex.get_file (m : ScopeIndex) (ref : SymbolRef) (sc s : Scope) :
    (m.file ref sc).get s = if s = sc then ref :: m.get s else m.get s := by
  cases sc with
  | program => cases s <;> simp [file, get]
  | block n =>
    cases s with
    | program => simp [file, get]
    | block k =>
      by_cases hk : k = n
      · subst hk
        simp [file, get]
      · simp [file, get, Std.TreeMap.getD_insert, hk, Ne.symm hk]

namespace SymbolTable

open SymbolRecords

/-- The calls that change a table. -/
inductive Call where
  | insert (scope : Scope) (s : Symbol)
  | temporary (scope : Scope)
  | global (g : Global)
  | constant (value : Word) (type : TypeHint)
  | constantBytes (bytes : List UInt8)
  | replaceType (ref : SymbolRef) (type : TypeHint)

/-- What a call answers: a handle, that a type was changed, or why it failed. -/
inductive Answer where
  | given (ref : SymbolRef)
  | retyped
  | fault (f : Fault)
deriving DecidableEq

/-- The handle that a call has given out. -/
def Answer.ref? : Answer → Option SymbolRef
  | .given ref => some ref
  | _ => none

/-- One call, with the table that it leaves, at a fault too. -/
def attempt (t : SymbolTable) : Call → Answer × SymbolTable
  | .insert scope s => (t.insert scope s).map .given id
  | .temporary scope => (t.temporary scope).map .given id
  | .global g => (t.global g).map .given id
  | .constant value type => (t.constant value type).map .given id
  | .constantBytes bytes => (t.constantBytes bytes).map .given id
  | .replaceType ref type =>
    match (SymbolTable.replaceType ref type).outcome t with
    | (.ok _, t) => (.retyped, t)
    | (.error f, t) => (.fault f, t)

variable {t t' : SymbolTable} {ref : SymbolRef}

/-! ## Look-up -/

theorem mem_refs : ref ∈ t.refs ↔ t.Knows ref := by
  rw [knows_iff, refs, List.mem_map]
  constructor
  · rintro ⟨n, hn, rfl⟩
    exact ⟨n, rfl, List.mem_range.mp hn⟩
  · rintro ⟨n, rfl, hn⟩
    exact ⟨n, List.mem_range.mpr hn, rfl⟩

theorem pairwise_refs (t : SymbolTable) : t.refs.Pairwise (· < ·) :=
  List.pairwise_lt_range.map Int.ofNat fun _ _ h => Int.ofNat_lt.mpr h

theorem entry?_eq_none (h : ¬ t.Knows ref) : t.entry? ref = none := by
  cases he : t.entry? ref with
  | none => rfl
  | some e => exact absurd (knows_of_entry he) h

theorem symbol_of_not_knows (h : ¬ t.Knows ref) : t.symbol ref = .error (.unknownSymbol ref) := by
  rw [symbol, entry, entry?_eq_none h]
  rfl

theorem scope_eq_ok {sc : Scope} :
    t.scope ref = .ok sc ↔ ∃ e, t.entry? ref = some e ∧ e.scope = sc := by
  unfold scope entry
  cases t.entry? ref with
  | none => simp [bind, Except.bind]
  | some e => simp [bind, Except.bind, pure, Except.pure]

/-! ## Scopes -/

/-- The index lists the symbols of each scope, in the order of their handles. -/
def Indexed (t : SymbolTable) : Prop :=
  ∀ s, t.symbolsIn s = t.refs.filter fun ref => (t.entry? ref).any (·.scope = s)

theorem Indexed.of_records (h : t.Indexed) (hentries : t'.entries = t.entries)
    (hscopes : t'.scopes = t.scopes) : t'.Indexed := by
  intro s
  have hrefs : t'.refs = t.refs := by rw [refs, size, hentries, refs, size]
  rw [symbolsIn, hscopes, hrefs]
  simp only [entry?_congr hentries]
  exact h s

/-- A new symbol comes last in its scope, and last among all. -/
theorem Indexed.insert (h : t.Indexed) (sc : Scope) (d : Symbol) : (t.insert sc d).2.Indexed := by
  intro s
  have hrefs : (t.insert sc d).2.refs = t.refs ++ [(t.size : Int)] := by
    have hsize : (t.insert sc d).2.size = t.size + 1 := Array.size_push _
    rw [refs, hsize, List.range_succ, List.map_append, refs]
    rfl
  have hlisted : (t.insert sc d).2.symbolsIn s =
      t.symbolsIn s ++ if s = sc then [(t.size : Int)] else [] := by
    change ((t.scopes.file _ sc).get s).reverse = _
    rw [ScopeIndex.get_file]
    split
    · exact List.reverse_cons
    · exact (List.append_nil _).symm
  have hold : ∀ ref ∈ t.refs, ( entry? (t.insert sc d).2.toSymbolRecords ref).any (·.scope = s) =
      (t.entry? ref).any (·.scope = s) := by
    intro ref hr
    rw [entry?_insert, if_neg]
    rintro rfl
    exact t.not_knows_size (mem_refs.mp hr)
  rw [hlisted, hrefs, List.filter_append, List.filter_congr hold, ← h s]
  congr 1
  rw [List.filter_singleton, entry?_insert, if_pos rfl]
  by_cases hs : s = sc
  · simp [hs]
  · simp [hs, Ne.symm hs]

/-- **The symbols of a scope are listed in ascending order.** -/
theorem symbolsIn_eq_filter (t : SymbolTable) (s : Scope) :
    t.symbolsIn s = t.refs.filter fun ref => (t.entry? ref).any (·.scope = s) := by
  refine induct (P := Indexed) (fun s => ?_) (fun t sc d ht => ht.insert sc d) (fun t g ht => ?_)
    (fun t w type ht => ?_) (fun t ref type ht => ?_) t s
  · cases s <;> simp [symbolsIn, ScopeIndex.get, refs, size]
  · cases hg : t.globals.lookup g with
    | some ref => rwa [global_of_isGlobal hg]
    | none =>
      obtain ⟨t', heq, hputs, -, -⟩ := global_of_none hg
      rw [heq]
      exact (ht.insert .program g.symbol).of_records hputs.entries hputs.scopes
  · cases hs : t.shares.get? (.constant w type) with
    | some ref => rwa [constant_of_held hs]
    | none =>
      obtain ⟨t', heq, hputs, -, -⟩ := constant_of_free hs
      rw [heq]
      exact (ht.insert .program (.constant w type)).of_records hputs.entries hputs.scopes
  · cases he : t.entry? ref with
    | none => rwa [outcome_replaceType_of_unknown he]
    | some e =>
      obtain ⟨t', heq, ht'⟩ := outcome_replaceType he type
      rw [heq]
      intro s
      have hrefs : t'.refs = t.refs := by rw [refs, ht', size_retyped, refs]
      have hscopes : t'.scopes = t.scopes := by rw [ht', (others_retyped _ _ _ _).2]
      rw [symbolsIn, hscopes, hrefs]
      refine (ht s).trans (List.filter_congr fun q _ => ?_)
      rw [entry?_replaceType he (Change.apply_eq_ok.mpr heq)]
      split
      · next hq => simp [hq, he]
      · rfl

theorem mem_symbolsIn {sc : Scope} : ref ∈ t.symbolsIn sc ↔ t.scope ref = .ok sc := by
  rw [symbolsIn_eq_filter, List.mem_filter, mem_refs, scope_eq_ok]
  constructor
  · rintro ⟨-, h⟩
    cases he : t.entry? ref with
    | none => simp [he] at h
    | some e => exact ⟨e, rfl, by simpa [he] using h⟩
  · rintro ⟨e, he, rfl⟩
    exact ⟨knows_of_entry he, by simp [he]⟩

theorem pairwise_symbolsIn (t : SymbolTable) (sc : Scope) : (t.symbolsIn sc).Pairwise (· < ·) := by
  rw [symbolsIn_eq_filter]
  exact t.pairwise_refs.filter _

/-! ## What one call does -/

theorem size_replaceType {type : TypeHint}
    (h : (SymbolTable.replaceType ref type).apply t = .ok ((), t')) : t'.size = t.size := by
  obtain ⟨e, -, ht'⟩ := replaceType_eq h
  rw [ht', size_retyped]

theorem replaceType_grows {type : TypeHint}
    (h : (SymbolTable.replaceType ref type).apply t = .ok ((), t')) : t.Grows t' :=
  ⟨fun hx => (identity?_replaceType h).trans hx, fun hg => by rwa [globals_replaceType h]⟩

theorem attempt_replaceType {type : TypeHint}
    (h : (SymbolTable.replaceType ref type).apply t = .ok ((), t')) :
    t.attempt (.replaceType ref type) = (.retyped, t') := by
  rw [attempt, Change.apply_eq_ok.mp h]

theorem attempt_replaceType_of_unknown {type : TypeHint} (h : t.entry? ref = none) :
    t.attempt (.replaceType ref type) = (.fault (.unknownSymbol ref), t) := by
  rw [attempt, outcome_replaceType_of_unknown h]

/-- A change of type either has its effect, or is at an unknown handle and has none. -/
theorem attempt_replaceType_cases (t : SymbolTable) (ref : SymbolRef) (type : TypeHint) :
    (∃ e t', t.entry? ref = some e ∧
        (SymbolTable.replaceType ref type).apply t = .ok ((), t') ∧
        t.attempt (.replaceType ref type) = (.retyped, t')) ∨
      t.entry? ref = none ∧
        t.attempt (.replaceType ref type) = (.fault (.unknownSymbol ref), t) := by
  cases he : t.entry? ref with
  | none => exact .inr ⟨rfl, attempt_replaceType_of_unknown he⟩
  | some e =>
    obtain ⟨t', ht'⟩ := exists_replaceType he type
    exact .inl ⟨e, t', rfl, ht', attempt_replaceType ht'⟩

/-- A handle is the next one, or one that the table knows and then nothing is put in. -/
def Gives (t : SymbolTable) (r : SymbolRef × SymbolTable) : Prop :=
  r.1 = t.size ∧ r.2.size = t.size + 1 ∨ t.Knows r.1 ∧ r.2.size = t.size

theorem gives_insert (t : SymbolTable) (scope : Scope) (s : Symbol) :
    t.Gives (t.insert scope s) := .inl ⟨rfl, Array.size_push _⟩

theorem Consistent.gives_global (ht : t.Consistent) (g : Global) : t.Gives (t.global g) := by
  cases h : t.globals.lookup g with
  | some ref =>
    rw [global_of_isGlobal h]
    obtain ⟨sc, hx⟩ := ht.global h
    exact .inr ⟨⟨_, hx⟩, rfl⟩
  | none =>
    obtain ⟨t', heq, hputs, -, -⟩ := global_of_none h
    rw [heq]
    exact .inl ⟨rfl, hputs.size⟩

theorem Consistent.gives_constant (ht : t.Consistent) (w : Word) (type : TypeHint) :
    t.Gives (t.constant w type) := by
  cases h : t.shares.get? (.constant w type) with
  | some ref =>
    rw [constant_of_held h]
    obtain ⟨e, he, -⟩ := ht.share h
    exact .inr ⟨knows_of_entry he, rfl⟩
  | none =>
    obtain ⟨t', heq, hputs, -, -⟩ := constant_of_free h
    rw [heq]
    exact .inl ⟨rfl, hputs.size⟩

/-- The handles given out so far are those of the table, in the order of their first use. -/
structure Issued (answers : List Answer) (t : SymbolTable) : Prop where
  consistent : t.Consistent
  refs : (answers.filterMap Answer.ref?).eraseDups = t.refs

theorem issued_empty : Issued [] {} := ⟨consistent_empty, rfl⟩

theorem Gives.eraseDups {issued : List SymbolRef} {r : SymbolRef × SymbolTable} (h : t.Gives r)
    (hi : issued.eraseDups = t.refs) : (issued ++ [r.1]).eraseDups = r.2.refs := by
  have hmem : r.1 ∈ issued ↔ t.Knows r.1 := by rw [← List.mem_eraseDups, hi, mem_refs]
  rw [List.eraseDups_append, hi]
  rcases h with ⟨hnew, hsize⟩ | ⟨hold, hsize⟩
  · have hfresh : r.1 ∉ issued := by
      rw [hmem, hnew]
      exact t.not_knows_size
    have hrest : [r.1].removeAll issued = [r.1] := by simp [List.removeAll, hfresh]
    rw [hrest, hnew]
    simp [SymbolRecords.refs, hsize, List.range_succ, List.eraseDups_cons]
  · have hrest : [r.1].removeAll issued = [] := by simp [List.removeAll, hmem.mpr hold]
    have hrefs : r.2.refs = t.refs := congrArg (fun k => (List.range k).map Int.ofNat) hsize
    rw [hrest, hrefs]
    exact List.append_nil _

theorem Issued.given {answers : List Answer} (h : Issued answers t) {r : SymbolRef × SymbolTable}
    (hr : t.Gives r) (hc : r.2.Consistent) : Issued (answers ++ [.given r.1]) r.2 := by
  refine ⟨hc, ?_⟩
  rw [List.filterMap_append]
  exact hr.eraseDups h.refs

theorem Issued.silent {answers : List Answer} (h : Issued answers t) {a : Answer}
    (ha : a.ref? = none) (hc : t'.Consistent) (hsize : t'.size = t.size) :
    Issued (answers ++ [a]) t' := by
  have hrefs : t'.refs = t.refs := congrArg (fun k => (List.range k).map Int.ofNat) hsize
  refine ⟨hc, ?_⟩
  rw [List.filterMap_append, List.filterMap_cons_none ha, hrefs]
  exact (congrArg List.eraseDups (List.append_nil _)).trans h.refs

/-- **One call** hands out the next handle or a known one, or none. -/
theorem Issued.attempt {answers : List Answer} (h : Issued answers t) (c : Call) :
    Issued (answers ++ [(t.attempt c).1]) (t.attempt c).2 := by
  have ht := h.consistent
  cases c with
  | insert scope s => exact h.given (t.gives_insert scope s) (ht.insert scope s)
  | temporary scope => exact h.given (t.gives_insert scope .temporary) (ht.temporary scope)
  | global g => exact h.given (ht.gives_global g) (ht.global_op g)
  | constant w type => exact h.given (ht.gives_constant w type) (ht.constant_op w type)
  | constantBytes bytes => exact h.given (ht.gives_constant _ _) (ht.constant_op _ _)
  | replaceType ref type =>
    rcases t.attempt_replaceType_cases ref type with ⟨e, t', -, hr, heq⟩ | ⟨-, heq⟩
    · rw [heq]
      exact h.silent rfl (ht.replaceType hr) (size_replaceType hr)
    · rw [heq]
      exact h.silent rfl ht rfl

theorem attempt_grows (t : SymbolTable) (c : Call) : t.Grows (t.attempt c).2 := by
  cases c with
  | insert scope s => exact t.insert_grows scope s
  | temporary scope => exact t.temporary_grows scope
  | global g => exact t.global_grows g
  | constant w type => exact t.constant_grows w type
  | constantBytes bytes => exact t.constant_grows _ _
  | replaceType ref type =>
    rcases t.attempt_replaceType_cases ref type with ⟨e, t', -, hr, heq⟩ | ⟨-, heq⟩
    · rw [heq]
      exact replaceType_grows hr
    · rw [heq]
      exact .refl t

theorem run_grows (t : SymbolTable) (calls : List Call) :
    t.Grows (Calls.run attempt t calls).2 :=
  Calls.run_keeps (P := t.Grows) (fun t' c h => h.trans (t'.attempt_grows c)) (.refl t) calls

/-! ## Promises -/

theorem Consistent.isGlobal_unique (ht : t.Consistent) {g g' : Global} (h : t.IsGlobal g ref)
    (h' : t.IsGlobal g' ref) : g = g' := by
  obtain ⟨sc, hx⟩ := ht.global h
  obtain ⟨sc', hx'⟩ := ht.global h'
  rw [hx] at hx'
  cases hx'
  rfl

/-- The promises of a table after the calls with the given answers. -/
structure Faithful (answers : List Answer) (t : SymbolTable) : Prop where
  /-- Handles are `0`, `1`, `2` and so on, in the order in which they were first given out. -/
  created : (answers.filterMap Answer.ref?).eraseDups = (List.range t.size).map Int.ofNat
  known : ∀ {ref}, ref ∈ t.refs → ∃ s sc, t.symbol ref = .ok s ∧ t.scope ref = .ok sc
  unknown : ∀ {ref}, ref ∉ t.refs → t.symbol ref = .error (.unknownSymbol ref) ∧
    t.scope ref = .error (.unknownSymbol ref) ∧
    ∀ type, t.attempt (.replaceType ref type) = (.fault (.unknownSymbol ref), t)
  retyped : ∀ {ref s}, t.symbol ref = .ok s → ∀ type, ∃ t',
    t.attempt (.replaceType ref type) = (.retyped, t') ∧ t'.symbol ref = .ok { s with type } ∧
    ∀ r ≠ ref, t'.symbol r = t.symbol r
  inserted : ∀ scope s, ∃ ref t', t.attempt (.insert scope s) = (.given ref, t') ∧
    ref ∉ answers.filterMap Answer.ref? ∧ t'.symbol ref = .ok s ∧ t'.scope ref = .ok scope
  temporary : ∀ scope, t.attempt (.temporary scope) = t.attempt (.insert scope .temporary)
  constant : ∀ value type, ∃ ref t', t.attempt (.constant value type) = (.given ref, t') ∧
    t'.symbol ref = .ok ⟨.temporary, type, .constant value⟩
  constantBytes : ∀ bytes, t.attempt (.constantBytes bytes) =
    t.attempt (.constant (Word.ofBytes bytes) (.bytes bytes.length))
  symbolsIn : ∀ scope, (t.symbolsIn scope).Pairwise (· < ·) ∧
    ∀ ref, ref ∈ t.symbolsIn scope ↔ t.scope ref = .ok scope

/-- What a later table has kept: all of a symbol but its type. -/
structure Keeps (t t' : SymbolTable) : Prop where
  symbol : ∀ {ref s}, t.symbol ref = .ok s → ∃ type, t'.symbol ref = .ok { s with type }
  scope : ∀ {ref sc}, t.scope ref = .ok sc → t'.scope ref = .ok sc

theorem Grows.keeps (h : t.Grows t') : t.Keeps t' where
  symbol {ref s} hs := by
    obtain ⟨sc, hx⟩ := identity?_of_symbol hs
    obtain ⟨⟨address, type, kind⟩, hs', rfl, rfl⟩ := exists_symbol_of_identity? (h.identity hx)
    exact ⟨type, hs'⟩
  scope {ref sc} hsc := by
    obtain ⟨e, he, rfl⟩ := scope_eq_ok.mp hsc
    have hx : t.identity? ref = some e.identity := by rw [identity?, he]; rfl
    exact scope_of_identity? (h.identity hx)

theorem symbol_replaceType {s : Symbol} {type : TypeHint} (hs : t.symbol ref = .ok s)
    (h : (SymbolTable.replaceType ref type).apply t = .ok ((), t')) :
    t'.symbol ref = .ok { s with type } ∧ ∀ q ≠ ref, t'.symbol q = t.symbol q := by
  obtain ⟨e, he, rfl⟩ := entry?_of_symbol hs
  constructor
  · refine symbol_of_entry (e := { e with symbol := { e.symbol with type } }) ?_
    rw [entry?_replaceType he h, if_pos rfl]
  · intro q hq
    rw [symbol, entry, entry?_replaceType he h, if_neg hq]
    rfl

theorem Issued.faithful {answers : List Answer} (h : Issued answers t) : t.Faithful answers where
  created := h.refs
  known {ref} hr := by
    obtain ⟨x, hx⟩ := mem_refs.mp hr
    obtain ⟨s, hs, -⟩ := exists_symbol_of_identity? hx
    exact ⟨s, x.scope, hs, scope_of_identity? hx⟩
  unknown {ref} hr := by
    have hnone := entry?_eq_none (mt mem_refs.mpr hr)
    have hs := symbol_of_not_knows (mt mem_refs.mpr hr)
    refine ⟨hs, ?_, fun type => attempt_replaceType_of_unknown hnone⟩
    rw [scope, entry, hnone]
    rfl
  retyped {ref s} hs type := by
    obtain ⟨e, he, -⟩ := entry?_of_symbol hs
    obtain ⟨t', ht'⟩ := exists_replaceType he type
    exact ⟨t', attempt_replaceType ht', symbol_replaceType hs ht'⟩
  inserted scope s := by
    have hentry : entry? (t.insert scope s).2.toSymbolRecords t.size = some ⟨s, scope⟩ := by
      rw [entry?_insert, if_pos rfl]
    refine ⟨_, _, rfl, fun hmem => ?_, symbol_of_entry hentry, scope_eq_ok.mpr ⟨_, hentry, rfl⟩⟩
    rw [← List.mem_eraseDups, h.refs, mem_refs] at hmem
    exact t.not_knows_size hmem
  temporary _ := rfl
  constant value type := ⟨_, _, rfl, h.consistent.symbol_constant value type⟩
  constantBytes _ := rfl
  symbolsIn scope := ⟨t.pairwise_symbolsIn scope, fun _ => mem_symbolsIn⟩

/-- **The table under any sequence of calls.** Whatever calls are made from the empty table, on
whatever handles, it is faithful to what was put in, and whatever calls follow, they keep all of its
symbols but their types. A global has one handle for good, and no other global has it. -/
theorem run_faithful (calls more : List Call) :
    let before := Calls.run attempt {} calls
    let t := before.2
    t.Faithful before.1 ∧ t.Keeps (Calls.run attempt t more).2 ∧
      ∀ g, ∃ ref t₁ s, t.attempt (.global g) = (.given ref, t₁) ∧ t₁.symbol ref = .ok s ∧
        s.address = .label g ∧ ∀ g', ∃ ref' t₃,
          (Calls.run attempt t₁ more).2.attempt (.global g') = (.given ref', t₃) ∧
            (ref' = ref ↔ g' = g) := by
  intro before t
  have hissued : Issued ([] ++ before.1) t :=
    Calls.run_induct (P := Issued) (fun _ _ c h => h.attempt c) [] issued_empty calls
  refine ⟨hissued.faithful, (t.run_grows more).keeps, fun g => ?_⟩
  have hnext := hissued.attempt (.global g)
  obtain ⟨sc, hx⟩ := hnext.consistent.global (t.global_isGlobal g)
  obtain ⟨s, hs, haddress, -⟩ := exists_symbol_of_identity? hx
  let t₂ := (Calls.run attempt (t.global g).2 more).2
  refine ⟨(t.global g).1, (t.global g).2, s, rfl, hs, haddress,
    fun g' => ⟨(t₂.global g').1, (t₂.global g').2, rfl, ?_⟩⟩
  -- The handle of `g` is still its handle after the further calls, and after that of `g'`.
  have hlast := Calls.run_induct (P := Issued) (fun _ _ c h => h.attempt c) _ hnext more
  have hheld : t₂.IsGlobal g (t.global g).1 := (t.global_isGlobal g).grows (run_grows _ more)
  constructor
  · intro heq
    have hg' : (t₂.global g').2.IsGlobal g' (t.global g).1 := heq ▸ t₂.global_isGlobal g'
    exact (hlast.attempt (.global g')).consistent.isGlobal_unique hg'
      (hheld.grows (t₂.global_grows g'))
  · rintro rfl
    rw [global_of_isGlobal hheld]

/-- A constant that changes its type is shared under the new one, and no longer under the old. -/
example : (Calls.run attempt {} [.constant 1 .word, .global .memory, .replaceType 0 .bool,
      .constant 1 .word, .constant 1 .bool, .global .memory, .replaceType 3 .word]).1 =
    [.given 0, .given 1, .retyped, .given 2, .given 0, .given 1, .fault (.unknownSymbol 3)] := by
  decide +kernel

end SymbolTable

end EvmFlow
