import EvmFlow.Proofs.TableHistory
import Mathlib.Data.List.Induction

/-!
# Which constants are shared

For each value and type at most one constant is shared, its holder. The first constant to come to
a free value and type becomes the holder, and stays it until its own type is changed. A constant
that comes while another one is the holder is passed over, and nobody looks for it when the holder
leaves: it is stranded, and the next request for its value and type puts in one more constant.

* `SymbolTable.denotes`: a handle leads to a given symbol;
* `SymbolTable.get?_attempt`: what one call does to the shares;
* `SymbolTable.holder`, `SymbolTable.get?_after`: the holder after a sequence of calls;
* `SymbolTable.Asked`, `SymbolTable.Stranded`, `SymbolTable.Placed`: the constants that were asked
  for, and what has become of them, with the step lemmas `SymbolTable.placed_asked`,
  `SymbolTable.placed_retyped` and `SymbolTable.Placed.concat`;
* **`SymbolTable.constant_shared_iff_held`**: a request is answered by an old constant exactly if
  there is a holder, and otherwise every constant that denotes what is asked for is stranded;
* `SymbolTable.constant_stranded`: four calls that strand a constant.
-/

namespace EvmFlow.SymbolTable

open SymbolRecords

variable {t t' : SymbolTable} {ref : SymbolRef} {s : Symbol}

/-! ## What a handle denotes -/

/-- Whether a handle leads to a given symbol. -/
def denotes (t : SymbolTable) (s : Symbol) (ref : SymbolRef) : Bool :=
  (t.entry? ref).any (·.symbol = s)

theorem denotes_iff : t.denotes s ref = true ↔ t.symbol ref = .ok s := by
  unfold denotes
  constructor
  · intro h
    cases he : t.entry? ref with
    | none => simp [he] at h
    | some e =>
      rw [symbol_of_entry he]
      simpa [he] using h
  · intro h
    obtain ⟨e, he, rfl⟩ := entry?_of_symbol h
    simp [he]

theorem denotes_of_symbol {d : Symbol} (h : t.symbol ref = .ok d) :
    t.denotes s ref = decide (d = s) := by
  obtain ⟨e, he, rfl⟩ := entry?_of_symbol h
  simp [denotes, he]

theorem Consistent.symbol_of_get? (ht : t.Consistent) (h : t.shares.get? s = some ref) :
    t.symbol ref = .ok s := by
  obtain ⟨e, he, rfl⟩ := ht.share h
  exact symbol_of_entry he

theorem symbol_insert (h : t.symbol ref = .ok s) (sc : Scope) (d : Symbol) :
    (t.insert sc d).2.symbol ref = .ok s := by
  obtain ⟨e, he, rfl⟩ := entry?_of_symbol h
  have hne : ref ≠ t.size := by
    rintro rfl
    exact t.not_knows_size (knows_of_entry he)
  exact symbol_of_entry ((t.entry?_insert sc d ref).trans ((if_neg hne).trans he))

theorem Puts.symbol_of_symbol {d : Symbol} (hputs : t.Puts d t') (h : t.symbol ref = .ok s) :
    t'.symbol ref = .ok s := by
  obtain ⟨e, he, rfl⟩ := entry?_of_symbol h
  exact symbol_of_entry (hputs.entry?_of_entry he)

/-- Only a change of its own type changes what a handle denotes. -/
theorem symbol_attempt (h : t.symbol ref = .ok s) {c : Call}
    (hc : ∀ type, c ≠ .replaceType ref type) : (t.attempt c).2.symbol ref = .ok s := by
  have hconstant : ∀ w type, (t.constant w type).2.symbol ref = .ok s := by
    intro w type
    cases hheld : t.shares.get? (.constant w type) with
    | some q => rwa [constant_of_held hheld]
    | none =>
      obtain ⟨t', heq, hputs, -, -⟩ := constant_of_free hheld
      rw [heq]
      exact hputs.symbol_of_symbol h
  cases c with
  | insert scope d => exact symbol_insert h scope d
  | temporary scope => exact symbol_insert h scope .temporary
  | global g =>
    show (t.global g).2.symbol ref = .ok s
    cases hg : t.globals.lookup g with
    | some q => rwa [global_of_isGlobal hg]
    | none =>
      obtain ⟨t', heq, hputs, -, -⟩ := global_of_none hg
      rw [heq]
      exact hputs.symbol_of_symbol h
  | constant w type => exact hconstant w type
  | constantBytes bytes => exact hconstant _ _
  | replaceType r type =>
    have hne : ref ≠ r := by
      rintro rfl
      exact hc type rfl
    rcases t.attempt_replaceType_cases r type with ⟨e, t', he, hr, heq⟩ | ⟨-, heq⟩
    · rw [heq]
      exact ((symbol_replaceType (symbol_of_entry he) hr).2 ref hne).trans h
    · rwa [heq]

/-- A handle that no longer denotes a symbol has changed its type. -/
theorem eq_replaceType_of_symbol_ne (h : t.symbol ref = .ok s) {c : Call}
    (hne : (t.attempt c).2.symbol ref ≠ .ok s) : ∃ type, c = .replaceType ref type ∧
      type ≠ s.type := by
  by_cases hc : ∃ type, c = .replaceType ref type
  · obtain ⟨type, rfl⟩ := hc
    refine ⟨type, rfl, ?_⟩
    rintro rfl
    obtain ⟨e, he, -⟩ := entry?_of_symbol h
    obtain ⟨t', ht'⟩ := exists_replaceType he s.type
    rw [attempt_replaceType ht'] at hne
    exact hne (symbol_replaceType h ht').1
  · exact absurd (symbol_attempt h fun type heq => hc ⟨type, heq⟩) hne

/-! ## What one call does to the shares -/

/-- The constant that a call is about: the one it was answered with, or the one it changes. -/
def Call.subject? : Call → Answer → Option SymbolRef
  | .constant _ _, a => a.ref?
  | .constantBytes _, a => a.ref?
  | .replaceType ref _, _ => some ref
  | _, _ => none

theorem get?_moveShare_eq (r : SymbolRecords) (ref : SymbolRef) (old new s : Symbol) :
    (r.moveShare ref old new).shares.get? s =
      let kept := if s = old ∧ r.shares.get? s = some ref then none else r.shares.get? s
      if s = new then kept.or (some ref) else kept := by
  have hrest : ∀ d, (if r.shares.get? old = some ref then r.shares.release old
      else r.shares).get? d =
        if d = old ∧ r.shares.get? d = some ref then none else r.shares.get? d := by
    intro d
    by_cases hd : d = old
    · subst hd
      by_cases hheld : r.shares.get? d = some ref
      · simp [hheld, Shares.get?_release]
      · simp [hheld]
    · split
      · rw [Shares.get?_release, if_neg hd, if_neg fun h => hd h.1]
      · rw [if_neg fun h => hd h.1]
  simp only [moveShare]
  rw [← hrest s]
  generalize (if r.shares.get? old = some ref then r.shares.release old
    else r.shares) = rest
  by_cases hs : s = new
  · subst hs
    rw [if_pos rfl]
    cases hfree : rest.get? s with
    | none => simp [Shares.get?_share]
    | some q => simp [hfree]
  · rw [if_neg hs]
    split
    · rw [Shares.get?_share, if_neg hs]
    · rfl

/-- A holder that still denotes the symbol stays the holder. -/
theorem filter_or_of_denotes {held other : Option SymbolRef}
    (h : ∀ q, held = some q → t.symbol q = .ok s) :
    (held.or other).filter (t.denotes s) = held.or (other.filter (t.denotes s)) := by
  cases held with
  | none => rfl
  | some q => simp [Option.filter, denotes_iff.mpr (h q rfl)]

theorem constant_fst_of_free {w : Word} {type : TypeHint}
    (h : t.shares.get? (.constant w type) = none) :
    (t.constant w type).1 = t.size ∧ (t.constant w type).2.size = t.size + 1 := by
  obtain ⟨t', heq, hputs, -, -⟩ := constant_of_free h
  rw [heq]
  exact ⟨rfl, hputs.size⟩

theorem Consistent.get?_constant_op (ht : t.Consistent) (w : Word) (type : TypeHint) :
    (t.constant w type).2.shares.get? s =
      ((t.shares.get? s).or (some (t.constant w type).1)).filter
        ((t.constant w type).2.denotes s) := by
  have hsymbol := ht.symbol_constant w type
  have hkept : ∀ q, t.shares.get? s = some q → (t.constant w type).2.symbol q = .ok s :=
    fun q hq => symbol_attempt (c := .constant w type) (ht.symbol_of_get? hq) (by simp)
  rw [filter_or_of_denotes hkept, Option.filter_some, denotes_of_symbol hsymbol]
  by_cases hs : Symbol.constant w type = s
  · subst hs
    rw [t.get?_constant w type]
    cases hq : t.shares.get? (.constant w type) with
    | none => simp
    | some q =>
      have hsame := (t.constant_retains w type hq).symm.trans (t.get?_constant w type)
      simpa using hsame.symm
  · simp only [hs, decide_false, Bool.false_eq_true, if_false, Option.or_none]
    cases hheld : t.shares.get? (.constant w type) with
    | some q => rw [constant_of_held hheld]
    | none =>
      obtain ⟨t', heq, -, -, hshares⟩ := constant_of_free hheld
      rw [heq, hshares, Shares.get?_share, if_neg fun h => hs h.symm]

/-- The shares after a change of type: `ref` gives up what it held, and takes what it denotes now if
that is free. -/
theorem get?_replaceType_eq {e : SymbolEntry} {type : TypeHint} (hs : s.isConstant = true)
    (he : t.entry? ref = some e) (h : (replaceType ref type).apply t = .ok ((), t')) :
    t'.shares.get? s =
      let kept := if s = e.symbol ∧ t.shares.get? s = some ref then none else t.shares.get? s
      if s = { e.symbol with type } then kept.or (some ref) else kept := by
  obtain ⟨d, hd, ht'⟩ := replaceType_eq h
  obtain rfl := Option.some.inj (hd.symm.trans he)
  by_cases hconst : d.symbol.isConstant = true
  · rw [ht', retyped, hconst, if_pos rfl, get?_moveShare_eq, shares_setSymbol]
  · have hvar : d.symbol.isConstant = false := by simpa using hconst
    have hold : s ≠ d.symbol := fun hd => hconst (hd ▸ hs)
    have hnew : s ≠ { d.symbol with type } := fun hd =>
      hconst ((congrArg Symbol.isConstant hd).symm.trans hs)
    rw [shares_replaceType h (symbol_of_entry he) hvar, if_neg hnew, if_neg fun hd => hold hd.1]

theorem Consistent.get?_replaceType (ht : t.Consistent) {type : TypeHint} (hs : s.isConstant = true)
    (h : (SymbolTable.replaceType ref type).apply t = .ok ((), t')) :
    t'.shares.get? s = ((t.shares.get? s).or (some ref)).filter (t'.denotes s) := by
  obtain ⟨e, he, -⟩ := replaceType_eq h
  obtain ⟨hnew, hothers⟩ := symbol_replaceType (symbol_of_entry he) h
  have hself : t'.denotes s ref = decide (s = { e.symbol with type }) := by
    rw [denotes_of_symbol hnew, decide_eq_decide]
    exact eq_comm
  rw [get?_replaceType_eq hs he h]
  cases hq : t.shares.get? s with
  | none => simp [Option.filter, hself]
  | some q =>
    have hsymbol := ht.symbol_of_get? hq
    by_cases hr : q = ref
    · subst hr
      obtain rfl := Except.ok.inj (hsymbol.symm.trans (symbol_of_entry he))
      simp [Option.filter, hself]
    · have hstays : t'.denotes s q = true := denotes_iff.mpr ((hothers q hr).trans hsymbol)
      simp [Option.filter, hstays, hr]

/-- **What one call does to the shares.** Whoever was shared stays so, and else the constant that
the call is about comes to be shared, as long as it denotes the symbol after the call. -/
theorem Consistent.get?_attempt (ht : t.Consistent) (hs : s.isConstant = true) (c : Call) :
    (t.attempt c).2.shares.get? s =
      ((t.shares.get? s).or (c.subject? (t.attempt c).1)).filter ((t.attempt c).2.denotes s) := by
  have hkept : (∀ ref type, c ≠ .replaceType ref type) →
      ∀ q, t.shares.get? s = some q → (t.attempt c).2.symbol q = .ok s :=
    fun hc q hq => symbol_attempt (ht.symbol_of_get? hq) (hc q)
  cases c with
  | insert scope d =>
    rw [filter_or_of_denotes (hkept (by simp))]
    exact (Option.or_none).symm
  | temporary scope =>
    rw [filter_or_of_denotes (hkept (by simp))]
    exact (Option.or_none).symm
  | global g =>
    rw [filter_or_of_denotes (hkept (by simp))]
    refine Eq.trans ?_ (Option.or_none).symm
    exact congrArg (Shares.get? · s) (t.shares_global g)
  | constant w type => exact ht.get?_constant_op w type
  | constantBytes bytes => exact ht.get?_constant_op _ _
  | replaceType ref type =>
    rcases t.attempt_replaceType_cases ref type with ⟨e, t', he, hr, heq⟩ | ⟨he, heq⟩
    · rw [heq]
      exact ht.get?_replaceType hs hr
    · have hnone : t.denotes s ref = false := by rw [denotes, he]; rfl
      rw [heq, filter_or_of_denotes fun q hq => ht.symbol_of_get? hq]
      simp [Call.subject?, Option.filter, hnone]

/-! ## The holder after a sequence of calls -/

/-- The table after calls made from the empty one. -/
def after (calls : List Call) : SymbolTable := (Calls.run attempt {} calls).2

/-- The holder of a symbol and the table, after one more call. -/
def handOver (s : Symbol) (x : Option SymbolRef × SymbolTable) (c : Call) :
    Option SymbolRef × SymbolTable :=
  let r := x.2.attempt c
  ((x.1.or (c.subject? r.1)).filter (r.2.denotes s), r.2)

/-- The holder of a symbol: the first constant to come to it while it was free, if that constant
still denotes it, else the first one to come to it after that one had left, and so on. -/
def holder (s : Symbol) (calls : List Call) : Option SymbolRef :=
  (calls.foldl (handOver s) (none, {})).1

theorem after_concat (calls : List Call) (c : Call) :
    after (calls ++ [c]) = ((after calls).attempt c).2 := by
  rw [after, Calls.run_concat, after]

theorem consistent_after (calls : List Call) : (after calls).Consistent :=
  (Calls.run_induct (P := Issued) (fun _ _ c h => h.attempt c) [] issued_empty calls).consistent

theorem foldl_handOver (hs : s.isConstant = true) (calls : List Call) :
    calls.foldl (handOver s) (none, {}) = ((after calls).shares.get? s, after calls) := by
  induction calls using List.reverseRecOn with
  | nil => simp [after, Calls.run, Shares.get?, Shares.alike]
  | append_singleton calls c ih =>
    rw [List.foldl_append, ih, List.foldl_cons, List.foldl_nil, handOver, after_concat,
      (consistent_after calls).get?_attempt hs c]

/-- **The shared constants are the holders.** -/
theorem get?_after (hs : s.isConstant = true) (calls : List Call) :
    (after calls).shares.get? s = holder s calls := by
  rw [holder, foldl_handOver hs]

/-! ## What becomes of a constant -/

/-- Whether a call asks for a constant. -/
def Call.asks : Call → Bool
  | .constant _ _ | .constantBytes _ => true
  | _ => false

/-- A call for a constant was answered with the handle. -/
def Asked (calls : List Call) (ref : SymbolRef) : Prop :=
  ∃ before c later, calls = before ++ c :: later ∧ c.asks = true ∧
    ((after before).attempt c).1 = .given ref

/-- The constant came to a symbol by its last change of type, at a time when the other one was
there. -/
def Joins (calls : List Call) (ref other : SymbolRef) (s : Symbol) : Prop :=
  ∃ before later, calls = before ++ .replaceType ref s.type :: later ∧
    (after before).symbol other = .ok s ∧ ∀ type, .replaceType ref type ∉ later

/-- The constant joined another one at a symbol, which has left it by a change of its type since. -/
def Stranded (calls : List Call) (ref : SymbolRef) (s : Symbol) : Prop :=
  ∃ other ≠ ref, ∃ before type later, calls = before ++ .replaceType other type :: later ∧
    Joins before ref other s ∧ (after before).symbol other = .ok s ∧ type ≠ s.type ∧
    ∀ type, .replaceType ref type ∉ later

/-- A constant is the holder of what it denotes, or has joined the holder, or is stranded. -/
def Placed (calls : List Call) (ref : SymbolRef) (s : Symbol) : Prop :=
  (after calls).shares.get? s = some ref ∨
    (∃ other ≠ ref, (after calls).shares.get? s = some other ∧ Joins calls ref other s) ∨
    Stranded calls ref s

section Concat

variable {calls : List Call} {c : Call}

theorem asked_concat (h : Asked (calls ++ [c]) ref) :
    Asked calls ref ∨ c.asks = true ∧ ((after calls).attempt c).1 = .given ref := by
  obtain ⟨before, d, later, heq, hasks, hgiven⟩ := h
  rcases List.eq_nil_or_concat later with rfl | ⟨later, last, rfl⟩
  · obtain ⟨rfl, hd⟩ := List.append_inj' heq rfl
    obtain rfl := List.singleton_inj.mp hd
    exact .inr ⟨hasks, hgiven⟩
  · have hsplit : calls ++ [c] = (before ++ d :: later) ++ [last] := by simpa using heq
    obtain ⟨rfl, -⟩ := List.append_inj' hsplit rfl
    exact .inl ⟨before, d, later, rfl, hasks, hgiven⟩

theorem Joins.concat {other : SymbolRef} (h : Joins calls ref other s)
    (hc : ∀ type, c ≠ .replaceType ref type) : Joins (calls ++ [c]) ref other s := by
  obtain ⟨before, later, rfl, hother, hlater⟩ := h
  refine ⟨before, later ++ [c], by simp, hother, fun type => ?_⟩
  simpa using ⟨hlater type, (hc type).symm⟩

theorem Stranded.concat (h : Stranded calls ref s) (hc : ∀ type, c ≠ .replaceType ref type) :
    Stranded (calls ++ [c]) ref s := by
  obtain ⟨other, hne, before, type, later, rfl, hjoins, hother, htype, hlater⟩ := h
  refine ⟨other, hne, before, type, later ++ [c], by simp, hjoins, hother, htype, fun type => ?_⟩
  simpa using ⟨hlater type, (hc type).symm⟩

/-- A constant that a call is not about stays where it is; the one it has joined may leave. -/
theorem Placed.concat (h : Placed calls ref s) (hconst : s.isConstant = true)
    (hself : (after calls).symbol ref = .ok s) (hc : ∀ type, c ≠ .replaceType ref type) :
    Placed (calls ++ [c]) ref s := by
  have hget := (consistent_after calls).get?_attempt hconst c
  rw [← after_concat] at hget
  rcases h with hheld | ⟨other, hne, hheld, hjoins⟩ | hstranded
  · have hstays : (after (calls ++ [c])).symbol ref = .ok s := by
      rw [after_concat]
      exact symbol_attempt hself hc
    left
    simp [hget, hheld, Option.filter, denotes_iff.mpr hstays]
  · by_cases hstays : (after (calls ++ [c])).symbol other = .ok s
    · refine .inr (.inl ⟨other, hne, ?_, hjoins.concat hc⟩)
      simp [hget, hheld, Option.filter, denotes_iff.mpr hstays]
    · -- The call has changed the type of the other constant.
      have hother := (consistent_after calls).symbol_of_get? hheld
      rw [after_concat] at hstays
      obtain ⟨type, rfl, htype⟩ := eq_replaceType_of_symbol_ne hother hstays
      exact .inr (.inr ⟨other, hne, calls, type, [], rfl, hjoins, hother, htype, by simp⟩)
  · exact .inr (.inr (hstranded.concat hc))

theorem exists_constant_of_asks (hasks : c.asks = true) (t : SymbolTable) :
    ∃ w type, t.attempt c = (.given (t.constant w type).1, (t.constant w type).2) := by
  cases c with
  | constant w type => exact ⟨w, type, rfl⟩
  | constantBytes bytes => exact ⟨_, _, rfl⟩
  | insert | temporary | global | replaceType => cases hasks

/-- A constant that was asked for is the holder. -/
theorem placed_asked (hasks : c.asks = true) (hgiven : ((after calls).attempt c).1 = .given ref)
    (hs : (after (calls ++ [c])).symbol ref = .ok s) : Placed (calls ++ [c]) ref s := by
  left
  obtain ⟨w, type, heq⟩ := exists_constant_of_asks hasks (after calls)
  rw [after_concat, heq] at hs ⊢
  rw [heq] at hgiven
  obtain rfl := Answer.given.inj hgiven
  obtain rfl := Except.ok.inj (((consistent_after calls).symbol_constant w type).symm.trans hs)
  exact get?_constant _ w type

theorem type_of_retyped {type : TypeHint}
    (hs : (after (calls ++ [.replaceType ref type])).symbol ref = .ok s) : type = s.type := by
  rw [after_concat] at hs
  rcases (after calls).attempt_replaceType_cases ref type with ⟨e, t', he, hr, heq⟩ | ⟨he, heq⟩
  · rw [heq] at hs
    obtain rfl := Except.ok.inj ((symbol_replaceType (symbol_of_entry he) hr).1.symm.trans hs)
    rfl
  · rw [heq] at hs
    obtain ⟨e, he', -⟩ := entry?_of_symbol hs
    rw [he] at he'
    cases he'

/-- A constant that changes its type takes what is free, or joins the holder. -/
theorem placed_retyped {type : TypeHint} (hconst : s.isConstant = true)
    (hs : (after (calls ++ [.replaceType ref type])).symbol ref = .ok s) :
    Placed (calls ++ [.replaceType ref type]) ref s := by
  have hget := (consistent_after calls).get?_attempt hconst (.replaceType ref type)
  rw [← after_concat] at hget
  cases hheld : (after calls).shares.get? s with
  | none =>
    left
    simp [hget, hheld, Call.subject?, Option.filter, denotes_iff.mpr hs]
  | some other =>
    by_cases hne : other = ref
    · subst hne
      left
      simp [hget, hheld, Option.filter, denotes_iff.mpr hs]
    · have hother := (consistent_after calls).symbol_of_get? hheld
      have hstays : (after (calls ++ [.replaceType ref type])).symbol other = .ok s := by
        rw [after_concat]
        exact symbol_attempt hother fun _ heq => hne (Call.replaceType.inj heq).1.symm
      obtain rfl := type_of_retyped hs
      refine .inr (.inl ⟨other, hne, ?_, calls, [], rfl, hother, by simp⟩)
      simp [hget, hheld, Option.filter, denotes_iff.mpr hstays]

theorem knows_of_asks (hasks : c.asks = true)
    (hgiven : ((after calls).attempt c).1 = .given ref) : (after (calls ++ [c])).Knows ref := by
  obtain ⟨w, type, heq⟩ := exists_constant_of_asks hasks (after calls)
  rw [after_concat, heq]
  rw [heq] at hgiven
  obtain rfl := Answer.given.inj hgiven
  exact ((consistent_after calls).constant_isConstant w type).knows

end Concat

theorem Asked.knows {calls : List Call} (h : Asked calls ref) : (after calls).Knows ref := by
  induction calls using List.reverseRecOn with
  | nil =>
    obtain ⟨before, c, later, heq, -⟩ := h
    simp at heq
  | append_singleton calls c ih =>
    rcases asked_concat h with hold | ⟨hasks, hgiven⟩
    · rw [after_concat]
      exact (attempt_grows _ c).knows (ih hold)
    · exact knows_of_asks hasks hgiven

/-- **A constant that was asked for** is the holder of what it denotes, or has joined the holder, or
is stranded. -/
theorem Asked.placed {calls : List Call} (h : Asked calls ref)
    (hs : (after calls).symbol ref = .ok s) (hconst : s.isConstant = true) :
    Placed calls ref s := by
  induction calls using List.reverseRecOn with
  | nil =>
    obtain ⟨before, c, later, heq, -⟩ := h
    simp at heq
  | append_singleton calls c ih =>
    by_cases hc : ∃ type, c = .replaceType ref type
    · obtain ⟨type, rfl⟩ := hc
      exact placed_retyped hconst hs
    · have hc : ∀ type, c ≠ .replaceType ref type := fun type heq => hc ⟨type, heq⟩
      rcases asked_concat h with hold | ⟨hasks, hgiven⟩
      · obtain ⟨x, hx⟩ := hold.knows
        obtain ⟨d, hd, -⟩ := exists_symbol_of_identity? hx
        have hkept := symbol_attempt hd hc
        rw [← after_concat] at hkept
        obtain rfl := Except.ok.inj (hkept.symm.trans hs)
        exact (ih hold hd).concat hconst hd hc
      · exact placed_asked hasks hgiven hs

/-- **When a constant is shared.** Let some constant that was asked for denote a value and a type.
If these have a holder, a request for them is answered with it and changes nothing; if they have
none, the request puts in one more constant, and the one at hand is stranded. -/
theorem constant_shared_iff_held (calls : List Call) (ref : SymbolRef) (value : Word)
    (type : TypeHint) (hasked : Asked calls ref)
    (hs : (after calls).symbol ref = .ok (.constant value type)) :
    let t := after calls
    let s := Symbol.constant value type
    (∀ held, holder s calls = some held →
        t.symbol held = .ok s ∧ t.constant value type = (held, t)) ∧
      (holder s calls = none → ¬ t.Knows (t.constant value type).1 ∧
        (t.constant value type).2.size = t.size + 1 ∧ Stranded calls ref s) := by
  intro t s
  rw [← get?_after rfl calls]
  constructor
  · intro held hheld
    exact ⟨(consistent_after calls).symbol_of_get? hheld, constant_of_held hheld⟩
  · intro hfree
    obtain ⟨hfresh, hsize⟩ := constant_fst_of_free hfree
    refine ⟨hfresh ▸ t.not_knows_size, hsize, ?_⟩
    rcases hasked.placed hs rfl with hheld | ⟨other, -, hheld, -⟩ | hstranded
    · rw [hfree] at hheld
      cases hheld
    · rw [hfree] at hheld
      cases hheld
    · exact hstranded

/-- Two constants of one value, the second of which then gets the type of the first. -/
def joiningCalls : List Call := [.constant 1 .word, .constant 1 .bool, .replaceType 1 .word]

/-- The second constant has joined the first, which then leaves. -/
def strandingCalls : List Call := joiningCalls ++ [.replaceType 0 .bool]

/-- While the first constant stays, requests for what both denote are answered with it; when it has
left, the second one is stranded. -/
theorem constant_shared_iff_held_joining :
    (Asked joiningCalls 1 ∧ (after joiningCalls).symbol 1 = .ok (.constant 1 .word) ∧
        holder (.constant 1 .word) joiningCalls = some 0 ∧
        (after joiningCalls).constant 1 .word = (0, after joiningCalls)) ∧
      Asked strandingCalls 1 ∧ (after strandingCalls).symbol 1 = .ok (.constant 1 .word) ∧
        holder (.constant 1 .word) strandingCalls = none ∧
        Stranded strandingCalls 1 (.constant 1 .word) := by
  have hasked : Asked joiningCalls 1 :=
    ⟨[.constant 1 .word], .constant 1 .bool, [.replaceType 1 .word], rfl, rfl, by decide +kernel⟩
  have hs : (after joiningCalls).symbol 1 = .ok (.constant 1 .word) :=
    denotes_iff.mp (by decide +kernel)
  have hheld : holder (.constant 1 .word) joiningCalls = some 0 := by decide +kernel
  have hasked' : Asked strandingCalls 1 :=
    ⟨[.constant 1 .word], .constant 1 .bool, [.replaceType 1 .word, .replaceType 0 .bool], rfl, rfl,
      by decide +kernel⟩
  have hs' : (after strandingCalls).symbol 1 = .ok (.constant 1 .word) :=
    denotes_iff.mp (by decide +kernel)
  have hfree : holder (.constant 1 .word) strandingCalls = none := by decide +kernel
  exact ⟨⟨hasked, hs, hheld, ((constant_shared_iff_held _ _ _ _ hasked hs).1 0 hheld).2⟩,
    hasked', hs', hfree, ((constant_shared_iff_held _ _ _ _ hasked' hs').2 hfree).2.2⟩

/-- **A stranded constant.** A constant that was asked for denotes the word one, and a request for
the word one puts in another constant. -/
theorem constant_stranded :
    let t := after strandingCalls
    Asked strandingCalls 1 ∧ t.symbol 1 = .ok (.constant 1 .word) ∧
      ¬ t.Knows (t.constant 1 .word).1 ∧ t.size < (t.constant 1 .word).2.size := by
  have hfree : (after strandingCalls).shares.get? (.constant 1 .word) = none := by decide +kernel
  obtain ⟨hfresh, hsize⟩ := constant_fst_of_free hfree
  refine ⟨⟨[.constant 1 .word], .constant 1 .bool, [.replaceType 1 .word, .replaceType 0 .bool],
    rfl, rfl, by decide +kernel⟩, denotes_iff.mp (by decide +kernel), ?_, by omega⟩
  rw [hfresh]
  exact not_knows_size _

end EvmFlow.SymbolTable
