import EvmFlow.Proofs.SymbolTable
import Mathlib.Logic.Relation

/-!
# Symbols as they are created

While code is lowered, the table of symbols is only asked for temporaries, entry slots, globals and
constants. What it holds stays as it is, and nothing is created as a truth value.

* `Symbol.Original`: the symbols that are created;
* `SymbolTable.Creates`, `SymbolTable.Enlarges`: one request to a table, and any number of them;
* `SymbolTable.Enlarges.entry?`, `SymbolTable.Enlarges.entry?_cases`: what is in the table before
  and after;
* `SymbolTable.Genuine`, `SymbolTable.Enlarges.genuine`: globals and constants are as they were
  created.
-/

namespace EvmFlow

/-- A symbol as it is created. No constant is asked for as a truth value. -/
inductive Symbol.Original : Symbol → Prop
  | temporary : Original .temporary
  | stackSlot (slot : Int32) : Original (.stackSlot slot)
  | global (g : Global) : Original g.symbol
  | constant (w : Word) {type : TypeHint} (htype : type ≠ .bool) : Original (.constant w type)

theorem Global.type_ne_bool (g : Global) : g.type ≠ .bool := by
  cases g <;> exact fun h => by cases h

theorem Symbol.Original.type_ne_bool {s : Symbol} (h : s.Original) : s.type ≠ .bool := by
  cases h with
  | temporary | stackSlot => exact fun h => by cases h
  | global g => exact g.type_ne_bool
  | constant w htype => exact htype

theorem Symbol.Original.eq_symbol {s : Symbol} (h : s.Original) {g : Global}
    (hg : s.address = .label g) : s = g.symbol := by
  cases h with
  | global => cases hg; rfl
  | _ => cases hg

namespace SymbolTable

/-- One request to a table for a symbol. -/
inductive Creates (t : SymbolTable) : SymbolTable → Prop
  | temporary (sc : Scope) : Creates t (t.temporary sc).2
  | stackSlot (sc : Scope) (slot : Int32) : Creates t (t.insert sc (.stackSlot slot)).2
  | global (g : Global) : Creates t (t.global g).2
  | constant (w : Word) {type : TypeHint} (htype : type ≠ .bool) : Creates t (t.constant w type).2

/-- Any number of requests. -/
abbrev Enlarges : SymbolTable → SymbolTable → Prop := Relation.ReflTransGen Creates

/-- Every constant is the one that is shared under its value and its type, and every global is the
symbol of its name. -/
structure Genuine (t : SymbolTable) : Prop where
  constant : ∀ {x e}, t.entry? x = some e → e.symbol.isConstant = true →
    t.shares.get? e.symbol = some x
  global : ∀ {x e g}, t.entry? x = some e → e.symbol.address = .label g → e.symbol = g.symbol

variable {t t' : SymbolTable} {x : SymbolRef} {e : SymbolEntry}

theorem genuine_empty : Genuine {} where
  constant h := by simp [ SymbolRecords.entry?] at h
  global h := by simp [ SymbolRecords.entry?] at h

/-! ## One request -/

namespace Creates

/-- A request either finds its symbol, or it puts in one at the end, and a constant is then
shared. -/
theorem inversion (h : t.Creates t') : (∀ x, t'.entry? x = t.entry? x) ∨
    ∃ s sc, s.Original ∧ (∀ x, t'.entry? x = if x = t.size then some ⟨s, sc⟩ else t.entry? x) ∧
      (s.isConstant = true → t'.shares.get? s = some ↑t.size) := by
  cases h with
  | temporary sc => exact .inr ⟨_, sc, .temporary, t.entry?_insert sc _, nofun⟩
  | stackSlot sc slot => exact .inr ⟨_, sc, .stackSlot slot, t.entry?_insert sc _, nofun⟩
  | global g =>
    cases hg : t.globals.lookup g with
    | some ref =>
      rw [global_of_isGlobal hg]
      exact .inl fun _ => rfl
    | none =>
      obtain ⟨t', heq, hputs, -, -⟩ := global_of_none hg
      rw [heq]
      refine .inr ⟨_, .program, .global g, hputs.entry?, fun hc => ?_⟩
      cases g <;> cases hc
  | @constant w type htype =>
    cases hs : t.shares.get? (.constant w type) with
    | some ref =>
      rw [constant_of_held hs]
      exact .inl fun _ => rfl
    | none =>
      obtain ⟨t', heq, hputs, -, hshares⟩ := constant_of_free hs
      rw [heq]
      refine .inr ⟨_, .program, .constant w htype, hputs.entry?, fun _ => ?_⟩
      rw [hshares, Shares.get?_share, if_pos rfl]

theorem entry? (h : t.Creates t') (hx : t.entry? x = some e) : t'.entry? x = some e := by
  obtain heq | ⟨s, sc, -, heq, -⟩ := h.inversion
  · rw [heq, hx]
  · have hne : x ≠ t.size := by
      rintro rfl
      exact t.not_knows_size (knows_of_entry hx)
    rw [heq, if_neg hne, hx]

/-- What is in the table was there before, or is new; a new constant is shared. -/
theorem entry?_cases (h : t.Creates t') (hx : t'.entry? x = some e) : t.entry? x = some e ∨
    ¬ t.Knows x ∧ e.symbol.Original ∧
      (e.symbol.isConstant = true → t'.shares.get? e.symbol = some x) := by
  obtain heq | ⟨s, sc, hs, heq, hshared⟩ := h.inversion
  · exact .inl ((heq x).symm.trans hx)
  · rw [heq] at hx
    by_cases hsize : x = t.size
    · rw [if_pos hsize] at hx
      cases hx
      subst hsize
      exact .inr ⟨t.not_knows_size, hs, hshared⟩
    · rw [if_neg hsize] at hx
      exact .inl hx

theorem grows (h : t.Creates t') : t.Grows t' := by
  cases h with
  | temporary sc => exact t.temporary_grows sc
  | stackSlot sc slot => exact t.insert_grows sc _
  | global g => exact t.global_grows g
  | constant w htype => exact t.constant_grows w _

theorem retains (h : t.Creates t') : t.Retains t' := by
  cases h with
  | temporary sc => exact .of_shares rfl
  | stackSlot sc slot => exact .of_shares rfl
  | global g => exact t.global_retains g
  | constant w htype => exact t.constant_retains w _

theorem proper (h : t.Creates t') (ht : t.Proper) : t'.Proper := by
  cases h with
  | temporary sc => exact ht.temporary sc
  | stackSlot sc slot => exact ht.insert (.inr ⟨rfl, rfl⟩)
  | global g => exact ht.global_op g
  | constant w htype => exact ht.constant_op w _

theorem consistent (h : t.Creates t') (ht : t.Consistent) : t'.Consistent := by
  cases h with
  | temporary sc => exact ht.temporary sc
  | stackSlot sc slot => exact ht.insert sc _
  | global g => exact ht.global_op g
  | constant w htype => exact ht.constant_op w _

theorem genuine (h : t.Creates t') (ht : t.Genuine) : t'.Genuine where
  constant hx hc := by
    rcases h.entry?_cases hx with hx | ⟨-, -, hshared⟩
    · exact h.retains (ht.constant hx hc)
    · exact hshared hc
  global hx hg := by
    rcases h.entry?_cases hx with hx | ⟨-, horiginal, -⟩
    · exact ht.global hx hg
    · exact horiginal.eq_symbol hg

end Creates

/-! ## Any number of requests -/

namespace Enlarges

theorem grows (h : t.Enlarges t') : t.Grows t' := by
  induction h with
  | refl => exact .refl t
  | tail _ hlast ih => exact ih.trans hlast.grows

theorem retains (h : t.Enlarges t') : t.Retains t' := by
  induction h with
  | refl => exact .refl t
  | tail _ hlast ih => exact ih.trans hlast.retains

theorem proper (h : t.Enlarges t') (ht : t.Proper) : t'.Proper := by
  induction h with
  | refl => exact ht
  | tail _ hlast ih => exact hlast.proper ih

theorem consistent (h : t.Enlarges t') (ht : t.Consistent) : t'.Consistent := by
  induction h with
  | refl => exact ht
  | tail _ hlast ih => exact hlast.consistent ih

/-- What is in a table stays. -/
theorem entry? (h : t.Enlarges t') (hx : t.entry? x = some e) : t'.entry? x = some e := by
  induction h with
  | refl => exact hx
  | tail _ hlast ih => exact hlast.entry? ih

/-- What a table holds later it held before, or it has been created since. -/
theorem entry?_cases (h : t.Enlarges t') (hx : t'.entry? x = some e) :
    t.entry? x = some e ∨ ¬ t.Knows x ∧ e.symbol.Original := by
  induction h with
  | refl => exact .inl hx
  | tail hinit hlast ih =>
    rcases hlast.entry?_cases hx with hx | ⟨hnew, horiginal, -⟩
    · exact ih hx
    · exact .inr ⟨fun hk => hnew ((grows hinit).knows hk), horiginal⟩

theorem genuine (h : t.Enlarges t') (ht : t.Genuine) : t'.Genuine := by
  induction h with
  | refl => exact ht
  | tail _ hlast ih => exact hlast.genuine ih

end Enlarges

end SymbolTable

end EvmFlow
