import EvmFlow.Proofs.Outcome
import EvmFlow.Symbol.Table
import Mathlib.Tactic.Common
import Std.Data.TreeMap.Lemmas

/-!
# Growth and consistency of the table of symbols

Once a symbol is in the table, its address, its kind and its scope never change; only its type does.

* `Identity`, `SymbolTable.identity?`: the part of an entry that stays;
* `SymbolTable.Grows`: a later table keeps the identities and the handles of the globals;
* `SymbolTable.Retains`: a later table keeps the handles of the shared constants;
* `SymbolTable.Consistent`: the handles of the globals and of the shared constants lead to them;
* `SymbolTable.IsTemporary`, `SymbolTable.IsConstant`, `SymbolTable.IsSlot`,
  `SymbolTable.IsGlobal`: what a handle stands for, with the fact that this is kept by growth;
* `SymbolTable.Proper`: constants and globals belong to the whole program;
* `SymbolTable.Retypes`: a table differs from another one in the types of variables only;
* `SymbolTable.Puts`: a table with one more symbol of the whole program;
* `SymbolTable.induct`, **`SymbolTable.consistent`**: what the operations keep, all tables have;
* for each operation of the table: what the handle it returns stands for, that the table grows, and
  that it stays consistent and proper.
-/

namespace EvmFlow

/-- What never changes about a symbol. -/
structure Identity where
  address : Address
  kind : SymbolKind
  scope : Scope

/-- The identity of an entry. -/
def SymbolEntry.identity (e : SymbolEntry) : Identity := ⟨e.symbol.address, e.symbol.kind, e.scope⟩

/-! ## Shared constants -/

namespace Shares

theorem alike_insert (m : Shares) (s s' : Symbol) (l : List (Symbol × SymbolRef)) :
    alike (m.insert (key s) l) s' = if key s = key s' then l else m.alike s' := by
  simp [alike, Std.TreeMap.getD_insert]

theorem get?_share (m : Shares) (s s' : Symbol) (ref : SymbolRef) :
    (m.share s ref).get? s' = if s' = s then some ref else m.get? s' := by
  unfold get? share
  rw [alike_insert]
  by_cases h : s' = s
  · subst h
    simp
  · have hb : (s' == s) = false := by simpa using h
    by_cases hk : key s = key s'
    · simp [hk, alike, List.lookup_cons, hb, h]
    · simp [hk, h]

theorem lookup_filter_ne (l : List (Symbol × SymbolRef)) (s s' : Symbol) :
    (l.filter (·.1 ≠ s)).lookup s' = if s' = s then none else l.lookup s' := by
  induction l with
  | nil => simp
  | cons x l ih =>
    obtain ⟨k, ref⟩ := x
    by_cases hk : k = s
    · subst hk
      rw [List.filter_cons_of_neg (by simp), ih]
      by_cases h : s' = k
      · simp [h]
      · have hb : (s' == k) = false := by simpa using h
        simp [h, List.lookup_cons, hb]
    · rw [List.filter_cons_of_pos (by simpa using hk), List.lookup_cons, List.lookup_cons, ih]
      by_cases h : s' = s
      · subst h
        have hb : (s' == k) = false := by simpa using fun e : s' = k => hk e.symm
        simp [hb]
      · simp [h]

theorem get?_release (m : Shares) (s s' : Symbol) :
    (m.release s).get? s' = if s' = s then none else m.get? s' := by
  unfold get? release
  rw [alike_insert]
  by_cases hk : key s = key s'
  · rw [if_pos hk, lookup_filter_ne]
    simp [alike, hk]
  · rw [if_neg hk, if_neg fun h => hk (by rw [h])]

end Shares

namespace SymbolTable

open SymbolRecords

/-! ## Identities -/

theorem ext_records {t t' : SymbolTable} (h : t.toSymbolRecords = t'.toSymbolRecords) : t = t' := by
  cases t
  cases t'
  cases h
  rfl

/-- What an operation on the records gives, the operation on the table gives. -/
theorem eq_of_records {α : Type} {x : α × SymbolTable} {a : α} {t : SymbolTable}
    (h : (x.1, x.2.toSymbolRecords) = (a, t.toSymbolRecords)) : x = (a, t) :=
  Prod.ext (Prod.mk.inj h).1 (ext_records (Prod.mk.inj h).2)

theorem exists_of_records {α : Type} {x : α × SymbolTable} {a : α} {r : SymbolRecords}
    (h : (x.1, x.2.toSymbolRecords) = (a, r)) : ∃ t, x = (a, t) ∧ t.toSymbolRecords = r :=
  ⟨x.2, Prod.ext (Prod.mk.inj h).1 rfl, (Prod.mk.inj h).2⟩

theorem entry?_congr {r r' : SymbolRecords} (h : r'.entries = r.entries) {ref : SymbolRef} :
    r'.entry? ref = r.entry? ref := by rw [ entry?, h, entry?]

/-- The identity of the symbol at a handle. -/
def identity? (t : SymbolTable) (ref : SymbolRef) : Option Identity :=
  (t.entry? ref).map SymbolEntry.identity

theorem identity?_congr {t t' : SymbolTable} {ref : SymbolRef} (h : t'.entry? ref = t.entry? ref) :
    t'.identity? ref = t.identity? ref := by rw [identity?, h, identity?]

/-- Whether a handle was given out. -/
def Knows (t : SymbolTable) (ref : SymbolRef) : Prop := ∃ x, t.identity? ref = some x

theorem entry?_eq_some_iff {t : SymbolTable} {ref : SymbolRef} {e : SymbolEntry} :
    t.entry? ref = some e ↔ ∃ n : Nat, ref = n ∧ t.entries[n]? = some e := by
  constructor
  · intro h
    obtain ⟨n, hn, he⟩ := Option.bind_eq_some_iff.mp h
    exact ⟨n, Int.mem_toNat?.mp hn, he⟩
  · rintro ⟨n, rfl, he⟩
    exact he

theorem knows_of_entry {t : SymbolTable} {ref : SymbolRef} {e : SymbolEntry}
    (h : t.entry? ref = some e) : t.Knows ref := ⟨e.identity, by rw [identity?, h]; rfl⟩

theorem exists_entry_of_identity? {t : SymbolTable} {ref : SymbolRef} {x : Identity}
    (h : t.identity? ref = some x) : ∃ e, t.entry? ref = some e ∧ e.identity = x :=
  Option.map_eq_some_iff.mp h

theorem knows_iff {t : SymbolTable} {ref : SymbolRef} :
    t.Knows ref ↔ ∃ n : Nat, ref = n ∧ n < t.size := by
  constructor
  · rintro ⟨x, hx⟩
    obtain ⟨e, he, -⟩ := exists_entry_of_identity? hx
    obtain ⟨n, rfl, hn⟩ := entry?_eq_some_iff.mp he
    exact ⟨n, rfl, (Array.getElem?_eq_some_iff.mp hn).1⟩
  · rintro ⟨n, rfl, hn⟩
    exact knows_of_entry (entry?_eq_some_iff.mpr ⟨n, rfl, Array.getElem?_eq_getElem hn⟩)

theorem not_knows_size (t : SymbolTable) : ¬ t.Knows t.size := by
  rw [knows_iff]
  rintro ⟨n, hn, hlt⟩
  rw [Int.ofNat_inj.mp hn] at hlt
  exact Nat.lt_irrefl n hlt

theorem symbol_of_entry {t : SymbolTable} {ref : SymbolRef} {e : SymbolEntry}
    (h : t.entry? ref = some e) : t.symbol ref = .ok e.symbol := by
  simp only [symbol, entry, h]
  rfl

theorem exists_symbol_of_identity? {t : SymbolTable} {ref : SymbolRef} {x : Identity}
    (h : t.identity? ref = some x) :
    ∃ s, t.symbol ref = .ok s ∧ s.address = x.address ∧ s.kind = x.kind := by
  obtain ⟨e, he, rfl⟩ := exists_entry_of_identity? h
  exact ⟨e.symbol, symbol_of_entry he, rfl, rfl⟩

theorem scope_of_identity? {t : SymbolTable} {ref : SymbolRef} {x : Identity}
    (h : t.identity? ref = some x) : t.scope ref = .ok x.scope := by
  obtain ⟨e, he, rfl⟩ := exists_entry_of_identity? h
  simp only [scope, entry, he]
  rfl

theorem entry?_of_symbol {t : SymbolTable} {ref : SymbolRef} {s : Symbol}
    (h : t.symbol ref = .ok s) : ∃ e, t.entry? ref = some e ∧ e.symbol = s := by
  unfold symbol entry at h
  cases he : t.entry? ref with
  | none => rw [he] at h; cases h
  | some e =>
    rw [he] at h
    cases h
    exact ⟨e, rfl, rfl⟩

theorem identity?_of_symbol {t : SymbolTable} {ref : SymbolRef} {s : Symbol}
    (h : t.symbol ref = .ok s) : ∃ sc, t.identity? ref = some ⟨s.address, s.kind, sc⟩ := by
  obtain ⟨e, he, rfl⟩ := entry?_of_symbol h
  exact ⟨e.scope, by rw [identity?, he]; rfl⟩

/-! ## Growth -/

/-- `t'` comes after `t`: identities and the handles of the globals are kept. -/
structure Grows (t t' : SymbolTable) : Prop where
  identity : ∀ {ref x}, t.identity? ref = some x → t'.identity? ref = some x
  global : ∀ {g ref}, t.globals.lookup g = some ref → t'.globals.lookup g = some ref

theorem Grows.refl (t : SymbolTable) : t.Grows t := ⟨id, id⟩

theorem Grows.trans {t₁ t₂ t₃ : SymbolTable} (h₁ : t₁.Grows t₂) (h₂ : t₂.Grows t₃) :
    t₁.Grows t₃ :=
  ⟨fun h => h₂.identity (h₁.identity h), fun h => h₂.global (h₁.global h)⟩

theorem Grows.knows {t t' : SymbolTable} (h : t.Grows t') {ref : SymbolRef} (hr : t.Knows ref) :
    t'.Knows ref := hr.imp fun _ hx => h.identity hx

/-- The constants that `t` shares are shared in `t'` under the same handles. -/
def Retains (t t' : SymbolTable) : Prop :=
  ∀ ⦃s ref⦄, t.shares.get? s = some ref → t'.shares.get? s = some ref

theorem Retains.refl (t : SymbolTable) : t.Retains t := fun _ _ h => h

theorem Retains.trans {t₁ t₂ t₃ : SymbolTable} (h₁ : t₁.Retains t₂) (h₂ : t₂.Retains t₃) :
    t₁.Retains t₃ := fun _ _ h => h₂ (h₁ h)

theorem Retains.of_shares {t t' : SymbolTable} (h : t'.shares = t.shares) : t.Retains t' :=
  fun _ _ hs => by rwa [h]

/-- A temporary variable. -/
def IsTemporary (t : SymbolTable) (ref : SymbolRef) : Prop :=
  ∃ sc, t.identity? ref = some ⟨.temporary, .var, sc⟩

/-- A constant of a given value. -/
def IsConstant (t : SymbolTable) (ref : SymbolRef) (w : Word) : Prop :=
  ∃ a sc, t.identity? ref = some ⟨a, .constant w, sc⟩

/-- A slot of the stack that the block at a node is entered with. -/
def IsSlot (t : SymbolTable) (n : NodeId) (slot : Int32) (ref : SymbolRef) : Prop :=
  t.identity? ref = some ⟨.stackSlot slot, .var, .block n⟩

/-- The symbol of a global. -/
def IsGlobal (t : SymbolTable) (g : Global) (ref : SymbolRef) : Prop :=
  t.globals.lookup g = some ref

section Kept

variable {t t' : SymbolTable} {ref : SymbolRef}

theorem IsTemporary.grows (h : t.IsTemporary ref) (hg : t.Grows t') : t'.IsTemporary ref :=
  h.imp fun _ hx => hg.identity hx

theorem IsConstant.grows {w : Word} (h : t.IsConstant ref w) (hg : t.Grows t') :
    t'.IsConstant ref w := by
  obtain ⟨a, sc, hx⟩ := h
  exact ⟨a, sc, hg.identity hx⟩

/-- A known symbol that is a constant later is one now. -/
theorem Grows.isConstant_of_knows (hg : t.Grows t') {w : Word} (hk : t.Knows ref)
    (h : t'.IsConstant ref w) : t.IsConstant ref w := by
  obtain ⟨x, hx⟩ := hk
  obtain ⟨a, sc, hx'⟩ := h
  rw [hg.identity hx] at hx'
  exact ⟨a, sc, hx.trans hx'⟩

/-- A known symbol that is a temporary later is one now. -/
theorem Grows.isTemporary_of_knows (hg : t.Grows t') (hk : t.Knows ref)
    (h : t'.IsTemporary ref) : t.IsTemporary ref := by
  obtain ⟨x, hx⟩ := hk
  obtain ⟨sc, hx'⟩ := h
  rw [hg.identity hx] at hx'
  exact ⟨sc, hx.trans hx'⟩

theorem IsSlot.grows {n : NodeId} {slot : Int32} (h : t.IsSlot n slot ref) (hg : t.Grows t') :
    t'.IsSlot n slot ref := hg.identity h

theorem IsGlobal.grows {g : Global} (h : t.IsGlobal g ref) (hg : t.Grows t') :
    t'.IsGlobal g ref := hg.global h

theorem IsTemporary.knows (h : t.IsTemporary ref) : t.Knows ref := ⟨_, h.choose_spec⟩

theorem IsConstant.knows {w : Word} (h : t.IsConstant ref w) : t.Knows ref := by
  obtain ⟨a, sc, hx⟩ := h
  exact ⟨_, hx⟩

theorem IsSlot.knows {n : NodeId} {slot : Int32} (h : t.IsSlot n slot ref) : t.Knows ref := ⟨_, h⟩

theorem IsConstant.value_unique {w w' : Word} (h : t.IsConstant ref w) (h' : t.IsConstant ref w') :
    w = w' := by
  obtain ⟨a, sc, hx⟩ := h
  obtain ⟨a', sc', hx'⟩ := h'
  rw [hx] at hx'
  injection hx' with hx'
  injection hx' with _ hk _
  injection hk

theorem IsTemporary.not_isConstant {w : Word} (h : t.IsTemporary ref) : ¬ t.IsConstant ref w := by
  obtain ⟨sc, hx⟩ := h
  rintro ⟨a, sc', hx'⟩
  rw [hx] at hx'
  cases hx'

theorem IsSlot.not_isConstant {n : NodeId} {slot : Int32} {w : Word} (h : t.IsSlot n slot ref) :
    ¬ t.IsConstant ref w := by
  rintro ⟨a, sc', hx'⟩
  rw [IsSlot, hx'] at h
  cases h

theorem IsTemporary.not_isSlot {n : NodeId} {slot : Int32} (h : t.IsTemporary ref) :
    ¬ t.IsSlot n slot ref := by
  obtain ⟨sc, hx⟩ := h
  intro hs
  rw [IsSlot, hx] at hs
  cases hs

theorem IsSlot.slot_unique {n n' : NodeId} {slot slot' : Int32} (h : t.IsSlot n slot ref)
    (h' : t.IsSlot n' slot' ref) : slot = slot' := by
  rw [IsSlot, h] at h'
  cases h'
  rfl

theorem isConstant_of_symbol {s : Symbol} {w : Word} (h : t.symbol ref = .ok s)
    (hw : s.value? = some w) : t.IsConstant ref w := by
  obtain ⟨sc, hx⟩ := identity?_of_symbol h
  refine ⟨s.address, sc, ?_⟩
  rw [hx]
  unfold Symbol.value? SymbolKind.value? at hw
  split at hw
  · next hk => cases hw; rw [hk]
  · cases hw

end Kept

/-! ## Consistency -/

/-- The handles of the globals lead to the globals, and those of the shared constants to the
constants; nothing else is shared. -/
structure Consistent (t : SymbolTable) : Prop where
  global : ∀ {g ref}, t.globals.lookup g = some ref →
    ∃ sc, t.identity? ref = some ⟨.label g, g.kind, sc⟩
  share : ∀ {s ref}, t.shares.get? s = some ref → ∃ e, t.entry? ref = some e ∧ e.symbol = s
  shared : ∀ {s ref}, t.shares.get? s = some ref → s.isConstant = true

theorem consistent_empty : Consistent {} where
  global h := by simp at h
  share h := by simp [Shares.get?, Shares.alike] at h
  shared h := by simp [Shares.get?, Shares.alike] at h

/-- Constants and globals belong to the whole program, and constants have no place of their own. -/
structure Proper (t : SymbolTable) : Prop where
  constant : ∀ {ref a w sc}, t.identity? ref = some ⟨a, .constant w, sc⟩ →
    a = .temporary ∧ sc = .program
  label : ∀ {ref g k sc}, t.identity? ref = some ⟨.label g, k, sc⟩ → sc = .program

theorem proper_empty : Proper {} where
  constant h := by simp [identity?, entry?] at h
  label h := by simp [identity?, entry?] at h

/-- Only identities matter. -/
theorem Proper.of_identity? {t t' : SymbolTable} (h : t.Proper)
    (hid : ∀ ref, t'.identity? ref = t.identity? ref) : t'.Proper where
  constant hx := h.constant ((hid _).symm.trans hx)
  label hx := h.label ((hid _).symm.trans hx)

/-! ## Insertion -/

section Insert

variable (t : SymbolTable) (sc : Scope) (s : Symbol)

theorem entry?_insert (ref : SymbolRef) :
    entry? (t.insert sc s).2.toSymbolRecords ref =
      if ref = t.size then some ⟨s, sc⟩ else t.entry? ref := by
  by_cases hr : ref = t.size
  · subst hr
    rw [if_pos rfl]
    exact Array.getElem?_push_size
  · rw [if_neg hr]
    cases hn : ref.toNat? with
    | none => simp [ entry?, hn]
    | some n =>
      have hne : n ≠ t.entries.size := fun h => hr (by rw [Int.mem_toNat?.mp hn, h]; rfl)
      simp [ entry?, hn, insert, SymbolRecords.insert, Array.getElem?_push, hne]

theorem identity?_insert (ref : SymbolRef) :
    (t.insert sc s).2.identity? ref =
      if ref = t.size then some ⟨s.address, s.kind, sc⟩ else t.identity? ref := by
  rw [identity?, entry?_insert]
  split <;> rfl

theorem identity?_insert_self :
    (t.insert sc s).2.identity? t.size = some ⟨s.address, s.kind, sc⟩ := by
  rw [identity?_insert, if_pos rfl]

theorem insert_grows : t.Grows (t.insert sc s).2 where
  identity {ref x} h := by
    rw [identity?_insert, if_neg, h]
    rintro rfl
    exact t.not_knows_size ⟨x, h⟩
  global h := h

theorem Consistent.insert {t : SymbolTable} (ht : t.Consistent) (sc : Scope) (s : Symbol) :
    (t.insert sc s).2.Consistent where
  global h := by
    obtain ⟨sc', hx⟩ := ht.global h
    exact ⟨sc', (t.insert_grows sc s).identity hx⟩
  share {s' ref} h := by
    obtain ⟨e, he, hs⟩ := ht.share h
    refine ⟨e, ?_, hs⟩
    rw [entry?_insert, if_neg, he]
    rintro rfl
    exact t.not_knows_size (knows_of_entry he)
  shared := ht.shared

/-- A variable other than a global may belong to any block. -/
theorem Proper.insert {t : SymbolTable} (h : t.Proper) {sc : Scope} {s : Symbol}
    (hs : sc = .program ∧ (s.isConstant = true → s.address = .temporary) ∨
      s.isConstant = false ∧ s.isGlobal = false) : (t.insert sc s).2.Proper where
  constant {ref a w sc'} hx := by
    rw [identity?_insert] at hx
    split at hx
    · obtain ⟨address, type, kind⟩ := s
      cases hx
      rcases hs with ⟨rfl, hs⟩ | ⟨hs, -⟩
      · exact ⟨hs rfl, rfl⟩
      · cases hs
    · exact h.constant hx
  label {ref g k sc'} hx := by
    rw [identity?_insert] at hx
    split at hx
    · obtain ⟨address, type, kind⟩ := s
      cases hx
      rcases hs with ⟨rfl, -⟩ | ⟨-, hs⟩
      · rfl
      · cases hs
    · exact h.label hx

theorem Proper.temporary {t : SymbolTable} (h : t.Proper) (sc : Scope) :
    (t.temporary sc).2.Proper := h.insert (.inr ⟨rfl, rfl⟩)

theorem temporary_isTemporary : (t.temporary sc).2.IsTemporary (t.temporary sc).1 :=
  ⟨sc, identity?_insert_self t sc _⟩

theorem temporary_fresh : ¬ t.Knows (t.temporary sc).1 := t.not_knows_size

theorem temporary_grows : t.Grows (t.temporary sc).2 := insert_grows t sc _

theorem Consistent.temporary {t : SymbolTable} (ht : t.Consistent) (sc : Scope) :
    (t.temporary sc).2.Consistent := ht.insert sc _

end Insert

/-- `t'` is `t` with one more symbol of the whole program. -/
structure Puts (t : SymbolTable) (s : Symbol) (t' : SymbolTable) : Prop where
  entries : t'.entries = (t.insert .program s).2.entries
  scopes : t'.scopes = (t.insert .program s).2.scopes

namespace Puts

variable {t t' : SymbolTable} {s : Symbol}

theorem entry? (h : t.Puts s t') (ref : SymbolRef) :
    t'.entry? ref = if ref = t.size then some ⟨s, .program⟩ else t.entry? ref := by
  rw [entry?_congr h.entries, entry?_insert]

theorem identity? (h : t.Puts s t') (ref : SymbolRef) :
    t'.identity? ref = (t.insert .program s).2.identity? ref :=
  identity?_congr (entry?_congr h.entries)

theorem size (h : t.Puts s t') : t'.size = t.size + 1 := by
  rw [SymbolRecords.size, h.entries]
  exact Array.size_push _

theorem symbol (h : t.Puts s t') : t'.symbol t.size = .ok s :=
  symbol_of_entry (e := ⟨s, .program⟩) (by rw [h.entry?, if_pos rfl])

theorem entry?_of_entry (h : t.Puts s t') {ref : SymbolRef} {e : SymbolEntry}
    (he : t.entry? ref = some e) : t'.entry? ref = some e := by
  rw [h.entry?, if_neg, he]
  rintro rfl
  exact t.not_knows_size (knows_of_entry he)

theorem identity?_of_identity? (h : t.Puts s t') {ref : SymbolRef} {x : Identity}
    (hx : t.identity? ref = some x) : t'.identity? ref = some x :=
  (h.identity? ref).trans ((t.insert_grows .program s).identity hx)

theorem proper (h : t.Puts s t') (ht : t.Proper)
    (hs : s.isConstant = true → s.address = .temporary) : t'.Proper :=
  (ht.insert (.inl ⟨rfl, hs⟩)).of_identity? h.identity?

end Puts

/-! ## Globals -/

section Global

variable (t : SymbolTable) (g : Global)

theorem global_of_isGlobal {t : SymbolTable} {g : Global} {ref : SymbolRef}
    (h : t.IsGlobal g ref) : t.global g = (ref, t) := by
  have hrecords : t.toSymbolRecords.global g = (ref, t.toSymbolRecords) := by
    rw [SymbolRecords.global, show t.globals.lookup g = some ref from h]
  exact eq_of_records hrecords

/-- At its first use, a global is put in and gets its handle. -/
theorem global_of_none {t : SymbolTable} {g : Global} (h : t.globals.lookup g = none) :
    ∃ t', t.global g = (↑t.size, t') ∧ t.Puts g.symbol t' ∧
      t'.globals = (g, ↑t.size) :: t.globals ∧ t'.shares = t.shares := by
  have hrecords : t.toSymbolRecords.global g =
      (↑t.size, { (t.insert .program g.symbol).2.toSymbolRecords with
        globals := (g, ↑t.size) :: t.globals }) := by
    rw [SymbolRecords.global, h]
    rfl
  obtain ⟨t', heq, ht'⟩ := exists_of_records (x := t.global g) hrecords
  exact ⟨t', heq, ⟨by rw [ht'], by rw [ht']⟩, by rw [ht'], by rw [ht']; rfl⟩

theorem global_isGlobal : (t.global g).2.IsGlobal g (t.global g).1 := by
  cases h : t.globals.lookup g with
  | some ref => rwa [global_of_isGlobal h]
  | none =>
    obtain ⟨t', heq, -, hglobals, -⟩ := global_of_none h
    rw [heq, IsGlobal, hglobals]
    exact List.lookup_cons_self

theorem global_grows : t.Grows (t.global g).2 := by
  cases h : t.globals.lookup g with
  | some ref =>
    rw [global_of_isGlobal h]
    exact .refl t
  | none =>
    obtain ⟨t', heq, hputs, hglobals, -⟩ := global_of_none h
    rw [heq]
    refine ⟨hputs.identity?_of_identity?, fun {g' ref} hg => ?_⟩
    have hne : g' ≠ g := fun he => by rw [he, h] at hg; cases hg
    have hb : (g' == g) = false := by simpa using hne
    rw [hglobals, List.lookup_cons, hb]
    exact hg

theorem shares_global : (t.global g).2.shares = t.shares := by
  cases h : t.globals.lookup g with
  | some ref => rw [global_of_isGlobal h]
  | none =>
    obtain ⟨t', heq, -, -, hshares⟩ := global_of_none h
    rw [heq, hshares]

theorem global_retains : t.Retains (t.global g).2 := .of_shares (t.shares_global g)

theorem Proper.global_op {t : SymbolTable} (h : t.Proper) (g : Global) : (t.global g).2.Proper := by
  cases hg : t.globals.lookup g with
  | some ref => rwa [global_of_isGlobal hg]
  | none =>
    obtain ⟨t', heq, hputs, -, -⟩ := global_of_none hg
    rw [heq]
    refine hputs.proper h fun hc => ?_
    cases g <;> cases hc

theorem Consistent.global_op {t : SymbolTable} (ht : t.Consistent) (g : Global) :
    (t.global g).2.Consistent := by
  cases hnone : t.globals.lookup g with
  | some ref => rwa [global_of_isGlobal hnone]
  | none =>
    obtain ⟨t', heq, hputs, hglobals, hshares⟩ := global_of_none hnone
    rw [heq]
    refine ⟨fun {g' ref} h => ?_, fun {s ref} h => ?_, fun {s ref} h => ?_⟩
    · rw [hglobals] at h
      by_cases hg : g' = g
      · subst hg
        rw [List.lookup_cons_self] at h
        cases h
        exact ⟨.program, (hputs.identity? _).trans (identity?_insert_self t .program _)⟩
      · have hb : (g' == g) = false := by simpa using hg
        rw [List.lookup_cons, hb] at h
        obtain ⟨sc, hx⟩ := ht.global h
        exact ⟨sc, hputs.identity?_of_identity? hx⟩
    · rw [hshares] at h
      obtain ⟨e, he, hs⟩ := ht.share h
      exact ⟨e, hputs.entry?_of_entry he, hs⟩
    · rw [hshares] at h
      exact ht.shared h

end Global

/-! ## Constants -/

section Constant

variable (t : SymbolTable) (w : Word) (type : TypeHint)

theorem constant_of_held {t : SymbolTable} {w : Word} {type : TypeHint} {ref : SymbolRef}
    (h : t.shares.get? (.constant w type) = some ref) : t.constant w type = (ref, t) := by
  have hrecords : t.toSymbolRecords.constant w type = (ref, t.toSymbolRecords) := by
    simp only [SymbolRecords.constant, h]
  exact eq_of_records hrecords

/-- At its first use, a constant is put in and shared. -/
theorem constant_of_free {t : SymbolTable} {w : Word} {type : TypeHint}
    (h : t.shares.get? (.constant w type) = none) :
    ∃ t', t.constant w type = (↑t.size, t') ∧ t.Puts (.constant w type) t' ∧
      t'.globals = t.globals ∧ t'.shares = t.shares.share (.constant w type) ↑t.size := by
  have hrecords : t.toSymbolRecords.constant w type =
      (↑t.size, { (t.insert .program (.constant w type)).2.toSymbolRecords with
        shares := t.shares.share (.constant w type) ↑t.size }) := by
    simp only [SymbolRecords.constant, h]
    rfl
  obtain ⟨t', heq, ht'⟩ := exists_of_records (x := t.constant w type) hrecords
  exact ⟨t', heq, ⟨by rw [ht'], by rw [ht']⟩, by rw [ht']; rfl, by rw [ht']⟩

theorem constant_grows : t.Grows (t.constant w type).2 := by
  cases h : t.shares.get? (.constant w type) with
  | some ref =>
    rw [constant_of_held h]
    exact .refl t
  | none =>
    obtain ⟨t', heq, hputs, hglobals, -⟩ := constant_of_free h
    rw [heq]
    exact ⟨hputs.identity?_of_identity?, fun hg => by rwa [hglobals]⟩

theorem constant_retains : t.Retains (t.constant w type).2 := by
  cases h : t.shares.get? (.constant w type) with
  | some ref =>
    rw [constant_of_held h]
    exact .refl t
  | none =>
    obtain ⟨t', heq, -, -, hshares⟩ := constant_of_free h
    intro s ref hs
    have hne : s ≠ .constant w type := fun he => by rw [he, h] at hs; cases hs
    rw [heq, hshares, Shares.get?_share, if_neg hne]
    exact hs

/-- The handle of a constant is the one it is shared under. -/
theorem get?_constant : (t.constant w type).2.shares.get? (.constant w type) =
    some (t.constant w type).1 := by
  cases h : t.shares.get? (.constant w type) with
  | some ref => rwa [constant_of_held h]
  | none =>
    obtain ⟨t', heq, -, -, hshares⟩ := constant_of_free h
    rw [heq, hshares, Shares.get?_share, if_pos rfl]

theorem Proper.constant_op {t : SymbolTable} (h : t.Proper) (w : Word) (type : TypeHint) :
    (t.constant w type).2.Proper := by
  cases hs : t.shares.get? (.constant w type) with
  | some ref => rwa [constant_of_held hs]
  | none =>
    obtain ⟨t', heq, hputs, -, -⟩ := constant_of_free hs
    rw [heq]
    exact hputs.proper h fun _ => rfl

theorem Consistent.symbol_constant {t : SymbolTable} (ht : t.Consistent) (w : Word)
    (type : TypeHint) :
    (t.constant w type).2.symbol (t.constant w type).1 = .ok (.constant w type) := by
  cases h : t.shares.get? (.constant w type) with
  | some ref =>
    rw [constant_of_held h]
    obtain ⟨e, he, hs⟩ := ht.share h
    rw [symbol_of_entry he, hs]
  | none =>
    obtain ⟨t', heq, hputs, -, -⟩ := constant_of_free h
    rw [heq]
    exact hputs.symbol

theorem Consistent.constant_isConstant {t : SymbolTable} (ht : t.Consistent) (w : Word)
    (type : TypeHint) : (t.constant w type).2.IsConstant (t.constant w type).1 w :=
  isConstant_of_symbol (ht.symbol_constant w type) rfl

theorem Consistent.constant_op {t : SymbolTable} (ht : t.Consistent) (w : Word) (type : TypeHint) :
    (t.constant w type).2.Consistent := by
  cases hfree : t.shares.get? (.constant w type) with
  | some ref => rwa [constant_of_held hfree]
  | none =>
    obtain ⟨t', heq, hputs, hglobals, hshares⟩ := constant_of_free hfree
    rw [heq]
    refine ⟨fun {g ref} h => ?_, fun {s ref} h => ?_, fun {s ref} h => ?_⟩
    · rw [hglobals] at h
      obtain ⟨sc, hx⟩ := ht.global h
      exact ⟨sc, hputs.identity?_of_identity? hx⟩
    · rw [hshares, Shares.get?_share] at h
      split at h
      · next hs =>
        cases h
        exact ⟨⟨.constant w type, .program⟩, by rw [hputs.entry?, if_pos rfl], hs.symm⟩
      · obtain ⟨e, he, hs⟩ := ht.share h
        exact ⟨e, hputs.entry?_of_entry he, hs⟩
    · rw [hshares, Shares.get?_share] at h
      split at h
      · next hs => rw [hs]; rfl
      · exact ht.shared h

end Constant

/-! ## Types -/

section Types

variable (r : SymbolRecords) (ref q : SymbolRef) (old : Symbol) (type : TypeHint)

theorem entry?_setSymbol (s : Symbol) : entry? (r.setSymbol ref s) q =
    if q = ref then (r.entry? q).map fun e => { e with symbol := s } else r.entry? q := by
  unfold setSymbol
  cases hn : ref.toNat? with
  | none =>
    by_cases hq : q = ref
    · subst hq
      simp [ entry?, hn]
    · rw [if_neg hq]
  | some i =>
    cases hm : q.toNat? with
    | none =>
      have hne : q ≠ ref := fun h => by rw [h, hn] at hm; cases hm
      simp [ entry?, hm, hne]
    | some j =>
      have hiff : (q = ref) = (i = j) := by
        rw [Int.mem_toNat?.mp hm, Int.mem_toNat?.mp hn, eq_iff_iff]
        exact ⟨fun h => (Int.ofNat_inj.mp h).symm, fun h => by rw [h]⟩
      simp only [ entry?, hm, Option.bind_some, Array.getElem?_modify, hiff]

/-- The records after a change of type: one entry is new, and so may be the shares of a constant. -/
def retyped : SymbolRecords :=
  let written := r.setSymbol ref { old with type }
  if old.isConstant then written.moveShare ref old { old with type } else written

theorem entries_retyped :
    (retyped r ref old type).entries = (r.setSymbol ref { old with type }).entries := by
  unfold retyped
  split <;> rfl

theorem others_retyped : (retyped r ref old type).globals = r.globals ∧
    (retyped r ref old type).scopes = r.scopes := by
  unfold retyped moveShare setSymbol
  split <;> split <;> exact ⟨rfl, rfl⟩

theorem size_retyped : (retyped r ref old type).size = r.size := by
  rw [size, entries_retyped]
  unfold setSymbol
  split <;> simp [size]

theorem shares_setSymbol (s : Symbol) : (r.setSymbol ref s).shares = r.shares := by
  unfold setSymbol
  split <;> rfl

/-- A change of type, step by step. -/
theorem outcome_replaceType_records {e : SymbolEntry} (he : r.entry? ref = some e) :
    (SymbolRecords.replaceType ref type).outcome r = (.ok (), retyped r ref e.symbol type) := by
  have hs : r.symbol ref = .ok e.symbol := by
    simp only [symbol, entry, he]
    rfl
  rw [SymbolRecords.replaceType, Change.outcome_bind, Change.outcome_look, hs]
  dsimp only
  rw [Change.outcome_bind, Change.outcome_modify]
  dsimp only
  unfold retyped
  cases e.symbol.isConstant <;> rfl

variable {r ref q old type} {t t' : SymbolTable}

/-- **A change of type at an unknown handle fails before anything is written.** -/
theorem outcome_replaceType_of_unknown (h : t.entry? ref = none) :
    (replaceType ref type).outcome t = (.error (.unknownSymbol ref), t) := by
  have hs : t.symbol ref = .error (.unknownSymbol ref) := by
    simp only [symbol, entry, h]
    rfl
  have hrecords : (SymbolRecords.replaceType ref type).outcome t.toSymbolRecords =
      (.error (.unknownSymbol ref), t.toSymbolRecords) := by
    rw [SymbolRecords.replaceType, Change.outcome_bind, Change.outcome_look, hs]
  exact eq_of_records hrecords

theorem outcome_replaceType {e : SymbolEntry} (he : t.entry? ref = some e) (type : TypeHint) :
    ∃ t', (replaceType ref type).outcome t = (.ok (), t') ∧
      t'.toSymbolRecords = retyped t.toSymbolRecords ref e.symbol type := by
  have hrecords := outcome_replaceType_records t.toSymbolRecords ref type he
  exact exists_of_records hrecords

theorem replaceType_eq (h : (replaceType ref type).apply t = .ok ((), t')) :
    ∃ e, t.entry? ref = some e ∧
      t'.toSymbolRecords = retyped t.toSymbolRecords ref e.symbol type := by
  rw [Change.apply_eq_ok] at h
  cases he : t.entry? ref with
  | none =>
    rw [outcome_replaceType_of_unknown he] at h
    cases h
  | some e =>
    obtain ⟨t₁, heq, ht₁⟩ := outcome_replaceType he type
    rw [heq] at h
    cases h
    exact ⟨e, rfl, ht₁⟩

theorem exists_replaceType {e : SymbolEntry} (he : t.entry? ref = some e) (type : TypeHint) :
    ∃ t', (replaceType ref type).apply t = .ok ((), t') := by
  obtain ⟨t', heq, -⟩ := outcome_replaceType he type
  exact ⟨t', Change.apply_eq_ok.mpr heq⟩

theorem entry?_replaceType {e : SymbolEntry} (he : t.entry? ref = some e)
    (h : (replaceType ref type).apply t = .ok ((), t')) (q : SymbolRef) :
    t'.entry? q = if q = ref then some { e with symbol := { e.symbol with type } }
      else t.entry? q := by
  obtain ⟨d, hd, ht'⟩ := replaceType_eq h
  obtain rfl := Option.some.inj (hd.symm.trans he)
  rw [ht', entry?_congr (entries_retyped _ _ _ _), entry?_setSymbol]
  split
  · next hq =>
    rw [hq, hd]
    rfl
  · rfl

/-- A change of type keeps everything else about the entries. -/
theorem identity?_replaceType (h : (replaceType ref type).apply t = .ok ((), t')) :
    t'.identity? q = t.identity? q := by
  obtain ⟨e, he, -⟩ := replaceType_eq h
  rw [identity?, entry?_replaceType he h, identity?]
  split
  · next hq =>
    rw [hq, he]
    rfl
  · rfl

theorem globals_replaceType (h : (replaceType ref type).apply t = .ok ((), t')) :
    t'.globals = t.globals := by
  obtain ⟨e, -, ht'⟩ := replaceType_eq h
  rw [ht']
  exact (others_retyped _ _ _ _).1

/-- A variable holds no share. -/
theorem shares_replaceType {s : Symbol} (h : (replaceType ref type).apply t = .ok ((), t'))
    (hs : t.symbol ref = .ok s) (hvar : s.isConstant = false) : t'.shares = t.shares := by
  obtain ⟨e, he, ht'⟩ := replaceType_eq h
  obtain rfl := Except.ok.inj ((symbol_of_entry he).symm.trans hs)
  rw [ht', retyped, hvar]
  exact shares_setSymbol _ _ _

theorem get?_moveShare {new s : Symbol} (h : (r.moveShare ref old new).shares.get? s = some q) :
    s = new ∧ q = ref ∨ r.shares.get? s = some q ∧ (s = old → q ≠ ref) := by
  unfold moveShare at h
  dsimp only at h
  generalize hdef : (if r.shares.get? old = some ref then r.shares.release old
    else r.shares) = rest at h
  have hrest : rest.get? s = some q → r.shares.get? s = some q ∧ (s = old → q ≠ ref) := by
    intro hs
    rw [← hdef] at hs
    split at hs
    · rw [Shares.get?_release] at hs
      split at hs
      · cases hs
      · next hne => exact ⟨hs, fun he => absurd he hne⟩
    · next hheld =>
      refine ⟨hs, ?_⟩
      rintro rfl rfl
      exact hheld hs
  split at h
  · rw [Shares.get?_share] at h
    split at h
    · next hnew => exact .inl ⟨hnew, (Option.some.inj h).symm⟩
    · exact .inr (hrest h)
  · exact .inr (hrest h)

theorem Consistent.replaceType (ht : t.Consistent)
    (h : (replaceType ref type).apply t = .ok ((), t')) : t'.Consistent := by
  obtain ⟨e, he, ht'⟩ := replaceType_eq h
  -- A share is the new one, or it was there before and leads elsewhere.
  have hshare : ∀ {s q}, t'.shares.get? s = some q →
      s = { e.symbol with type } ∧ q = ref ∧ e.symbol.isConstant = true ∨
        t.shares.get? s = some q ∧ q ≠ ref := by
    intro s q hs
    have hself : t.shares.get? s = some ref → s = e.symbol := by
      intro hs
      obtain ⟨d, hd, rfl⟩ := ht.share hs
      rw [Option.some.inj (hd.symm.trans he)]
    cases hconst : e.symbol.isConstant with
    | true =>
      rw [ht', retyped, hconst, if_pos rfl] at hs
      rcases get?_moveShare hs with ⟨hnew, hq⟩ | ⟨hold, hne⟩
      · exact .inl ⟨hnew, hq, rfl⟩
      · rw [shares_setSymbol] at hold
        exact .inr ⟨hold, fun hq => hne (hself (hq ▸ hold)) hq⟩
    | false =>
      rw [shares_replaceType h (symbol_of_entry he) hconst] at hs
      refine .inr ⟨hs, fun hq => ?_⟩
      have hshared := ht.shared hs
      rw [hself (hq ▸ hs), hconst] at hshared
      cases hshared
  refine ⟨fun hg => ?_, fun {s q} hs => ?_, fun {s q} hs => ?_⟩
  · rw [globals_replaceType h] at hg
    obtain ⟨sc, hx⟩ := ht.global hg
    exact ⟨sc, (identity?_replaceType h).trans hx⟩
  · rw [entry?_replaceType he h]
    rcases hshare hs with ⟨rfl, rfl, -⟩ | ⟨hold, hne⟩
    · exact ⟨{ e with symbol := { e.symbol with type } }, if_pos rfl, rfl⟩
    · rw [if_neg hne]
      exact ht.share hold
  · rcases hshare hs with ⟨rfl, -, hconst⟩ | ⟨hold, -⟩
    · exact hconst
    · exact ht.shared hold

end Types

/-- `t'` differs from `t` in the types of variables only. -/
structure Retypes (t t' : SymbolTable) : Prop where
  identity? : ∀ ref, t'.identity? ref = t.identity? ref
  globals : t'.globals = t.globals
  shares : t'.shares = t.shares
  consistent : t.Consistent → t'.Consistent

namespace Retypes

variable {t t' t'' : SymbolTable}

theorem refl (t : SymbolTable) : t.Retypes t := ⟨fun _ => rfl, rfl, rfl, id⟩

theorem trans (h : t.Retypes t') (h' : t'.Retypes t'') : t.Retypes t'' :=
  ⟨fun ref => (h'.identity? ref).trans (h.identity? ref), h'.globals.trans h.globals,
    h'.shares.trans h.shares, fun ht => h'.consistent (h.consistent ht)⟩

theorem grows (h : t.Retypes t') : t.Grows t' :=
  ⟨fun hx => (h.identity? _).trans hx, fun hg => by rwa [h.globals]⟩

theorem knows (h : t.Retypes t') {ref : SymbolRef} : t'.Knows ref ↔ t.Knows ref := by
  unfold Knows
  rw [h.identity?]

theorem of_replaceType {ref : SymbolRef} {type : TypeHint} {s : Symbol}
    (h : (replaceType ref type).apply t = .ok ((), t')) (hs : t.symbol ref = .ok s)
    (hvar : s.isConstant = false) : t.Retypes t' :=
  ⟨fun _ => identity?_replaceType h, globals_replaceType h, shares_replaceType h hs hvar,
    fun ht => ht.replaceType h⟩

end Retypes

/-! ## The tables that the operations make -/

/-- What the empty table has and every operation keeps, all tables have. -/
theorem induct {P : SymbolTable → Prop} (hempty : P {})
    (hinsert : ∀ t sc s, P t → P (t.insert sc s).2) (hglobal : ∀ t g, P t → P (t.global g).2)
    (hconstant : ∀ t w type, P t → P (t.constant w type).2)
    (hreplaceType : ∀ t ref type, P t → P ((replaceType ref type).outcome t).2)
    (t : SymbolTable) : P t := by
  obtain ⟨r, hr⟩ := t
  induction hr with
  | empty => exact hempty
  | insert sc s h ih => exact hinsert ⟨_, h⟩ sc s ih
  | global g h ih => exact hglobal ⟨_, h⟩ g ih
  | constant w type h ih => exact hconstant ⟨_, h⟩ w type ih
  | replaceType ref type h ih => exact hreplaceType ⟨_, h⟩ ref type ih

/-- **All tables are consistent.** -/
theorem consistent (t : SymbolTable) : t.Consistent := by
  refine induct consistent_empty (fun t sc s ht => ht.insert sc s) (fun t g ht => ht.global_op g)
    (fun t w type ht => ht.constant_op w type) (fun t ref type ht => ?_) t
  cases he : t.entry? ref with
  | none => rwa [outcome_replaceType_of_unknown he]
  | some e =>
    obtain ⟨t', heq, -⟩ := outcome_replaceType he type
    rw [heq]
    exact ht.replaceType (Change.apply_eq_ok.mpr heq)

end SymbolTable

end EvmFlow
