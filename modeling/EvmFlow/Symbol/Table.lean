import EvmFlow.Change
import EvmFlow.Symbol
import Std.Data.TreeMap.Basic

/-!
# The table of symbols

The table owns the symbols of a program. A handle counts the symbols from zero in the order in which
they were put in, and nothing is ever taken out.

* `Shares`: the shared constants, and `ScopeIndex`: the symbols of each scope;
* `SymbolRecords`: what a table stores, and the operations on it;
* `SymbolRecords.symbol`, `SymbolRecords.scope`, `SymbolRecords.symbolsIn`: look-up;
* `SymbolRecords.Made`: the records that the operations make, and `SymbolTable`: a table, which has
  such records only;
* `SymbolTable.insert`, `SymbolTable.temporary`: a fresh symbol at every call;
* `SymbolTable.global`: one symbol for each global;
* `SymbolTable.constant`, `SymbolTable.constantBytes`: one shared symbol for each value and type;
* `SymbolTable.replaceType`: a change of type that every holder of the handle sees;
* `SymbolRecords.render`: the text of a symbol.

A constant that was put in by `insert` is not shared. When a constant changes its type it gives up
its share under the old type, and takes the share under the new type if that is free.
-/

namespace EvmFlow

/-- A symbol and where it belongs. -/
structure SymbolEntry where
  symbol : Symbol
  scope : Scope
deriving DecidableEq

/-- The shared constants and their handles, by the value of the constant. -/
abbrev Shares := Std.TreeMap Nat (List (Symbol × SymbolRef))

namespace Shares

/-- The number under which a constant is found. -/
def key (s : Symbol) : Nat := (s.value?.map BitVec.toNat).getD 0

/-- The shared constants with the value of `s`. -/
def alike (m : Shares) (s : Symbol) : List (Symbol × SymbolRef) := m.getD (key s) []

/-- The handle of a shared constant. -/
def get? (m : Shares) (s : Symbol) : Option SymbolRef := (m.alike s).lookup s

/-- Shares a constant under a handle. -/
def share (m : Shares) (s : Symbol) (ref : SymbolRef) : Shares :=
  m.insert (key s) ((s, ref) :: m.alike s)

/-- Shares a constant no longer. -/
def release (m : Shares) (s : Symbol) : Shares :=
  m.insert (key s) ((m.alike s).filter (·.1 ≠ s))

end Shares

/-- The handles of the symbols of each scope, the latest first. -/
structure ScopeIndex where
  program : List SymbolRef := []
  blocks : Std.TreeMap NodeId (List SymbolRef) := {}

namespace ScopeIndex

/-- The handles of a scope, the latest first. -/
def get (m : ScopeIndex) : Scope → List SymbolRef
  | .program => m.program
  | .block n => m.blocks.getD n []

/-- Lists a handle under a scope. -/
def file (m : ScopeIndex) (ref : SymbolRef) : Scope → ScopeIndex
  | .program => { m with program := ref :: m.program }
  | .block n => { m with blocks := m.blocks.insert n (ref :: m.blocks.getD n []) }

end ScopeIndex

/-- What a table stores: the symbols, with the handles of the globals, of the shared constants and
of each scope. -/
structure SymbolRecords where
  entries : Array SymbolEntry := #[]
  globals : List (Global × SymbolRef) := []
  shares : Shares := {}
  scopes : ScopeIndex := {}

namespace SymbolRecords

/-- The number of symbols. -/
def size (r : SymbolRecords) : Nat := r.entries.size

/-! ## Look-up -/

/-- The entry at a handle. -/
def entry? (r : SymbolRecords) (ref : SymbolRef) : Option SymbolEntry :=
  ref.toNat?.bind fun i => r.entries[i]?

/-- The entry at a handle; an unknown handle is a fault. -/
def entry (r : SymbolRecords) (ref : SymbolRef) : Except Fault SymbolEntry :=
  match r.entry? ref with
  | some e => .ok e
  | none => .error (.unknownSymbol ref)

/-- The symbol at a handle. -/
def symbol (r : SymbolRecords) (ref : SymbolRef) : Except Fault Symbol :=
  return (← r.entry ref).symbol

/-- The scope of the symbol at a handle. -/
def scope (r : SymbolRecords) (ref : SymbolRef) : Except Fault Scope :=
  return (← r.entry ref).scope

/-- The handles, in ascending order. -/
def refs (r : SymbolRecords) : List SymbolRef := (List.range r.size).map Int.ofNat

/-- The handles that are listed under a scope, in the order in which they were put in. -/
def symbolsIn (r : SymbolRecords) (s : Scope) : List SymbolRef := (r.scopes.get s).reverse

/-- The handle and the address of a symbol, with a star in front of a pointer, and with the type and
the value of a constant around. -/
def render (r : SymbolRecords) (ref : SymbolRef) : Except Fault String := do
  let s ← r.symbol ref
  let name := s!"${ref}_" ++ s.address.render
  return match s.kind with
    | .pointer => "*" ++ name
    | .constant value => s.type.render ++ " " ++ name ++ " := " ++ value.render
    | _ => name

/-! ## Growth -/

/-- Puts in a symbol under a fresh handle. -/
def insert (r : SymbolRecords) (scope : Scope) (s : Symbol) : SymbolRef × SymbolRecords :=
  let ref : SymbolRef := r.entries.size
  (ref, { r with entries := r.entries.push ⟨s, scope⟩, scopes := r.scopes.file ref scope })

/-- The symbol of a global, put in at its first use. -/
def global (r : SymbolRecords) (g : Global) : SymbolRef × SymbolRecords :=
  match r.globals.lookup g with
  | some ref => (ref, r)
  | none =>
    let (ref, r) := r.insert .program g.symbol
    (ref, { r with globals := (g, ref) :: r.globals })

/-- The shared constant of a value and a type, put in at its first use. -/
def constant (r : SymbolRecords) (value : Word) (type : TypeHint) : SymbolRef × SymbolRecords :=
  let s := Symbol.constant value type
  match r.shares.get? s with
  | some ref => (ref, r)
  | none =>
    let (ref, r) := r.insert .program s
    (ref, { r with shares := r.shares.share s ref })

/-! ## Types -/

/-- Replaces the symbol at a handle, if the handle is known. -/
def setSymbol (r : SymbolRecords) (ref : SymbolRef) (s : Symbol) : SymbolRecords :=
  match ref.toNat? with
  | some i => { r with entries := r.entries.modify i fun e => { e with symbol := s } }
  | none => r

/-- Moves the share of a constant from its old record to its new one: the old share goes if `ref`
held it, and the new one is taken if nobody holds it. -/
def moveShare (r : SymbolRecords) (ref : SymbolRef) (old new : Symbol) : SymbolRecords :=
  let rest := if r.shares.get? old = some ref then r.shares.release old else r.shares
  { r with shares := if (rest.get? new).isNone then rest.share new ref else rest }

/-- Changes the type of a symbol. -/
def replaceType (ref : SymbolRef) (type : TypeHint) : Change SymbolRecords Unit := do
  let old ← Change.look (·.symbol ref)
  let new := { old with type }
  modify (·.setSymbol ref new)
  if old.isConstant then modify (·.moveShare ref old new)

/-- The records that arise from none by the operations on them. -/
inductive Made : SymbolRecords → Prop
  | empty : Made {}
  | insert {r : SymbolRecords} (scope : Scope) (s : Symbol) : Made r → Made (r.insert scope s).2
  | global {r : SymbolRecords} (g : Global) : Made r → Made (r.global g).2
  | constant {r : SymbolRecords} (value : Word) (type : TypeHint) :
      Made r → Made (r.constant value type).2
  | replaceType {r : SymbolRecords} (ref : SymbolRef) (type : TypeHint) :
      Made r → Made ((replaceType ref type).outcome r).2

end SymbolRecords

/-! ## Tables -/

/-- The symbols of a program. A table starts without any, and only its operations change it. -/
structure SymbolTable extends SymbolRecords where
  made : toSymbolRecords.Made := by exact .empty

namespace SymbolTable

/-- Puts in a symbol under a fresh handle. -/
def insert (t : SymbolTable) (scope : Scope) (s : Symbol) : SymbolRef × SymbolTable :=
  let r := t.toSymbolRecords.insert scope s
  (r.1, ⟨r.2, t.made.insert scope s⟩)

/-- Puts in a fresh temporary. -/
def temporary (t : SymbolTable) (scope : Scope) : SymbolRef × SymbolTable :=
  t.insert scope .temporary

/-- The symbol of a global, put in at its first use. -/
def global (t : SymbolTable) (g : Global) : SymbolRef × SymbolTable :=
  let r := t.toSymbolRecords.global g
  (r.1, ⟨r.2, t.made.global g⟩)

/-- The shared constant of a value and a type, put in at its first use. -/
def constant (t : SymbolTable) (value : Word) (type : TypeHint) : SymbolRef × SymbolTable :=
  let r := t.toSymbolRecords.constant value type
  (r.1, ⟨r.2, t.made.constant value type⟩)

/-- The shared constant of a byte string, most significant byte first, typed by its length. -/
def constantBytes (t : SymbolTable) (bytes : List UInt8) : SymbolRef × SymbolTable :=
  t.constant (Word.ofBytes bytes) (.bytes bytes.length)

/-- Changes the type of a symbol. -/
def replaceType (ref : SymbolRef) (type : TypeHint) : Change SymbolTable Unit :=
  ExceptT.mk fun t =>
    let r := (SymbolRecords.replaceType ref type).outcome t.toSymbolRecords
    (r.1, ⟨r.2, t.made.replaceType ref type⟩)

end SymbolTable

end EvmFlow
