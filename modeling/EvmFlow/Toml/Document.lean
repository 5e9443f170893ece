import EvmFlow.Toml.Grammar

/-!
# The tables of a settings file

A file denotes a table of named items; a name is given once in its table.

* `Toml.Item`, `Toml.Fields`: values, tables and arrays of tables; the items of a table by their
  names;
* `Fields.addValue`, `Fields.addTable`, `Fields.addElement`: one more item, unless its name is
  taken;
* `Fields.modifyAt`: changes a table that lies in others;
* `Toml.Draft`: the table read so far, and what is being read;
* `Toml.parse`: the table denoted by a file.
-/

namespace EvmFlow.Toml

/-- An item of a table: a value; a table, which is declared once a header names it; or an array of
tables, with the fields of its last element. Each has the line on which it was first given. -/
inductive Item where
  | value (v : Scalar) (line : Nat)
  | table (line : Nat) (declared : Bool) (fields : List (String × Item))
  | elements (line : Nat) (last : List (String × Item))

/-- The line on which an item was first given. -/
def Item.line : Item → Nat
  | value _ line | table line _ _ | elements line _ => line

/-- The items of a table by their names, in the order in which they were given. -/
abbrev Fields := List (String × Item)

/-! ## Texts -/

/-- The text denoted by one with escapes. -/
def unescaped (source : List Char) : Except Cause String :=
  match unescape source with
  | some cs => .ok (String.ofList cs)
  | none => .error .badEscape

/-- The name that a key denotes. -/
def keyName (key : String) : Except Cause String :=
  match key.toList with
  | '"' :: rest => unescaped rest.dropLast
  | _ => .ok key

/-- A value with its escapes resolved. -/
def Scalar.resolve : Scalar → Except Cause Scalar
  | .escaped source => return .text (← unescaped source.toList)
  | v => .ok v

/-! ## Items -/

namespace Fields

/-- Puts an item in the place of the one with its name, or behind all others. -/
def set : Fields → String → Item → Fields
  | [], name, item => [(name, item)]
  | (other, old) :: rest, name, item =>
    if other = name then (name, item) :: rest else (other, old) :: set rest name item

/-- Adds a value. -/
def addValue (fs : Fields) (key : String) (v : Scalar) (line : Nat) : Except Cause Fields :=
  match fs.lookup key with
  | none => .ok (fs.set key (.value v line))
  | some (.value _ earlier) => .error (.keyRepeated key earlier)
  | some (.table earlier _ _) => .error (.keyOfTable key earlier)
  | some (.elements _ _) => .error (.keyOfArray key)

/-- Changes the table at the end of a path. A name that is not there yet becomes that of a table
that no header declares; of an array of tables, the last element is meant. -/
def modifyAt (change : Fields → Except Cause Fields) (line : Nat) :
    List String → Fields → Except Cause Fields
  | [], fs => change fs
  | name :: rest, fs =>
    match fs.lookup name with
    | none => return fs.set name (.table line false (← modifyAt change line rest []))
    | some (.table start declared inner) =>
      return fs.set name (.table start declared (← modifyAt change line rest inner))
    | some (.elements start last) =>
      return fs.set name (.elements start (← modifyAt change line rest last))
    | some (.value _ earlier) => .error (.pathThroughValue name earlier)

/-- Adds a table under a title. A table that no header has declared yet keeps its items. -/
def addTable (declared : Bool) (title : String) (line : Nat) (name : String) (fs : Fields) :
    Except Cause Fields :=
  match fs.lookup name with
  | none => .ok (fs.set name (.table line declared []))
  | some (.table _ false inner) => .ok (fs.set name (.table line declared inner))
  | some (.table earlier true _) => .error (.tableRepeated title earlier)
  | some (.elements earlier _) => .error (.tableOfArray title earlier)
  | some (.value _ earlier) => .error (.tableOfKey title earlier)

/-- Adds an element to an array of tables under a title. -/
def addElement (title : String) (line : Nat) (name : String) (fs : Fields) : Except Cause Fields :=
  match fs.lookup name with
  | none => .ok (fs.set name (.elements line []))
  | some (.elements first _) => .ok (fs.set name (.elements first []))
  | some (.table earlier _ _) => .error (.arrayOfTable title earlier)
  | some (.value _ earlier) => .error (.arrayOfKey title earlier)

end Fields

/-! ## Documents -/

/-- The table read so far, and what is being read. -/
structure Draft where
  root : Fields := []
  /-- The path of the table that takes the next entry. -/
  current : List String := []
  /-- The name of the entry. -/
  key : String := ""
  /-- The value read last. -/
  value : Scalar := .array
  /-- The number of arrays around. -/
  arrays : Nat := 0
  /-- A table written in line was the last thing that took the name of an entry, so that the entry
  has no value of its own. -/
  closed : Bool := false
  /-- The tables around a table written in line, each with the name of the entry that it is for. -/
  enclosing : List (String × List String) := []

namespace Draft

/-- Adds an item at a path by `add`, and lets the table at that path take the next entries. -/
def enter (d : Draft) (add : String → Fields → Except Cause Fields) (line : Nat)
    (path : List String) : Except Cause Draft := do
  let root ← Fields.modifyAt (add (path.getLastD "")) line path.dropLast d.root
  return { d with root, current := path }

/-- Starts a table written in line: in an array, it is an element of an array of tables. -/
def openTable (d : Draft) (line : Nat) : Except Cause Draft := do
  let add := if d.arrays = 0 then Fields.addTable false d.key line else Fields.addElement d.key line
  let inner ← d.enter add line (d.current ++ [d.key])
  return { inner with closed := false, enclosing := (d.key, d.current) :: d.enclosing }

/-- Ends a table written in line. -/
def closeTable (d : Draft) : Draft :=
  match d.enclosing with
  | (key, current) :: enclosing => { d with key, current, enclosing, closed := true }
  | [] => d

/-- Ends an entry. -/
def endEntry (d : Draft) (line : Nat) : Except Cause Draft := do
  if d.closed then return { d with closed := false }
  let root ← Fields.modifyAt (·.addValue d.key d.value line) line d.current d.root
  return { d with root }

/-- Takes in what happens on a line. -/
def add (d : Draft) (line : Nat) : Event → Except Cause Draft
  | .header title keys => do d.enter (Fields.addTable true title line) line (← keys.mapM keyName)
  | .element title keys => do d.enter (Fields.addElement title line) line (← keys.mapM keyName)
  | .key source => return { d with key := ← keyName source }
  | .value v => return { d with value := ← v.resolve }
  | .openArray => return { d with arrays := d.arrays + 1 }
  | .closeArray => return { d with arrays := d.arrays - 1, value := .array }
  | .openTable => d.openTable line
  | .closeTable => return d.closeTable
  | .endEntry => d.endEntry line

end Draft

/-- Takes in the parts of a file, in their order. -/
def collect : Draft → List Part → Except Error Fields
  | d, [] => .ok d.root
  | d, p :: rest =>
    match d.add p.line p.event with
    | .ok d => collect d rest
    | .error cause => .error ⟨p.line, cause⟩

/-- The table denoted by a file. -/
def parse (s : String) : Except Error Fields := do collect {} (← parts s)

end EvmFlow.Toml
