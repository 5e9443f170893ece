import EvmFlow.Text.Hex
import EvmFlow.Toml.Datetime

/-!
# Settings files

The parts of a settings file in the TOML format, in the order in which they stand.

* `Toml.Scalar`: a single value;
* `Toml.Event`, `Toml.Part`: what a file says step by step, and on which line;
* `Toml.unescape`: the text denoted by one with escapes;
* `Toml.Cause`, `Toml.Error`: what can be wrong with a file, its wording and its line.
-/

namespace EvmFlow.Toml

/-- A single value. Numbers keep the text they are written as, and so does a text with escapes. Of
an array, no more is kept than that it is one. -/
inductive Scalar where
  | integer (source : String)
  | float (source : String)
  | text (s : String)
  | escaped (source : String)
  | boolean (b : Bool)
  | datetime (d : Datetime)
  | array
deriving DecidableEq

/-- The name of the kind of a value. -/
def Scalar.kind : Scalar → String
  | integer _ => "integer"
  | float _ => "float"
  | text _ | escaped _ => "string"
  | boolean _ => "boolean"
  | datetime _ => "datetime"
  | array => "array"

/-- What a file says step by step. Keys and titles are kept as they are written. -/
inductive Event where
  /-- The header of a table: its title, and the keys in it. -/
  | header (title : String) (keys : List String)
  /-- The header of one more element of an array of tables. -/
  | element (title : String) (keys : List String)
  /-- The key of an entry. -/
  | key (source : String)
  /-- A single value: that of the entry, or one in an array. -/
  | value (v : Scalar)
  /-- The start of an array. -/
  | openArray
  /-- The end of an array. -/
  | closeArray
  /-- The start of a table that is written in line. -/
  | openTable
  /-- The end of a table that is written in line. -/
  | closeTable
  /-- The end of an entry. -/
  | endEntry
deriving DecidableEq

/-- An event and the line on which it happens. -/
structure Part where
  line : Nat
  event : Event
deriving DecidableEq

/-- What can be wrong with a file. -/
inductive Cause where
  /-- The text does not follow the grammar. -/
  | malformed
  /-- A text has an escape that denotes no character. -/
  | badEscape
  /-- A key is given a second time. -/
  | keyRepeated (key : String) (line : Nat)
  /-- A key has the name of a table. -/
  | keyOfTable (key : String) (line : Nat)
  /-- A key has the name of an array of tables. -/
  | keyOfArray (key : String)
  /-- A table lies in something that is no table. -/
  | pathThroughValue (key : String) (line : Nat)
  /-- A table is declared a second time. -/
  | tableRepeated (title : String) (line : Nat)
  /-- A table has the name of a key. -/
  | tableOfKey (title : String) (line : Nat)
  /-- A table has the name of an array of tables. -/
  | tableOfArray (title : String) (line : Nat)
  /-- An array of tables has the name of a table. -/
  | arrayOfTable (title : String) (line : Nat)
  /-- An array of tables has the name of a key. -/
  | arrayOfKey (title : String) (line : Nat)
deriving DecidableEq

/-- The wording of a cause. A repeated key gives the earlier line in hexadecimal, followed
by `d`. -/
def Cause.message : Cause → String
  | malformed => "invalid TOML syntax"
  | badEscape => "invalid syntax"
  | keyRepeated key line => s!"key `{key}' is in conflict with line " ++ Hex.digits line ++ "d"
  | keyOfTable key line => s!"key `{key}' is in conflict with table in line {line}"
  | keyOfArray key => s!"BUG: key `{key}' is in conflict but it's unknown type `[]*ast.Table'"
  | pathThroughValue key line => s!"key `{key}' is in conflict with line {line}"
  | tableRepeated title line => s!"table `{title}' is in conflict with table in line {line}"
  | tableOfKey title line => s!"table `{title}' is in conflict with line {line}"
  | tableOfArray title line => s!"table `{title}' is in conflict with array table in line {line}"
  | arrayOfTable title line => s!"array table `{title}' is in conflict with table in line {line}"
  | arrayOfKey title line => s!"array table `{title}' is in conflict with line {line}"

/-- A cause and the line on which it arises. -/
structure Error where
  line : Nat
  cause : Cause
deriving DecidableEq

/-! ## Escapes -/

/-- The value of a hexadecimal digit. -/
def hexDigit? (c : Char) : Option UInt8 :=
  if c.toNat < 0x80 then Hex.digit? c.val.toUInt8 else none

/-- The number written by hexadecimal digits. -/
def hexValue? (ds : List Char) : Option Nat :=
  ds.foldlM (fun n c => (hexDigit? c).map fun d => 16 * n + d.toNat) 0

/-- The character with a code, unless the code is that of no character. -/
def scalar? (code : Nat) : Option Char :=
  if h : code.isValidChar then some (Char.ofNatAux code h) else none

/-- The character that a letter names after a backslash. -/
def named? : Char → Option Char
  | 'b' => some '\x08'
  | 't' => some '\t'
  | 'n' => some '\n'
  | 'f' => some '\x0c'
  | 'r' => some '\r'
  | '"' => some '"'
  | '\\' => some '\\'
  | _ => none

/-- The text denoted by `cs`, if every escape in it denotes a character. -/
def unescape : List Char → Option (List Char)
  | '\\' :: 'u' :: a :: b :: c :: d :: rest => do
    return (← scalar? (← hexValue? [a, b, c, d])) :: (← unescape rest)
  | '\\' :: 'U' :: a :: b :: c :: d :: e :: f :: g :: h :: rest => do
    return (← scalar? (← hexValue? [a, b, c, d, e, f, g, h])) :: (← unescape rest)
  | '\\' :: x :: rest => do return (← named? x) :: (← unescape rest)
  | x :: rest => return x :: (← unescape rest)
  | [] => some []

end EvmFlow.Toml
