import EvmFlow.Settings
import EvmFlow.Toml.Document
import EvmFlow.Toml.FloatRange

/-!
# Settings from a file

The items of a settings file replace the settings of the same name. Every item must be known and
have the type of its setting.

* `SettingGroup`: the groups of settings and the names under which they are reported;
* `SettingsError`: what can be wrong with a file, its wording and its line;
* `Toml.Item.toInt`, `Toml.Item.toBool`, `Toml.Item.toText`: items as values of settings;
* `Settings.load`: settings with those of a file in place.
-/

namespace EvmFlow

/-- The groups of settings: those of the compiler, those of the log, and the groups themselves. -/
inductive SettingGroup where
  | compiler
  | log
  | all
deriving DecidableEq

/-- The name under which a group is reported. -/
def SettingGroup.name : SettingGroup → String
  | compiler => "compiler.Config"
  | log => "main.logConfig"
  | all => "main.tacConfig"

/-- Where the documentation of a group is found, if it has one. -/
def SettingGroup.documentation : SettingGroup → String
  | compiler =>
    ", see https://godoc.org/github.com/paritytech/revive-sub001/compiler#Config"
      ++ " for available fields"
  | log | all => ""

/-- Why an item cannot be the value of a setting. -/
inductive Unfit where
  /-- The item is of a kind that does not go into the type. -/
  | kind (found type : String) (needed : String := "")
  /-- The integer does not fit in 64 bits. -/
  | range (digits : String)
  /-- The number is too large for a floating-point number. -/
  | floatRange (digits : String)
  /-- The numbers of a date or time are wrong. -/
  | datetime (text : String) (problem : Toml.Datetime.Problem)

/-- The wording of an unfit item. -/
def Unfit.message : Unfit → String
  | kind found type needed =>
    s!"cannot unmarshal TOML {found} into {type}"
      ++ if needed.isEmpty then "" else s!" (need {needed})"
  | range digits => s!"value {digits} is out of range for int"
  | floatRange digits => s!"strconv.ParseFloat: parsing \"{digits}\": value out of range"
  | datetime text problem => problem.message text

/-- What can be wrong with a settings file. -/
inductive SettingsError where
  /-- The file itself is wrong. -/
  | document (e : Toml.Error)
  /-- An item of a group has an unknown name. -/
  | unknown (line : Nat) (group : SettingGroup) (name : String)
  /-- An item cannot be the value of the setting. -/
  | unfit (line : Nat) (group : SettingGroup) (name : String) (reason : Unfit)
  /-- A table stands where a single value belongs. -/
  | table (line : Nat) (type : String)

/-- The wording of an error, with its line. -/
def SettingsError.message : SettingsError → String
  | document e => s!"line {e.line}: " ++ e.cause.message
  | unknown line group name =>
    s!"line {line}: field '{name}' is not defined in {group.name}" ++ group.documentation
  | unfit line group name reason => s!"line {line}: ({group.name}.{name}) " ++ reason.message
  | table line type => s!"line {line}: " ++ (Unfit.kind "table" type "struct or map").message

/-! ## Items as values -/

namespace Toml

/-- An integer with a sign that fits in 64 bits. -/
def integer? (digits : String) : Option Int :=
  let cs := digits.toList
  let n := cs.foldl (fun n c => if c.isDigit then 10 * n + (c.toNat - '0'.toNat) else n) 0
  let i : Int := if cs.head? = some '-' then -n else n
  if Signed64.fits i then some i else none

/-- A number without the underscores between its digits. -/
def plainDigits (source : String) : String := String.ofList (source.toList.filter (· ≠ '_'))

/-- Why a value of another kind cannot be one of `type`. That a number is too large, or that a date
does not exist, is found before its kind is looked at. -/
def Scalar.unfit (v : Scalar) (type : String) : Unfit :=
  match v with
  | .array => .kind v.kind type "slice"
  | .float source =>
    let digits := plainDigits source
    if (Decimal.parse digits.toList).overflows then .floatRange digits else .kind v.kind type
  | .datetime d =>
    match d.problem? with
    | some problem => .datetime d.text problem
    | none => .kind v.kind type
  | _ => .kind v.kind type

/-- The integer that a value is. -/
def Scalar.toInt : Scalar → Except Unfit Int
  | .integer source =>
    let digits := plainDigits source
    match integer? digits with
    | some i => .ok i
    | none => .error (.range digits)
  | v => .error (v.unfit "int")

/-- The truth value that a value is. -/
def Scalar.toBool : Scalar → Except Unfit Bool
  | .boolean b => .ok b
  | v => .error (v.unfit "bool")

/-- The text that a value is. -/
def Scalar.toText : Scalar → Except Unfit String
  | .text s => .ok s
  | v => .error (v.unfit "string")

/-- The value of the setting `name` of a group that an item gives, read by `fromScalar` as one of
`type`. -/
def Item.read {α : Type} (item : Item) (group : SettingGroup) (name type : String)
    (fromScalar : Scalar → Except Unfit α) : Except SettingsError α :=
  match item with
  | .value v line => (fromScalar v).mapError (.unfit line group name)
  | .table line _ _ => .error (.table line type)
  | .elements line _ => .error (.unfit line group name (.kind "array table" type "slice"))

/-- The items of a table that holds the settings of a group. -/
def Item.toFields (item : Item) (name : String) (group : SettingGroup) :
    Except SettingsError Fields :=
  match item with
  | .table _ _ fields => .ok fields
  | .value v line => .error (.unfit line .all name (v.unfit group.name))
  | .elements line _ => .error (.unfit line .all name (.kind "array table" group.name "slice"))

end Toml

/-! ## The groups -/

/-- Puts an item in place of the compiler's setting of its name. -/
def CompilerSettings.set (s : CompilerSettings) :
    String × Toml.Item → Except SettingsError CompilerSettings
  | (name, item) =>
    let int := item.read .compiler name "int" Toml.Scalar.toInt
    let bool := item.read .compiler name "bool" Toml.Scalar.toBool
    match name with
    | "CacheSize" => return { s with cacheSize := ← int }
    | "Workers" => return { s with workers := ← int }
    | "Optimize" => return { s with optimize := ← bool }
    | _ => .error (.unknown item.line .compiler name)

/-- Puts an item in place of the log's setting of its name. -/
def LogSettings.set (s : LogSettings) : String × Toml.Item → Except SettingsError LogSettings
  | (name, item) =>
    let int := item.read .log name "int" Toml.Scalar.toInt
    let bool := item.read .log name "bool" Toml.Scalar.toBool
    match name with
    | "Verbosity" => return { s with verbosity := ← int }
    | "File" => return { s with file := ← item.read .log name "string" Toml.Scalar.toText }
    | "MaxSizeMB" => return { s with maxSizeMB := ← int }
    | "MaxBackups" => return { s with maxBackups := ← int }
    | "Compress" => return { s with compress := ← bool }
    | "Debug" => return { s with debug := ← bool }
    | _ => .error (.unknown item.line .log name)

/-- Puts the items of a table in place of the settings of the group of its name. -/
def Settings.set (s : Settings) : String × Toml.Item → Except SettingsError Settings
  | (name, item) =>
    match name with
    | "Compiler" => do
      let fields ← item.toFields name .compiler
      return { s with compiler := ← fields.foldlM CompilerSettings.set s.compiler }
    | "Log" => do
      let fields ← item.toFields name .log
      return { s with log := ← fields.foldlM LogSettings.set s.log }
    | _ => .error (.unknown item.line .all name)

/-- The settings with those of a file in place. -/
def Settings.load (s : Settings) (file : String) : Except SettingsError Settings := do
  let fields ← (Toml.parse file).mapError .document
  fields.foldlM Settings.set s

end EvmFlow
