import EvmFlow.Text.IntLiteral
import EvmFlow.Text.Quoted

/-!
# Flags

A flag starts with one dash or two. A value follows behind `=` or, unless the flag is a switch, as
the next argument. Flags end at the first argument that is none, or behind `--`. Of a flag that is
given twice, the last counts.

* `Flag`: the name of a flag and what its value sets in the options;
* `FlagError`: what can be wrong, and its wording;
* `Flag.parse`: the options set by the flags, and the arguments behind them.
-/

namespace EvmFlow

/-- What a flag sets in options of type `σ`: a text, an integer or a switch. -/
inductive FlagEffect (σ : Type) where
  | text (set : String → σ → σ)
  | integer (set : Int → σ → σ)
  | switch (set : Bool → σ → σ)

/-- A flag of options of type `σ`. -/
structure Flag (σ : Type) where
  name : String
  effect : FlagEffect σ

/-- What can be wrong with a flag. -/
inductive FlagError where
  /-- The argument starts as a flag and names none. -/
  | malformed (arg : String)
  /-- There is no flag of this name. -/
  | unknown (name : String)
  /-- The value of the flag is missing. -/
  | missingValue (name : String)
  /-- The value of a switch is no truth value. -/
  | badSwitch (name value : String)
  /-- The value is no integer, or none that fits. -/
  | badInteger (name value : String) (e : IntLiteral.Error)
  /-- Two names of one flag are used. -/
  | twoForms (name other : String)

/-- The wording of an error. -/
def FlagError.message : FlagError → String
  | malformed arg => s!"bad flag syntax: {arg}"
  | unknown name => s!"flag provided but not defined: -{name}"
  | missingValue name => s!"flag needs an argument: -{name}"
  | badSwitch name value =>
    "invalid boolean value " ++ Quoted.render value ++ s!" for -{name}: parse error"
  | badInteger name value e =>
    "invalid value " ++ Quoted.render value ++ s!" for flag -{name}: " ++ e.message
  | twoForms name other => s!"Cannot use two forms of the same flag: {name} {other}"

/-- The truth value that a text names. -/
def truth? (s : String) : Option Bool :=
  if ["1", "t", "T", "true", "TRUE", "True"].contains s then some true
  else if ["0", "f", "F", "false", "FALSE", "False"].contains s then some false
  else none

/-- The role of an argument: it is no flag, it ends the flags, it is no proper flag, or it is a flag
with or without a value. -/
inductive ArgumentRole where
  | plain
  | endOfFlags
  | malformed
  | flag (name : String) (value? : Option String)

/-- A flag from the text behind its dashes: `=` divides name and value. -/
def ArgumentRole.ofBody (body : List Char) : ArgumentRole :=
  match body with
  | [] | '-' :: _ | '=' :: _ => .malformed
  | _ =>
    let name := String.ofList (body.takeWhile (· ≠ '='))
    match body.dropWhile (· ≠ '=') with
    | [] => .flag name none
    | _ :: value => .flag name (some (String.ofList value))

/-- The role of an argument. -/
def ArgumentRole.of (arg : String) : ArgumentRole :=
  match arg.toList with
  | ['-', '-'] => .endOfFlags
  | '-' :: '-' :: body => .ofBody body
  | '-' :: c :: body => .ofBody (c :: body)
  | _ => .plain

namespace Flag

variable {σ : Type}

/-- The options with the value of a switch set; without a value it is turned on. -/
def applySwitch (name : String) (set : Bool → σ → σ) (value? : Option String) (options : σ) :
    Except FlagError σ :=
  match value? with
  | none => .ok (set true options)
  | some value =>
    match truth? value with
    | some b => .ok (set b options)
    | none => .error (.badSwitch name value)

/-- The options with an integer set. -/
def applyInteger (name : String) (set : Int → σ → σ) (value : String) (options : σ) :
    Except FlagError σ :=
  match IntLiteral.parse value with
  | .ok i => .ok (set i options)
  | .error e => .error (.badInteger name value e)

/-- The options with the value of a flag set, and the arguments behind it: a value that was not
given with the flag is the first of these. -/
def applyValue (name : String) (apply : String → σ → Except FlagError σ) (value? : Option String)
    (options : σ) (rest : List String) : Except FlagError (σ × List String) :=
  match value?, rest with
  | some value, rest => return (← apply value options, rest)
  | none, value :: rest => return (← apply value options, rest)
  | none, [] => .error (.missingValue name)

/-- The options with a flag set, and the arguments behind it. -/
def apply (flags : List (Flag σ)) (name : String) (value? : Option String) (options : σ)
    (rest : List String) : Except FlagError (σ × List String) :=
  match flags.find? (·.name == name) with
  | none => .error (.unknown name)
  | some { effect := .switch set, .. } => return (← applySwitch name set value? options, rest)
  | some { effect := .integer set, .. } =>
    applyValue name (applyInteger name set) value? options rest
  | some { effect := .text set, .. } =>
    applyValue name (fun value options => .ok (set value options)) value? options rest

/-- Sets the options of at most `fuel` flags. -/
def parseUpTo (flags : List (Flag σ)) : (fuel : Nat) → σ → List String →
    Except FlagError (σ × List String)
  | 0, options, args => .ok (options, args)
  | _ + 1, options, [] => .ok (options, [])
  | fuel + 1, options, arg :: rest =>
    match ArgumentRole.of arg with
    | .plain => .ok (options, arg :: rest)
    | .endOfFlags => .ok (options, rest)
    | .malformed => .error (.malformed arg)
    | .flag name value? => do
      let (options, rest) ← apply flags name value? options rest
      parseUpTo flags fuel options rest

/-- The options as the flags at the front of the arguments set them, and the arguments behind them.
There are no more flags than arguments. -/
def parse (flags : List (Flag σ)) (options : σ) (args : List String) :
    Except FlagError (σ × List String) :=
  parseUpTo flags args.length options args

end Flag

end EvmFlow
