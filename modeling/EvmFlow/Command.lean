import EvmFlow.Bytecode.HexText
import EvmFlow.Command.Flag
import EvmFlow.FileStore
import EvmFlow.Optimize
import EvmFlow.Report.Dot
import EvmFlow.Report.Listing
import EvmFlow.Settings.Load

/-!
# Commands

The program is called with global flags, the name of a command and the flags of the command. The
global flags and the settings file are read first, so that what is wrong there is reported before
the command is looked at.

* `GlobalOptions`, `Command`, `CommandOptions`: what the arguments say;
* `CommandError`: all that can go wrong, and its wording;
* `Host`: what a command finds where it runs;
* `loadCode`, `compileCode`: the code given to a command, and its program;
* `Command.run`: what a command prints;
* `runArguments`: what the program prints when it is called with arguments.
-/

namespace EvmFlow

/-! ## Options -/

/-- Whether help is asked for, by the long form of the flag and by the short one. -/
structure HelpOptions where
  long : Option Bool := none
  short : Option Bool := none

/-- Whether help is asked for; the two forms of the flag exclude each other. -/
def HelpOptions.asked (o : HelpOptions) : Except FlagError Bool :=
  match o.long, o.short with
  | some _, some _ => .error (.twoForms "h" "help")
  | some b, none | none, some b => .ok b
  | none, none => .ok false

/-- The flags by which help is asked for, in options that have them where `modify` changes them. -/
def helpFlags {σ : Type} (modify : (HelpOptions → HelpOptions) → σ → σ) : List (Flag σ) :=
  [⟨"help", .switch fun b => modify fun o => { o with long := some b }⟩,
    ⟨"h", .switch fun b => modify fun o => { o with short := some b }⟩]

/-- The options in front of the command. -/
structure GlobalOptions where
  config : String := ""
  verbosity : Option Int := none
  logFile : Option String := none
  debug : Option Bool := none
  help : HelpOptions := {}

/-- The flags in front of the command. -/
def GlobalOptions.flags : List (Flag GlobalOptions) :=
  [⟨"config", .text fun s o => { o with config := s }⟩,
    ⟨"verbosity", .integer fun i o => { o with verbosity := some i }⟩,
    ⟨"log.file", .text fun s o => { o with logFile := some s }⟩,
    ⟨"debug", .switch fun b o => { o with debug := some b }⟩]
    ++ helpFlags fun f o => { o with help := f o.help }

/-- The settings with the global options in place. -/
def GlobalOptions.override (o : GlobalOptions) (s : Settings) : Settings :=
  { s with log := { s.log with
    verbosity := o.verbosity.getD s.log.verbosity
    file := o.logFile.getD s.log.file
    debug := o.debug.getD s.log.debug } }

/-- The commands. -/
inductive Command where
  /-- Prints the three-address code of every block. -/
  | ir
  /-- Draws the graph. -/
  | dot
  /-- Prints the numbers of every block. -/
  | stats
  /-- Prints the decoded opcodes. -/
  | disasm
  /-- Prints the settings. -/
  | dumpconfig
deriving DecidableEq

namespace Command

/-- The commands, in the order in which they are presented. -/
def all : List Command := [ir, dot, stats, disasm, dumpconfig]

/-- The name of a command. -/
def name : Command → String
  | ir => "ir"
  | dot => "dot"
  | stats => "stats"
  | disasm => "disasm"
  | dumpconfig => "dumpconfig"

/-- What a command does, in a few words. -/
def summary : Command → String
  | ir => "Print the three-address code of every block"
  | dot => "Render the control-flow graph as GraphViz DOT or SVG"
  | stats => "Print per-block statistics"
  | disasm => "Print the decoded opcode stream"
  | dumpconfig => "Show the effective configuration"

/-- The command of a name. -/
def ofName? (s : String) : Option Command := all.find? (·.name == s)

end Command

/-- The options behind the command. -/
structure CommandOptions where
  code : String := ""
  file : String := ""
  format : String := "ir"
  out : String := ""
  optimize : Option Bool := none
  help : HelpOptions := {}

/-- The flags that name the code. -/
def codeFlags : List (Flag CommandOptions) :=
  [⟨"code", .text fun s o => { o with code := s }⟩,
    ⟨"file", .text fun s o => { o with file := s }⟩]

/-- The flag that turns the optimisation on or off. -/
def optimizeFlag : Flag CommandOptions :=
  ⟨"optimize", .switch fun b o => { o with optimize := some b }⟩

/-- The flags of the drawing. -/
def drawingFlags : List (Flag CommandOptions) :=
  [⟨"format", .text fun s o => { o with format := s }⟩,
    ⟨"out", .text fun s o => { o with out := s }⟩]

/-- The flags of a command, besides those by which help is asked for. -/
def Command.ownFlags : Command → List (Flag CommandOptions)
  | ir | stats => codeFlags ++ [optimizeFlag]
  | dot => drawingFlags ++ codeFlags ++ [optimizeFlag]
  | disasm => codeFlags
  | dumpconfig => [optimizeFlag]

/-- The flags of a command. -/
def Command.flags (c : Command) : List (Flag CommandOptions) :=
  c.ownFlags ++ helpFlags fun f o => { o with help := f o.help }

/-- The settings with the options of the command in place. -/
def CommandOptions.override (o : CommandOptions) (s : Settings) : Settings :=
  { s with compiler := { s.compiler with optimize := o.optimize.getD s.compiler.optimize } }

/-- How the program is called. -/
def usage : String :=
  joinLines <| "usage: taccfg [global flags] command [flags]" :: "" ::
    Command.all.map fun c => s!"  {c.name}: {c.summary}"

/-! ## Errors -/

/-- All that can go wrong in a call of the program. -/
inductive CommandError where
  | flag (e : FlagError)
  | file (e : FileError)
  | settings (path : String) (e : SettingsError)
  | unknownTopic (name : String)
  | codeGivenTwice
  | codeMissing
  | hex (e : HexText.Error)
  | format (e : UnknownFormat)
  /-- The compiler failed, in its own wording. -/
  | compiler (wording : String)
  | fault (e : Fault)
  /-- A picture is asked for, and there is nothing to draw it with. -/
  | noRenderer

/-- The wording of an error. -/
def CommandError.message : CommandError → String
  | flag e => e.message
  | file e => e.message
  | settings path e => s!"{path}, " ++ e.message
  | unknownTopic name => s!"No help topic for '{name}'"
  | codeGivenTwice => "--code and --file are mutually exclusive"
  | codeMissing => "one of --code or --file is required"
  | hex e => e.message
  | format e => e.message
  | compiler wording => wording
  | fault e => e.message
  | noRenderer => "dot not found in PATH; install graphviz or write a .dot file"

/-! ## Help -/

/-- The names of the command that gives help. -/
def helpNames : List String := ["help", "h"]

/-- What help can be asked about: the commands and the help itself. -/
def allTopics : List String := Command.all.map Command.name ++ helpNames

/-- Help on the topic that the first argument names, or on the program if there is none. -/
def topicHelp (topics args : List String) : Except CommandError String :=
  match args with
  | [] | "" :: _ => .ok usage
  | name :: _ => if topics.contains name then .ok usage else .error (.unknownTopic name)

/-- The options set by flags, whether help is asked for, and the arguments behind the flags. -/
def parseFlags {σ : Type} (flags : List (Flag σ)) (help : σ → HelpOptions) (options : σ)
    (args : List String) : Except CommandError (σ × Bool × List String) := do
  let (options, rest) ← (Flag.parse flags options args).mapError .flag
  let asked ← (help options).asked.mapError .flag
  return (options, asked, rest)

/-- The command that gives help, on one of the given topics. It has itself as a command, at most
`depth` times, where the only topic is the help itself. -/
def helpCommand : (depth : Nat) → (topics args : List String) → Except CommandError String
  | 0, topics, args => topicHelp topics args
  | depth + 1, topics, args => do
    let (_, asked, rest) ← parseFlags (helpFlags fun f o => f o) id {} args
    match rest with
    | name :: inner =>
      if !asked && helpNames.contains name then helpCommand depth helpNames inner
      else topicHelp topics rest
    | [] => topicHelp topics rest

/-! ## Running -/

/-- The extension of a file name: what follows the last point of its last part, with the point. -/
def extension (path : String) : String :=
  let last := path.toList.reverse.takeWhile (· ≠ '/')
  if last.contains '.' then String.ofList ('.' :: (last.takeWhile (· ≠ '.')).reverse) else ""

/-- Where a command runs: the files, the services of the compiler, and how many threads run at a
time. -/
structure Host (m : Type → Type) where
  files : FileStore m
  services : Services
  threads : Nat

section

variable {m : Type → Type} [Monad m] (host : Host m)

/-- Reads a file. -/
def readFile (path : String) : ExceptT CommandError m String := do
  match ← host.files.read path with
  | .ok content => return content
  | .error e => throw (.file e)

/-- Writes a file. -/
def writeFile (path content : String) : ExceptT CommandError m Unit := do
  match ← host.files.write path content with
  | .ok () => return ()
  | .error e => throw (.file e)

/-- An answer of the library, its error under `wrap`. -/
def lifted {ε α : Type} (wrap : ε → CommandError) (r : Except ε α) : ExceptT CommandError m α :=
  match r with
  | .ok a => return a
  | .error e => throw (wrap e)

/-- The code that the options give, as text or in a file. -/
def loadCode (o : CommandOptions) : ExceptT CommandError m (List UInt8) := do
  if o.code.isEmpty && o.file.isEmpty then throw .codeMissing
  else if o.file.isEmpty then lifted .hex (HexText.parse o.code)
  else if o.code.isEmpty then lifted .hex (HexText.parse (← readFile host o.file))
  else throw .codeGivenTwice

/-- The program of the code that the options give, by a compiler made for it. -/
def compileCode (s : Settings) (o : CommandOptions) : ExceptT CommandError m Program := do
  let code ← loadCode host o
  let c ← lifted (.compiler ∘ SetupError.message) (Compiler.new host.services s.compiler)
  let (c, result) := c.compile code
  let handle ← lifted (.compiler ∘ CompileError.message) result
  -- The default is never used: a handle that a compiler gives has a program.
  return c.programs.getD handle (Program.ofInstrs [])

/-- Draws the graph of a program, in a file if one is named. -/
def drawGraph (s : Settings) (o : CommandOptions) : ExceptT CommandError m String := do
  let format ← lifted .format (BlockFormat.parse o.format)
  let p ← compileCode host s o
  let drawing ← lifted .fault (p.dot format)
  if sameKeyword (extension o.out) ".svg" then throw .noRenderer
  else if o.out.isEmpty then return drawing
  else
    writeFile host o.out drawing
    return ""

/-- What a command prints. -/
def Command.run (s : Settings) (o : CommandOptions) : Command → ExceptT CommandError m String
  | ir => do lifted .fault (← compileCode host s o).listing
  | dot => drawGraph host s o
  | stats => do lifted .fault (← compileCode host s o).statsTable
  | disasm => do return disassemble (decode (← loadCode host o))
  | dumpconfig => return s.render

/-- The settings of a file in place of the defaults; no name means no file. -/
def loadSettings (path : String) : ExceptT CommandError m Settings := do
  let settings := Settings.standard host.threads
  if path.isEmpty then return settings
  else lifted (.settings path) (settings.load (← readFile host path))

/-- What a command prints when it is called with arguments. -/
def Command.call (c : Command) (s : Settings) (args : List String) :
    ExceptT CommandError m String := do
  let (options, asked, rest) ← lifted id (parseFlags c.flags CommandOptions.help {} args)
  if asked then return ← lifted id (topicHelp helpNames rest)
  match rest with
  | name :: inner =>
    if helpNames.contains name then lifted id (helpCommand inner.length helpNames inner)
    else c.run host (options.override s) options
  | [] => c.run host (options.override s) options

/-- What the program prints when it is called with arguments. -/
def runArguments (args : List String) : ExceptT CommandError m String := do
  let (globals, asked, rest) ← lifted id (parseFlags GlobalOptions.flags GlobalOptions.help {} args)
  if asked then return ← lifted id (topicHelp allTopics rest)
  let settings := globals.override (← loadSettings host globals.config)
  match rest with
  | [] => return usage
  | name :: inner =>
    if helpNames.contains name then lifted id (helpCommand inner.length allTopics inner)
    else match Command.ofName? name with
      | some command => command.call host settings inner
      | none => lifted id (topicHelp allTopics rest)

end

end EvmFlow
