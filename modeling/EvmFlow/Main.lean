import EvmFlow.Command
import EvmFlow.Compiler.Standard

/-!
# The program

Runs a command on the machine, with its files and its processors: prints what it answers, or reports
what went wrong.
-/

namespace EvmFlow

/-- Why an operation on a file of the machine failed. -/
def problemOf : IO.Error → FileProblem
  | .noFileOrDirectory .. => .missing
  | .inappropriateType .. => .isFolder
  | .permissionDenied .. => .stated "permission denied"
  | e => .stated (toString e)

/-- An attempt on a file of the machine. -/
def attempt {α : Type} (path : String) (run : IO α) : IO (Except FileError α) := do
  match ← run.toBaseIO with
  | .ok a => return .ok a
  | .error e => return .error ⟨"open", path, problemOf e⟩

/-- The files of the machine. -/
def machineFiles : FileStore IO where
  read path := attempt path (IO.FS.readFile path)
  write path content := attempt path (IO.FS.writeFile path content)

/-- The number of processors of the machine, or one if it does not say. -/
def machineProcessors : IO Nat := do
  match ← attempt "/proc/cpuinfo" (IO.FS.lines "/proc/cpuinfo") with
  | .ok lines => return max 1 (lines.filter (·.startsWith "processor")).size
  | .error _ => return 1

/-- The machine that the program runs on, with a number of processors. -/
def machine (processors : Nat) : Host IO where
  files := machineFiles
  services := .standard processors
  threads := processors

end EvmFlow

/-- Runs the command that the arguments name. -/
def main (args : List String) : IO UInt32 := do
  let processors ← EvmFlow.machineProcessors
  match ← (EvmFlow.runArguments (EvmFlow.machine processors) args).run with
  | .ok text =>
    IO.print text
    return 0
  | .error e =>
    IO.eprintln ("taccfg: " ++ e.message)
    return 1
