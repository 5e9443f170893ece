import EvmFlow.Pass.DeadCode
import EvmFlow.Pass.Lift
import EvmFlow.Program.Build

/-!
# Optimisation

* `Program.optimize`: dead code elimination, lifting, and dead code elimination again;
* `Program.ofInstrs?`: the program of an instruction list.
-/

namespace EvmFlow.Program

/-- Removes dead code, lifts, and removes the code that lifting left dead. The program is the result
of the passes that succeeded. -/
def optimize (p : Program) : Program × Except PassError Unit :=
  p.runAll [.deadCode, .lift, .deadCode]

/-- The program of an instruction list, with a failure reported as one of the stage `build`. -/
def ofInstrs? (instrs : List Instr) : Except PassError Program :=
  (build instrs).mapError fun f => ⟨"build", .fault f⟩

end EvmFlow.Program
