import EvmFlow.Program

/-!
# Passes

A pass changes a program and counts its changes. It is run on a copy: the result is taken over only
if the pass succeeds and leaves a consistent program.

* `Pass`: a named change of programs;
* `PassError`: which pass failed and why, and the wording (`PassError.message`);
* `Program.run`: runs a pass;
* `Program.runAll`: runs passes one after another, up to the first that fails.
-/

namespace EvmFlow

/-- Why a pass failed: a structural error, or a text of its own. -/
inductive Cause where
  | fault (f : Fault)
  | stated (text : String)
deriving DecidableEq

/-- The wording of a cause. -/
def Cause.message : Cause → String
  | fault f => f.message
  | stated text => text

/-- A named change of programs, which also counts its changes. -/
structure Pass where
  name : String
  apply : Program → Except Cause (Int × Program)

/-- The pass of a change that can only fail structurally. -/
def Pass.ofFaulty (name : String) (f : Program → Except Fault (Int × Program)) : Pass :=
  ⟨name, fun p => (f p).mapError .fault⟩

/-- The failure of a stage of work on a program. -/
structure PassError where
  stage : String
  cause : Cause
deriving DecidableEq

/-- The wording of a failure. -/
def PassError.message (e : PassError) : String :=
  e.stage ++ ": " ++ e.cause.message ++ ": ir invariant violated"

namespace Program

/-- Runs a pass on a program. The result is consistent and counts the changes. -/
def run (p : Program) (pass : Pass) : Except PassError Program :=
  match pass.apply p with
  | .error c => .error ⟨pass.name, c⟩
  | .ok (changes, q) =>
    match q.verify with
    | .error f => .error ⟨pass.name, .fault f⟩
    | .ok () => .ok { q with tally := q.tally.add pass.name changes }

/-- Runs passes in turn. The program is the result of the passes before the first failure. -/
def runAll (p : Program) : List Pass → Program × Except PassError Unit
  | [] => (p, .ok ())
  | pass :: rest =>
    match p.run pass with
    | .ok q => q.runAll rest
    | .error e => (p, .error e)

end Program

end EvmFlow
