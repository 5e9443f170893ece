import EvmFlow.Compiler.Services
import EvmFlow.Optimize

/-!
# The compiler

The compiler turns code into programs and keeps the recent ones by the hashes of their codes, so
that the same code gives the very same program again. Programs are known by handles that count the
programs built. The codes of a list are compiled by workers, one job for each code; a job looks its
code up, and on a miss builds the program and takes it in. Between the two steps others may do
theirs.

* `CompilerSettings`: the settings, their defaults, and how unusable ones are replaced;
* `SetupError`, `CompileError`, `ContractError`: what can go wrong, and the wording;
* `Compiler`, `Compiler.new`: the state;
* `Compiler.compile`: the program of one code;
* `Job`, `Compiler.advance`, `Compiler.complete`: a job, one step of it, and what is left of it;
* `Batch`, `Move`, `Compiler.work`: the jobs of a list under a schedule, which says whose
  step is next;
* `Compiler.compileAll`: the programs of several codes;
* `Compiler.forget`, `Compiler.release`: drops a code from the cache; ends the compilation of lists.
-/

namespace EvmFlow

/-! ## Settings -/

/-- The settings of a compiler: how many programs it keeps, how many it builds at a time, and
whether it optimises them. -/
structure CompilerSettings where
  cacheSize : Int
  workers : Int
  optimize : Bool
deriving DecidableEq

/-- The default settings on a machine with a number of processors. -/
def CompilerSettings.standard (processors : Nat) : CompilerSettings where
  cacheSize := 1024
  workers := processors
  optimize := true

/-- Replaces sizes that are not positive by the defaults. -/
def CompilerSettings.sanitized (processors : Nat) (s : CompilerSettings) : CompilerSettings :=
  { s with
    cacheSize := if s.cacheSize ≤ 0 then (standard processors).cacheSize else s.cacheSize
    workers := if s.workers ≤ 0 then (standard processors).workers else s.workers }

/-! ## Errors -/

/-- Why there is no compiler: there is no pool for it. -/
structure SetupError (s : Services) where
  reason : s.workers.Error

/-- The wording of a failure. -/
def SetupError.message {s : Services} (e : SetupError s) : String :=
  "create worker pool: " ++ s.workers.message e.reason

/-- Why a code has no program. -/
inductive CompileError (s : Services) where
  /-- The code of a hash cannot be built. -/
  | build (hash : s.Hash) (e : PassError)
  /-- The code of a hash cannot be optimised. -/
  | optimize (hash : s.Hash) (e : PassError)
  /-- The compiler was released. -/
  | released
  /-- The pool did not take the job. -/
  | refused (e : s.workers.Error)

/-- The wording of a failure. -/
def CompileError.message {s : Services} : CompileError s → String
  | build hash e => s!"build {s.hex hash}: " ++ e.message
  | optimize hash e => s!"optimize {s.hex hash}: " ++ e.message
  | released => "compiler released"
  | refused e => s.workers.message e

/-- What a compiler makes of the error of a pool. -/
def CompileError.ofPool {s : Services} (e : s.workers.Error) : CompileError s :=
  if s.workers.isClosed e then released else refused e

/-- The contract of a list that has no program, by its position, and why it has none. -/
structure ContractError (s : Services) where
  contract : Nat
  reason : CompileError s

/-- The wording of a failure. -/
def ContractError.message {s : Services} (e : ContractError s) : String :=
  s!"contract {e.contract}: " ++ e.reason.message

/-! ## One code -/

/-- The settings, the programs built so far, the cache of their handles and the pool of workers. -/
structure Compiler (s : Services) where
  settings : CompilerSettings
  programs : Array Program := #[]
  cache : s.map.Entries
  pool : s.workers.Pool

namespace Compiler

/-- A compiler with an empty cache and a pool of its own. -/
def new (s : Services) (settings : CompilerSettings) : Except (SetupError s) (Compiler s) := do
  let settings := settings.sanitized s.processors
  let pool ← (s.workers.new settings.workers).mapError SetupError.mk
  return { settings, cache := s.map.new settings.cacheSize, pool }

variable {s : Services}

/-- The handle of the cached program of a code. -/
def find (c : Compiler s) (code : List UInt8) : Option Nat × Compiler s :=
  let (handle?, cache) := s.map.get c.cache (s.hash code)
  (handle?, { c with cache })

/-- The program of a code, made without the cache. -/
def build (c : Compiler s) (code : List UInt8) : Except (CompileError s) Program := do
  let p ← (Program.ofInstrs? (decode code)).mapError (.build (s.hash code))
  if c.settings.optimize then
    let (q, result) := p.optimize
    result.mapError (.optimize (s.hash code))
    return q
  else
    return p

/-- Takes in the program of a code. -/
def add (c : Compiler s) (code : List UInt8) (p : Program) : Nat × Compiler s :=
  let handle := c.programs.size
  (handle, { c with
    programs := c.programs.push p
    cache := s.map.add c.cache (s.hash code) handle })

/-- Builds the program of a code and takes it in. -/
def supply (c : Compiler s) (code : List UInt8) : Compiler s × Except (CompileError s) Nat :=
  match c.build code with
  | .ok p => ((c.add code p).2, .ok (c.add code p).1)
  | .error e => (c, .error e)

/-- The program of a code, built if it is not in the cache. -/
def compile (c : Compiler s) (code : List UInt8) : Compiler s × Except (CompileError s) Nat :=
  match c.find code with
  | (some handle, c) => (c, .ok handle)
  | (none, c) => c.supply code

/-- Drops the program of a code from the cache. -/
def forget (c : Compiler s) (code : List UInt8) : Compiler s :=
  { c with cache := s.map.remove c.cache (s.hash code) }

/-- Ends the compilation of lists; single codes are still compiled. -/
def release (c : Compiler s) : Compiler s := { c with pool := s.workers.release c.pool }

/-- The number of programs in the cache. -/
def cached (c : Compiler s) : Nat := s.map.size c.cache

end Compiler

/-! ## Jobs -/

/-- How far a job has come: it has not looked its code up, it missed, or it is over. -/
inductive Job.Stage (s : Services) where
  | waiting
  | missed
  | finished (result : Except (CompileError s) Nat)

/-- The compilation of one code of a list. -/
structure Job (s : Services) where
  code : List UInt8
  stage : Job.Stage s := .waiting

/-- The jobs of a list: the codes that are still to be submitted, and the jobs of the others. -/
structure Batch (s : Services) where
  pending : List (List UInt8)
  jobs : List (Job s) := []

/-- What can happen next while a list is compiled: the next code is submitted, or the job at a
position takes a step. -/
inductive Move where
  | submit
  | step (i : Nat)
deriving DecidableEq

namespace Compiler

variable {s : Services}

/-- One step of a job: it looks its code up, or after a miss builds the program and takes it in. -/
def advance (c : Compiler s) (job : Job s) : Compiler s × Job s :=
  match job.stage with
  | .waiting =>
    match c.find job.code with
    | (some handle, c) => (c, { job with stage := .finished (.ok handle) })
    | (none, c) => (c, { job with stage := .missed })
  | .missed => ((c.supply job.code).1, { job with stage := .finished (c.supply job.code).2 })
  | .finished _ => (c, job)

/-- What is left of a job. -/
def complete (c : Compiler s) (job : Job s) : Compiler s × Except (CompileError s) Nat :=
  match job.stage with
  | .waiting => c.compile job.code
  | .missed => c.supply job.code
  | .finished result => (c, result)

/-- Submits the next code. If the pool refuses it, its job is over and no other is submitted. -/
def submit (c : Compiler s) (b : Batch s) : Compiler s × Batch s :=
  match b.pending with
  | [] => (c, b)
  | code :: rest =>
    match s.workers.submit c.pool with
    | (.ok (), pool) => ({ c with pool }, { pending := rest, jobs := b.jobs ++ [{ code }] })
    | (.error e, pool) => ({ c with pool }, {
        pending := []
        jobs := b.jobs ++ [{ code, stage := .finished (.error (.ofPool e)) }] })

/-- One step of the job at a position, if there is one. -/
def step (c : Compiler s) (b : Batch s) (i : Nat) : Compiler s × Batch s :=
  match b.jobs[i]? with
  | some job => ((c.advance job).1, { b with jobs := b.jobs.set i (c.advance job).2 })
  | none => (c, b)

/-- One move. -/
def move (x : Compiler s × Batch s) : Move → Compiler s × Batch s
  | .submit => x.1.submit x.2
  | .step i => x.1.step x.2 i

/-- The jobs of a list of codes under a schedule. -/
def work (c : Compiler s) (codes : List (List UInt8)) (schedule : List Move) :
    Compiler s × Batch s :=
  schedule.foldl move (c, { pending := codes })

/-- What is left of jobs, one after the other. -/
def completeAll (c : Compiler s) :
    List (Job s) → Compiler s × List (Except (CompileError s) Nat)
  | [] => (c, [])
  | job :: jobs =>
    let (c, result) := c.complete job
    let (c, results) := c.completeAll jobs
    (c, result :: results)

/-- The handles of the contracts of a list, the first of which has position `i`, or the first
failure. -/
def collect (i : Nat) :
    List (Except (CompileError s) Nat) → Except (ContractError s) (List Nat)
  | [] => .ok []
  | .ok handle :: results => (collect (i + 1) results).map (handle :: ·)
  | .error reason :: _ => .error { contract := i, reason }

/-- The programs of several codes, in their order, where the moves come by a schedule. What it
leaves unsubmitted is submitted, and the jobs that it leaves unfinished are finished. -/
def compileAll (c : Compiler s) (schedule : List Move) (codes : List (List UInt8)) :
    Compiler s × Except (ContractError s) (List Nat) :=
  let (c, b) := c.work codes (schedule ++ List.replicate codes.length .submit)
  let (c, results) := c.completeAll b.jobs
  (c, collect 0 results)

end Compiler

end EvmFlow
