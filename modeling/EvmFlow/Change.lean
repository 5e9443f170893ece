import EvmFlow.Fault

/-!
# Changes that can fail

A change works on a state step by step. When it meets a fault it stops there, and what it has
written before stays written.

* `Change`: changes of a state, with an answer;
* `Change.look`: a look-up in the state as it is;
* `Change.outcome`: the answer or the fault, and the state that is left;
* `Change.apply`: the answer and the new state, where a fault gives the state up.
-/

namespace EvmFlow

/-- A change of a state: it answers or meets a fault, and leaves a state in either case. -/
abbrev Change (σ α : Type) := ExceptT Fault (StateM σ) α

namespace Change

variable {σ α : Type}

/-- What a look-up finds in the state as it is. -/
def look (find : σ → Except Fault α) : Change σ α := do MonadExcept.ofExcept (find (← get))

/-- The answer of a change, or its fault, and the state that it leaves. -/
def outcome (c : Change σ α) (s : σ) : Except Fault α × σ := StateT.run (ExceptT.run c) s

/-- The answer of a change and the new state; a fault gives the state up. -/
def apply (c : Change σ α) (s : σ) : Except Fault (α × σ) :=
  match c.outcome s with
  | (.ok a, s) => .ok (a, s)
  | (.error f, _) => .error f

end Change

end EvmFlow
