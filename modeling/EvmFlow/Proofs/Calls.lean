import Mathlib.Tactic.Common

/-!
# Calls in turn

A state with calls: each call answers and changes the state. What one call keeps, a sequence of
calls keeps.

* `Calls.run`: the answers to calls made in turn, and the state they leave;
* `Calls.run_concat`: one more call;
* `Calls.run_induct`: a fact about the answers so far and the state, and `Calls.run_keeps`: one
  about the state alone;
* `Calls.run_simulation`: two states whose calls are answered alike.
-/

namespace EvmFlow.Calls

variable {σ τ κ α : Type} {step : σ → κ → α × σ} {step' : τ → κ → α × τ}

/-- The answers to calls made in turn, and the state they leave. -/
def run (step : σ → κ → α × σ) (s : σ) : List κ → List α × σ
  | [] => ([], s)
  | c :: calls =>
    let (a, s) := step s c
    let (answers, s) := run step s calls
    (a :: answers, s)

theorem run_concat (s : σ) (calls : List κ) (c : κ) : run step s (calls ++ [c]) =
    ((run step s calls).1 ++ [(step (run step s calls).2 c).1],
      (step (run step s calls).2 c).2) := by
  induction calls generalizing s with
  | nil => rfl
  | cons first calls ih => simp only [run, List.cons_append, ih]

theorem run_induct {P : List α → σ → Prop}
    (hstep : ∀ answers s c, P answers s → P (answers ++ [(step s c).1]) (step s c).2)
    (answers : List α) {s : σ} (h : P answers s) (calls : List κ) :
    P (answers ++ (run step s calls).1) (run step s calls).2 := by
  induction calls generalizing answers s with
  | nil =>
    rw [run, List.append_nil]
    exact h
  | cons c calls ih =>
    have hlater := ih _ (hstep answers s c h)
    rwa [List.append_assoc] at hlater

theorem run_keeps {P : σ → Prop} (hstep : ∀ s c, P s → P (step s c).2) {s : σ} (h : P s)
    (calls : List κ) : P (run step s calls).2 :=
  run_induct (P := fun _ s => P s) (fun _ s c => hstep s c) [] h calls

theorem run_simulation {R : σ → τ → Prop}
    (hstep : ∀ s t c, R s t → (step s c).1 = (step' t c).1 ∧ R (step s c).2 (step' t c).2)
    {s : σ} {t : τ} (h : R s t) (calls : List κ) :
    (run step s calls).1 = (run step' t calls).1 ∧
      R (run step s calls).2 (run step' t calls).2 := by
  induction calls generalizing s t with
  | nil => exact ⟨rfl, h⟩
  | cons c calls ih =>
    obtain ⟨hanswer, hnext⟩ := hstep s t c h
    obtain ⟨hanswers, hlast⟩ := ih hnext
    exact ⟨congr (congrArg List.cons hanswer) hanswers, hlast⟩

end EvmFlow.Calls
