import EvmFlow.Change
import Mathlib.Data.List.Forall2
import Mathlib.Tactic.Common

/-!
# Computations that can fail

What a computation in several steps that succeeded, or cannot fail, does in each of its steps.

* `bind_eq_ok`, `exists_bind`: two steps in turn, and `mapError_eq_ok`: errors told in other words;
* `foldlM_ok`: what every successful step keeps, a successful fold keeps;
* `exists_foldlM`: if every step succeeds, so does the fold;
* `mapM_eq_ok`, `exists_mapM`: the results of a map, element by element, and
  `exists_of_mem_forall₂`: each element of one list has its partner in the other;
* `exists_of_mem_mapM`, `exists_mem_of_mapM`: where the results of a map come from, and that each
  element has one, and `exists_mapM_of_sublist`: a map over fewer elements;
* `forM_eq_ok`: a check of all elements;
* `Change.outcome_bind` and the like: what each way to make a change out of others leaves, and
  `Change.apply_eq_ok`: the changes that succeed.
-/

namespace EvmFlow

variable {ε α β σ : Type} {f : σ → α → Except ε σ} {P : σ → Prop}

theorem bind_eq_ok {x : Except ε α} {g : α → Except ε β} {b : β} :
    (x >>= g) = .ok b ↔ ∃ a, x = .ok a ∧ g a = .ok b := by
  cases x with
  | error e =>
    constructor
    · intro h
      cases h
    · rintro ⟨a, h, -⟩
      cases h
  | ok a => exact ⟨fun h => ⟨a, rfl, h⟩, fun ⟨_, h, hg⟩ => by cases h; exact hg⟩

theorem exists_bind {x : Except ε α} {g : α → Except ε β} (hx : ∃ a, x = .ok a)
    (hg : ∀ a, ∃ b, g a = .ok b) : ∃ b, (x >>= g) = .ok b := by
  obtain ⟨a, ha⟩ := hx
  obtain ⟨b, hb⟩ := hg a
  exact ⟨b, bind_eq_ok.mpr ⟨a, ha, hb⟩⟩

theorem mapError_eq_ok {δ : Type} {x : Except ε α} {g : ε → δ} {a : α} :
    x.mapError g = .ok a ↔ x = .ok a := by
  cases x <;> simp [Except.mapError]

theorem toOption_eq_some {x : Except ε α} {a : α} : x.toOption = some a ↔ x = .ok a := by
  cases x <;> simp [Except.toOption]

theorem foldlM_ok {l : List α} (hstep : ∀ a ∈ l, ∀ s s', P s → f s a = .ok s' → P s') {s s' : σ}
    (hs : P s) (h : l.foldlM f s = .ok s') : P s' := by
  induction l generalizing s with
  | nil =>
    cases h
    exact hs
  | cons a l ih =>
    rw [List.foldlM_cons] at h
    obtain ⟨s₁, hs₁, hrest⟩ := bind_eq_ok.mp h
    exact ih (fun b hb => hstep b (List.mem_cons_of_mem _ hb))
      (hstep a List.mem_cons_self s s₁ hs hs₁) hrest

theorem exists_foldlM {l : List α} (hstep : ∀ a ∈ l, ∀ s, P s → ∃ s', f s a = .ok s' ∧ P s')
    {s : σ} (hs : P s) : ∃ s', l.foldlM f s = .ok s' ∧ P s' := by
  induction l generalizing s with
  | nil => exact ⟨s, rfl, hs⟩
  | cons a l ih =>
    obtain ⟨s₁, hs₁, h₁⟩ := hstep a List.mem_cons_self s hs
    obtain ⟨s₂, hs₂, h₂⟩ := ih (fun b hb => hstep b (List.mem_cons_of_mem _ hb)) h₁
    refine ⟨s₂, ?_, h₂⟩
    rw [List.foldlM_cons, hs₁]
    exact hs₂

theorem mapM_eq_ok {g : α → Except ε β} {l : List α} {r : List β} :
    l.mapM g = .ok r ↔ List.Forall₂ (fun a b => g a = .ok b) l r := by
  induction l generalizing r with
  | nil =>
    rw [List.forall₂_nil_left_iff]
    exact ⟨fun h => (Except.ok.inj h).symm, fun h => congrArg Except.ok h.symm⟩
  | cons a l ih =>
    simp only [List.mapM_cons, bind_eq_ok, ih, List.forall₂_cons_left_iff]
    constructor
    · rintro ⟨b, hb, rest, hrest, h⟩
      exact ⟨b, rest, hb, hrest, (Except.ok.inj h).symm⟩
    · rintro ⟨b, rest, hb, hrest, rfl⟩
      exact ⟨b, hb, rest, hrest, rfl⟩

theorem exists_mapM {g : α → Except ε β} {l : List α} (h : ∀ a ∈ l, ∃ b, g a = .ok b) :
    ∃ r, l.mapM g = .ok r := by
  induction l with
  | nil => exact ⟨[], rfl⟩
  | cons a l ih =>
    obtain ⟨ha, hl⟩ := List.forall_mem_cons.mp h
    rw [List.mapM_cons]
    exact exists_bind ha fun b => exists_bind (ih hl) fun rest => ⟨b :: rest, rfl⟩

theorem exists_of_mem_forall₂ {R : α → β → Prop} {l : List α} {r : List β} (h : List.Forall₂ R l r)
    {b : β} (hb : b ∈ r) : ∃ a ∈ l, R a b := by
  induction h with
  | nil => cases hb
  | @cons a c l r hac _ ih =>
    rcases List.mem_cons.mp hb with rfl | hb
    · exact ⟨a, List.mem_cons_self, hac⟩
    · obtain ⟨a', ha', hab⟩ := ih hb
      exact ⟨a', List.mem_cons_of_mem a ha', hab⟩

theorem exists_of_mem_mapM {g : α → Except ε β} {l : List α} {r : List β} (h : l.mapM g = .ok r)
    {b : β} (hb : b ∈ r) : ∃ a ∈ l, g a = .ok b :=
  exists_of_mem_forall₂ (mapM_eq_ok.mp h) hb

theorem exists_mem_of_mapM {g : α → Except ε β} {l : List α} {r : List β} (h : l.mapM g = .ok r)
    {a : α} (ha : a ∈ l) : ∃ b ∈ r, g a = .ok b :=
  exists_of_mem_forall₂ (List.Forall₂.flip (R := fun b a => g a = .ok b) (mapM_eq_ok.mp h)) ha

/-- The results of some of the elements are some of the results, in the same order. -/
theorem exists_mapM_of_sublist {g g' : α → Except ε β} {l l' : List α} {r : List β}
    (hsub : l'.Sublist l) (hg : ∀ a ∈ l', g' a = g a) (h : l.mapM g = .ok r) :
    ∃ r', l'.mapM g' = .ok r' ∧ r'.Sublist r := by
  induction hsub generalizing r with
  | slnil => exact ⟨r, h, .refl r⟩
  | cons a hsub ih =>
    rw [List.mapM_cons] at h
    obtain ⟨b, -, h⟩ := bind_eq_ok.mp h
    obtain ⟨rest, hrest, h⟩ := bind_eq_ok.mp h
    cases h
    obtain ⟨r', hr', hsub'⟩ := ih hg hrest
    exact ⟨r', hr', hsub'.cons b⟩
  | cons_cons a hsub ih =>
    rw [List.mapM_cons] at h
    obtain ⟨b, hb, h⟩ := bind_eq_ok.mp h
    obtain ⟨rest, hrest, h⟩ := bind_eq_ok.mp h
    cases h
    obtain ⟨ha, hg⟩ := List.forall_mem_cons.mp hg
    obtain ⟨r', hr', hsub'⟩ := ih hg hrest
    refine ⟨b :: r', ?_, hsub'.cons_cons b⟩
    rw [List.mapM_cons]
    exact bind_eq_ok.mpr ⟨b, ha.trans hb, bind_eq_ok.mpr ⟨r', hr', rfl⟩⟩

theorem forM_eq_ok {g : α → Except ε Unit} {l : List α} :
    l.forM g = .ok () ↔ ∀ a ∈ l, g a = .ok () := by
  induction l with
  | nil =>
    constructor
    · intro _ a ha
      cases ha
    · intro _
      rfl
  | cons a l ih =>
    change (g a >>= fun _ => l.forM g) = .ok () ↔ _
    rw [bind_eq_ok, List.forall_mem_cons, ← ih]
    exact ⟨fun ⟨_, ha, hl⟩ => ⟨ha, hl⟩, fun ⟨ha, hl⟩ => ⟨(), ha, hl⟩⟩

/-! ## Changes -/

namespace Change

variable {σ α β : Type} {c : Change σ α} {s s' : σ} {a : α}

theorem outcome_get (s : σ) : outcome (get : Change σ σ) s = (.ok s, s) := rfl

theorem outcome_modify (f : σ → σ) (s : σ) :
    outcome (modify f : Change σ PUnit) s = (.ok ⟨⟩, f s) := rfl

theorem outcome_bind (c : Change σ α) (k : α → Change σ β) (s : σ) :
    outcome (c >>= k) s = match outcome c s with
      | (.ok a, s) => outcome (k a) s
      | (.error f, s) => (.error f, s) := by
  unfold outcome ExceptT.run StateT.run
  simp only [bind, ExceptT.bind, ExceptT.mk, StateT.bind, ExceptT.bindCont]
  cases c s with
  | mk r s => cases r <;> rfl

theorem outcome_look (find : σ → Except Fault α) (s : σ) :
    outcome (look find) s = (find s, s) := by
  rw [look, outcome_bind, outcome_get]
  dsimp only
  cases find s <;> rfl

theorem apply_eq_ok : c.apply s = .ok (a, s') ↔ c.outcome s = (.ok a, s') := by
  unfold apply
  split
  · next b t h => simp [h]
  · next f t h => simp [h]

end Change

end EvmFlow
