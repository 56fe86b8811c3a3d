/-
# Brindle.Lib.Lockstep — two machines that cannot be told apart.

A machine takes actions one after another and shows an output for each; it may fault. Two machines
that, from related states, fault alike or show the same output and land in related states again,
show the same outputs on every sequence of actions. The side condition is asked of one of the two
machines only, in the states that one passes through.
-/
import Brindle.Lib.Run

namespace Lockstep

open Run (Along After)

variable {ε σ τ α ω : Type}

/-- What a machine shows, action by action. -/
def outputs (step : σ → α → Outcome ε (σ × ω)) : σ → List α → Outcome ε (List ω)
  | _, [] => .ok []
  | s, a :: rest => do
    let (s, o) ← step s a
    let os ← outputs step s rest
    return o :: os

/-- The state a machine goes to. -/
def next (step : σ → α → Outcome ε (σ × ω)) (s : σ) (a : α) : Outcome ε σ := do
  let (s, _) ← step s a
  return s

/-- The same fault, or the same output and related states. -/
def Matches (R : σ → τ → Prop) : Outcome ε (σ × ω) → Outcome ε (τ × ω) → Prop
  | .ok (s, o), .ok (t, o') => R s t ∧ o = o'
  | .error e, .error e' => e = e'
  | _, _ => False

theorem outputs_eq {R : σ → τ → Prop} {C : σ → α → Prop} {f : σ → α → Outcome ε (σ × ω)}
    {g : τ → α → Outcome ε (τ × ω)}
    (hstep : ∀ s t a, R s t → C s a → Matches R (f s a) (g t a)) {s : σ} {t : τ} (h : R s t)
    {actions : List α} (hC : Along (next f) C s actions) :
    outputs f s actions = outputs g t actions := by
  induction actions generalizing s t with
  | nil => rfl
  | cons a rest ih =>
    have hm := hstep s t a h hC.1
    have hrest := hC.2
    unfold outputs
    unfold next at hrest
    cases hf : f s a with
    | error e =>
      cases hg : g t a with
      | error e' =>
        rw [hf, hg] at hm
        exact congrArg Except.error hm
      | ok r => rw [hf, hg] at hm; exact hm.elim
    | ok r =>
      cases hg : g t a with
      | error e => rw [hf, hg] at hm; exact hm.elim
      | ok r' =>
        rw [hf, hg] at hm
        rw [hf] at hrest
        obtain ⟨hR, ho⟩ := hm
        simp only [Outcome.ok_bind, ih hR hrest, ho]

end Lockstep
