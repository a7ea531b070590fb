-- Parties that act on one state, one action at a time and in any order: an
-- interleaving is a list of actions, and an action that is not possible changes
-- nothing.
import Mathlib

namespace Tapa.Interleaving

variable {σ α : Type}

section

variable (step : σ → α → σ) (s : σ)

/-- The state after an interleaving. -/
def run (actions : List α) : σ := actions.foldl step s

@[simp] theorem run_nil : run step s [] = s := rfl

@[simp] theorem run_cons (a : α) (actions : List α) :
    run step s (a :: actions) = run step (step s a) actions := rfl

theorem run_append (xs ys : List α) : run step s (xs ++ ys) = run step (run step s xs) ys := by
  simp [run]

/-- What every action keeps holds after every interleaving. -/
theorem run_invariant {step : σ → α → σ} {P : σ → Prop} (hstep : ∀ s a, P s → P (step s a))
    {s : σ} (hs : P s) (actions : List α) : P (run step s actions) := by
  induction actions generalizing s with
  | nil => exact hs
  | cons a actions ih => exact ih (hstep s a hs)

/-- An invariant that every action keeps within bounds holds as long as the run is
within them, where no action leads back into them. -/
theorem run_invariant_within {step : σ → α → σ} {P B : σ → Prop}
    (hback : ∀ s a, B (step s a) → B s) (hstep : ∀ s a, B (step s a) → P s → P (step s a))
    {s : σ} (hs : P s) (actions : List α) (hb : B (run step s actions)) :
    P (run step s actions) := by
  induction actions using List.reverseRecOn with
  | nil => exact hs
  | append_singleton actions a ih =>
    rw [run_append, run_cons] at hb ⊢
    exact hstep _ a hb (ih (hback _ a hb))

/-- Every action of an interleaving meets a condition on the state before it. -/
def Along (C : σ → α → Prop) : σ → List α → Prop
  | _, [] => True
  | s, a :: actions => C s a ∧ Along C (step s a) actions

instance Along.decide {C : σ → α → Prop} [∀ s a, Decidable (C s a)] :
    ∀ s actions, Decidable (Along step C s actions)
  | _, [] => .isTrue trivial
  | s, a :: actions => @instDecidableAnd _ _ _ (Along.decide (step s a) actions)

theorem along_append {C : σ → α → Prop} {xs ys : List α} : Along step C s (xs ++ ys) ↔
    Along step C s xs ∧ Along step C (run step s xs) ys := by
  induction xs generalizing s with
  | nil => simp [Along]
  | cons a xs ih => simp only [List.cons_append, Along, run_cons, ih, and_assoc]

/-- What every action keeps under the condition holds after every interleaving along which
it is met. -/
theorem run_invariant_along {step : σ → α → σ} {C : σ → α → Prop} {P : σ → Prop}
    (hstep : ∀ s a, C s a → P s → P (step s a)) {s : σ} (hs : P s) {actions : List α}
    (h : Along step C s actions) : P (run step s actions) := by
  induction actions generalizing s with
  | nil => exact hs
  | cons a actions ih => exact ih (hstep s a h.1 hs) h.2

/-- Some interleaving leads from one state to the other. -/
def Reaches (step : σ → α → σ) (s t : σ) : Prop := ∃ actions, run step s actions = t

theorem Reaches.refl : Reaches step s s := ⟨[], rfl⟩

end

theorem Reaches.trans {step : σ → α → σ} {s t u : σ} (h : Reaches step s t)
    (h' : Reaches step t u) : Reaches step s u := by
  obtain ⟨xs, rfl⟩ := h
  obtain ⟨ys, rfl⟩ := h'
  exact ⟨xs ++ ys, run_append step s xs ys⟩

end Tapa.Interleaving
