import Mathlib.Tactic.Ring

/-!
# Machines that answer

Operations are performed one after the other on a state, and every operation gives an answer.
Two machines whose steps keep a relation between their states, and answer alike from related
states, cannot be told apart by any sequence of operations.
-/

namespace Vsos.Lib

variable {κ σ τ α : Type}

/-- What the operations of a sequence answer, one after the other. -/
def answers (step : κ → σ → α × σ) : List κ → σ → List α
  | [], _ => []
  | op :: ops, s => (step op s).1 :: answers step ops (step op s).2

/-- Steps from related states answer alike and lead to related states. -/
def Simulates (step : κ → σ → α × σ) (step' : κ → τ → α × τ) (R : σ → τ → Prop) : Prop :=
  ∀ op s t, R s t → (step op s).1 = (step' op t).1 ∧ R (step op s).2 (step' op t).2

/-- Related states answer every sequence of operations alike. -/
theorem Simulates.answers_eq {step : κ → σ → α × σ} {step' : κ → τ → α × τ} {R : σ → τ → Prop}
    (hsim : Simulates step step' R) (ops : List κ) {s : σ} {t : τ} (h : R s t) :
    answers step ops s = answers step' ops t := by
  induction ops generalizing s t with
  | nil => rfl
  | cons op ops ih =>
    obtain ⟨hanswer, hnext⟩ := hsim op s t h
    rw [answers, answers, hanswer, ih hnext]

end Vsos.Lib
