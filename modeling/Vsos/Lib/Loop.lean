import Mathlib.Data.Finset.Basic
import Mathlib.Tactic.Ring

/-!
# Loops with an early exit

A loop body either passes its state on to the next round or leaves the loop with a result.
Over a list of rounds that is a fold which can stop. A loop counted by an 8-bit variable
never reaches a bound of 256 or more: its counter wraps and the rounds start over, so it
is given a budget, and a bound below 256 makes it the plain fold.
-/

namespace Vsos.Lib

variable {ι κ τ ρ : Type} {body : ι → τ → τ ⊕ ρ} {xs : List ι} {fuel j : ℕ} {st : τ}

/-- Run the rounds in order until one of them leaves. -/
def foldStop (body : ι → τ → τ ⊕ ρ) : List ι → τ → τ ⊕ ρ
  | [], st => .inl st
  | j :: rest, st =>
    match body j st with
    | .inl st' => foldStop body rest st'
    | .inr r => .inr r

/-- `for (uint8_t j = start; j < bound; j++)`, within a budget of rounds. -/
def loop8 (bound : ℕ) (body : ℕ → τ → τ ⊕ ρ) : ℕ → ℕ → τ → Option (τ ⊕ ρ)
  | 0, _, _ => none
  | fuel + 1, j, st =>
    if j < bound then
      match body j st with
      | .inl st' => loop8 bound body fuel ((j + 1) % 256) st'
      | .inr r => some (.inr r)
    else some (.inl st)

/-- Rounds that only pass the state on compose. -/
theorem foldStop_append (xs ys : List ι) (st : τ) :
    foldStop body (xs ++ ys) st =
      match foldStop body xs st with
      | .inl st' => foldStop body ys st'
      | .inr r => .inr r := by
  induction xs generalizing st with
  | nil => rfl
  | cons j rest ih =>
    simp only [List.cons_append, foldStop]
    cases body j st with
    | inl st' => exact ih st'
    | inr r => rfl

/-- The fold only looks at the rounds of its list. -/
theorem foldStop_congr {body' : ι → τ → τ ⊕ ρ} (h : ∀ j ∈ xs, ∀ st, body j st = body' j st)
    (st : τ) :
    foldStop body xs st = foldStop body' xs st := by
  induction xs generalizing st with
  | nil => rfl
  | cons j rest ih =>
    simp only [foldStop, h j List.mem_cons_self]
    cases body' j st with
    | inl st' => exact ih (fun k hk => h k (List.mem_cons_of_mem _ hk)) st'
    | inr r => rfl

/-- Renaming the rounds moves into the body. -/
theorem foldStop_map (f : κ → ι) (xs : List κ) (st : τ) :
    foldStop body (xs.map f) st = foldStop (fun k => body (f k)) xs st := by
  induction xs generalizing st with
  | nil => rfl
  | cons k rest ih =>
    simp only [List.map_cons, foldStop]
    cases body (f k) st with
    | inl st' => exact ih st'
    | inr r => rfl

/-- A map of the states that commutes with each round commutes with the fold. -/
theorem foldStop_hom {τ' ρ' : Type} {body' : ι → τ' → τ' ⊕ ρ'} (f : τ → τ') (g : ρ → ρ')
    (h : ∀ j ∈ xs, ∀ st, body' j (f st) = Sum.map f g (body j st)) (st : τ) :
    foldStop body' xs (f st) = Sum.map f g (foldStop body xs st) := by
  induction xs generalizing st with
  | nil => rfl
  | cons j rest ih =>
    simp only [foldStop, h j List.mem_cons_self]
    cases body j st with
    | inl st' => exact ih (fun k hk => h k (List.mem_cons_of_mem _ hk)) st'
    | inr r => rfl

/-- A fold leaves exactly if one of its rounds does, when this does not depend on the state. -/
theorem foldStop_isRight_iff {exits : ι → Prop}
    (h : ∀ j ∈ xs, ∀ st, (body j st).isRight = true ↔ exits j) (st : τ) :
    (foldStop body xs st).isRight = true ↔ ∃ j ∈ xs, exits j := by
  induction xs generalizing st with
  | nil => simp [foldStop]
  | cons j rest ih =>
    have hround := h j List.mem_cons_self st
    rw [foldStop]
    cases hbody : body j st with
    | inl st' =>
      have hstay : ¬ exits j := by simpa [hbody] using hround
      simpa [hstay] using ih (fun k hk => h k (List.mem_cons_of_mem _ hk)) st'
    | inr r =>
      have hexit : exits j := by simpa [hbody] using hround
      exact iff_of_true rfl ⟨j, List.mem_cons_self, hexit⟩

/-- An 8-bit counter with a small bound visits each round once. -/
theorem loop8_eq_foldStop {body : ℕ → τ → τ ⊕ ρ} {bound : ℕ} (hbound : bound < 256) (n j fuel : ℕ)
    (hn : j + n = bound) (hfuel : n < fuel) (st : τ) :
    loop8 bound body fuel j st = some (foldStop body (List.range' j n) st) := by
  induction n generalizing j fuel st with
  | zero =>
    obtain ⟨fuel, rfl⟩ := Nat.exists_eq_succ_of_ne_zero (Nat.ne_of_gt hfuel)
    simp [loop8, foldStop, show ¬ j < bound by omega]
  | succ n ih =>
    obtain ⟨fuel, rfl⟩ := Nat.exists_eq_succ_of_ne_zero (show fuel ≠ 0 by omega)
    simp only [loop8, show j < bound by omega, if_true, List.range'_succ, foldStop]
    cases body j st with
    | inr r => rfl
    | inl st' =>
      rw [Nat.mod_eq_of_lt (by omega)]
      exact ih (j + 1) fuel (by omega) (by omega) st'

section Exits

variable {body : ℕ → τ → τ ⊕ ρ} {bound : ℕ} {exits : ℕ → Prop}
  (h : ∀ j st, (body j st).isRight = true ↔ exits j)
include h

/-- A loop that comes to a round which leaves, before its counter wraps. -/
theorem loop8_of_exit (hbound : j < bound) (hwrap : j < 256) (hexit : exits j) {i : ℕ} (hi : i ≤ j)
    (hfuel : j < i + fuel) (st : τ) :
    ∃ r, loop8 bound body fuel i st = some (.inr r) := by
  induction fuel generalizing i st with
  | zero => omega
  | succ fuel ih =>
    rw [loop8, if_pos (by omega)]
    cases hbody : body i st with
    | inr r => exact ⟨r, rfl⟩
    | inl st' =>
      have hne : i ≠ j := by
        rintro rfl
        simpa [hbody] using (h i st).mpr hexit
      exact ih (by omega) (by omega) st'

/-- A loop without such a round ends if its counter reaches the bound, and never ends otherwise. -/
theorem loop8_of_not_exit (hstay : ∀ j < bound, j < 256 → ¬ exits j) (hfuel : bound < fuel)
    (st : τ) :
    (bound < 256 → ∃ st', loop8 bound body fuel 0 st = some (.inl st')) ∧
      (256 ≤ bound → loop8 bound body fuel 0 st = none) := by
  constructor
  · intro hbound
    rw [loop8_eq_foldStop hbound bound 0 fuel (Nat.zero_add _) hfuel]
    have hright : (foldStop body (List.range' 0 bound) st).isRight = true ↔ ∃ j ∈ List.range' 0 bound, exits j :=
      foldStop_isRight_iff (fun j _ st => h j st) st
    cases hfold : foldStop body (List.range' 0 bound) st with
    | inl st' => exact ⟨st', rfl⟩
    | inr r =>
      obtain ⟨j, hj, hexit⟩ := hright.mp (by rw [hfold]; rfl)
      have hj := (List.mem_range'_1.mp hj).2
      exact absurd hexit (hstay j (by omega) (by omega))
  · intro hbound
    clear hfuel
    have hall (i : ℕ) (hi : i < 256) (st : τ) : loop8 bound body fuel i st = none := by
      induction fuel generalizing i st with
      | zero => rfl
      | succ fuel ih =>
        rw [loop8, if_pos (by omega)]
        cases hbody : body i st with
        | inr r => exact absurd ((h i st).mp (by rw [hbody]; rfl)) (hstay i (by omega) hi)
        | inl st' => exact ih _ (Nat.mod_lt _ (by decide)) st'
    exact hall 0 (by decide) st

end Exits

/-- A loop whose counter wraps in front of its bound is left through an exit only. -/
theorem loop8_wide {body : ℕ → τ → τ ⊕ ρ} {bound : ℕ} (hbound : 256 ≤ bound) {i : ℕ} (hi : i < 256)
    {st' : τ} : loop8 bound body fuel i st ≠ some (.inl st') := by
  induction fuel generalizing i st with
  | zero => exact nofun
  | succ fuel ih =>
    rw [loop8, if_pos (by omega)]
    cases body i st with
    | inr r => simp
    | inl st₁ => exact ih (Nat.mod_lt _ (by decide))

/-- What every round keeps holds when the loop is done, and what every exit has is what a loop
leaves with. -/
theorem loop8_rule {body : ℕ → τ → τ ⊕ ρ} {bound : ℕ} {P : τ → Prop} {Q : ρ → Prop}
    (h : ∀ j < bound, ∀ st, P st → Sum.elim P Q (body j st)) (hst : P st) {r : τ ⊕ ρ}
    (hr : loop8 bound body fuel j st = some r) : Sum.elim P Q r := by
  induction fuel generalizing j st with
  | zero => cases hr
  | succ fuel ih =>
    rw [loop8] at hr
    by_cases hj : j < bound
    · rw [if_pos hj] at hr
      have hround := h j hj st hst
      cases hbody : body j st with
      | inl st' =>
        rw [hbody] at hr hround
        exact ih hround hr
      | inr r' =>
        rw [hbody] at hr hround
        cases hr
        exact hround
    · rw [if_neg hj] at hr
      cases hr
      exact hst

/-- A larger budget never changes what the loop yields. -/
theorem loop8_stable {body : ℕ → τ → τ ⊕ ρ} {bound n m : ℕ} {r : τ ⊕ ρ} (hnm : n ≤ m)
    (h : loop8 bound body n j st = some r) : loop8 bound body m j st = some r := by
  induction n generalizing m j st with
  | zero => simp [loop8] at h
  | succ n ih =>
    obtain ⟨m, rfl⟩ := Nat.exists_eq_succ_of_ne_zero (show m ≠ 0 by omega)
    rw [loop8] at h ⊢
    by_cases hj : j < bound
    · rw [if_pos hj] at h ⊢
      cases hb : body j st with
      | inr r' => rw [hb] at h; exact h
      | inl st' =>
        rw [hb] at h
        exact ih (by omega) h
    · rw [if_neg hj] at h ⊢
      exact h

end Vsos.Lib
