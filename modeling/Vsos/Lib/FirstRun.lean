import Mathlib.Tactic.Ring

/-!
# The first run of consecutive positions

A scan over the positions `0, 1, 2, …` looks for `n` consecutive positions with a property. It
only keeps how many positions in a row had the property last, and starts over at a position
without it. The scan stops at the end of the first run there is.
-/

namespace Vsos.Lib

variable {p : ℕ → Prop} {n m r c : ℕ}

/-- The `n` positions from `r` on have the property. -/
def RunAt (p : ℕ → Prop) (n r : ℕ) : Prop := ∀ k < n, p (r + k)

instance [DecidablePred p] (n r : ℕ) : Decidable (RunAt p n r) :=
  inferInstanceAs (Decidable (∀ k < n, p (r + k)))

/-- The first run of `n` positions starts at `r`. -/
structure FirstRun (p : ℕ → Prop) (n r : ℕ) : Prop where
  run : RunAt p n r
  first : ∀ q < r, ¬ RunAt p n q

/-- No run starts in front of the first one. -/
theorem FirstRun.le_of_runAt (h : FirstRun p n r) (hm : RunAt p n m) : r ≤ m :=
  Nat.le_of_not_lt fun hlt => h.first m hlt hm

/-- There is one first run. -/
theorem FirstRun.unique (h : FirstRun p n r) (h' : FirstRun p n m) : r = m :=
  Nat.le_antisymm (h.le_of_runAt h'.run) (h'.le_of_runAt h.run)

/-- The first run of `n` positions at or behind `m` starts at `r`. -/
structure FirstRunFrom (p : ℕ → Prop) (n m r : ℕ) : Prop where
  le : m ≤ r
  run : RunAt p n r
  first : ∀ q, m ≤ q → q < r → ¬ RunAt p n q

namespace FirstRunFrom

/-- No run from the start on comes before the first one. -/
theorem le_of_runAt (h : FirstRunFrom p n m r) {q : ℕ} (hle : m ≤ q) (hq : RunAt p n q) : r ≤ q :=
  Nat.le_of_not_lt fun hlt => h.first q hle hlt hq

/-- There is one first run from a start. -/
theorem unique (h : FirstRunFrom p n m r) {q : ℕ} (h' : FirstRunFrom p n m q) : r = q :=
  Nat.le_antisymm (h.le_of_runAt h'.le h'.run) (h'.le_of_runAt h.le h.run)

/-- A run that starts where the search starts is the first one. -/
theorem of_runAt (h : RunAt p n m) : FirstRunFrom p n m m where
  le := le_refl m
  run := h
  first := fun _ hle hlt => absurd hlt (Nat.not_lt.mpr hle)

/-- The search may start behind a position where no run starts. -/
theorem succ_iff (h : ¬ RunAt p n m) : FirstRunFrom p n m r ↔ FirstRunFrom p n (m + 1) r := by
  constructor
  · intro hr
    have hne : m ≠ r := fun heq => h (heq ▸ hr.run)
    exact ⟨lt_of_le_of_ne hr.le hne, hr.run, fun q hq => hr.first q (Nat.le_of_succ_le hq)⟩
  · intro hr
    refine ⟨Nat.le_of_succ_le hr.le, hr.run, fun q hq hlt => ?_⟩
    rcases Nat.eq_or_lt_of_le hq with rfl | hq
    · exact h
    · exact hr.first q hq hlt

/-- The search may start anywhere in front of the first run. -/
theorem advance (h : FirstRunFrom p n m r) {q : ℕ} (hm : m ≤ q) (hq : q ≤ r) :
    FirstRunFrom p n q r :=
  ⟨hq, h.run, fun k hk => h.first k (Nat.le_trans hm hk)⟩

/-- If there is a run, there is a first one. -/
theorem exists_of_runAt {q : ℕ} (hle : m ≤ q) (hq : RunAt p n q) :
    ∃ r, FirstRunFrom p n m r ∧ r ≤ q := by
  classical
  have hex : ∃ r, m ≤ r ∧ RunAt p n r := ⟨q, hle, hq⟩
  refine ⟨Nat.find hex, ⟨(Nat.find_spec hex).1, (Nat.find_spec hex).2, fun k hk hlt hrun => ?_⟩,
    Nat.find_min' hex ⟨hle, hq⟩⟩
  exact Nat.find_min hex hlt ⟨hk, hrun⟩

end FirstRunFrom

/-- After `m` positions without a run of `n`, the last `c` of them had the property. -/
structure Seen (p : ℕ → Prop) (n m c : ℕ) : Prop where
  short : c < n
  le : c ≤ m
  last : ∀ k < c, p (m - c + k)
  gap : c < m → ¬ p (m - c - 1)
  none : ∀ q, q + n ≤ m → ¬ RunAt p n q

namespace Seen

/-- The scan starts. -/
theorem zero (hn : 0 < n) : Seen p n 0 0 where
  short := hn
  le := le_refl 0
  last := fun k hk => absurd hk (Nat.not_lt_zero k)
  gap := fun h => absurd h (lt_irrefl 0)
  none := fun q hq => by omega

/-- A position without the property starts the count over. -/
theorem miss (h : Seen p n m c) (hm : ¬ p m) : Seen p n (m + 1) 0 where
  short := Nat.zero_lt_of_lt h.short
  le := Nat.zero_le _
  last := fun k hk => absurd hk (Nat.not_lt_zero k)
  gap := fun _ => hm
  none := by
    intro q hq hrun
    have hshort := h.short
    rcases Nat.lt_or_ge m (q + n) with hlt | hle
    · apply hm
      have hend := hrun (m - q) (by omega)
      rwa [Nat.add_sub_cancel' (by omega)] at hend
    · exact h.none q hle hrun

/-- A position with the property is counted. -/
theorem hit (h : Seen p n m c) (hm : p m) (hne : c + 1 ≠ n) : Seen p n (m + 1) (c + 1) where
  short := by
    have := h.short
    omega
  le := Nat.succ_le_succ h.le
  last := by
    intro k hk
    rw [Nat.add_sub_add_right]
    rcases Nat.lt_or_ge k c with hlt | hge
    · exact h.last k hlt
    · have heq : m - c + k = m := by
        have := h.le
        omega
      rwa [heq]
  gap := by
    intro hlt
    rw [Nat.add_sub_add_right]
    exact h.gap (by omega)
  none := by
    intro q hq hrun
    have hshort := h.short
    rcases Nat.lt_or_ge m (q + n) with hlt | hle
    · -- such a run would reach back over the gap
      apply h.gap (by omega)
      have hgap := hrun (m - c - 1 - q) (by omega)
      rwa [Nat.add_sub_cancel' (by omega)] at hgap
    · exact h.none q hle hrun

/-- The scan stops at the end of the first run. -/
theorem found (h : Seen p n m c) (hm : p m) (heq : c + 1 = n) : FirstRun p n (m - c) where
  run := by
    intro k hk
    have hle := h.le
    rcases Nat.lt_or_ge k c with hlt | hge
    · exact h.last k hlt
    · rwa [show m - c + k = m by omega]
  first := fun q hq => h.none q (by omega)

end Seen

end Vsos.Lib
