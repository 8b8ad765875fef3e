import Mathlib.Data.List.Pairwise
import Mathlib.Tactic.Ring

/-!
# Tilings of a stretch of numbers

Tiles lie end to end: each one begins where the one before it ends. A run of tiles can be
replaced by another one that covers the same stretch.
-/

namespace Vsos.Lib

variable {β : Type} {start extent : β → ℕ} {lo mid hi : ℕ} {b c : β} {l l' l₁ l₂ : List β}

/-- The tiles cover the numbers from `lo` up to `hi`, in this order. -/
def Tiles (start extent : β → ℕ) : ℕ → List β → ℕ → Prop
  | lo, [], hi => lo = hi
  | lo, b :: l, hi => start b = lo ∧ Tiles start extent (lo + extent b) l hi

/-- Tiles in a row meet at a point. -/
theorem tiles_append :
    Tiles start extent lo (l₁ ++ l₂) hi ↔
      ∃ mid, Tiles start extent lo l₁ mid ∧ Tiles start extent mid l₂ hi := by
  induction l₁ generalizing lo with
  | nil => simp [Tiles]
  | cons b l ih =>
    simp only [List.cons_append, Tiles, ih]
    constructor
    · rintro ⟨hb, mid, hl, hl₂⟩
      exact ⟨mid, ⟨hb, hl⟩, hl₂⟩
    · rintro ⟨mid, ⟨hb, hl⟩, hl₂⟩
      exact ⟨hb, mid, hl, hl₂⟩

/-- The tiles around one of them. -/
theorem tiles_split : Tiles start extent lo (l₁ ++ b :: l₂) hi ↔
    Tiles start extent lo l₁ (start b) ∧ Tiles start extent (start b + extent b) l₂ hi := by
  rw [tiles_append]
  constructor
  · rintro ⟨mid, hl₁, rfl, hl₂⟩
    exact ⟨hl₁, hl₂⟩
  · rintro ⟨hl₁, hl₂⟩
    exact ⟨_, hl₁, rfl, hl₂⟩

section

variable (h : Tiles start extent lo l hi)
include h

/-- A stretch does not end before it starts. -/
theorem Tiles.le : lo ≤ hi := by
  induction l generalizing lo with
  | nil => exact Nat.le_of_eq h
  | cons b l ih => exact Nat.le_trans (Nat.le_add_right _ _) (ih h.2)

/-- A tile lies inside of the stretch. -/
theorem Tiles.bounds (hb : b ∈ l) :
    lo ≤ start b ∧ start b + extent b ≤ hi := by
  obtain ⟨l₁, l₂, rfl⟩ := List.append_of_mem hb
  obtain ⟨hl₁, hl₂⟩ := tiles_split.mp h
  exact ⟨hl₁.le, hl₂.le⟩

/-- Earlier tiles end where later ones begin, or in front of them. -/
theorem Tiles.pairwise :
    l.Pairwise fun b c => start b + extent b ≤ start c := by
  induction l generalizing lo with
  | nil => exact List.Pairwise.nil
  | cons b l ih =>
    obtain ⟨rfl, hl⟩ := h
    exact List.pairwise_cons.mpr ⟨fun c hc => (hl.bounds hc).1, ih hl⟩

/-- Different tiles do not overlap. -/
theorem Tiles.apart (hb : b ∈ l) (hc : c ∈ l) :
    b = c ∨ start b + extent b ≤ start c ∨ start c + extent c ≤ start b := by
  obtain ⟨l₁, l₂, rfl⟩ := List.append_of_mem hb
  obtain ⟨hl₁, hl₂⟩ := tiles_split.mp h
  rcases List.mem_append.mp hc with hc | hc
  · exact Or.inr (Or.inr (hl₁.bounds hc).2)
  · rcases List.mem_cons.mp hc with rfl | hc
    · exact Or.inl rfl
    · exact Or.inr (Or.inl (hl₂.bounds hc).1)

/-- Whatever is no more than the tiles adds up to no more than the stretch. -/
theorem Tiles.sum_le {weight : β → ℕ} (hweight : ∀ b ∈ l, weight b ≤ extent b) :
    lo + (l.map weight).sum ≤ hi := by
  induction l generalizing lo with
  | nil => exact Nat.le_of_eq h
  | cons b l ih =>
    rw [List.forall_mem_cons] at hweight
    have hrest := ih h.2 hweight.2
    rw [List.map_cons, List.sum_cons]
    omega

/-- Tiles of some length each are bounded in number by the stretch. -/
theorem Tiles.length_mul_le {n : ℕ} (hn : ∀ b ∈ l, n ≤ extent b) :
    lo + l.length * n ≤ hi := by
  have hsum := h.sum_le hn
  rwa [List.map_const', List.sum_replicate_nat] at hsum

end

/-- A tile is replaced by tiles for the same stretch. -/
theorem Tiles.replace (h : Tiles start extent lo (l₁ ++ b :: l₂) hi)
    (hl : Tiles start extent (start b) l (start b + extent b)) :
    Tiles start extent lo (l₁ ++ (l ++ l₂)) hi := by
  obtain ⟨hl₁, hl₂⟩ := tiles_split.mp h
  exact tiles_append.mpr ⟨_, hl₁, tiles_append.mpr ⟨_, hl, hl₂⟩⟩

end Vsos.Lib
