import Mathlib.Data.List.Nodup
import Mathlib.Tactic.Ring

/-!
# Places in a list that is filtered

An element keeps its place when everything in front of it stays. In a list without repetitions it
keeps its place only then.
-/

namespace Vsos.Lib

variable {α : Type} {l : List α} {a : α} {i : ℕ} {p : α → Bool}

/-- A filtered list is what is left in front of a place and behind it. -/
theorem filter_take_append (p : α → Bool) (l : List α) (i : ℕ) :
    (l.take i).filter p ++ (l.drop i).filter p = l.filter p := by
  rw [← List.filter_append, List.take_append_drop]

/-- The rest of a list from a place on. -/
theorem drop_of_getElem? (h : l[i]? = some a) : l.drop i = a :: l.drop (i + 1) := by
  obtain ⟨hi, rfl⟩ := List.getElem?_eq_some_iff.mp h
  exact List.drop_eq_getElem_cons hi

/-- An element stands behind what is left in front of it. -/
theorem getElem?_filter (h : l[i]? = some a) (ha : p a) :
    (l.filter p)[((l.take i).filter p).length]? = some a := by
  rw [← filter_take_append p l i, drop_of_getElem? h, List.filter_cons_of_pos ha]
  simp

/-- An item keeps its place if it and all items in front of it are kept. -/
theorem getElem?_filter_of_front (h : l[i]? = some a) (ha : p a) (hfront : ∀ b ∈ l.take i, p b) :
    (l.filter p)[i]? = some a := by
  obtain ⟨hi, -⟩ := List.getElem?_eq_some_iff.mp h
  have hplace := getElem?_filter h ha
  rwa [List.filter_eq_self.mpr hfront, List.length_take_of_le (Nat.le_of_lt hi)] at hplace

/-- Without repetitions, an element that keeps its place has all elements in front of it. -/
theorem front_of_getElem?_filter (hnodup : l.Nodup) (h : l[i]? = some a)
    (h' : (l.filter p)[i]? = some a) : ∀ b ∈ l.take i, p b := by
  obtain ⟨hi, -⟩ := List.getElem?_eq_some_iff.mp h
  obtain ⟨hi', -⟩ := List.getElem?_eq_some_iff.mp h'
  have ha : p a := List.of_mem_filter (List.mem_of_getElem? h')
  have heq := (List.getElem?_inj hi' (hnodup.filter p)).mp (h'.trans (getElem?_filter h ha).symm)
  refine List.length_filter_eq_length_iff.mp ?_
  rw [← heq, List.length_take_of_le (Nat.le_of_lt hi)]

/-- Nothing is left from a place on if the rest of the list goes. -/
theorem length_filter_le_of_back (hback : ∀ b ∈ l.drop i, ¬ p b) : (l.filter p).length ≤ i := by
  rw [← filter_take_append p l i, List.filter_eq_nil_iff.mpr hback, List.append_nil]
  exact Nat.le_trans (List.length_filter_le _ _) (List.length_take_le _ _)

/-- If all in front of a place stays and nothing else is left, the rest of the list is gone. -/
theorem back_of_length_filter_le (hi : i ≤ l.length) (hfront : ∀ b ∈ l.take i, p b)
    (h : (l.filter p).length ≤ i) : ∀ b ∈ l.drop i, ¬ p b := by
  rw [← filter_take_append p l i, List.length_append, List.filter_eq_self.mpr hfront,
    List.length_take_of_le hi] at h
  exact List.filter_eq_nil_iff.mp (List.length_eq_zero_iff.mp (by omega))

end Vsos.Lib
