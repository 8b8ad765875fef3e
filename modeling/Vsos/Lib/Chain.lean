import Mathlib.Data.Finset.Basic
import Mathlib.Tactic.Ring

/-!
# Following links until they stop

A linked structure is given by a function that leads from a node to the next one and by the
values that end a walk. The nodes of a walk are determined by its first node, they are
pairwise different, and they depend on the links of the walk only.
-/

namespace Vsos.Lib

variable {α : Type} {next next' : α → α} {stop : α → Prop} {a b : α} {xs : List α}

/-- The walk from `a` visits exactly the nodes of the list and then stops. -/
def Walks (next : α → α) (stop : α → Prop) : α → List α → Prop
  | a, [] => stop a
  | a, b :: rest => a = b ∧ ¬ stop b ∧ Walks next stop (next b) rest

/-- A walk is determined by its first node. -/
theorem Walks.unique {ys : List α} (h : Walks next stop a xs) (h' : Walks next stop a ys) :
    xs = ys := by
  induction xs generalizing a ys with
  | nil =>
    cases ys with
    | nil => rfl
    | cons b ys => exact absurd (h'.1 ▸ h) h'.2.1
  | cons b xs ih =>
    obtain ⟨rfl, hstop, hrest⟩ := h
    cases ys with
    | nil => exact absurd h' hstop
    | cons c ys =>
      obtain ⟨rfl, -, hrest'⟩ := h'
      rw [ih hrest hrest']

/-- Every node of a walk starts a walk that is no longer. -/
theorem Walks.from_mem (h : Walks next stop a xs) (hb : b ∈ xs) :
    ∃ ys, Walks next stop b ys ∧ ys.length ≤ xs.length := by
  induction xs generalizing a with
  | nil => cases hb
  | cons c xs ih =>
    rcases List.mem_cons.mp hb with rfl | hb
    · exact ⟨b :: xs, ⟨rfl, h.2⟩, le_refl _⟩
    · obtain ⟨ys, hys, hlen⟩ := ih h.2.2 hb
      exact ⟨ys, hys, hlen.trans (Nat.le_succ _)⟩

/-- A walk that stops meets no node twice. -/
theorem Walks.nodup (h : Walks next stop a xs) : xs.Nodup := by
  induction xs generalizing a with
  | nil => exact List.nodup_nil
  | cons b xs ih =>
    refine List.nodup_cons.mpr ⟨fun hb => ?_, ih h.2.2⟩
    -- a second visit to `b` would start a shorter walk than the first
    obtain ⟨ys, hys, hlen⟩ := h.2.2.from_mem hb
    have heq : b :: xs = ys := Walks.unique ⟨rfl, h.2⟩ hys
    rw [← heq, List.length_cons] at hlen
    omega

/-- A walk only depends on the links of its nodes. -/
theorem Walks.congr (h : Walks next stop a xs) (heq : ∀ b ∈ xs, next' b = next b) :
    Walks next' stop a xs := by
  induction xs generalizing a with
  | nil => exact h
  | cons b xs ih =>
    refine ⟨h.1, h.2.1, ?_⟩
    rw [heq b List.mem_cons_self]
    exact ih h.2.2 fun c hc => heq c (List.mem_cons_of_mem _ hc)

/-- The first node of a walk is the first of its list. -/
theorem Walks.head_eq (h : Walks next stop a (b :: xs)) : a = b := h.1

/-- The nodes of a walk lead from one to the next. -/
theorem Walks.next_getElem (h : Walks next stop a xs) (i : ℕ) (hi : i + 1 < xs.length) :
    next (xs.get ⟨i, Nat.lt_of_succ_lt hi⟩) = xs.get ⟨i + 1, hi⟩ := by
  induction xs generalizing a i with
  | nil => simp at hi
  | cons b xs ih =>
    cases xs with
    | nil => simp at hi
    | cons c xs =>
      cases i with
      | zero => exact h.2.2.1
      | succ i => exact ih h.2.2 i (by simpa using hi)

/-- The link of a walk's last node stops. -/
theorem Walks.stop_next_last (h : Walks next stop a (xs ++ [b])) : stop (next b) := by
  induction xs generalizing a with
  | nil => exact h.2.2
  | cons c xs ih => exact ih h.2.2

/-- A walk goes on from its last node under other links that keep those in front of it. -/
theorem Walks.splice {ys : List α} (h : Walks next stop a (xs ++ [b]))
    (heq : ∀ x ∈ xs, next' x = next x) (hrest : Walks next' stop b (b :: ys)) :
    Walks next' stop a (xs ++ b :: ys) := by
  induction xs generalizing a with
  | nil =>
    rw [h.1]
    exact hrest
  | cons x xs ih =>
    refine ⟨h.1, h.2.1, ?_⟩
    rw [heq x List.mem_cons_self]
    exact ih h.2.2 fun y hy => heq y (List.mem_cons_of_mem _ hy)

/-- A walk that stops after `k` links. -/
theorem walks_iterate {k : ℕ} (hgo : ∀ j < k, ¬ stop (next^[j] a)) (hstop : stop (next^[k] a)) :
    Walks next stop a ((List.range k).map fun j => next^[j] a) := by
  induction k generalizing a with
  | zero => exact hstop
  | succ k ih =>
    rw [List.range_succ_eq_map, List.map_cons, List.map_map]
    exact ⟨rfl, hgo 0 (Nat.succ_pos k), ih (fun j hj => hgo (j + 1) (by omega)) hstop⟩

section Relink

variable [DecidableEq α]

/-- The links after `a` was made to lead to each node of the list in turn, where every node ends
the chain before it is linked on. -/
def relink (next : α → α) (last : α) : α → List α → α → α
  | _, [] => next
  | a, b :: rest => relink (Function.update (Function.update next b last) a b) last b rest

/-- Other nodes keep their links. -/
theorem relink_of_not_mem {last x : α} (hx : x ∉ a :: xs) :
    relink next last a xs x = next x := by
  induction xs generalizing next a with
  | nil => rfl
  | cons b xs ih =>
    have hne : x ≠ a ∧ x ∉ b :: xs := by simpa using hx
    have hb : x ≠ b := fun h => hne.2 (h ▸ List.mem_cons_self)
    rw [relink, ih hne.2, Function.update_of_ne hne.1, Function.update_of_ne hb]

/-- The new links are a walk over the list. -/
theorem walks_relink {last : α} (hne : xs ≠ []) (hnodup : (a :: xs).Nodup) (hlast : stop last)
    (hgo : ∀ x ∈ a :: xs, ¬ stop x) :
    Walks (relink next last a xs) stop a (a :: xs) := by
  induction xs generalizing next a with
  | nil => exact absurd rfl hne
  | cons b xs ih =>
    obtain ⟨hnotin, hrest⟩ := List.nodup_cons.mp hnodup
    have hab : b ≠ a := fun h => hnotin (h ▸ List.mem_cons_self)
    have hfirst : relink next last a (b :: xs) a = b := by
      rw [relink, relink_of_not_mem hnotin, Function.update_self]
    refine ⟨rfl, hgo a List.mem_cons_self, ?_⟩
    rw [hfirst]
    cases xs with
    | nil =>
      refine ⟨rfl, hgo b (by simp), ?_⟩
      change stop (Function.update (Function.update next b last) a b b)
      rw [Function.update_of_ne hab, Function.update_self]
      exact hlast
    | cons c xs => exact ih (by simp) hrest fun x hx => hgo x (List.mem_cons_of_mem _ hx)

end Relink

end Vsos.Lib
