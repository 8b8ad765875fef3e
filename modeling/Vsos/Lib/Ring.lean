import Mathlib.Data.List.Chain
import Mathlib.Data.List.Nodup
import Mathlib.Tactic.Ring

/-!
# Circular doubly linked lists

A ring runs from a head node over the nodes of a list back to the head. Every node knows the
next one, and going back from the next node leads to the node again. Both ends of a removed
or inserted node are relinked by two single stores, and nodes outside of the ring are never
stored to.
-/

namespace Vsos.Lib

variable {N : Type} {next prev : N → N} {head x y : N} {l l₁ l₂ : List N}

/-- The links lead from the head over the nodes of `l` and back. -/
structure Ring (next prev : N → N) (head : N) (l : List N) : Prop where
  nodup : (head :: l).Nodup
  forward : List.IsChain (fun a b => next a = b) (head :: (l ++ [head]))
  back : ∀ a ∈ head :: l, prev (next a) = a

/-- A chain depends on the links of the nodes that have a successor in it. -/
theorem isChain_congr {next' : N → N} {xs : List N} (h : List.IsChain (fun a b => next a = b) xs)
    (hsame : ∀ a ∈ xs.dropLast, next' a = next a) :
    List.IsChain (fun a b => next' a = b) xs := by
  induction xs with
  | nil => exact List.isChain_nil
  | cons a xs ih =>
    cases xs with
    | nil => exact List.isChain_singleton a
    | cons b xs =>
      rw [List.isChain_cons_cons] at h ⊢
      rw [List.dropLast_cons_cons, List.forall_mem_cons] at hsame
      exact ⟨hsame.1.trans h.1, ih h.2 hsame.2⟩

/-- A link of a node that no link of the list starts from can be changed. -/
theorem isChain_update [DecidableEq N] {xs : List N} (h : List.IsChain (fun a b => next a = b) xs)
    (hx : x ∉ xs.dropLast) : List.IsChain (fun a b => Function.update next x y a = b) xs := by
  refine isChain_congr h fun a ha => ?_
  have hne : a ≠ x := fun heq => hx (heq ▸ ha)
  exact Function.update_of_ne hne _ _

/-- A head that points to itself. -/
theorem Ring.nil (hnext : next head = head) (hprev : prev head = head) : Ring next prev head [] where
  nodup := List.nodup_singleton head
  forward := List.isChain_pair.mpr hnext
  back := by simp [hnext, hprev]

/-- A head and one node that point to each other. -/
theorem Ring.singleton (hne : x ≠ head) (hnext : next head = x) (hnext' : next x = head)
    (hprev : prev head = x) (hprev' : prev x = head) : Ring next prev head [x] where
  nodup := by simp [hne.symm]
  forward := by simp [hnext, hnext']
  back := by simp [hnext, hnext', hprev, hprev']

/-- The first node is the one behind the head. -/
theorem Ring.next_head (h : Ring next prev head (x :: l)) : next head = x := by
  have hforward := h.forward
  rw [List.cons_append, List.isChain_cons_cons] at hforward
  exact hforward.1

section

variable (h : Ring next prev head l)
include h

/-- The head of an empty ring points to itself, and of no other ring. -/
theorem Ring.next_head_eq_iff : next head = head ↔ l = [] := by
  cases l with
  | nil => simpa using h.forward
  | cons x l =>
    rw [h.next_head]
    have hne := (List.nodup_cons.mp h.nodup).1
    constructor
    · rintro rfl
      exact absurd List.mem_cons_self hne
    · intro hnil
      cases hnil

/-- Different nodes of a ring have different successors. -/
theorem Ring.next_injective (hx : x ∈ head :: l) (hy : y ∈ head :: l) (heq : next x = next y) :
    x = y := by
  rw [← h.back x hx, heq, h.back y hy]

/-- Links lead to nodes of the ring. -/
theorem Ring.next_mem (hx : x ∈ head :: l) : next x ∈ head :: l := by
  obtain ⟨u, w, hsplit⟩ := List.append_of_mem hx
  have hforward := h.forward
  rw [← List.cons_append, hsplit, List.append_assoc, List.cons_append, List.isChain_split] at hforward
  have hmem : ∀ b ∈ w ++ [head], b ∈ head :: l := by
    intro b hb
    rcases List.mem_append.mp hb with hb | hb
    · rw [hsplit]
      simp [hb]
    · rw [List.mem_singleton.mp hb]
      exact List.mem_cons_self
  obtain ⟨b, rest, hb⟩ := List.exists_cons_of_ne_nil (show w ++ [head] ≠ [] by simp)
  rw [hb] at hforward hmem
  rw [(List.isChain_cons_cons.mp hforward.2).1]
  exact hmem b List.mem_cons_self

/-- A ring depends on the links of its nodes alone. -/
theorem Ring.congr {next' prev' : N → N} (hnext : ∀ a ∈ head :: l, next' a = next a)
    (hprev : ∀ a ∈ head :: l, prev' a = prev a) :
    Ring next' prev' head l where
  nodup := h.nodup
  forward := by
    refine isChain_congr h.forward fun a ha => hnext a ?_
    rwa [← List.cons_append, List.dropLast_concat] at ha
  back := by
    intro a ha
    rw [hnext a ha, hprev _ (h.next_mem ha), h.back a ha]

end

/-- Every node of a ring can be its head. -/
theorem Ring.rotate (h : Ring next prev head (l₁ ++ x :: l₂)) :
    Ring next prev x (l₂ ++ head :: l₁) where
  nodup := by
    have hperm : (x :: (l₂ ++ head :: l₁)).Perm (head :: (l₁ ++ x :: l₂)) := by
      have hcomm : ((x :: l₂) ++ (head :: l₁)).Perm ((head :: l₁) ++ (x :: l₂)) :=
        List.perm_append_comm
      simpa only [List.cons_append] using hcomm
    exact hperm.nodup_iff.mpr h.nodup
  forward := by
    have hforward := h.forward
    rw [List.append_assoc, List.cons_append, ← List.cons_append, List.isChain_split] at hforward
    rw [List.append_assoc, List.cons_append, ← List.cons_append, List.isChain_split]
    exact ⟨hforward.2, hforward.1⟩
  back := by
    intro a ha
    apply h.back
    simp only [List.mem_cons, List.mem_append] at ha ⊢
    tauto

/-- What surrounds a node of a ring: the node before it and the node behind it. -/
theorem Ring.neighbours (h : Ring next prev head (l₁ ++ x :: l₂)) :
    ∃ before after ys rest, head :: l₁ = ys ++ [before] ∧ l₂ ++ [head] = after :: rest ∧
      prev x = before ∧ next x = after ∧
      List.IsChain (fun a b => next a = b) (ys ++ [before]) ∧
      List.IsChain (fun a b => next a = b) (after :: rest) := by
  obtain ⟨ys, before, hys⟩ : ∃ ys before, head :: l₁ = ys ++ [before] :=
    ⟨_, _, (List.dropLast_append_getLast (List.cons_ne_nil head l₁)).symm⟩
  obtain ⟨after, rest, hrest⟩ := List.exists_cons_of_ne_nil (show l₂ ++ [head] ≠ [] by simp)
  have hforward := h.forward
  rw [List.append_assoc, ← List.cons_append, hys, List.append_assoc, List.singleton_append,
    List.cons_append, hrest, List.isChain_append_cons_cons] at hforward
  obtain ⟨hfirst, hbefore, hlast⟩ := hforward
  obtain ⟨hafter, hlast⟩ := List.isChain_cons_cons.mp hlast
  have hmem : before ∈ head :: (l₁ ++ x :: l₂) := by
    rw [← List.cons_append, hys]
    simp
  refine ⟨before, after, ys, rest, hys, hrest, ?_, hafter, hfirst, hlast⟩
  rw [← hbefore]
  exact h.back before hmem

/-- Links back lead to nodes of the ring. -/
theorem Ring.prev_mem (h : Ring next prev head l) (hx : x ∈ head :: l) : prev x ∈ head :: l := by
  have hinner {head x : N} {l₁ l₂ : List N} (h : Ring next prev head (l₁ ++ x :: l₂)) :
      prev x ∈ head :: l₁ := by
    obtain ⟨before, after, ys, rest, hys, -, hprev, -⟩ := h.neighbours
    rw [hprev, hys]
    simp
  rcases List.mem_cons.mp hx with rfl | hx
  · cases l with
    | nil =>
      have hback := h.back x List.mem_cons_self
      rw [(h.next_head_eq_iff).mpr rfl] at hback
      rw [hback]
      exact List.mem_cons_self
    | cons y l =>
      -- seen from the first node, the head is an inner node
      have hturned : Ring next prev y (l ++ [x]) := Ring.rotate (by exact h)
      exact List.mem_cons_of_mem _ (hinner hturned)
  · obtain ⟨l₁, l₂, rfl⟩ := List.append_of_mem hx
    rcases List.mem_cons.mp (hinner h) with heq | hmem
    · rw [heq]
      exact List.mem_cons_self
    · exact List.mem_cons_of_mem _ (List.mem_append_left _ hmem)

/-- Removing a node links its neighbours to each other. -/
theorem Ring.remove [DecidableEq N] (h : Ring next prev head (l₁ ++ x :: l₂)) :
    Ring (Function.update next (prev x) (next x)) (Function.update prev (next x) (prev x)) head
      (l₁ ++ l₂) := by
  obtain ⟨before, after, ys, rest, hys, hrest, hprev, hafter, hfirst, hlast⟩ := h.neighbours
  have hnodup := h.nodup
  rw [← List.cons_append, List.nodup_middle, List.nodup_cons] at hnodup
  obtain ⟨hx, hnodup⟩ := hnodup
  have hmem : ∀ a ∈ head :: (l₁ ++ l₂), a ∈ head :: (l₁ ++ x :: l₂) ∧ a ≠ x := by
    intro a ha
    refine ⟨?_, fun heq => hx (heq ▸ ha)⟩
    simp only [List.mem_cons, List.mem_append] at ha ⊢
    tauto
  have hout : before ∉ ys ++ l₂ := by
    rw [hys, List.append_assoc, List.singleton_append, List.nodup_middle, List.nodup_cons] at hnodup
    exact hnodup.1
  rw [hprev, hafter]
  refine ⟨hnodup, ?_, ?_⟩
  · rw [List.append_assoc, ← List.cons_append, hys, hrest, List.append_assoc, List.singleton_append,
      List.isChain_append_cons_cons]
    refine ⟨isChain_update hfirst ?_, Function.update_self .., isChain_update hlast ?_⟩
    · rw [List.dropLast_concat]
      exact fun hin => hout (List.mem_append_left _ hin)
    · rw [← hrest, List.dropLast_concat]
      exact fun hin => hout (List.mem_append_right _ hin)
  · intro a ha
    obtain ⟨hin, hne⟩ := hmem a ha
    by_cases heq : a = before
    · rw [heq, Function.update_self, Function.update_self]
    · have hother : next a ≠ after := by
        rw [← hafter]
        exact fun hnext => hne (h.next_injective hin (by simp) hnext)
      rw [Function.update_of_ne heq, Function.update_of_ne hother]
      exact h.back a hin

/-- Inserting a node behind the head. -/
theorem Ring.insertHead [DecidableEq N] (h : Ring next prev head l) (hx : x ∉ head :: l) :
    Ring (Function.update (Function.update next x (next head)) head x)
      (Function.update (Function.update prev x head) (next head) x) head (x :: l) := by
  have hxhead : x ≠ head := fun heq => hx (heq ▸ List.mem_cons_self)
  have hxl : x ∉ l := fun hin => hx (List.mem_cons_of_mem _ hin)
  have hfirst := h.next_mem List.mem_cons_self
  have hneq : x ≠ next head := fun heq => hx (heq ▸ hfirst)
  obtain ⟨hhead, hnodup⟩ := List.nodup_cons.mp h.nodup
  refine ⟨?_, ?_, ?_⟩
  · simp [hnodup, hhead, hxl, Ne.symm hxhead]
  · obtain ⟨b, rest, hb⟩ := List.exists_cons_of_ne_nil (show l ++ [head] ≠ [] by simp)
    have hforward := h.forward
    rw [hb, List.isChain_cons_cons] at hforward
    rw [List.cons_append, hb, List.isChain_cons_cons, List.isChain_cons_cons]
    refine ⟨Function.update_self .., ?_, isChain_update (isChain_update hforward.2 ?_) ?_⟩
    · rw [Function.update_of_ne hxhead, Function.update_self]
      exact hforward.1
    · rw [← hb, List.dropLast_concat]
      exact hxl
    · rw [← hb, List.dropLast_concat]
      exact hhead
  · intro a ha
    by_cases haHead : a = head
    · rw [haHead, Function.update_self, Function.update_of_ne hneq, Function.update_self]
    · rw [Function.update_of_ne haHead]
      by_cases hax : a = x
      · rw [hax, Function.update_self, Function.update_self]
      · have hin : a ∈ head :: l := by
          simp only [List.mem_cons] at ha ⊢
          tauto
        have hother : next a ≠ next head := fun heq =>
          haHead (h.next_injective hin List.mem_cons_self heq)
        have hnotx : next a ≠ x := fun heq => hx (heq ▸ h.next_mem hin)
        rw [Function.update_of_ne hax, Function.update_of_ne hother, Function.update_of_ne hnotx]
        exact h.back a hin

/-- Inserting a node behind another one. -/
theorem Ring.insertAfter [DecidableEq N] (h : Ring next prev head (l₁ ++ x :: l₂))
    (hy : y ∉ head :: (l₁ ++ x :: l₂)) :
    Ring (Function.update (Function.update next y (next x)) x y)
      (Function.update (Function.update prev y x) (next x) y) head (l₁ ++ x :: y :: l₂) := by
  have hinsert := h.rotate.insertHead (by
    simp only [List.mem_cons, List.mem_append] at hy ⊢
    tauto)
  exact hinsert.rotate

end Vsos.Lib
