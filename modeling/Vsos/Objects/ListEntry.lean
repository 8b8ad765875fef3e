import Vsos.Lib.Ring

/-!
# Intrusive lists

A list is a ring of entries with one of them as its head, and each routine stores to the links of an
entry and its neighbours.
-/

namespace Vsos.Objects

open Vsos.Lib

/-- The links of all entries in the memory. -/
structure Links (N : Type) where
  flink : N → N
  blink : N → N

variable {N : Type} [DecidableEq N]

namespace Links

/-- Store to `Flink`. -/
def setFlink (s : Links N) (entry value : N) : Links N :=
  { s with flink := Function.update s.flink entry value }

/-- Store to `Blink`. -/
def setBlink (s : Links N) (entry value : N) : Links N :=
  { s with blink := Function.update s.blink entry value }

/-- `ListRemoveEntry`. -/
def removeEntry (s : Links N) (entry : N) : Links N :=
  let flink := s.flink entry
  let blink := s.blink entry
  (s.setFlink blink flink).setBlink flink blink

/-- `ListRemoveHead`. -/
def removeHead (s : Links N) (head : N) : N × Links N :=
  let flink := s.flink head
  (flink, s.removeEntry flink)

/-- `ListInsertHead`. -/
def insertHead (s : Links N) (head entry : N) : Links N :=
  let flink := s.flink head
  (((s.setFlink entry flink).setBlink entry head).setBlink flink entry).setFlink head entry

/-- `ListInsertTail`. -/
def insertTail (s : Links N) (head entry : N) : Links N :=
  let blink := s.blink head
  (((s.setFlink entry head).setBlink entry blink).setFlink blink entry).setBlink head entry

/-- The head and the nodes of a list. -/
def Represents (s : Links N) (head : N) (l : List N) : Prop := Ring s.flink s.blink head l

/-- Only some nodes have got new links. -/
def Changes (s t : Links N) (nodes : List N) : Prop :=
  ∀ a ∉ nodes, t.flink a = s.flink a ∧ t.blink a = s.blink a

variable {s : Links N} {head x : N} {l : List N}

/-- The links that `ListInsertHead` stores to. -/
theorem changes_insertHead (s : Links N) (head x : N) :
    Changes s (s.insertHead head x) [head, x, s.flink head] := by
  intro a ha
  simp_all [insertHead, setFlink, setBlink]

/-- The links that `ListRemoveEntry` stores to. -/
theorem changes_removeEntry (s : Links N) (x : N) :
    Changes s (s.removeEntry x) [s.flink x, s.blink x] := by
  intro a ha
  simp_all [removeEntry, setFlink, setBlink]

/-- A node at the tail is put behind the last node, and without nodes behind the head. -/
theorem Represents.insertTail (h : s.Represents head l) (hx : x ∉ head :: l) :
    s.flink (s.blink head) = head ∧ (s.insertHead (s.blink head) x).Represents head (l ++ [x]) := by
  suffices hlast : ∃ y ∈ head :: l, s.flink y = head ∧ (s.insertHead y x).Represents head (l ++ [x]) by
    obtain ⟨y, hy, hnext, hinsert⟩ := hlast
    have hprev := h.back y hy
    rw [hnext] at hprev
    rw [hprev]
    exact ⟨hnext, hinsert⟩
  obtain rfl | ⟨l, y, rfl⟩ := l.eq_nil_or_concat'
  · exact ⟨head, by simp, (Ring.next_head_eq_iff h).mpr rfl, Ring.insertHead h hx⟩
  · refine ⟨y, by simp, (Ring.rotate h).next_head, ?_⟩
    rw [List.append_assoc]
    exact Ring.insertAfter h hx

/-- The list routines do to the nodes what they do to a sequence, and keep the links of all other nodes. -/
theorem represents_operations (h : s.Represents head l) :
    (∀ x ∉ head :: l,
      ((s.insertHead head x).Represents head (x :: l) ∧
        Changes s (s.insertHead head x) [head, x, s.flink head]) ∧
      ((s.insertTail head x).Represents head (l ++ [x]) ∧
        Changes s (s.insertTail head x) [s.blink head, x, head]) ∧
      ∀ l₁ y l₂, l = l₁ ++ y :: l₂ →
        (s.insertHead y x).Represents head (l₁ ++ y :: x :: l₂) ∧
          Changes s (s.insertHead y x) [y, x, s.flink y]) ∧
    ∀ l₁ x l₂, l = l₁ ++ x :: l₂ →
      ((s.removeEntry x).Represents head (l₁ ++ l₂) ∧
        Changes s (s.removeEntry x) [s.flink x, s.blink x]) ∧
      (l₁ = [] → s.removeHead head = (x, s.removeEntry x)) := by
  refine ⟨fun x hx => ⟨⟨Ring.insertHead h hx, changes_insertHead _ _ _⟩, ?_, ?_⟩, ?_⟩
  · obtain ⟨hlast, htail⟩ := h.insertTail hx
    have heq : s.insertTail head x = s.insertHead (s.blink head) x := by
      rw [Links.insertHead, hlast]
      rfl
    have hchanges := changes_insertHead s (s.blink head) x
    rw [hlast] at hchanges
    rw [heq]
    exact ⟨htail, hchanges⟩
  · rintro l₁ y l₂ rfl
    exact ⟨Ring.insertAfter h hx, changes_insertHead _ _ _⟩
  · rintro l₁ x l₂ rfl
    refine ⟨⟨Ring.remove h, changes_removeEntry _ _⟩, ?_⟩
    rintro rfl
    rw [removeHead, Ring.next_head h]

/-- The first of two nodes is removed. -/
theorem represents_operations_two :
    Represents ⟨fun n => (n + 1) % 3, fun n => (n + 2) % 3⟩ 0 [1, 2] ∧
      (removeEntry ⟨fun n => (n + 1) % 3, fun n => (n + 2) % 3⟩ 1).Represents 0 [2] := by
  have h : Represents ⟨fun n => (n + 1) % 3, fun n => (n + 2) % 3⟩ 0 [1, 2] :=
    ⟨by decide, by simp, by decide⟩
  exact ⟨h, ((represents_operations h).2 [] 1 [2] rfl).1.1⟩

end Links

end Vsos.Objects
