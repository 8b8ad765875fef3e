import Vsos.Lib.Ring
import Vsos.Mem.Pmm

/-!
# The free list as a ring

The list routines of the memory manager keep the ring of free frames. Unlinking a frame only
returns when its links lead somewhere, so a frame whose links were never set cannot be
unlinked.
-/

namespace Vsos.Mem

open Vsos.Lib

variable {f : FrameArray} {s t : State} {entry : Link} {free : List ℕ} {i : ℕ}

/-- The free list of a state. -/
def FreeList (s : State) (free : List ℕ) : Prop :=
  Ring s.flink s.blink .head (free.map Link.frame)

/-- What changes when a list entry is unlinked. -/
def State.unlinked (s : State) (entry : Link) : State :=
  { s with
    flink := Function.update s.flink (s.blink entry) (s.flink entry)
    blink := Function.update s.blink (s.flink entry) (s.blink entry) }

/-- What changes when a list entry is put behind the head. -/
def State.linked (s : State) (entry : Link) : State :=
  { s with
    flink := Function.update (Function.update s.flink entry (s.flink .head)) .head entry
    blink := Function.update (Function.update s.blink entry .head) (s.flink .head) entry }

/-- A frame is mapped if it is in the array. -/
theorem mapped_frame {index : ℕ} : Mapped f (.frame index) = true ↔ index < f.count := by
  simp [Mapped]

/-- `ListRemoveEntry` with links that lead somewhere. -/
theorem listRemoveEntry_run (hentry : Mapped f entry = true)
    (hflink : Mapped f (s.flink entry) = true) (hblink : Mapped f (s.blink entry) = true) :
    (listRemoveEntry f entry).run s = .ok () (s.unlinked entry) := by
  have h₁ : (readFlink f entry).run s = .ok (s.flink entry) s := if_pos hentry
  have h₂ : (readBlink f entry).run s = .ok (s.blink entry) s := if_pos hentry
  have h₃ : (writeFlink f (s.blink entry) (s.flink entry)).run s =
      .ok () { s with flink := Function.update s.flink (s.blink entry) (s.flink entry) } :=
    if_pos hblink
  rw [listRemoveEntry, bind_of_ok h₁, bind_of_ok h₂, bind_of_ok h₃]
  exact if_pos hflink

/-- What an access says when it returns. -/
theorem access_eq_ok {α : Type} {c : Prop} [Decidable c] {a b : α} {u : State}
    (h : (if c then EStateM.Result.ok a s else .error Halt.fault u) = .ok b t) :
    c ∧ a = b ∧ s = t := by
  split at h <;> cases h
  exact ⟨by assumption, rfl, rfl⟩

/-- `ListRemoveEntry` returns only when the entry and its successor exist. -/
theorem unlinked_of_listRemoveEntry {u : Unit} (h : (listRemoveEntry f entry).run s = .ok u t) :
    Mapped f entry = true ∧ Mapped f (s.flink entry) = true ∧ t = s.unlinked entry := by
  obtain ⟨_, _, hread, h⟩ := bind_eq_ok.mp h
  obtain ⟨hentry, rfl, rfl⟩ := access_eq_ok hread
  obtain ⟨_, _, hread, h⟩ := bind_eq_ok.mp h
  obtain ⟨-, rfl, rfl⟩ := access_eq_ok hread
  obtain ⟨_, _, hwrite, h⟩ := bind_eq_ok.mp h
  obtain ⟨-, -, rfl⟩ := access_eq_ok hwrite
  obtain ⟨hflink, -, rfl⟩ := access_eq_ok h
  exact ⟨hentry, hflink, rfl⟩

/-- Unlinking stops the machine only at a link that leads nowhere. -/
theorem eq_fault_of_listRemoveEntry {e : Halt} (h : (listRemoveEntry f entry).run s = .error e t) :
    e = .fault := by
  have hguard {α : Type} {c : Prop} [Decidable c] {a : α} {s t u : State}
      (h : (if c then EStateM.Result.ok a t else .error .fault u) = .error e s) : e = .fault := by
    split at h <;> cases h
    rfl
  rcases bind_eq_error.mp h with h | ⟨_, _, -, h⟩
  · exact hguard h
  · rcases bind_eq_error.mp h with h | ⟨_, _, -, h⟩
    · exact hguard h
    · rcases bind_eq_error.mp h with h | ⟨_, _, -, h⟩
      · exact hguard h
      · exact hguard h

/-- The nodes of the free list exist. -/
theorem mapped_of_mem (hfree : ∀ i ∈ free, i < f.count) {l : Link}
    (hl : l ∈ .head :: free.map Link.frame) : Mapped f l = true := by
  rcases List.mem_cons.mp hl with rfl | hl
  · rfl
  · obtain ⟨i, hi, rfl⟩ := List.mem_map.mp hl
    exact mapped_frame.mpr (hfree i hi)

section

variable (h : FreeList s free)
include h

/-- Going back from a free frame stays in the list. -/
theorem FreeList.blink_mem (hi : i ∈ free) :
    s.blink (.frame i) ∈ Link.head :: free.map Link.frame :=
  Ring.prev_mem h (List.mem_cons_of_mem _ (List.mem_map_of_mem hi))

/-- Unlinking a free frame takes it off the list. -/
theorem FreeList.remove (hi : i ∈ free) :
    FreeList (s.unlinked (.frame i)) (free.erase i) := by
  obtain ⟨l₁, l₂, hsplit⟩ := List.append_of_mem hi
  have hring : Ring s.flink s.blink .head (free.map Link.frame) := h
  have hnotin : i ∉ l₁ := by
    have hnodup := (List.nodup_cons.mp hring.nodup).2.of_map
    rw [hsplit] at hnodup
    exact fun hin => (List.nodup_append.mp hnodup).2.2 i hin i List.mem_cons_self rfl
  rw [hsplit, List.map_append] at hring
  have herase : free.erase i = l₁ ++ l₂ := by
    rw [hsplit, List.erase_append_right _ hnotin, List.erase_cons_head]
  rw [FreeList, herase, List.map_append]
  exact hring.remove

/-- Unlinking a free frame only stores to the list. -/
theorem FreeList.unlinked_flink (hi : i ∈ free) {j : ℕ} (hj : j ∉ free) :
    (s.unlinked (.frame i)).flink (.frame j) = s.flink (.frame j) := by
  apply Function.update_of_ne
  intro heq
  have hmem := h.blink_mem hi
  rw [← heq] at hmem
  simp at hmem
  exact hj hmem

/-- `ListRemoveEntry` of a free frame. -/
theorem FreeList.listRemoveEntry_run (hfree : ∀ i ∈ free, i < f.count) (hi : i ∈ free) :
    (listRemoveEntry f (.frame i)).run s = .ok () (s.unlinked (.frame i)) := by
  have hmem : Link.frame i ∈ Link.head :: free.map Link.frame :=
    List.mem_cons_of_mem _ (List.mem_map_of_mem hi)
  exact Mem.listRemoveEntry_run (mapped_of_mem hfree hmem) (mapped_of_mem hfree (Ring.next_mem h hmem))
    (mapped_of_mem hfree (h.blink_mem hi))

/-- `ListInsertHead` of a frame that is not free yet. -/
theorem FreeList.listInsertHead_run (hfree : ∀ i ∈ free, i < f.count) (hcount : i < f.count)
    (hi : i ∉ free) :
    (listInsertHead f .head (.frame i)).run s = .ok () (s.linked (.frame i)) ∧
      FreeList (s.linked (.frame i)) (i :: free) := by
  have hentry : Mapped f (.frame i) = true := mapped_frame.mpr hcount
  have hfirst : Mapped f (s.flink .head) = true :=
    mapped_of_mem hfree (Ring.next_mem h List.mem_cons_self)
  constructor
  · have h₁ : (readFlink f .head).run s = .ok (s.flink .head) s := rfl
    have h₂ : (writeFlink f (.frame i) (s.flink .head)).run s =
        .ok () { s with flink := Function.update s.flink (.frame i) (s.flink .head) } := if_pos hentry
    rw [listInsertHead, bind_of_ok h₁, bind_of_ok h₂]
    have h₃ (t : State) : (writeBlink f (.frame i) .head).run t =
        .ok () { t with blink := Function.update t.blink (.frame i) .head } := if_pos hentry
    have h₄ (t : State) : (writeBlink f (s.flink .head) (.frame i)).run t =
        .ok () { t with blink := Function.update t.blink (s.flink .head) (.frame i) } := if_pos hfirst
    rw [bind_of_ok (h₃ _), bind_of_ok (h₄ _)]
    rfl
  · apply Ring.insertHead h
    simp [hi]

end

/-- Putting a frame on the list only stores to that frame and to the list. -/
theorem State.linked_flink (s : State) {j : ℕ} (hij : j ≠ i) :
    (s.linked (.frame i)).flink (.frame j) = s.flink (.frame j) := by
  simp [State.linked, Function.update, hij]

end Vsos.Mem
