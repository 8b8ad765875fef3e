import Vsos.Vfs.BootLetter

/-!
# Unmounting the file systems of a disk

`UnmountByDisk` removes file systems from the list that it runs over. Its end is the one that the
list had at first, so that a file system which is removed in front of the last place lets the loop
look behind the end of the list.
-/

namespace Vsos.Vfs

open Vsos.Lib

variable {F D : Type} [DecidableEq F] [DecidableEq D]

/-- The places that the loop of `UnmountByDisk` looks at, each with the size that the list has at
that time. -/
def unmountVisits (disk : F → D) (d : D) : ℕ → ℕ → List F → ℕ → List (ℕ × ℕ)
  | 0, _, _, _ => []
  | count + 1, i, cells, size =>
    match cells[i]? with
    | none => []
    | some vfs =>
      if disk vfs = d then
        let kept := (cells.take size).filter (· ≠ vfs)
        (i, size) :: unmountVisits disk d count (i + 1) (kept ++ cells.drop kept.length) kept.length
      else (i, size) :: unmountVisits disk d count (i + 1) cells size

/-- `UnmountByDisk` looks at places of the list alone, and leaves the file systems of the other
disks. -/
def UnmountsDisk (disk : F → D) (d : D) (m : VFSManager F) : Prop :=
  (∀ visit ∈ unmountVisits disk d m.filesystems.length 0 m.filesystems m.filesystems.length,
      visit.1 < visit.2) ∧
    ∃ m', (unmountByDisk disk d).run m = .ok () m' ∧
      m'.filesystems = m.filesystems.filter (disk · ≠ d)

section Visits

variable {disk : F → D} {d : D} {count i size : ℕ} {cells : List F} {v : F}

omit [DecidableEq F] in
/-- Moving the others to the front leaves the number of cells. -/
theorem length_moved (p : F → Bool) (cells : List F) (size : ℕ) :
    ((cells.take size).filter p ++ cells.drop ((cells.take size).filter p).length).length =
      cells.length := by
  have hkept : ((cells.take size).filter p).length ≤ cells.length :=
    (List.length_filter_le _ _).trans (by simp)
  rw [List.length_append, List.length_drop]
  omega

/-- Removing a file system makes the list shorter. -/
theorem length_kept_lt (hv : cells[i]? = some v) (hi : i < size) :
    ((cells.take size).filter (· ≠ v)).length < cells.length := by
  have hmem : v ∈ cells.take size :=
    List.mem_iff_getElem?.mpr ⟨i, by rw [List.getElem?_take_of_lt hi, hv]⟩
  have hlt : ((cells.take size).filter (· ≠ v)).length < (cells.take size).length :=
    List.length_filter_lt_length_iff_exists.mpr ⟨v, hmem, by simp⟩
  exact hlt.trans_le (by simp)

/-- Once the list is shorter than its cells, the loop looks behind its end. -/
theorem exists_visit_behind (disk : F → D) (d : D) (count i : ℕ) (cells : List F) (size : ℕ)
    (hcount : 0 < count) (hend : i + count = cells.length) (hsize : size < cells.length) :
    ∃ visit ∈ unmountVisits disk d count i cells size, visit.2 ≤ visit.1 := by
  induction count generalizing i cells size with
  | zero => omega
  | succ count ih =>
    have hv : cells[i]? = some cells[i] := List.getElem?_eq_getElem (by omega)
    rw [unmountVisits, hv]
    simp only
    rcases Nat.eq_zero_or_pos count with rfl | hpos
    · refine ⟨(i, size), ?_, by show size ≤ i; omega⟩
      split <;> exact List.mem_cons_self
    · split
      · have hlength := length_moved (fun w => decide (w ≠ cells[i])) cells size
        have hkept : ((cells.take size).filter (· ≠ cells[i])).length ≤ size :=
          (List.length_filter_le _ _).trans (List.length_take_le size cells)
        obtain ⟨visit, hvisit, hbehind⟩ := ih (i + 1) _ _ hpos
          (by rw [hlength]; omega) (by rw [hlength]; exact hkept.trans_lt hsize)
        exact ⟨visit, List.mem_cons_of_mem _ hvisit, hbehind⟩
      · obtain ⟨visit, hvisit, hbehind⟩ := ih (i + 1) cells size hpos (by omega) hsize
        exact ⟨visit, List.mem_cons_of_mem _ hvisit, hbehind⟩

/-- The loop stays inside the list just when no file system of the disk stands in front of the last
one. -/
theorem unmountVisits_inside_iff (hend : i + count = cells.length) :
    (∀ visit ∈ unmountVisits disk d count i cells cells.length, visit.1 < visit.2) ↔
      ∀ j, i ≤ j → j + 1 < cells.length → ∀ w ∈ cells[j]?, disk w ≠ d := by
  induction count generalizing i with
  | zero =>
    refine ⟨fun _ j hij hj => by omega, fun _ visit hvisit => ?_⟩
    simp [unmountVisits] at hvisit
  | succ count ih =>
    have hi : i < cells.length := by omega
    have hv : cells[i]? = some cells[i] := List.getElem?_eq_getElem hi
    rw [unmountVisits, hv]
    simp only
    by_cases hd : disk cells[i] = d
    · rw [if_pos hd]
      rcases Nat.eq_zero_or_pos count with rfl | hpos
      · refine ⟨fun _ j hij hj => by omega, fun _ visit hvisit => ?_⟩
        rw [unmountVisits, List.mem_singleton] at hvisit
        subst hvisit
        exact hi
      · have hlength := length_moved (fun w => decide (w ≠ cells[i])) cells cells.length
        obtain ⟨visit, hvisit, hbehind⟩ := exists_visit_behind disk d count (i + 1) _ _ hpos
          (by rw [hlength]; omega) (by rw [hlength]; exact length_kept_lt hv hi)
        constructor
        · intro h
          have hinside := h visit (List.mem_cons_of_mem _ hvisit)
          omega
        · intro h
          exact absurd hd (h i le_rfl (by omega) _ hv)
    · rw [if_neg hd, List.forall_mem_cons, ih (by omega)]
      constructor
      · rintro ⟨-, h⟩ j hij hj w hw
        rcases hij.eq_or_lt with rfl | hlt
        · rw [hv] at hw
          cases hw
          exact hd
        · exact h j hlt hj w hw
      · intro h
        exact ⟨hi, fun j hij hj => h j (by omega) hj⟩

end Visits

section Removal

variable {disk : F → D} {d : D} {filesystems : List F}

omit [DecidableEq F] [DecidableEq D] in
/-- All file systems but the last one, by their places. -/
theorem forall_mem_dropLast_iff :
    (∀ w ∈ filesystems.dropLast, disk w ≠ d) ↔
      ∀ j, 0 ≤ j → j + 1 < filesystems.length → ∀ w ∈ filesystems[j]?, disk w ≠ d := by
  constructor
  · intro h j _ hj w hw
    refine h w (List.mem_iff_getElem?.mpr ⟨j, ?_⟩)
    rw [List.getElem?_dropLast, if_pos (by omega)]
    exact hw
  · intro h w hw
    obtain ⟨j, hj⟩ := List.mem_iff_getElem?.mp hw
    rw [List.getElem?_dropLast] at hj
    split at hj
    · exact h j (Nat.zero_le j) (by omega) w hj
    · cases hj

/-- With the last file system alone on the disk, the loop removes what it should. -/
theorem changed_of_dropLast (h : ∀ w ∈ filesystems.dropLast, disk w ≠ d) :
    changed disk filesystems (.unmountByDisk d) = filesystems.filter (disk · ≠ d) := by
  by_cases hany : ∃ v ∈ filesystems, disk v = d
  · obtain ⟨v, hv, hd⟩ := hany
    -- The one on the disk is the last one, and the loop meets it there.
    have hne : filesystems ≠ [] := List.ne_nil_of_mem hv
    have hsplit := List.dropLast_append_getLast hne
    have hlast : filesystems.getLast hne = v := by
      rw [← hsplit, List.mem_append, List.mem_singleton] at hv
      rcases hv with hfront | heq
      · exact absurd hd (h v hfront)
      · exact heq.symm
    have hplace : filesystems[filesystems.dropLast.length]? = some v := by
      rw [List.length_dropLast, ← List.getLast?_eq_getElem?, List.getLast?_eq_getLast_of_ne_nil hne, hlast]
    obtain ⟨removed, hremoved, hmem, heq⟩ := changed_unmountByDisk_first hplace hd (by
      rw [List.length_dropLast, ← List.dropLast_eq_take]
      exact h)
    rw [heq]
    refine List.filter_congr fun w hw => decide_eq_decide.mpr ?_
    constructor
    · intro hnot hwd
      rw [← hsplit, List.mem_append, List.mem_singleton, hlast] at hw
      rcases hw with hfront | rfl
      · exact h w hfront hwd
      · exact hnot hmem
    · intro hwd hin
      exact hwd (hremoved w hin)
  · push Not at hany
    obtain ⟨removed, hremoved, heq⟩ := changed_unmountByDisk disk filesystems d
    rw [heq]
    refine List.filter_congr fun w hw => decide_eq_decide.mpr ?_
    exact ⟨fun _ => hany w hw, fun hwd hin => hwd (hremoved w hin)⟩

/-- `UnmountByDisk` does its work just when none but the last file system is on the disk. -/
theorem unmountsDisk_iff (disk : F → D) (d : D) (m : VFSManager F) :
    UnmountsDisk disk d m ↔ ∀ w ∈ m.filesystems.dropLast, disk w ≠ d := by
  rw [UnmountsDisk, unmountVisits_inside_iff (Nat.zero_add _), ← forall_mem_dropLast_iff]
  constructor
  · exact And.left
  · intro h
    exact ⟨h, _, rfl, changed_of_dropLast h⟩

/-- Of three partitions of a disk, the second stays mounted. -/
theorem not_unmountsDisk :
    ¬ ∀ (disk : ℕ → ℕ) (d : ℕ) (m : VFSManager ℕ), UnmountsDisk disk d m := by
  intro h
  obtain ⟨-, m', hrun, hlist⟩ := h (fun _ => 0) 0 { filesystems := [1, 2, 3], bootPartitionID := 0 }
  cases hrun
  exact absurd hlist (by decide)

end Removal

end Vsos.Vfs
