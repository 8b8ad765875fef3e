import Mathlib.Data.Fin.Basic
import Mathlib.Data.List.Range
import Mathlib.Data.Nat.ModEq
import Mathlib.Tactic.Ring

/-!
# Windows of a circular array

A window of an array starts at some position and goes on at the front of the array where it
reaches the end. A window that does not cover the whole array grows at its end by one store,
and every window shrinks at its start by moving the start.
-/

namespace Vsos.Lib

variable {T : Type} {N : ℕ} [NeZero N]

/-- The `count` elements from position `start` on, around the end of the array. -/
def window (array : Vector T N) (start count : ℕ) : List T :=
  (List.range count).map fun i => array.get (Fin.ofNat N (start + i))

section

variable (array : Vector T N)
include array

/-- A window has as many items as it is asked for. -/
@[simp] theorem length_window (start count : ℕ) :
    (window array start count).length = count := by
  simp [window]

/-- The start of a window counts modulo the size of the array. -/
theorem window_mod (start count : ℕ) :
    window array (start % N) count = window array start count := by
  refine List.map_congr_left fun i _ => ?_
  have hpos : Fin.ofNat N (start % N + i) = Fin.ofNat N (start + i) := by
    ext
    simp
  rw [hpos]

/-- The first element of a window stands at its start. -/
theorem window_succ (start count : ℕ) :
    window array start (count + 1) =
      array.get (Fin.ofNat N start) :: window array (start + 1) count := by
  rw [window, List.range_succ_eq_map, List.map_cons, List.map_map]
  refine congrArg _ (List.map_congr_left fun i _ => ?_)
  rw [Function.comp_apply, add_assoc, add_comm 1 i]

end

/-- The positions of a window that is not longer than the array differ. -/
theorem ofNat_ne_of_lt {start count i : ℕ} (hi : i < count) (hcount : count < N) :
    Fin.ofNat N (start + i) ≠ Fin.ofNat N (start + count) := by
  intro heq
  have hmod : start + i ≡ start + count [MOD N] := congrArg Fin.val heq
  have hsame := (Nat.ModEq.add_left_cancel' start hmod).eq_of_lt_of_lt (hi.trans hcount) hcount
  exact hi.ne hsame

/-- A store behind a window that does not cover the array makes the window one longer. -/
theorem window_set (array : Vector T N) (start : ℕ) {count : ℕ} (hcount : count < N) (item : T) :
    window (array.set (Fin.ofNat N (start + count)) item) start (count + 1) =
      window array start count ++ [item] := by
  rw [window, List.range_succ, List.map_append]
  congr 1
  · refine List.map_congr_left fun i hi => ?_
    have hne : Fin.ofNat N (start + i) ≠ Fin.ofNat N (start + count) :=
      ofNat_ne_of_lt (List.mem_range.mp hi) hcount
    have hval := fun heq => hne (Fin.ext heq).symm
    exact Vector.getElem_set_ne _ _ hval
  · refine congrArg (fun x => [x]) ?_
    exact Vector.getElem_set_self _

end Vsos.Lib
