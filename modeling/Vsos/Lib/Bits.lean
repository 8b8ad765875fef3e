import Mathlib.Data.Nat.Bitwise
import Mathlib.Tactic.Ring

/-!
# Single bits of machine words

A one-bit field of a word is set by an or with its mask and cleared by an and with the
complement. The frame of a word is what is left of it without the twelve low bits.
-/

namespace Vsos.Lib

/-- The word after a one-bit field was assigned. -/
def putBit (x : BitVec 64) (i : ℕ) (b : Bool) : BitVec 64 :=
  if b then x ||| (1#64 <<< i) else x &&& ~~~(1#64 <<< i)

/-- Reading a bit after an assignment. -/
theorem getLsbD_putBit (x : BitVec 64) {i j : ℕ} (b : Bool) (hj : j < 64) :
    (putBit x i b).getLsbD j = if j = i then b else x.getLsbD j := by
  rw [putBit]
  by_cases hij : j = i
  · subst hij
    cases b <;> simp [← BitVec.twoPow_eq, hj]
  · cases b <;> simp [← BitVec.twoPow_eq, hj, hij]

/-- The assigned bit. -/
theorem getLsbD_putBit_self (x : BitVec 64) {i : ℕ} (b : Bool) (hi : i < 64) :
    (putBit x i b).getLsbD i = b := by
  rw [getLsbD_putBit x b hi, if_pos rfl]

/-- The other bits. -/
theorem getLsbD_putBit_of_ne (x : BitVec 64) {i j : ℕ} (b : Bool) (hne : j ≠ i) (hj : j < 64) :
    (putBit x i b).getLsbD j = x.getLsbD j := by
  rw [getLsbD_putBit x b hj, if_neg hne]

/-- The word with the twelve low bits cleared. -/
def frame (x : BitVec 64) : ℕ := (x &&& ~~~0xFFF#64).toNat

/-- The mask of the twelve low bits. -/
theorem getLsbD_low (i : ℕ) : (0xFFF#64).getLsbD i = decide (i < 12) := by
  rw [show (0xFFF#64) = BitVec.ofNat 64 (2 ^ 12 - 1) from rfl, BitVec.getLsbD_ofNat,
    Nat.testBit_two_pow_sub_one]
  by_cases hi : i < 12
  · simp [hi, Nat.lt_trans hi (show 12 < 64 by decide)]
  · simp [hi]

/-- The frame as a number. -/
theorem frame_eq (x : BitVec 64) : frame x = x.toNat / 4096 * 4096 := by
  have hshift : x &&& ~~~0xFFF#64 = (x >>> 12) <<< 12 := by
    apply BitVec.eq_of_getLsbD_eq
    intro i hi
    rw [BitVec.getLsbD_and, BitVec.getLsbD_not, getLsbD_low, BitVec.getLsbD_shiftLeft]
    by_cases hlow : i < 12
    · simp [hlow]
    · simp [hlow, hi, Nat.add_sub_cancel' (not_lt.mp hlow)]
  rw [frame, hshift, BitVec.toNat_shiftLeft, BitVec.toNat_ushiftRight, Nat.shiftRight_eq_div_pow]
  omega

/-- Assigning one of the low bits does not change the frame. -/
theorem frame_putBit (x : BitVec 64) {i : ℕ} (b : Bool) (hi : i < 12) :
    frame (putBit x i b) = frame x := by
  rw [frame]
  congr 1
  apply BitVec.eq_of_getLsbD_eq
  intro j hj
  simp only [BitVec.getLsbD_and, BitVec.getLsbD_not, getLsbD_low, getLsbD_putBit x b hj]
  by_cases hji : j = i
  · simp [hji, hi]
  · simp [hji]

end Vsos.Lib
