import Vsos.Crt.Copy

/-!
# Scrolling

`Scroll` moves the rows of the picture up by a `memmove` and clears the rows at the bottom. The
source of the move overlaps its destination.
-/

namespace Vsos.Gfx

open Vsos.Lib Vsos.Crt

/-- The pixel in column `x` and row `y`. -/
def pixel (b : Bytes) (base width x y : ℕ) : ℕ := b.u32 (base + (y * width + x) * 4)

/-- `Scroll`. -/
def scroll (base width height yOffset : ℕ) (r : Ram) : Ram :=
  let count := (height - yOffset) * width
  let moved := memmove base (base + yOffset * width * 4) (count * 4) r
  memset (base + count * 4) 0 (wrap32 (yOffset * width * 4)) moved

/-- The rows that remain and those that go make up the picture. -/
theorem rows_add {height yOffset : ℕ} (width : ℕ) (hoffset : yOffset ≤ height) :
    (height - yOffset) * width + yOffset * width = width * height := by
  rw [← Nat.add_mul, Nat.sub_add_cancel hoffset, Nat.mul_comm]

/-- `Scroll` moves the picture up, clears the rows below, and stores nothing elsewhere. -/
theorem scroll_shifts {width height yOffset : ℕ} (base : ℕ) (bytes : Bytes)
    (hsize : width * height * 4 < 2 ^ 31) (hoffset : yOffset ≤ height) :
    (∀ x < width, ∀ y < height,
      pixel (scroll base width height yOffset ⟨bytes, []⟩).bytes base width x y =
        if y + yOffset < height then pixel bytes base width x (y + yOffset) else 0) ∧
      ∀ a ∈ (scroll base width height yOffset ⟨bytes, []⟩).written,
        base ≤ a ∧ a < base + width * height * 4 := by
  have hrows := rows_add width hoffset
  have hmove := memmove_stores base (base + yOffset * width * 4)
    (show (height - yOffset) * width * 4 ≤ 2 ^ 31 by omega) ⟨bytes, []⟩
  have hclear := memset_stores (base + (height - yOffset) * width * 4) 0
    (wrap32 (yOffset * width * 4)) (memmove base (base + yOffset * width * 4)
      ((height - yOffset) * width * 4) ⟨bytes, []⟩)
  rw [wrap32_of_lt (by omega)] at hclear
  rw [scroll, wrap32_of_lt (by omega)]
  refine ⟨fun x hx y hy => ?_, fun a ha => ?_⟩
  · have hsum : (y + yOffset) * width = y * width + yOffset * width := Nat.add_mul ..
    rw [hclear.bytes, hmove.bytes]
    split
    · next hremains =>
      have hrow : (y + 1) * width ≤ (height - yOffset) * width := Nat.mul_le_mul_right _ (by omega)
      rw [Nat.succ_mul] at hrow
      refine Bytes.u32_congr fun k hk => ?_
      rw [Bytes.blit_of_not_mem (by omega), Bytes.blit_of_mem (by omega) (by omega)]
      refine congrArg bytes ?_
      omega
    · next hgone =>
      have hrow : (height - yOffset) * width ≤ y * width := Nat.mul_le_mul_right _ (by omega)
      have hlast : (y + 1) * width ≤ width * height := by
        rw [Nat.mul_comm width]
        exact Nat.mul_le_mul_right _ hy
      rw [Nat.succ_mul] at hlast
      refine (Bytes.u32_congr (b := fun _ => 0) (j := 0) fun k hk => ?_).trans rfl
      exact Bytes.blit_of_mem (by omega) (by omega)
  · rcases hclear.written a ha with hcleared | hmoved
    · omega
    · have := (hmove.written a hmoved).resolve_right nofun
      omega

/-- A picture of two columns and three rows, moved up by one row. -/
theorem scroll_shifts_three :
    pixel (scroll 16 2 3 1 ⟨fun a => UInt8.ofNat a, []⟩).bytes 16 2 1 1 =
      pixel (fun a => UInt8.ofNat a) 16 2 1 2 :=
  (scroll_shifts 16 (fun a => UInt8.ofNat a) (by decide) (by decide)).1 1 (by decide) 1 (by decide)

end Vsos.Gfx
