import Vsos.Lib.Memory

/-!
# Filled rectangles

`DrawRectangle` fills a rectangle row by row and clips each row by the difference of the width and
the left edge. The difference is unsigned, so a left edge behind the last column clips nothing, and
the row is filled further down on the screen or behind its end.
-/

namespace Vsos.Gfx

open Vsos.Lib

/-- `Color`, four bytes. -/
abbrev Color := UInt32

/-- `Rectangle`. -/
structure Rectangle where
  x : ℕ
  y : ℕ
  width : ℕ
  height : ℕ

/-- The pixels by their distance from the start of the buffer, and where pixels were stored. -/
structure Canvas where
  pixels : ℕ → Color
  stores : List ℕ

/-- `SetPixels`. -/
def setPixels (color : Color) : ℕ → ℕ → Canvas → Canvas
  | _, 0, c => c
  | dst, size + 1, c =>
    setPixels color (dst + 1) size ⟨Function.update c.pixels dst color, dst :: c.stores⟩

/-- The number of pixels in a row, with an unsigned difference. -/
def rowCount (width : ℕ) (region : Rectangle) : ℕ :=
  min region.width (wrap64 (width + (2 ^ 64 - region.x)))

/-- The loop of `DrawRectangle` from the row `y` on, with `rows` rows to go. -/
def drawRows (width height : ℕ) (color : Color) (region : Rectangle) : ℕ → ℕ → Canvas → Canvas
  | _, 0, c => c
  | y, rows + 1, c =>
    if height ≤ y + region.y then c
    else
      drawRows width height color region (y + 1) rows
        (setPixels color ((region.y + y) * width + region.x) (rowCount width region) c)

/-- `DrawRectangle`. -/
def drawRectangle (width height : ℕ) (color : Color) (region : Rectangle) : Canvas → Canvas :=
  drawRows width height color region 0 region.height

/-- The pixels of the rectangle get the color, the others on the screen are kept, and no pixel is
stored elsewhere. -/
def DrawsExactly (width height : ℕ) (region : Rectangle) : Prop :=
  ∀ (color : Color) (pixels : ℕ → Color),
    (∀ x < width, ∀ y < height,
      (drawRectangle width height color region ⟨pixels, []⟩).pixels (y * width + x) =
        if (region.x ≤ x ∧ x < region.x + region.width) ∧
            (region.y ≤ y ∧ y < region.y + region.height)
        then color else pixels (y * width + x)) ∧
      ∀ i ∈ (drawRectangle width height color region ⟨pixels, []⟩).stores, i < width * height

/-- Just the places of a set have been stored to, with one color. -/
structure Fills (color : Color) (P : ℕ → Prop) (c d : Canvas) : Prop where
  inside : ∀ i, P i → d.pixels i = color
  outside : ∀ i, ¬ P i → d.pixels i = c.pixels i
  stores : ∀ i, i ∈ d.stores ↔ P i ∨ i ∈ c.stores

variable {color : Color} {P Q R : ℕ → Prop} {c d e : Canvas} {width height : ℕ} {region : Rectangle}

/-- Nothing has been stored yet. -/
theorem Fills.refl (hP : ∀ i, ¬ P i) : Fills color P c c where
  inside i hi := absurd hi (hP i)
  outside _ _ := rfl
  stores i := (or_iff_right (hP i)).symm

/-- The places of two fills one after the other. -/
theorem Fills.trans (h : Fills color P c d) (h' : Fills color Q d e) (hR : ∀ i, R i ↔ P i ∨ Q i) :
    Fills color R c e where
  inside i hi := by
    by_cases hQ : Q i
    · exact h'.inside i hQ
    · rw [h'.outside i hQ]
      exact h.inside i (((hR i).mp hi).resolve_right hQ)
  outside i hi := by
    obtain ⟨hP, hQ⟩ := not_or.mp (mt (hR i).mpr hi)
    rw [h'.outside i hQ, h.outside i hP]
  stores i := by
    rw [h'.stores, h.stores, hR, or_left_comm, or_assoc]

/-- `SetPixels` fills a stretch. -/
theorem setPixels_fills (dst size : ℕ) (c : Canvas) :
    Fills color (fun i => dst ≤ i ∧ i < dst + size) c (setPixels color dst size c) := by
  induction size generalizing dst c with
  | zero => exact Fills.refl fun i => by omega
  | succ size ih =>
    have hone : Fills color (· = dst) c ⟨Function.update c.pixels dst color, dst :: c.stores⟩ := by
      refine ⟨fun i hi => ?_, fun i hi => Function.update_of_ne hi .., fun i => List.mem_cons⟩
      rw [hi]
      exact Function.update_self ..
    exact hone.trans (ih (dst + 1) _) fun i => by omega

/-- A place in the row `k` of the rectangle, as far as it is on the screen. -/
def InRow (width height : ℕ) (region : Rectangle) (k i : ℕ) : Prop :=
  k + region.y < height ∧ (region.y + k) * width + region.x ≤ i ∧
    i < (region.y + k) * width + region.x + rowCount width region

/-- The loop fills the rows that it has to go. -/
theorem drawRows_fills (y rows : ℕ) (c : Canvas) :
    Fills color (fun i => ∃ k, y ≤ k ∧ k < y + rows ∧ InRow width height region k i) c
      (drawRows width height color region y rows c) := by
  induction rows generalizing y c with
  | zero => exact Fills.refl fun i => by rintro ⟨k, hle, hlt, -⟩; omega
  | succ rows ih =>
    rw [drawRows]
    split
    · next hout =>
      refine Fills.refl fun i => ?_
      rintro ⟨k, hle, -, hk, -⟩
      omega
    · next hin =>
      refine (setPixels_fills _ _ c).trans (ih (y + 1) _) fun i => ?_
      constructor
      · rintro ⟨k, hle, hlt, hk⟩
        rcases Nat.eq_or_lt_of_le hle with rfl | hlater
        · exact Or.inl hk.2
        · exact Or.inr ⟨k, hlater, by omega, hk⟩
      · rintro (hrow | ⟨k, hle, hlt, hk⟩)
        · exact ⟨y, le_rfl, by omega, by omega, hrow⟩
        · exact ⟨k, by omega, by omega, hk⟩

/-- `DrawRectangle` fills all rows. -/
theorem drawRectangle_fills (width height : ℕ) (color : Color) (region : Rectangle) (c : Canvas) :
    Fills color (fun i => ∃ k < region.height, InRow width height region k i) c
      (drawRectangle width height color region c) := by
  rw [drawRectangle]
  simpa only [Nat.zero_le, true_and, Nat.zero_add] using
    @drawRows_fills color width height region 0 region.height c

/-- A place and its row and column. -/
theorem row_eq_of_place {a b x z w : ℕ} (h : a * w + x = b * w + z) (hx : x < w) (hz : z < w) :
    a = b ∧ x = z := by
  have hw : 0 < w := Nat.zero_lt_of_lt hx
  have hrow : (x + a * w) / w = (z + b * w) / w := by rw [Nat.add_comm x, h, Nat.add_comm]
  rw [Nat.add_mul_div_right _ _ hw, Nat.add_mul_div_right _ _ hw, Nat.div_eq_of_lt hx,
    Nat.div_eq_of_lt hz, Nat.zero_add, Nat.zero_add] at hrow
  subst hrow
  exact ⟨rfl, Nat.add_left_cancel h⟩

/-- With the left edge on the screen, a row is clipped at the right edge. -/
theorem rowCount_of_le (hleft : region.x ≤ width) (hwidth : width < 2 ^ 64) :
    rowCount width region = min region.width (width - region.x) := by
  rw [rowCount, wrap64]
  congr 1
  omega

/-- With the left edge on the screen, the rows are those of the rectangle. -/
theorem inRow_iff (hleft : region.x ≤ width) (hwidth : width < 2 ^ 64) {k x y : ℕ} (hx : x < width) :
    InRow width height region k (y * width + x) ↔
      k + region.y < height ∧ region.y + k = y ∧ region.x ≤ x ∧ x < region.x + region.width := by
  rw [InRow, rowCount_of_le hleft hwidth]
  constructor
  · rintro ⟨hk, hle, hlt⟩
    obtain ⟨d, hd⟩ := Nat.exists_eq_add_of_le hle
    have hsum : y * width + x = (region.y + k) * width + (region.x + d) := by omega
    obtain ⟨hrow, hcolumn⟩ := row_eq_of_place hsum hx (by omega)
    exact ⟨hk, hrow.symm, by omega, by omega⟩
  · rintro ⟨hk, rfl, hle, hlt⟩
    exact ⟨hk, by omega, by omega⟩

/-- It is enough that the rows are those of the rectangle, and on the screen. -/
theorem drawsExactly_of_inRow
    (hpixels : ∀ x < width, ∀ y < height,
      (∃ k < region.height, InRow width height region k (y * width + x)) ↔
        (region.x ≤ x ∧ x < region.x + region.width) ∧ region.y ≤ y ∧ y < region.y + region.height)
    (hstores : ∀ k < region.height, ∀ i, InRow width height region k i → i < width * height) :
    DrawsExactly width height region := by
  intro color pixels
  have hfills := drawRectangle_fills width height color region ⟨pixels, []⟩
  refine ⟨fun x hx y hy => ?_, fun i hi => ?_⟩
  · split
    · next hmem => exact hfills.inside _ ((hpixels x hx y hy).mpr hmem)
    · next hmem => exact hfills.outside _ (mt (hpixels x hx y hy).mp hmem)
  · obtain ⟨k, hk, hrow⟩ := ((hfills.stores i).mp hi).resolve_right (by simp)
    exact hstores k hk i hrow

/-- With its left edge on the screen or at its end, a rectangle is drawn exactly. -/
theorem drawsExactly_of_left (hleft : region.x ≤ width) (hwidth : width < 2 ^ 64) :
    DrawsExactly width height region := by
  refine drawsExactly_of_inRow (fun x hx y hy => ?_) fun k _ i hrow => ?_
  · simp only [inRow_iff hleft hwidth hx]
    constructor
    · rintro ⟨k, hk, -, rfl, hcolumn⟩
      exact ⟨hcolumn, by omega⟩
    · rintro ⟨hcolumn, hle, hlt⟩
      exact ⟨y - region.y, by omega, by omega, by omega, hcolumn⟩
  · obtain ⟨hk, -, hlt⟩ := hrow
    have hrow : (region.y + k + 1) * width ≤ height * width := Nat.mul_le_mul_right _ (by omega)
    rw [rowCount_of_le hleft hwidth] at hlt
    rw [Nat.succ_mul] at hrow
    rw [Nat.mul_comm width]
    omega

/-- A rectangle below the screen, or without a width or a height, is drawn exactly. -/
theorem drawsExactly_of_empty (h : height ≤ region.y ∨ region.width = 0 ∨ region.height = 0) :
    DrawsExactly width height region := by
  have hnone (k : ℕ) (hk : k < region.height) (i : ℕ) : ¬ InRow width height region k i := by
    rintro ⟨hrow, hle, hlt⟩
    have hempty : region.width = 0 := by omega
    rw [rowCount, hempty, Nat.zero_min] at hlt
    omega
  refine drawsExactly_of_inRow (fun x hx y hy => ?_) fun k hk i hrow => absurd hrow (hnone k hk i)
  refine iff_of_false ?_ (by omega)
  rintro ⟨k, hk, hrow⟩
  exact hnone k hk _ hrow

/-- A rectangle is drawn exactly just when its left edge is on the screen or at its end, or
nothing is drawn. -/
theorem drawsExactly_iff (hsize : width * height < 2 ^ 32) (hx : region.x < 2 ^ 32) :
    DrawsExactly width height region ↔
      region.x ≤ width ∨ height ≤ region.y ∨ region.width = 0 ∨ region.height = 0 := by
  constructor
  · intro h
    by_contra hnot
    simp only [not_or, not_le] at hnot
    obtain ⟨hleft, htop, hpos, hrows⟩ := hnot
    obtain ⟨hpixels, hstores⟩ := h 1 fun _ => 0
    have hfills := drawRectangle_fills width height 1 region ⟨fun _ => 0, []⟩
    -- the first pixel that is stored
    let i := (region.y + 0) * width + region.x
    have hcount : 0 < rowCount width region := by
      rw [rowCount, wrap64]
      omega
    have hi : ∃ k < region.height, InRow width height region k i :=
      ⟨0, by omega, by omega, le_rfl, Nat.lt_add_of_pos_right hcount⟩
    have hin : i < width * height := hstores i ((hfills.stores i).mpr (Or.inl hi))
    have hwidth : 0 < width := Nat.pos_of_mul_pos_right (Nat.zero_lt_of_lt hin)
    have hcolumn : i % width < width := Nat.mod_lt _ hwidth
    have hpixel := hpixels (i % width) hcolumn (i / width) (Nat.div_lt_of_lt_mul hin)
    rw [Nat.div_add_mod', if_neg (by omega)] at hpixel
    exact absurd ((hfills.inside i hi).symm.trans hpixel) (by decide)
  · intro h
    by_cases hon : region.x ≤ width ∧ region.y < height
    · have hwidth := Nat.le_mul_of_pos_right width (Nat.zero_lt_of_lt hon.2)
      exact drawsExactly_of_left hon.1 (by omega)
    · exact drawsExactly_of_empty (by omega)

/-- A rectangle at the right edge, half of which is cut off. -/
theorem drawsExactly_edge : DrawsExactly 4 4 ⟨3, 0, 2, 2⟩ :=
  (drawsExactly_iff (by decide) (by decide)).mpr (Or.inl (by decide))

/-- A pixel behind the end of a row is drawn in the next row. -/
theorem not_drawsExactly :
    ¬ ∀ (width height : ℕ) (region : Rectangle), width * height < 2 ^ 32 → region.x < 2 ^ 32 →
      region.y < 2 ^ 32 → region.width < 2 ^ 32 → region.height < 2 ^ 32 →
      DrawsExactly width height region := by
  intro h
  have hexact := h 4 4 ⟨5, 0, 1, 1⟩ (by decide) (by decide) (by decide) (by decide) (by decide)
  exact absurd ((hexact 1 fun _ => 0).1 1 (by decide) 1 (by decide)) (by decide)

end Vsos.Gfx
