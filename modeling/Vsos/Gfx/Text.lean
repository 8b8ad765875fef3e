import Vsos.Lib.Memory

/-!
# The place of printed text

`DrawText` moves a cursor over the screen. A line is broken when the cursor has left the screen at
the right, which says nothing of a glyph that begins in the last columns, and the picture is
scrolled by one line at most for a character, however many lines the text has moved down.
-/

namespace Vsos.Gfx

open Vsos.Lib

/-- `Point2D`. -/
structure Point2D where
  x : ℕ
  y : ℕ

/-- `GetFontWidth`. -/
def fontWidth : ℕ := 8

/-- `GetFontHeight`. -/
def fontHeight : ℕ := 16

/-- Where `DrawText` draws a glyph: at the start of the next line if the cursor has left the
screen at the right, and a line further up if the picture has to be scrolled. -/
def glyphPosition (width height : ℕ) (pos : Point2D) : Point2D :=
  let pos := if width ≤ pos.x then ⟨0, wrap64 (pos.y + fontHeight)⟩ else pos
  if height ≤ wrap64 (pos.y + fontHeight) then ⟨pos.x, wrap64 (pos.y + (2 ^ 64 - fontHeight))⟩ else pos

/-- `DrawText`: the positions of the glyphs. -/
def drawText (width height : ℕ) : Point2D → List UInt8 → List Point2D
  | _, [] => []
  | pos, c :: text =>
    if c = 0x0A then drawText width height ⟨0, wrap64 (pos.y + fontHeight)⟩ text
    else if c = 0x09 then drawText width height ⟨wrap64 (pos.x + fontWidth * 4), pos.y⟩ text
    else if c ≠ 0x0D then
      let p := glyphPosition width height pos
      p :: drawText width height ⟨wrap64 (p.x + fontWidth), p.y⟩ text
    else drawText width height pos text

/-- Every glyph of the text is on the screen. -/
def TextStays (width height : ℕ) (pos : Point2D) (text : List UInt8) : Prop :=
  ∀ p ∈ drawText width height pos text, p.x + 8 ≤ width ∧ p.y + 16 ≤ height

/-- No line feed is followed by another one or by a tabulator before the next glyph. The flag tells
whether there was a line feed since the last glyph. -/
def tame : Bool → List UInt8 → Bool
  | _, [] => true
  | fed, c :: text =>
    if c = 0x0A then !fed && tame true text
    else if c = 0x09 then !fed && tame false text
    else if c ≠ 0x0D then tame false text
    else tame fed text

variable {width height : ℕ} {pos : Point2D} {text : List UInt8} {fed : Bool}

/-- The cursor is in a column of glyphs. It is in a row of glyphs, or at the start of the line
behind one. -/
structure Cursor (height : ℕ) (fed : Bool) (pos : Point2D) : Prop where
  column : 8 ∣ pos.x
  row : fed = false → pos.y + 16 < height
  line : fed = true → pos.x = 0 ∧ 16 ≤ pos.y ∧ pos.y < height

/-- A glyph at such a cursor is on the screen. -/
theorem Cursor.glyphPosition (h : Cursor height fed pos) (hwidth : 8 ≤ width) (hcolumns : 8 ∣ width)
    (hheight : height < 2 ^ 62) :
    8 ∣ (glyphPosition width height pos).x ∧ (glyphPosition width height pos).x + 8 ≤ width ∧
      (glyphPosition width height pos).y + 16 < height := by
  -- the cursor after a line has been broken
  have hbreak : ∃ x y, (if width ≤ pos.x then ⟨0, wrap64 (pos.y + fontHeight)⟩ else pos) =
      Point2D.mk x y ∧ 8 ∣ x ∧ x + 8 ≤ width ∧ (y + 16 < height ∨ 16 ≤ y ∧ y < height) := by
    obtain ⟨hcolumn, hrow, hline⟩ := h
    cases fed with
    | false =>
      have hrow := hrow rfl
      split
      · exact ⟨0, _, rfl, Nat.dvd_zero 8, by omega, Or.inr (by rw [wrap64, fontHeight]; omega)⟩
      · exact ⟨_, _, rfl, hcolumn, by omega, Or.inl hrow⟩
    | true =>
      obtain ⟨hzero, hrow⟩ := hline rfl
      rw [if_neg (by omega)]
      exact ⟨_, _, rfl, hcolumn, by omega, Or.inr hrow⟩
  obtain ⟨x, y, heq, hcolumn, hx, hy⟩ := hbreak
  rw [Gfx.glyphPosition, heq]
  by_cases hscroll : height ≤ wrap64 (y + fontHeight)
  · rw [if_pos hscroll]
    rw [wrap64, fontHeight] at hscroll
    refine ⟨hcolumn, hx, ?_⟩
    simp only [wrap64, fontHeight]
    omega
  · rw [if_neg hscroll]
    rw [wrap64, fontHeight] at hscroll
    exact ⟨hcolumn, hx, by simp only; omega⟩

/-- Tame text stays on the screen. -/
theorem Cursor.textStays (h : Cursor height fed pos) (hwidth : 8 ≤ width) (hcolumns : 8 ∣ width)
    (hheight : height < 2 ^ 62) (htame : tame fed text = true) : TextStays width height pos text := by
  induction text generalizing fed pos with
  | nil => simp [TextStays, drawText]
  | cons c text ih =>
    rw [tame] at htame
    rw [TextStays, drawText]
    split
    · next hfeed =>
      rw [if_pos hfeed, Bool.and_eq_true, Bool.not_eq_true'] at htame
      have hrow := h.row htame.1
      have hnext : wrap64 (pos.y + fontHeight) = pos.y + 16 := wrap64_of_lt (by rw [fontHeight]; omega)
      rw [hnext]
      exact @ih ⟨0, pos.y + 16⟩ true ⟨Nat.dvd_zero 8, by simp, fun _ => ⟨rfl, by simp, hrow⟩⟩ htame.2
    · next hfeed =>
      rw [if_neg hfeed] at htame
      split
      · next htab =>
        rw [if_pos htab, Bool.and_eq_true, Bool.not_eq_true'] at htame
        have hcolumn := h.column
        have hnext : 8 ∣ wrap64 (pos.x + fontWidth * 4) := by
          rw [wrap64, fontWidth]
          omega
        exact @ih ⟨_, pos.y⟩ false ⟨hnext, fun _ => h.row htame.1, by simp⟩ htame.2
      · next htab =>
        rw [if_neg htab] at htame
        split
        · next hglyph =>
          rw [if_pos hglyph] at htame
          obtain ⟨hcolumn, hx, hy⟩ := h.glyphPosition hwidth hcolumns hheight
          have hnext : 8 ∣ wrap64 ((Gfx.glyphPosition width height pos).x + fontWidth) := by
            rw [wrap64, fontWidth]
            omega
          exact List.forall_mem_cons.mpr
            ⟨⟨hx, by omega⟩, @ih ⟨_, _⟩ false ⟨hnext, fun _ => hy, by simp⟩ htame⟩
        · next hreturn =>
          rw [if_neg hreturn] at htame
          exact ih h htame

/-- The column of a glyph. -/
theorem glyphPosition_x (width height : ℕ) (pos : Point2D) :
    (glyphPosition width height pos).x = if width ≤ pos.x then 0 else pos.x := by
  rw [glyphPosition]
  split <;> split <;> rfl

/-- The letters of a line, up to a letter in one of its columns. -/
theorem drawText_letters (hwidth : width < 2 ^ 62) (j : ℕ) (rest : List UInt8)
    (hj : (glyphPosition width height pos).x + 8 * j < width) :
    ∃ front p, drawText width height pos (List.replicate (j + 1) 0x61 ++ rest) =
        front ++ p :: drawText width height ⟨wrap64 (p.x + fontWidth), p.y⟩ rest ∧
      p.x = (glyphPosition width height pos).x + 8 * j := by
  induction j generalizing pos with
  | zero => exact ⟨[], _, rfl, rfl⟩
  | succ j ih =>
    have htext : drawText width height pos (List.replicate (j + 2) 0x61 ++ rest) =
        glyphPosition width height pos :: drawText width height
          ⟨wrap64 ((glyphPosition width height pos).x + fontWidth), (glyphPosition width height pos).y⟩
          (List.replicate (j + 1) 0x61 ++ rest) := rfl
    generalize glyphPosition width height pos = p at hj htext
    have hnext : wrap64 (p.x + fontWidth) = p.x + 8 := wrap64_of_lt (by rw [fontWidth]; omega)
    have hx : (glyphPosition width height ⟨p.x + 8, p.y⟩).x = p.x + 8 := by
      rw [glyphPosition_x]
      exact if_neg (by simp only; omega)
    obtain ⟨front, q, hq, hqx⟩ := @ih ⟨p.x + 8, p.y⟩ (by omega)
    refine ⟨p :: front, q, ?_, by omega⟩
    rw [htext, hnext, hq]
    rfl

/-- Letters alone are tame. -/
theorem tame_letters (n : ℕ) : tame false (List.replicate n 0x61) = true := by
  induction n with
  | zero => rfl
  | succ n ih => exact ih

end Vsos.Gfx
