import Vsos.Lib.Memory

/-!
# Copies and comparisons in memory

`memcpy` copies words of eight bytes and then the bytes that are left. Each word is read before it
is stored, so a copy to lower addresses finds its source as it was, whatever the two ranges have in
common. `memmove` relies on this, and copies to higher addresses from the last byte on.
-/

namespace Vsos.Crt

open Vsos.Lib

/-- The memory, and the addresses that were stored to. -/
structure Ram where
  bytes : Bytes
  written : List ℕ

/-- Load some bytes and store them. -/
def Ram.move (r : Ram) (dst src width : ℕ) : Ram :=
  ⟨r.bytes.blit dst (r.bytes.shift src) width, List.range' dst width ++ r.written⟩

/-- A loop that copies units of some bytes. -/
def copyUnits (width : ℕ) : ℕ → ℕ → ℕ → Ram → Ram
  | 0, _, _, r => r
  | n + 1, dst, src, r => copyUnits width n (dst + width) (src + width) (r.move dst src width)

/-- `memcpy`. -/
def memcpy (dst src size : ℕ) (r : Ram) : Ram :=
  copyUnits 1 (size % 8) (dst + 8 * (size / 8)) (src + 8 * (size / 8)) (copyUnits 8 (size / 8) dst src r)

/-- The loop of `memmove` from the last byte on. -/
def moveBack (dst src : ℕ) : ℕ → Ram → Ram
  | 0, r => r
  | n + 1, r => moveBack dst src n (r.move (dst + n) (src + n) 1)

/-- `memmove`. The second loop counts from `(int)_Size - 1` down to 0, which wraps around for a
size of `2 ^ 31`. -/
def memmove (dst src size : ℕ) (r : Ram) : Ram :=
  if dst < src then memcpy dst src size r
  else moveBack dst src (Int.bmod ((size : ℤ) - 1) (2 ^ 32) + 1).toNat r

/-- `memset`. -/
def memset (dst : ℕ) (value : UInt8) : ℕ → Ram → Ram
  | 0, r => r
  | size + 1, r =>
    memset (dst + 1) value size ⟨r.bytes.blit dst (fun _ => value) 1, dst :: r.written⟩

/-- A range has got new bytes, and nothing was stored elsewhere. -/
structure Stores (dst count : ℕ) (new : Bytes) (r t : Ram) : Prop where
  bytes : t.bytes = r.bytes.blit dst new count
  written : ∀ a ∈ t.written, (dst ≤ a ∧ a < dst + count) ∨ a ∈ r.written

variable {dst src count more : ℕ} {new next : Bytes} {r t u : Ram}

/-- Nothing has been stored. -/
theorem Stores.refl (dst : ℕ) (new : Bytes) (r : Ram) : Stores dst 0 new r r := by
  refine ⟨?_, fun a ha => Or.inr ha⟩
  funext i
  exact (Bytes.blit_of_not_mem (by omega)).symm

/-- One access stores its bytes. -/
theorem Ram.move_stores (r : Ram) (dst src width : ℕ) :
    Stores dst width (r.bytes.shift src) r (r.move dst src width) := by
  refine ⟨rfl, fun a ha => ?_⟩
  rcases List.mem_append.mp ha with hrange | hold
  · exact Or.inl (List.mem_range'_1.mp hrange)
  · exact Or.inr hold

/-- Two ranges that lie end to end. -/
theorem Stores.append (h : Stores dst count new r t)
    (h' : Stores (dst + count) more (new.shift count) t u) : Stores dst (count + more) new r u := by
  refine ⟨?_, fun a ha => ?_⟩
  · rw [h'.bytes, h.bytes]
    funext i
    unfold Bytes.blit
    by_cases hlater : dst + count ≤ i ∧ i < dst + count + more
    · rw [if_pos hlater, if_pos (by omega), Bytes.shift_apply]
      congr 1
      omega
    · rw [if_neg hlater]
      exact if_congr (by omega) rfl rfl
  · rcases h'.written a ha with hlater | hbefore
    · exact Or.inl (by omega)
    · exact (h.written a hbefore).imp_left fun hfirst => by omega

/-- What lies behind a range is kept. -/
theorem Stores.shift_eq (h : Stores dst count new r t) (hsrc : dst ≤ src) :
    t.bytes.shift (src + count) = r.bytes.shift (src + count) := by
  rw [h.bytes]
  funext i
  exact Bytes.blit_of_not_mem (by omega)

/-- An offset behind an offset. -/
theorem shift_shift (b : Bytes) (i j : ℕ) : (b.shift i).shift j = b.shift (i + j) := by
  funext k
  exact congrArg b (Nat.add_assoc i j k).symm

/-- A loop to lower addresses copies what its source was before. -/
theorem copyUnits_stores (hlt : dst ≤ src) (width n : ℕ) (r : Ram) :
    Stores dst (width * n) (r.bytes.shift src) r (copyUnits width n dst src r) := by
  induction n generalizing dst src r with
  | zero => exact Stores.refl ..
  | succ n ih =>
    have hfirst := r.move_stores dst src width
    have hrest := ih (Nat.add_le_add_right hlt width) (r.move dst src width)
    rw [hfirst.shift_eq hlt, ← shift_shift] at hrest
    rw [Nat.mul_succ, Nat.add_comm]
    exact hfirst.append hrest

/-- `memcpy` to lower addresses copies what its source was before. -/
theorem memcpy_stores (hlt : dst ≤ src) (size : ℕ) (r : Ram) :
    Stores dst size (r.bytes.shift src) r (memcpy dst src size r) := by
  have hwords := copyUnits_stores hlt 8 (size / 8) r
  have hbytes := copyUnits_stores (Nat.add_le_add_right hlt (8 * (size / 8))) 1 (size % 8)
    (copyUnits 8 (size / 8) dst src r)
  rw [hwords.shift_eq hlt, ← shift_shift, Nat.one_mul] at hbytes
  have hsize := hwords.append hbytes
  rwa [Nat.div_add_mod] at hsize

/-- The loop from the last byte on copies what its source was before, to higher addresses. -/
theorem moveBack_stores (hle : src ≤ dst) (n : ℕ) (r : Ram) :
    Stores dst n (r.bytes.shift src) r (moveBack dst src n r) := by
  induction n generalizing r with
  | zero => exact Stores.refl ..
  | succ n ih =>
    have hlast := r.move_stores (dst + n) (src + n) 1
    have hfront := ih (r.move (dst + n) (src + n) 1)
    have hsource (i : ℕ) (hi : i < n) :
        (r.move (dst + n) (src + n) 1).bytes.shift src i = r.bytes.shift src i := by
      exact Bytes.blit_of_not_mem (by omega)
    refine ⟨?_, fun a ha => ?_⟩
    · rw [moveBack, hfront.bytes, Bytes.blit_congr hsource, hlast.bytes]
      funext i
      unfold Bytes.blit
      by_cases hi : i = dst + n
      · rw [if_neg (by omega), if_pos (by omega), if_pos (by omega), Bytes.shift_apply]
        congr 1
        omega
      · rw [if_neg (by omega : ¬ (dst + n ≤ i ∧ i < dst + n + 1))]
        exact if_congr (by omega) rfl rfl
    · rcases hfront.written a ha with hin | hbefore
      · exact Or.inl (by omega)
      · exact (hlast.written a hbefore).imp_left fun hin => by omega

/-- `memmove` copies what its source was before, if the index of the last byte is an `int`. -/
theorem memmove_stores (dst src : ℕ) {size : ℕ} (hsize : size ≤ 2 ^ 31) (r : Ram) :
    Stores dst size (r.bytes.shift src) r (memmove dst src size r) := by
  rw [memmove]
  split
  · next hlt => exact memcpy_stores hlt.le size r
  · next hle =>
    have hint : (Int.bmod ((size : ℤ) - 1) (2 ^ 32) + 1).toNat = size := by
      rw [Int.bmod_eq_of_le (by omega) (by omega)]
      omega
    rw [hint]
    exact moveBack_stores (not_lt.mp hle) size r

/-- The destination has got what the source was before, and the rest of the memory is unchanged. -/
def Copies (dst src size : ℕ) (r t : Ram) : Prop :=
  (∀ i < size, t.bytes (dst + i) = r.bytes (src + i)) ∧
    ∀ a, a < dst ∨ dst + size ≤ a → t.bytes a = r.bytes a

/-- What has been stored from the source is a copy. -/
theorem Stores.copies (h : Stores dst count (r.bytes.shift src) r t) : Copies dst src count r t := by
  rw [Copies, h.bytes]
  refine ⟨fun i hi => ?_, fun a ha => Bytes.blit_of_not_mem ha⟩
  rw [Bytes.blit_of_mem (by omega) (by omega), Nat.add_sub_cancel_left]
  rfl

/-- `memmove` to lower addresses, whatever the two ranges have in common. -/
theorem memmove_down (hlt : dst < src) (size : ℕ) (r : Ram) :
    Copies dst src size r (memmove dst src size r) := by
  rw [memmove, if_pos hlt]
  exact (memcpy_stores hlt.le size r).copies

/-- Twenty bytes are moved down by three. -/
theorem memmove_down_three : 0 < 3 ∧ ∀ r, Copies 0 3 20 r (memmove 0 3 20 r) :=
  ⟨by decide, memmove_down (by decide) 20⟩

/-- `memmove` to the same or higher addresses. Of more than `2 ^ 31` bytes the last one stays as it
was. -/
theorem memmove_up_iff {size : ℕ} (hle : src ≤ dst) :
    (∀ r, Copies dst src size r (memmove dst src size r)) ↔ dst = src ∨ size ≤ 2 ^ 31 := by
  constructor
  · intro hcopies
    rw [or_iff_not_imp_right]
    intro hsize
    by_contra hne
    -- a memory that is zero but for the last byte of the source
    have hlast := (hcopies ⟨Function.update (fun _ => 0) (src + (size - 1)) 1, []⟩).1 (size - 1)
      (by omega)
    have hshort : (Int.bmod ((size : ℤ) - 1) (2 ^ 32) + 1).toNat ≤ size - 1 := by
      rw [Int.bmod]
      omega
    rw [memmove, if_neg (not_lt.mpr hle), (moveBack_stores hle _ _).bytes,
      Bytes.blit_of_not_mem (by omega)] at hlast
    simp only [Function.update_self] at hlast
    rw [Function.update_of_ne (by omega)] at hlast
    cases hlast
  · rintro (rfl | hsize) r
    · rw [memmove, if_neg (lt_irrefl _)]
      have hsame (n : ℕ) : (moveBack dst dst n r).bytes = r.bytes := by
        rw [(moveBack_stores (le_refl dst) n r).bytes]
        funext i
        by_cases hi : dst ≤ i ∧ i < dst + n
        · rw [Bytes.blit_of_mem hi.1 hi.2, Bytes.shift_apply, Nat.add_sub_cancel' hi.1]
        · exact Bytes.blit_of_not_mem (by omega)
      rw [Copies, hsame]
      exact ⟨fun _ _ => rfl, fun _ _ => rfl⟩
    · exact (memmove_stores dst src hsize r).copies

/-- Twenty bytes are moved up by three. -/
theorem memmove_up_three : 0 ≤ 3 ∧ ∀ r, Copies 3 0 20 r (memmove 3 0 20 r) :=
  ⟨by decide, (memmove_up_iff (by decide)).mpr (Or.inr (by decide))⟩

/-- A copy of `2 ^ 32` bytes copies nothing. -/
theorem not_memmove_up : ¬ ∀ dst src size : ℕ, src ≤ dst → dst + size ≤ 2 ^ 64 → ∀ r,
    Copies dst src size r (memmove dst src size r) := by
  intro hclaim
  have hcopies := hclaim 1 0 (2 ^ 32) (by decide) (by decide) ⟨Function.update (fun _ => 0) 0 1, []⟩
  exact absurd (hcopies.1 0 (by decide)) (by decide)

/-- `memset` stores its value. -/
theorem memset_stores (dst : ℕ) (value : UInt8) (size : ℕ) (r : Ram) :
    Stores dst size (fun _ => value) r (memset dst value size r) := by
  induction size generalizing dst r with
  | zero => exact Stores.refl ..
  | succ size ih =>
    have hone : Stores dst 1 (fun _ => value) r
        ⟨r.bytes.blit dst (fun _ => value) 1, dst :: r.written⟩ := by
      refine ⟨rfl, fun a ha => ?_⟩
      rcases List.mem_cons.mp ha with rfl | hold
      · exact Or.inl (by omega)
      · exact Or.inr hold
    have hall := hone.append (ih (dst + 1) _)
    rwa [Nat.add_comm 1] at hall

/-- The loop of `strncmp`: the characters that it stops at, and the count that is left. -/
def strncmpLoop : ℕ → Bytes → Bytes → UInt8 × UInt8 × ℕ
  | 0, a, b =>
    -- the count is decremented behind equal characters
    (a 0, b 0, if a 0 ≠ 0 ∧ a 0 = b 0 then 2 ^ 64 - 1 else 0)
  | count + 1, a, b =>
    if a 0 ≠ 0 ∧ a 0 = b 0 then strncmpLoop count (a.shift 1) (b.shift 1) else (a 0, b 0, count + 1)

/-- `strncmp`. -/
def strncmp (a b : Bytes) (maxCount : ℕ) : ℤ :=
  let (c, d, count) := strncmpLoop maxCount a b
  if count ≠ 0 then (c.toNat : ℤ) - d.toNat else 0

/-- `strncmp` yields zero for strings that agree on their first characters, and else the first
difference. -/
theorem strncmp_spec (a b : Bytes) (n : ℕ) :
    ((∀ k < n, (∀ j < k, a j ≠ 0) → a k = b k) → strncmp a b n = 0) ∧
      ∀ i < n, (∀ j < i, a j ≠ 0 ∧ a j = b j) → a i ≠ b i →
        strncmp a b n = (a i).toNat - (b i).toNat := by
  induction n generalizing a b with
  | zero =>
    refine ⟨fun _ => ?_, nofun⟩
    by_cases heq : a 0 ≠ 0 ∧ a 0 = b 0
    · simp [strncmp, strncmpLoop, heq.2]
    · simp [strncmp, strncmpLoop, heq]
  | succ n ih =>
    obtain ⟨hagree, hdiffer⟩ := ih (a.shift 1) (b.shift 1)
    by_cases heq : a 0 ≠ 0 ∧ a 0 = b 0
    · have hstep : strncmp a b (n + 1) = strncmp (a.shift 1) (b.shift 1) n := by
        rw [strncmp, strncmpLoop, if_pos heq, strncmp]
      rw [hstep]
      simp only [Bytes.shift_apply, Nat.add_comm 1] at hagree hdiffer
      constructor
      · intro h
        refine hagree fun k hk hfree => h (k + 1) (by omega) fun j hj => ?_
        cases j with
        | zero => exact heq.1
        | succ j => exact hfree j (by omega)
      · rintro (_ | i) hi hbefore hne
        · exact absurd heq.2 hne
        · exact hdiffer i (by omega) (fun j hj => hbefore (j + 1) (by omega)) hne
    · have hstop : strncmp a b (n + 1) = (a 0).toNat - (b 0).toNat := by
        rw [strncmp, strncmpLoop, if_neg heq]
        exact if_pos (Nat.succ_ne_zero n)
      rw [hstop]
      constructor
      · intro h
        rw [h 0 (by omega) nofun, Int.sub_self]
      · rintro (_ | i) hi hbefore hne
        · rfl
        · exact absurd (hbefore 0 (by omega)) heq

end Vsos.Crt
