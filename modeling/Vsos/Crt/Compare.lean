import Vsos.Crt.Copy

/-!
# Comparisons of memory and of strings

`memcmp` compares words of eight bytes before it compares bytes. A word is a little-endian number,
so its last byte counts most, and the order of two words need not be the order of their bytes.
`strstr` moves a pointer that it does not look at, so it only ever compares the start of the string.
-/

namespace Vsos.Crt

open Vsos.Lib

variable {a b : Bytes} {i j n w width : ℕ}

/-- A loop of `memcmp` over units of `width` bytes, with the number of bytes that it reads. -/
def compareUnits (width : ℕ) : ℕ → Bytes → Bytes → ℤ × ℕ
  | 0, _, _ => (0, 0)
  | n + 1, a, b =>
    if littleEndian a width < littleEndian b width then (-1, width)
    else if littleEndian b width < littleEndian a width then (1, width)
    else
      let rest := compareUnits width n (a.shift width) (b.shift width)
      (rest.1, width + rest.2)

/-- `memcmp`, with the number of bytes that it reads. -/
def memcmp (a b : Bytes) (size : ℕ) : ℤ × ℕ :=
  let words := compareUnits 8 (size / 8) a b
  if words.1 ≠ 0 then words
  else
    let bytes := compareUnits 1 (size % 8) (a.shift (8 * (size / 8))) (b.shift (8 * (size / 8)))
    (bytes.1, words.2 + bytes.2)

/-- The first byte that differs. -/
structure FirstDiff (a b : Bytes) (i : ℕ) : Prop where
  ne : a i ≠ b i
  before : ∀ k < i, a k = b k

/-- `memcmp` tells the lexicographic order, that of the first bytes that differ. -/
def Orders (a b : Bytes) (n : ℕ) : Prop :=
  ((∀ k < n, a k = b k) → (memcmp a b n).1 = 0) ∧
    ∀ i < n, FirstDiff a b i → if a i < b i then (memcmp a b n).1 < 0 else 0 < (memcmp a b n).1

/-- The units number `w` of `width` bytes, compared as numbers. -/
def UnitLess (width w : ℕ) (a b : Bytes) : Prop :=
  littleEndian (a.shift (width * w)) width < littleEndian (b.shift (width * w)) width

/-- Two stretches in a row are the same if both are. -/
theorem same_add {m : ℕ} : (∀ k < m + n, a k = b k) ↔
    (∀ k < m, a k = b k) ∧ ∀ k < n, a.shift m k = b.shift m k := by
  refine ⟨fun h => ⟨fun k hk => h k (by omega), fun k hk => h (m + k) (by omega)⟩, fun ⟨h, h'⟩ k hk => ?_⟩
  by_cases hfirst : k < m
  · exact h k hfirst
  · rw [← Nat.add_sub_cancel' (not_lt.mp hfirst)]
    exact h' (k - m) (by omega)

/-- A loop of `memcmp` finds no difference just when there is none. -/
theorem compareUnits_eq_zero_iff :
    (compareUnits width n a b).1 = 0 ↔ ∀ k < width * n, a k = b k := by
  induction n generalizing a b with
  | zero => simp [compareUnits]
  | succ n ih =>
    rw [compareUnits, Nat.mul_succ, Nat.add_comm, same_add, ← ih, ← littleEndian_inj]
    obtain hlt | heq | hlt := lt_trichotomy (littleEndian a width) (littleEndian b width)
    · simp [hlt, hlt.ne]
    · simp [heq]
    · simp [hlt, hlt.ne', hlt.not_gt]

/-- A loop of `memcmp` goes by the units that hold the first difference. -/
theorem FirstDiff.compareUnits_sign (h : FirstDiff a b (width * w + j)) (hj : j < width) (hw : w < n) :
    (compareUnits width n a b).1 ≠ 0 ∧ ((compareUnits width n a b).1 < 0 ↔ UnitLess width w a b) := by
  induction w generalizing a b n with
  | zero =>
    obtain ⟨n, rfl⟩ := Nat.exists_eq_add_of_lt hw
    have hne : littleEndian a width ≠ littleEndian b width :=
      fun heq => h.ne (littleEndian_inj.mp heq _ (by omega))
    have hstart (b : Bytes) : b.shift (width * 0) = b := by
      funext k
      simp
    rw [UnitLess, hstart, hstart, compareUnits]
    by_cases hlt : littleEndian a width < littleEndian b width
    · simp [hlt]
    · simp [hlt, show littleEndian b width < littleEndian a width by omega]
  | succ w ih =>
    obtain ⟨n, rfl⟩ := Nat.exists_eq_add_of_lt hw
    rw [Nat.mul_succ, Nat.add_comm (width * w), Nat.add_assoc] at h
    have heq : littleEndian a width = littleEndian b width :=
      littleEndian_inj.mpr fun k hk => h.before k (by omega)
    have hrest : FirstDiff (a.shift width) (b.shift width) (width * w + j) :=
      ⟨h.ne, fun k hk => h.before (width + k) (by omega)⟩
    have hless : UnitLess width (w + 1) a b ↔ UnitLess width w (a.shift width) (b.shift width) := by
      rw [UnitLess, UnitLess, shift_shift, shift_shift, Nat.mul_succ, Nat.add_comm (width * w)]
    rw [compareUnits, if_neg (by omega), if_neg (by omega), hless]
    exact ih hrest (by omega)

/-- `memcmp` yields zero just for the same bytes. -/
theorem memcmp_eq_zero_iff : (memcmp a b n).1 = 0 ↔ ∀ k < n, a k = b k := by
  have hparts := same_add (a := a) (b := b) (m := 8 * (n / 8)) (n := n % 8)
  rw [Nat.div_add_mod, ← compareUnits_eq_zero_iff, ← Nat.one_mul (n % 8), ← compareUnits_eq_zero_iff] at hparts
  rw [hparts, memcmp]
  by_cases hwords : (compareUnits 8 (n / 8) a b).1 = 0
  · simp [hwords]
  · simp [hwords]

/-- A loop of `memcmp` reads its units at most. -/
theorem compareUnits_reads_le (width n : ℕ) (a b : Bytes) : (compareUnits width n a b).2 ≤ width * n := by
  induction n generalizing a b with
  | zero => exact le_refl 0
  | succ n ih =>
    have hrest := ih (a.shift width) (b.shift width)
    rw [compareUnits, Nat.mul_succ]
    split
    · exact Nat.le_add_left ..
    · split
      · exact Nat.le_add_left ..
      · exact (Nat.add_le_add_left hrest width).trans (Nat.add_comm ..).le

/-- `memcmp` reads no byte behind the size. -/
theorem memcmp_reads_le : (memcmp a b n).2 ≤ n := by
  have hwords := compareUnits_reads_le 8 (n / 8) a b
  have hbytes := compareUnits_reads_le 1 (n % 8) (a.shift (8 * (n / 8))) (b.shift (8 * (n / 8)))
  rw [memcmp]
  split
  · omega
  · exact (Nat.add_le_add hwords hbytes).trans (by omega)

/-- `memcmp` goes by the words that hold the first difference. -/
theorem FirstDiff.memcmp_sign (h : FirstDiff a b i) (hi : i < 8 * (n / 8)) :
    (memcmp a b n).1 ≠ 0 ∧ ((memcmp a b n).1 < 0 ↔ UnitLess 8 (i / 8) a b) := by
  rw [← Nat.div_add_mod i 8] at h
  have hsign := h.compareUnits_sign (Nat.mod_lt i (by decide)) (show i / 8 < n / 8 by omega)
  rwa [memcmp, if_pos hsign.1]

/-- Behind the last word `memcmp` goes by the first difference. -/
theorem FirstDiff.memcmp_sign_last (h : FirstDiff a b i) (hword : 8 * (n / 8) ≤ i) (hi : i < n) :
    (memcmp a b n).1 ≠ 0 ∧ ((memcmp a b n).1 < 0 ↔ a i < b i) := by
  have hwords : (compareUnits 8 (n / 8) a b).1 = 0 := compareUnits_eq_zero_iff.mpr fun k hk => h.before k (by omega)
  obtain ⟨j, rfl⟩ := Nat.exists_eq_add_of_le hword
  have hlast : FirstDiff (a.shift (8 * (n / 8))) (b.shift (8 * (n / 8))) (1 * j + 0) := by
    rw [Nat.one_mul]
    exact ⟨h.ne, fun k hk => h.before _ (by omega)⟩
  have hless : UnitLess 1 j (a.shift (8 * (n / 8))) (b.shift (8 * (n / 8))) ↔
      a (8 * (n / 8) + j) < b (8 * (n / 8) + j) := by
    simp [UnitLess, littleEndian, UInt8.lt_iff_toNat_lt]
  rw [memcmp, if_neg (not_not.mpr hwords), ← hless]
  exact hlast.compareUnits_sign (by decide) (by omega)

/-- The last byte that differs in the word of `i`. -/
structure LastDiff (a b : Bytes) (i j : ℕ) : Prop where
  word : j / 8 = i / 8
  ne : a j ≠ b j
  after : ∀ k, k / 8 = i / 8 → j < k → a k = b k

/-- Words have the order of their last bytes that differ. -/
theorem LastDiff.unitLess_iff (h : LastDiff a b i j) : UnitLess 8 (i / 8) a b ↔ a j < b j := by
  have hj : 8 * (i / 8) + j % 8 = j := by rw [← h.word, Nat.div_add_mod]
  have hlast : littleEndian (a.shift (8 * (i / 8))) 8 < littleEndian (b.shift (8 * (i / 8))) 8 ↔
      a.shift (8 * (i / 8)) (j % 8) < b.shift (8 * (i / 8)) (j % 8) := by
    refine littleEndian_lt_iff (Nat.mod_lt j (by decide)) ?_ fun k hk hlt => ?_
    · rw [Bytes.shift_apply, Bytes.shift_apply, hj]
      exact h.ne
    · exact h.after (8 * (i / 8) + k) (by omega) (by omega)
  rwa [Bytes.shift_apply, Bytes.shift_apply, hj] at hlast

/-- A word with a difference has a last one. -/
theorem FirstDiff.exists_lastDiff (h : FirstDiff a b i) : ∃ j, LastDiff a b i j := by
  have hbound (j : ℕ) (hj : j / 8 = i / 8 ∧ a j ≠ b j) : j ≤ 8 * (i / 8) + 7 := by omega
  have hlast := Nat.findGreatest_spec (P := fun j => j / 8 = i / 8 ∧ a j ≠ b j)
    (hbound i ⟨rfl, h.ne⟩) ⟨rfl, h.ne⟩
  refine ⟨_, hlast.1, hlast.2, fun k hk hlt => ?_⟩
  by_contra hne
  exact Nat.findGreatest_is_greatest hlt (hbound k ⟨hk, hne⟩) ⟨hk, hne⟩

/-- `memcmp` tells the lexicographic order just when the first byte that differs is behind the last whole
word, or the last byte that differs in its word tells the same order. -/
theorem memcmp_orders_iff : Orders a b n ↔
    ∀ i < 8 * (n / 8), FirstDiff a b i → ∀ j, LastDiff a b i j → (a i < b i ↔ a j < b j) := by
  constructor
  · intro horders i hi hfirst j hlast
    have hresult := horders.2 i (by omega) hfirst
    rw [← hlast.unitLess_iff, ← (hfirst.memcmp_sign hi).2]
    split at hresult
    · next hlt => exact iff_of_true hlt hresult
    · next hlt => exact iff_of_false hlt (by omega)
  · refine fun hwords => ⟨memcmp_eq_zero_iff.mpr, fun i hi hfirst => ?_⟩
    have hsign : (memcmp a b n).1 ≠ 0 ∧ ((memcmp a b n).1 < 0 ↔ a i < b i) := by
      by_cases hword : i < 8 * (n / 8)
      · obtain ⟨j, hlast⟩ := hfirst.exists_lastDiff
        rw [hwords i hword hfirst j hlast, ← hlast.unitLess_iff]
        exact hfirst.memcmp_sign hword
      · exact hfirst.memcmp_sign_last (not_lt.mp hword) hi
    split
    · next hlt => exact hsign.2.mpr hlt
    · next hlt =>
      have hle := mt hsign.2.mp hlt
      omega

/-- Two words whose first bytes tell one order and whose last bytes the other. -/
theorem not_memcmp_orders : ¬ ∀ (a b : Bytes) (n : ℕ), Orders a b n := by
  intro hclaim
  have hresult := (hclaim (Function.update (fun _ => 0) 7 1) (Function.update (fun _ => 0) 0 1) 8).2 0
    (by decide) ⟨by decide, by decide⟩
  exact absurd hresult (by decide)

/-! ## Substrings -/

/-- The loop of `strstr`, with the bytes of the string that it reads. The pointer `s` moves on, but the
loop looks at the start of the string. There is no value when the budget is used up. -/
def strstrLoop (string sub : Bytes) (n : ℕ) : ℕ → ℕ → Option (Option ℕ × ℕ)
  | 0, _ => none
  | fuel + 1, s =>
    if string 0 = 0 then some (none, 1)
    else if (memcmp string sub n).1 = 0 then some (some 0, (memcmp string sub n).2)
    else strstrLoop string sub n fuel (s + 1)

/-- The memory at a string, with anything behind its end. -/
def cString (s : List UInt8) (rest : Bytes) : Bytes := fun i =>
  if hi : i < s.length then s[i] else if i = s.length then 0 else rest i

/-- `strstr` returns where a string occurs first, and reads no further than the end of the other one. -/
def FindsFirst (h sub : List UInt8) : Prop :=
  ∀ rest, ∃ fuel reads,
    strstrLoop (cString h rest) (cString sub rest) sub.length fuel 0 =
      some ((List.range h.length).find? fun i => sub.isPrefixOf (h.drop i), reads) ∧
    reads ≤ h.length + 1

/-- The comparison that `strstr` makes. -/
theorem memcmp_cString_iff {h sub : List UInt8} (hsub : 0 ∉ sub) (rest : Bytes) :
    (memcmp (cString h rest) (cString sub rest) sub.length).1 = 0 ↔ sub <+: h := by
  have hchar (s : List UInt8) {k : ℕ} (hk : k < s.length) : cString s rest k = s[k] := dif_pos hk
  have hend : cString h rest h.length = 0 := by simp [cString]
  rw [memcmp_eq_zero_iff, List.prefix_iff_getElem]
  constructor
  · intro hsame
    have hlen : sub.length ≤ h.length := by
      by_contra hlt
      rw [hsame h.length (by omega), hchar sub (by omega)] at hend
      exact hsub (hend ▸ List.getElem_mem _)
    refine ⟨hlen, fun k hk => ?_⟩
    rw [← hchar sub hk, ← hchar h (by omega), hsame k hk]
  · rintro ⟨hlen, hsame⟩ k hk
    rw [hchar h (by omega), hchar sub hk, hsame k hk]

/-- The loop does not end when the start of the string is another one. -/
theorem strstrLoop_of_ne {string sub : Bytes} (hstart : string 0 ≠ 0) (hne : (memcmp string sub n).1 ≠ 0)
    (fuel s : ℕ) : strstrLoop string sub n fuel s = none := by
  induction fuel generalizing s with
  | zero => rfl
  | succ fuel ih => rw [strstrLoop, if_neg hstart, if_neg hne, ih]

/-- `strstr` only finds a string at the start. -/
theorem findsFirst_iff {h sub : List UInt8} (hh : 0 ∉ h) (hsub : 0 ∉ sub) :
    FindsFirst h sub ↔ h = [] ∨ sub <+: h := by
  cases h with
  | nil => exact iff_of_true (fun rest => ⟨1, 1, rfl, le_refl 1⟩) (Or.inl rfl)
  | cons c h =>
    have hc (rest : Bytes) : cString (c :: h) rest 0 ≠ 0 := fun heq => hh (heq ▸ List.mem_cons_self)
    rw [or_iff_right (List.cons_ne_nil c h)]
    constructor
    · intro hfinds
      obtain ⟨fuel, reads, hrun, -⟩ := hfinds fun _ => 0
      by_contra hpre
      rw [strstrLoop_of_ne (hc _) (mt (memcmp_cString_iff hsub _).mp hpre)] at hrun
      cases hrun
    · intro hpre rest
      refine ⟨1, (memcmp (cString (c :: h) rest) (cString sub rest) sub.length).2, ?_,
        memcmp_reads_le.trans (hpre.length_le.trans (Nat.le_succ _))⟩
      rw [strstrLoop, if_neg (hc rest), if_pos ((memcmp_cString_iff hsub rest).mpr hpre),
        List.length_cons, List.range_succ_eq_map, List.find?_cons_of_pos (by simpa using hpre)]

/-- A string that is found at once. -/
theorem findsFirst_start : 0 ∉ [0x61] ∧ FindsFirst [0x61, 0x62] [0x61] :=
  ⟨by decide, (findsFirst_iff (by decide) (by decide)).mpr (Or.inr ⟨[0x62], rfl⟩)⟩

/-- The search for the second character of a string does not end. -/
theorem not_findsFirst :
    ¬ ∀ h sub : List UInt8, 0 ∉ h → 0 ∉ sub → sub ≠ [] → FindsFirst h sub := by
  intro hclaim
  obtain ⟨fuel, reads, hrun, -⟩ := hclaim [0x61, 0x62] [0x62] (by decide) (by decide) (by decide) fun _ => 0
  rw [strstrLoop_of_ne (by decide) (by decide)] at hrun
  cases hrun

end Vsos.Crt
