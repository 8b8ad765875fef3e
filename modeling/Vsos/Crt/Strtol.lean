import Mathlib.Data.List.TakeWhile
import Vsos.Lib.Memory

/-!
# `strtol`

The routine reads blanks, a sign and digits, and returns what it has at the first character that
is no digit. It does not know where the string ends, and the number wraps around.
-/

namespace Vsos.Crt

open Vsos.Lib

variable {s t u digits rest : List UInt8} {c : UInt8} {n m : ℕ} {v w : ℤ}

/-- `isalpha`. -/
def isalpha (c : UInt8) : Bool := (c > 64 && c < 91) || (c > 96 && c < 123)

/-- The digit that a character stands for. -/
def digitOf (c : UInt8) : Option ℕ :=
  if 48 ≤ c ∧ c ≤ 57 then some (c.toNat - 48)
  else if 97 ≤ c ∧ c ≤ 122 then some (c.toNat - 97 + 10)
  else if 65 ≤ c ∧ c ≤ 90 then some (c.toNat - 65 + 10)
  else none

/-- The loop over the digits, in the memory that begins at `s`. There is no value if the loop
leaves that memory. -/
def digitLoop (base : ℕ) : List UInt8 → ℕ → Option (ℕ × List UInt8)
  | [], _ => none
  | c :: rest, val =>
    match digitOf c with
    | none => some (val, c :: rest)
    | some dig =>
      if base ≤ dig then some (val, c :: rest) else digitLoop base rest (wrap32 (val * base + dig))

/-- The part of `strtol` that looks for `0x` and a leading zero. -/
def chooseBase (base : ℕ) (s : List UInt8) : Option (ℕ × List UInt8) :=
  if base = 0 ∨ base = 16 then do
    let c ← s.head?
    if c = 0x30 then do
      let d ← s.tail.head?
      if d = 0x78 then return (16, s.drop 2)
      else if base = 0 then return (8, s.tail)
      else return (base, s)
    else if base = 0 then return (10, s)
    else return (base, s)
  else return (base, s)

/-- A blank or a tabulator. -/
def isBlank (c : UInt8) : Bool := c == 0x20 || c == 0x09

/-- `strtol` on the memory that begins at `s`, with the end that it stores in `endptr`. A `long`
has 32 bits. -/
def strtol (s : List UInt8) (base : ℕ) : Option (ℤ × List UInt8) := do
  let s := s.dropWhile isBlank
  let c ← s.head?
  let neg := c = 0x2D
  let s := if c = 0x2B ∨ c = 0x2D then s.tail else s
  let (base, s) ← chooseBase base s
  let (val, s) ← digitLoop base s 0
  return ((if neg then -(val : ℤ) else val).bmod (2 ^ 32), s)

/-! ## Numerals -/

/-- A decimal digit. -/
def IsDigit (c : UInt8) : Prop := 48 ≤ c ∧ c ≤ 57

instance (c : UInt8) : Decidable (IsDigit c) := inferInstanceAs (Decidable (_ ∧ _))

/-- The value of decimal digits behind a number. -/
def numeral (n : ℕ) (digits : List UInt8) : ℕ :=
  digits.foldl (fun n c => n * 10 + (c.toNat - 48)) n

/-- The decimal digits at the start have the value `n`, and something else follows. -/
def LeadingNumeral (s : List UInt8) (n : ℕ) : Prop :=
  ∃ digits c rest, s = digits ++ c :: rest ∧ (∀ d ∈ digits, IsDigit d) ∧ ¬ IsDigit c ∧
    n = numeral 0 digits

/-- The number at the start of a string, behind blanks and a sign. -/
def Denotes (s : List UInt8) (v : ℤ) : Prop :=
  ∃ blanks c t n, s = blanks ++ c :: t ∧ (∀ b ∈ blanks, isBlank b) ∧ ¬ isBlank c ∧
    ((c = 0x2B ∧ LeadingNumeral t n ∧ v = n) ∨ (c = 0x2D ∧ LeadingNumeral t n ∧ v = -n) ∨
      (c ≠ 0x2B ∧ c ≠ 0x2D ∧ LeadingNumeral (c :: t) n ∧ v = n))

/-- A text begins with blanks, maybe a sign, and digits, and `rest` is what follows on the number. -/
structure NumberAhead (text blanks sign digits rest : List UInt8) : Prop where
  split : text = blanks ++ sign ++ digits ++ rest
  all_blank : ∀ b ∈ blanks, isBlank b
  one_sign : sign = [] ∨ sign = [0x2B] ∨ sign = [0x2D]
  all_digits : ∀ d ∈ digits, IsDigit d
  stop : ∀ c ∈ rest.head?, ¬ IsDigit c ∧
    (sign = [] → digits = [] → ¬ isBlank c ∧ c ≠ 0x2B ∧ c ≠ 0x2D)

/-- The number that a sign and digits stand for. -/
def signedValue (sign digits : List UInt8) : ℤ :=
  if sign = [0x2D] then -(numeral 0 digits) else numeral 0 digits

/-- A character that a number neither begins with nor goes on with. -/
def EndsNumber (c : UInt8) : Prop :=
  ¬ IsDigit c ∧ ¬ isBlank c ∧ c ≠ 0x2B ∧ c ≠ 0x2D ∧ ¬ isalpha c

instance (c : UInt8) : Decidable (EndsNumber c) := inferInstanceAs (Decidable (_ ∧ _))

/-- No digits. -/
@[simp] theorem numeral_nil (n : ℕ) : numeral n [] = n := rfl

/-- The first digit. -/
theorem numeral_cons (n : ℕ) (c : UInt8) (digits : List UInt8) :
    numeral n (c :: digits) = numeral (n * 10 + (c.toNat - 48)) digits := by
  rw [numeral, List.foldl_cons, numeral]

/-- Only the word in front of the digits matters for the word of the number. -/
theorem numeral_mod (h : n % 2 ^ 32 = m % 2 ^ 32) (digits : List UInt8) :
    numeral n digits % 2 ^ 32 = numeral m digits % 2 ^ 32 := by
  induction digits generalizing n m with
  | nil => rwa [numeral_nil]
  | cons c digits ih =>
    rw [numeral_cons, numeral_cons]
    exact ih (by omega)

/-- A character continues a decimal number just when it is a decimal digit. -/
theorem digitOf_cases (c : UInt8) : (IsDigit c ∧ digitOf c = some (c.toNat - 48) ∧ c.toNat - 48 < 10) ∨
    (¬ IsDigit c ∧ ∀ dig ∈ digitOf c, 10 ≤ dig) := by
  by_cases hc : IsDigit c
  · refine Or.inl ⟨hc, if_pos hc, ?_⟩
    have hle : c.toNat ≤ 57 := UInt8.le_iff_toNat_le.mp hc.2
    omega
  · refine Or.inr ⟨hc, fun dig hdig => ?_⟩
    rw [digitOf, if_neg (show ¬ (48 ≤ c ∧ c ≤ 57) from hc)] at hdig
    split at hdig
    · cases hdig
      exact Nat.le_add_left 10 _
    · split at hdig
      · cases hdig
        exact Nat.le_add_left 10 _
      · cases hdig

/-- The loop adds the digits up to the first character that is none. -/
theorem digitLoop_append (hdigits : ∀ d ∈ digits, IsDigit d) (hc : ¬ IsDigit c) (hn : n < 2 ^ 32) :
    digitLoop 10 (digits ++ c :: rest) n = some (wrap32 (numeral n digits), c :: rest) := by
  induction digits generalizing n with
  | nil =>
    obtain ⟨hdigit, -⟩ | ⟨-, hlarge⟩ := digitOf_cases c
    · exact absurd hdigit hc
    · rw [List.nil_append, digitLoop, numeral, List.foldl_nil, wrap32_of_lt hn]
      cases hdig : digitOf c with
      | none => rfl
      | some dig => exact if_pos (hlarge dig hdig)
  | cons d digits ih =>
    rw [List.forall_mem_cons] at hdigits
    obtain ⟨-, hdig, hsmall⟩ | ⟨hno, -⟩ := digitOf_cases d
    · rw [List.cons_append, digitLoop, hdig]
      simp only
      have hword : wrap32 (n * 10 + (d.toNat - 48)) < 2 ^ 32 := Nat.mod_lt _ (by decide)
      rw [if_neg (by omega), ih hdigits.2 hword, numeral_cons, wrap32, wrap32, wrap32,
        numeral_mod (Nat.mod_mod _ _)]
    · exact absurd hdigits.1 hno

/-- Memory that is not all digits has a first character that is none. -/
theorem digitLoop_eq_some {x : ℕ × List UInt8} (h : digitLoop 10 s n = some x) :
    ∃ digits c rest, s = digits ++ c :: rest ∧ (∀ d ∈ digits, IsDigit d) ∧ ¬ IsDigit c := by
  induction s generalizing n with
  | nil => cases h
  | cons c rest ih =>
    obtain ⟨hc, hdig, hsmall⟩ | ⟨hc, -⟩ := digitOf_cases c
    · rw [digitLoop, hdig] at h
      simp only at h
      rw [if_neg (by omega)] at h
      obtain ⟨digits, d, rest', rfl, hdigits, hd⟩ := ih h
      exact ⟨c :: digits, d, rest', rfl, List.forall_mem_cons.mpr ⟨hc, hdigits⟩, hd⟩
    · exact ⟨[], c, rest, rfl, by simp, hc⟩

/-- The loop returns the number at the start, as a 32-bit word. -/
theorem exists_digitLoop_iff :
    (∃ rest, digitLoop 10 s 0 = some (m, rest)) ↔ ∃ n, LeadingNumeral s n ∧ m = wrap32 n := by
  constructor
  · rintro ⟨rest, h⟩
    obtain ⟨digits, c, rest', rfl, hdigits, hc⟩ := digitLoop_eq_some h
    rw [digitLoop_append hdigits hc (by decide)] at h
    cases h
    exact ⟨_, ⟨digits, c, _, rfl, hdigits, hc, rfl⟩, rfl⟩
  · rintro ⟨n, ⟨digits, c, rest, rfl, hdigits, hc, rfl⟩, rfl⟩
    exact ⟨_, digitLoop_append hdigits hc (by decide)⟩

/-- `strtol` behind the blanks, with a base that is not changed. -/
theorem strtol_append {base : ℕ} (hblanks : ∀ b ∈ rest, isBlank b) (hc : ¬ isBlank c)
    (hbase : chooseBase base (if c = 0x2B ∨ c = 0x2D then t else c :: t) =
      some (base, if c = 0x2B ∨ c = 0x2D then t else c :: t)) :
    strtol (rest ++ c :: t) base =
      (digitLoop base (if c = 0x2B ∨ c = 0x2D then t else c :: t) 0).map fun x =>
        ((if c = 0x2D then -(x.1 : ℤ) else x.1).bmod (2 ^ 32), x.2) := by
  have hdrop : (rest ++ c :: t).dropWhile isBlank = c :: t := by
    rw [List.dropWhile_append_of_pos hblanks, List.dropWhile_cons_of_neg hc]
  rw [strtol, hdrop]
  simp only [List.head?_cons, List.tail_cons, Option.bind_eq_bind, Option.bind_some, hbase]
  cases digitLoop base (if c = 0x2B ∨ c = 0x2D then t else c :: t) 0 with
  | none => rfl
  | some x => rfl

/-- Only the word matters for the result. -/
theorem bmod_wrap32 (c : UInt8) (n : ℕ) :
    (if c = 0x2D then -(wrap32 n : ℤ) else wrap32 n).bmod (2 ^ 32) =
      (if c = 0x2D then -(n : ℤ) else n).bmod (2 ^ 32) := by
  simp only [wrap32, Int.bmod]
  split <;> omega

/-- What `strtol` returns is the number at the start of the string, as a 32-bit word. -/
theorem exists_strtol_iff :
    (∃ rest, strtol s 10 = some (w, rest)) ↔ ∃ v, Denotes s v ∧ w = v.bmod (2 ^ 32) := by
  constructor
  · rintro ⟨rest, h⟩
    cases hdrop : s.dropWhile isBlank with
    | nil =>
      rw [strtol, hdrop] at h
      cases h
    | cons c t =>
      have hblanks : ∀ b ∈ s.takeWhile isBlank, isBlank b := fun b hb => List.mem_takeWhile_imp hb
      have hc : ¬ isBlank c := by
        have hhead := List.head?_dropWhile_not isBlank s
        rw [hdrop] at hhead
        simpa using hhead
      rw [← List.takeWhile_append_dropWhile (l := s), hdrop, strtol_append hblanks hc rfl] at h
      obtain ⟨⟨m, rest'⟩, hloop, hw⟩ := Option.map_eq_some_iff.mp h
      obtain ⟨n, hn, rfl⟩ := exists_digitLoop_iff.mp ⟨rest', hloop⟩
      cases hw
      refine ⟨if c = 0x2D then -(n : ℤ) else n, ⟨_, c, t, n, ?_, hblanks, hc, ?_⟩, bmod_wrap32 c n⟩
      · rw [← hdrop, List.takeWhile_append_dropWhile]
      · by_cases hplus : c = 0x2B
        · subst hplus
          exact Or.inl ⟨rfl, hn, rfl⟩
        · by_cases hminus : c = 0x2D
          · subst hminus
            exact Or.inr (Or.inl ⟨rfl, hn, rfl⟩)
          · rw [if_neg (by tauto)] at hn
            exact Or.inr (Or.inr ⟨hplus, hminus, hn, if_neg hminus⟩)
  · rintro ⟨v, ⟨blanks, c, t, n, rfl, hblanks, hc, hcases⟩, rfl⟩
    have hread : LeadingNumeral (if c = 0x2B ∨ c = 0x2D then t else c :: t) n ∧
        v = if c = 0x2D then -(n : ℤ) else n := by
      obtain ⟨rfl, hn, rfl⟩ | ⟨rfl, hn, rfl⟩ | ⟨hplus, hminus, hn, rfl⟩ := hcases
      · exact ⟨hn, rfl⟩
      · exact ⟨hn, rfl⟩
      · rw [if_neg (by tauto), if_neg hminus]
        exact ⟨hn, rfl⟩
    obtain ⟨rest, hloop⟩ := exists_digitLoop_iff.mpr ⟨n, hread.1, rfl⟩
    rw [strtol_append hblanks hc rfl, hloop, hread.2, ← bmod_wrap32]
    exact ⟨rest, rfl⟩

/-- A string denotes one number at most, as a 32-bit word. -/
theorem Denotes.bmod_eq (h : Denotes s v) (h' : Denotes s w) : v.bmod (2 ^ 32) = w.bmod (2 ^ 32) := by
  obtain ⟨rest, hrest⟩ := exists_strtol_iff.mpr ⟨v, h, rfl⟩
  obtain ⟨rest', hrest'⟩ := exists_strtol_iff.mpr ⟨w, h', rfl⟩
  rw [hrest] at hrest'
  exact (Prod.mk.inj (Option.some.inj hrest')).1

/-- Every text begins with a number in this sense, maybe with one of no digits. -/
theorem exists_numberAhead (text : List UInt8) :
    ∃ blanks sign digits rest, NumberAhead text blanks sign digits rest := by
  have hdigits (s : List UInt8) : ∀ d ∈ s.takeWhile (IsDigit ·), IsDigit d := fun d hd => by
    simpa using List.mem_takeWhile_imp hd
  have hstop (s : List UInt8) : ∀ c ∈ (s.dropWhile (IsDigit ·)).head?, ¬ IsDigit c := fun c hc => by
    have hhead := List.head?_dropWhile_not (IsDigit ·) s
    rw [hc] at hhead
    simpa using hhead
  have hblanks : ∀ b ∈ text.takeWhile isBlank, isBlank b := fun b hb => List.mem_takeWhile_imp hb
  by_cases hsign : ∃ c t, text.dropWhile isBlank = c :: t ∧ (c = 0x2B ∨ c = 0x2D)
  · obtain ⟨c, t, hdrop, hc⟩ := hsign
    refine ⟨_, [c], t.takeWhile (IsDigit ·), t.dropWhile (IsDigit ·), ⟨?_, hblanks, ?_, hdigits t, ?_⟩⟩
    · rw [List.append_assoc, List.append_assoc, List.takeWhile_append_dropWhile, List.singleton_append,
        ← hdrop, List.takeWhile_append_dropWhile]
    · simpa using hc
    · exact fun d hd => ⟨hstop t d hd, fun h => absurd h (List.cons_ne_nil _ _)⟩
  · refine ⟨_, [], (text.dropWhile isBlank).takeWhile (IsDigit ·),
      (text.dropWhile isBlank).dropWhile (IsDigit ·), ⟨?_, hblanks, Or.inl rfl, hdigits _, ?_⟩⟩
    · rw [List.append_nil, List.append_assoc, List.takeWhile_append_dropWhile,
        List.takeWhile_append_dropWhile]
    · refine fun d hd => ⟨hstop _ d hd, fun _ hnone => ?_⟩
      -- without digits the character is the first behind the blanks
      have hall := List.takeWhile_append_dropWhile (p := (IsDigit ·)) (l := text.dropWhile isBlank)
      rw [hnone, List.nil_append] at hall
      rw [hall] at hd
      obtain ⟨t, ht⟩ := List.head?_eq_some_iff.mp hd
      have hhead := List.head?_dropWhile_not isBlank text
      rw [ht] at hhead
      refine ⟨by simpa using hhead, ?_, ?_⟩
      · exact fun heq => hsign ⟨d, t, ht, Or.inl heq⟩
      · exact fun heq => hsign ⟨d, t, ht, Or.inr heq⟩

/-- Behind a text that a character ends, `strtol` finds the number that the text begins with. -/
theorem NumberAhead.denotes {text blanks sign tail : List UInt8}
    (h : NumberAhead text blanks sign digits rest) (hc : EndsNumber c) :
    Denotes (text ++ c :: tail) (signedValue sign digits) := by
  obtain ⟨hdigit, hblank, hplus, hminus, -⟩ := hc
  obtain ⟨d, u, hd, hnot, hfirst⟩ : ∃ d u, rest ++ c :: tail = d :: u ∧ ¬ IsDigit d ∧
      (sign = [] → digits = [] → ¬ isBlank d ∧ d ≠ 0x2B ∧ d ≠ 0x2D) := by
    cases rest with
    | nil => exact ⟨c, tail, rfl, hdigit, fun _ _ => ⟨hblank, hplus, hminus⟩⟩
    | cons d rest => exact ⟨d, rest ++ c :: tail, rfl, h.stop d rfl⟩
  have hnumeral : LeadingNumeral (digits ++ d :: u) (numeral 0 digits) :=
    ⟨digits, d, u, rfl, h.all_digits, hnot, rfl⟩
  have htext : text ++ c :: tail = blanks ++ (sign ++ (digits ++ d :: u)) := by
    rw [h.split, List.append_assoc, hd]
    simp only [List.append_assoc]
  rw [htext]
  rcases h.one_sign with rfl | rfl | rfl
  · cases digits with
    | nil =>
      obtain ⟨hb, hp, hm⟩ := hfirst rfl rfl
      exact ⟨blanks, d, u, 0, rfl, h.all_blank, hb, Or.inr (Or.inr ⟨hp, hm, hnumeral, rfl⟩)⟩
    | cons e digits =>
      have he : IsDigit e := h.all_digits e List.mem_cons_self
      refine ⟨blanks, e, digits ++ d :: u, _, rfl, h.all_blank, ?_, Or.inr (Or.inr ⟨?_, ?_, hnumeral, rfl⟩)⟩
      · rintro hb
        rw [isBlank, Bool.or_eq_true, beq_iff_eq, beq_iff_eq] at hb
        rcases hb with rfl | rfl
        · exact absurd he (by decide)
        · exact absurd he (by decide)
      · rintro rfl
        exact absurd he (by decide)
      · rintro rfl
        exact absurd he (by decide)
  · exact ⟨blanks, 0x2B, _, _, rfl, h.all_blank, by decide, Or.inl ⟨rfl, hnumeral, rfl⟩⟩
  · exact ⟨blanks, 0x2D, _, _, rfl, h.all_blank, by decide, Or.inr (Or.inl ⟨rfl, hnumeral, rfl⟩)⟩

end Vsos.Crt
