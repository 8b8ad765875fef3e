import Mathlib.Data.List.GetD
import Vsos.Crt.Strtol

/-!
# `itoa`

The digits are stored from the last one on, with remainders that are negative for a negative number, and
are then swapped from both ends. `strtol` reads them back, also those of the smallest number, whose
absolute value is no `int`.
-/

namespace Vsos.Crt

open Vsos.Lib

variable {base n : ℕ} {value : ℤ} {c : UInt8} {digits : List UInt8}

/-- The characters that `itoa` takes a digit from. -/
def digitChars : List UInt8 :=
  "zyxwvutsrqponmlkjihgfedcba9876543210123456789abcdefghijklmnopqrstuvwxyz".toList.map
    fun c => UInt8.ofNat c.toNat

/-- The loop over the digits, as it stores them. It ends before the budget does. -/
def itoaLoop (base : ℕ) : ℕ → ℤ → List UInt8
  | 0, _ => []
  | fuel + 1, value =>
    let c := digitChars.getD (35 + value.tmod base).toNat 0
    if value.tdiv base = 0 then [c] else c :: itoaLoop base fuel (value.tdiv base)

/-- The loop that inverts `n` characters from `low` on. -/
def invertLoop : ℕ → ℕ → List UInt8 → List UInt8
  | low, n + 2, str =>
    let ptr := low + n + 1
    invertLoop (low + 1) n ((str.set low (str.getD ptr 0)).set ptr (str.getD low 0))
  | _, _, str => str

/-- `itoa`: what it stores. -/
def itoa (value base : ℤ) : List UInt8 :=
  if base < 2 ∨ 36 < base then [0]
  else
    let sign : List UInt8 := if value < 0 ∧ base = 10 then [0x2D] else []
    let digits := itoaLoop base.toNat (value.natAbs + 1) value
    invertLoop sign.length digits.length (sign ++ digits ++ [0])

/-- The loop inverts what stands between the two ends. -/
theorem invertLoop_append (l m r : List UInt8) :
    invertLoop l.length m.length (l ++ m ++ r) = l ++ m.reverse ++ r := by
  induction m using List.bidirectionalRec generalizing l r with
  | nil => rfl
  | singleton a => rfl
  | cons_append a m b ih =>
    have hindex : l.length + m.length + 1 - l.length = m.length + 1 := by omega
    have hstr : l ++ a :: (m ++ [b]) ++ r = l ++ a :: (m ++ b :: r) := by simp
    have hfirst : (l ++ a :: (m ++ b :: r)).getD l.length 0 = a := by simp
    have hlast : (l ++ a :: (m ++ b :: r)).getD (l.length + m.length + 1) 0 = b := by
      rw [List.getD_append_right _ _ _ _ (by omega), hindex]
      simp
    have hswap : ((l ++ a :: (m ++ b :: r)).set l.length b).set (l.length + m.length + 1) a =
        (l ++ [b]) ++ m ++ a :: r := by
      rw [List.set_append_right _ _ (le_refl _), List.set_append_right _ _ (by omega), hindex]
      simp
    have hrest := ih (l ++ [b]) (a :: r)
    rw [List.length_append, List.length_singleton] at hrest
    rw [show (a :: (m ++ [b])).length = m.length + 2 by simp, invertLoop, hstr, hfirst, hlast, hswap, hrest]
    simp

/-- The digits of a number, from the last one on. -/
inductive DigitsOf (base : ℕ) : ℕ → List UInt8 → Prop
  | last {c : UInt8} {d : ℕ} (hc : digitOf c = some d) (hd : d < base) : DigitsOf base d [c]
  | more {c : UInt8} {d n : ℕ} {digits : List UInt8} (hc : digitOf c = some d) (hd : d < base)
    (hn : 0 < n) (h : DigitsOf base n digits) : DigitsOf base (n * base + d) (c :: digits)

/-- The loop stores the digits of the absolute value. -/
theorem digitsOf_itoaLoop (hbase : 2 ≤ base) (hbase' : base ≤ 36) {fuel : ℕ} (hfuel : value.natAbs < fuel) :
    DigitsOf base value.natAbs (itoaLoop base fuel value) := by
  have hchars : ∀ i < 71, digitOf (digitChars.getD i 0) = some ((i : ℤ) - 35).natAbs := by
    decide +kernel
  induction fuel generalizing value with
  | zero => omega
  | succ fuel ih =>
    have hmod : (value.tmod base).natAbs = value.natAbs % base := Int.natAbs_tmod value base
    have hquot : (value.tdiv base).natAbs = value.natAbs / base := Int.natAbs_tdiv value base
    have hd := Nat.mod_lt value.natAbs (show 0 < base by omega)
    have hc : digitOf (digitChars.getD (35 + value.tmod base).toNat 0) = some (value.natAbs % base) := by
      rw [hchars _ (by omega)]
      congr 1
      omega
    rw [itoaLoop]
    by_cases hlast : value.tdiv base = 0
    · rw [if_pos hlast]
      rw [hlast, Int.natAbs_zero, eq_comm, Nat.div_eq_zero_iff_lt (by omega)] at hquot
      rw [Nat.mod_eq_of_lt hquot] at hc
      exact .last hc hquot
    · have hpos : 0 < value.natAbs / base := by
        rw [← hquot]
        exact Int.natAbs_pos.mpr hlast
      have hless := Nat.div_lt_self (hpos.trans_le (Nat.div_le_self ..)) hbase
      have hmore := DigitsOf.more hc hd hpos (hquot ▸ ih (by omega))
      rwa [if_neg hlast, ← Nat.div_add_mod' value.natAbs base]

/-- `strtol` reads the number that the digits stand for, as a 32-bit word. -/
theorem DigitsOf.digitLoop_eq (h : DigitsOf base n digits) (rest : List UInt8) :
    digitLoop base (digits.reverse ++ rest) 0 = digitLoop base rest (wrap32 n) := by
  have hstep {c : UInt8} {d : ℕ} (hc : digitOf c = some d) (hd : d < base) (rest : List UInt8) (n : ℕ) :
      digitLoop base (c :: rest) n = digitLoop base rest (wrap32 (n * base + d)) := by
    rw [digitLoop, hc]
    exact if_neg (by omega)
  induction h generalizing rest with
  | last hc hd =>
    rw [List.reverse_singleton, List.singleton_append, hstep hc hd, Nat.zero_mul, Nat.zero_add]
  | more hc hd _ _ ih =>
    rw [List.reverse_cons, List.append_assoc, ih, List.singleton_append, hstep hc hd]
    simp [wrap32, Nat.add_mod, Nat.mul_mod]

/-- A number has no more digits than bits. -/
theorem DigitsOf.length_le (h : DigitsOf base n digits) (hbase : 2 ≤ base) {k : ℕ} (hn : n < 2 ^ (k + 1)) :
    digits.length ≤ k + 1 := by
  induction h generalizing k with
  | last => simp
  | @more _ d n _ _ _ hpos _ ih =>
    have htwo := Nat.mul_le_mul_left n hbase
    cases k with
    | zero => omega
    | succ k =>
      rw [Nat.pow_succ] at hn
      exact Nat.succ_le_succ (ih (by omega))

/-- Every stored character is a digit of the base. -/
theorem DigitsOf.digit (h : DigitsOf base n digits) (hc : c ∈ digits) : ∃ d < base, digitOf c = some d := by
  induction h with
  | last hc' hd =>
    rw [List.mem_singleton.mp hc]
    exact ⟨_, hd, hc'⟩
  | more hc' hd _ _ ih =>
    rcases List.mem_cons.mp hc with rfl | hc
    · exact ⟨_, hd, hc'⟩
    · exact ih hc

/-- What `itoa` stores. -/
theorem exists_itoa (value : ℤ) (hbase : 2 ≤ base) (hbase' : base ≤ 36) :
    ∃ digits, DigitsOf base value.natAbs digits ∧
      itoa value base = (if value < 0 ∧ base = 10 then [0x2D] else []) ++ digits.reverse ++ [0] := by
  refine ⟨_, digitsOf_itoaLoop hbase hbase' (Nat.lt_succ_self _), ?_⟩
  rw [itoa, if_neg (by omega), Int.toNat_natCast]
  dsimp only
  rw [invertLoop_append]
  congr 2
  exact if_congr (by omega) rfl rfl

/-- `strtol` of a sign and digits. -/
theorem DigitsOf.strtol_eq (h : DigitsOf base n digits) (hbase : 2 ≤ base) (rest : List UInt8)
    (neg : Prop) [Decidable neg] :
    (strtol ((if neg then [0x2D] else []) ++ digits.reverse ++ 0 :: rest) base).map Prod.fst =
      some ((if neg then -(n : ℤ) else n).bmod (2 ^ 32)) := by
  have hloop : digitLoop base (digits.reverse ++ 0 :: rest) 0 = some (wrap32 n, 0 :: rest) := by
    rw [h.digitLoop_eq]
    rfl
  have hdigits : ∀ c ∈ digits.reverse, ∃ d < base, digitOf c = some d :=
    fun c hc => h.digit (List.mem_reverse.mp hc)
  obtain ⟨c, tail, htail⟩ := List.exists_cons_of_ne_nil (show digits.reverse ≠ [] by cases h <;> simp)
  rw [htail] at hloop hdigits ⊢
  -- no second character makes a prefix of the first one
  have hchoose : chooseBase base (c :: tail ++ 0 :: rest) = some (base, c :: tail ++ 0 :: rest) := by
    rw [chooseBase]
    split
    · next hsixteen =>
      obtain rfl := hsixteen.resolve_left (by omega)
      cases tail with
      | nil => simp [pure]
      | cons d tail =>
        have hd : d ≠ 0x78 := by
          rintro rfl
          obtain ⟨k, hk, hdig⟩ := hdigits 0x78 (by simp)
          rw [show digitOf 0x78 = some 33 by decide] at hdig
          cases hdig
          omega
        simp [pure, hd]
    · rfl
  have hc : c ∉ [0x20, 0x09, 0x2B, 0x2D] := by
    intro hin
    obtain ⟨k, -, hdig⟩ := hdigits c List.mem_cons_self
    simp only [List.mem_cons, List.not_mem_nil, or_false] at hin
    rcases hin with rfl | rfl | rfl | rfl <;> cases hdig
  simp only [List.mem_cons, List.not_mem_nil, or_false, not_or] at hc
  split
  · have hrun := @strtol_append (c :: tail ++ 0 :: rest) [] 0x2D base (by simp) (by decide) hchoose
    rw [if_pos (Or.inr rfl), hloop] at hrun
    exact (congrArg (Option.map Prod.fst) hrun).trans (congrArg some (bmod_wrap32 0x2D n))
  · rw [List.cons_append] at hloop hchoose
    have hsign : ¬ (c = 0x2B ∨ c = 0x2D) := by tauto
    have hrun := @strtol_append (tail ++ 0 :: rest) [] c base (by simp) (by simp [isBlank, hc])
    rw [if_neg hsign, hloop, List.nil_append] at hrun
    have hword := bmod_wrap32 c n
    simp only [hc, if_false] at hrun hword
    rw [List.nil_append, List.cons_append, hrun hchoose, Option.map_some, Option.map_some, hword]

/-- `strtol` reads back what `itoa` stores, which is 33 characters and the terminator at most. -/
theorem strtol_itoa (hmin : -2 ^ 31 ≤ value) (hmax : value < 2 ^ 31) (base : ℤ) :
    (itoa value base).length ≤ 34 ∧
      (2 ≤ base → base ≤ 36 → base = 10 ∨ 0 ≤ value → ∀ rest,
        (strtol (itoa value base ++ rest) base.toNat).map Prod.fst = some value) := by
  by_cases hrange : base < 2 ∨ 36 < base
  · rw [itoa, if_pos hrange]
    exact ⟨by decide, fun h h' => by omega⟩
  · lift base to ℕ using by omega
    obtain ⟨digits, hdigits, hstore⟩ := exists_itoa value (show 2 ≤ base by omega) (by omega)
    have hlen := hdigits.length_le (by omega) (show value.natAbs < 2 ^ (31 + 1) by omega)
    rw [hstore, Int.toNat_natCast]
    constructor
    · simp
      split <;> simp <;> omega
    · intro _ _ hsign rest
      rw [List.append_assoc, List.singleton_append, hdigits.strtol_eq (by omega)]
      congr 1
      split
      · rw [Int.bmod]
        omega
      · rw [Int.bmod]
        omega

/-- The smallest number. -/
theorem strtol_itoa_min : -2 ^ 31 ≤ (-2 ^ 31 : ℤ) ∧
    (strtol (itoa (-2 ^ 31) 10 ++ []) 10).map Prod.fst = some (-2 ^ 31) :=
  ⟨le_refl _, (strtol_itoa (le_refl _) (by decide) 10).2 (by decide) (by decide) (Or.inl rfl) []⟩

end Vsos.Crt
