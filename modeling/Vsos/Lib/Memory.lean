import Mathlib.Data.Finset.Basic
import Mathlib.Tactic.Ring

/-!
# Byte stores and machine words

A byte store gives a byte to every index. A block of memory is a store of which a bounded
part belongs to the block; the indices past it are whatever lies next to it in memory, so
an access outside the block has a meaning and can be talked about.

Words are naturals, cut to their width wherever the machine cuts them.
-/

namespace Vsos.Lib

variable {count i j n offset value : ℕ}

/-- The value an unsigned 32-bit variable keeps. -/
def wrap32 (n : ℕ) : ℕ := n % 2 ^ 32

/-- Unsigned 32-bit subtraction. -/
def sub32 (a b : ℕ) : ℕ := (a + (2 ^ 32 - b % 2 ^ 32)) % 2 ^ 32

/-- The value an unsigned 64-bit variable keeps. -/
def wrap64 (n : ℕ) : ℕ := n % 2 ^ 64

/-- A 64-bit variable is below its bound. -/
theorem wrap64_lt (n : ℕ) : wrap64 n < 2 ^ 64 := Nat.mod_lt _ (Nat.two_pow_pos 64)

/-- A number of 64 bits is kept. -/
theorem wrap64_of_lt (h : n < 2 ^ 64) : wrap64 n = n := Nat.mod_eq_of_lt h

/-- Cutting to 32 bits changes nothing below `2 ^ 32`. -/
theorem wrap32_of_lt (h : n < 2 ^ 32) : wrap32 n = n := Nat.mod_eq_of_lt h

/-- Subtraction of a smaller number does not wrap. -/
theorem sub32_of_le {a b : ℕ} (h : b ≤ a) (ha : a < 2 ^ 32) : sub32 a b = a - b := by
  unfold sub32
  omega

/-- A byte at every index. -/
abbrev Bytes := ℕ → UInt8

variable {dst src : Bytes}

variable {a b : Bytes}

namespace Bytes

/-- The store seen through a pointer moved forward by `offset`. -/
def shift (b : Bytes) (offset : ℕ) : Bytes := fun i => b (offset + i)

/-- `memcpy(dst + offset, src, count)`. -/
def blit (dst : Bytes) (offset : ℕ) (src : Bytes) (count : ℕ) : Bytes :=
  fun i => if offset ≤ i ∧ i < offset + count then src (i - offset) else dst i

/-- `memset(dst, value, count)` at the start of the store. -/
def fill (dst : Bytes) (value : UInt8) (count : ℕ) : Bytes :=
  fun i => if i < count then value else dst i

/-- `memcmp(a, b, count) == 0`. -/
def same (a b : Bytes) (count : ℕ) : Bool := (List.range count).all fun i => a i == b i

/-- The little-endian 16-bit word at `offset`. -/
def u16 (b : Bytes) (offset : ℕ) : ℕ := (b offset).toNat + 256 * (b (offset + 1)).toNat

/-- The little-endian 32-bit word at `offset`. -/
def u32 (b : Bytes) (offset : ℕ) : ℕ := b.u16 offset + 65536 * b.u16 (offset + 2)

/-- The little-endian 64-bit word at `offset`. -/
def u64 (b : Bytes) (offset : ℕ) : ℕ := b.u32 offset + 2 ^ 32 * b.u32 (offset + 4)

/-- Store a byte. -/
def setU8 (b : Bytes) (offset : ℕ) (value : ℕ) : Bytes :=
  fun i => if i = offset then UInt8.ofNat value else b i

/-- Store a little-endian 16-bit word. -/
def setU16 (b : Bytes) (offset value : ℕ) : Bytes :=
  (b.setU8 offset value).setU8 (offset + 1) (value / 256)

/-- Store a little-endian 32-bit word. -/
def setU32 (b : Bytes) (offset value : ℕ) : Bytes :=
  (b.setU16 offset value).setU16 (offset + 2) (value / 65536)

/-- Store a little-endian 64-bit word. -/
def setU64 (b : Bytes) (offset value : ℕ) : Bytes :=
  (b.setU32 offset value).setU32 (offset + 4) (value / 2 ^ 32)

/-- Reading behind an offset. -/
@[simp] theorem shift_apply (b : Bytes) (offset i : ℕ) : b.shift offset i = b (offset + i) := rfl

/-- Inside the copied range the source shows. -/
theorem blit_of_mem (h₁ : offset ≤ i) (h₂ : i < offset + count) :
    dst.blit offset src count i = src (i - offset) :=
  if_pos ⟨h₁, h₂⟩

/-- Outside the copied range nothing changes. -/
theorem blit_of_not_mem (h : i < offset ∨ offset + count ≤ i) :
    dst.blit offset src count i = dst i := by
  apply if_neg
  omega

/-- A copy only depends on the copied part of its source. -/
theorem blit_congr {src' : Bytes} (h : ∀ i < count, src i = src' i) :
    dst.blit offset src count = dst.blit offset src' count := by
  funext i
  unfold blit
  split
  · exact h _ (by omega)
  · rfl

/-- Equal blocks compare equal. -/
theorem same_eq_true :
    a.same b count = true ↔ ∀ i < count, a i = b i := by
  simp [same]

/-- The byte that is stored. -/
@[simp] theorem setU8_self (b : Bytes) (offset value : ℕ) :
    b.setU8 offset value offset = UInt8.ofNat value := if_pos rfl

/-- The other bytes. -/
theorem setU8_ne (h : i ≠ offset) :
    b.setU8 offset value i = b i := if_neg h

/-- A 16-bit store touches two bytes. -/
theorem setU16_of_not_mem (h₁ : i ≠ offset) (h₂ : i ≠ offset + 1) :
    b.setU16 offset value i = b i := by
  rw [setU16, setU8_ne h₂, setU8_ne h₁]

/-- A 32-bit store touches four bytes. -/
theorem setU32_of_not_mem (h : i < offset ∨ offset + 4 ≤ i) :
    b.setU32 offset value i = b i := by
  rw [setU32, setU16_of_not_mem (by omega) (by omega), setU16_of_not_mem (by omega) (by omega)]

/-- The low byte of a stored 16-bit word. -/
theorem setU16_low (b : Bytes) (offset value : ℕ) :
    (b.setU16 offset value offset).toNat = value % 2 ^ 8 := by
  rw [setU16, setU8_ne (by omega), setU8_self, UInt8.toNat_ofNat']

/-- The high byte of a stored 16-bit word. -/
theorem setU16_high (b : Bytes) (offset value : ℕ) :
    (b.setU16 offset value (offset + 1)).toNat = value / 256 % 2 ^ 8 := by
  rw [setU16, setU8_self, UInt8.toNat_ofNat']

/-- A stored 16-bit word reads back cut to its width. -/
theorem u16_setU16 (b : Bytes) (offset value : ℕ) :
    (b.setU16 offset value).u16 offset = value % 2 ^ 16 := by
  rw [u16, setU16_low, setU16_high]
  omega

/-- A 16-bit word away from the stored one keeps its value. -/
theorem u16_setU16_of_disjoint (h : i + 1 < offset ∨ offset + 1 < i) :
    (b.setU16 offset value).u16 i = b.u16 i := by
  rw [u16, u16, setU16_of_not_mem (by omega) (by omega), setU16_of_not_mem (by omega) (by omega)]

/-- A stored 32-bit word reads back cut to its width. -/
theorem u32_setU32 (b : Bytes) (offset value : ℕ) :
    (b.setU32 offset value).u32 offset = value % 2 ^ 32 := by
  rw [u32, setU32, u16_setU16_of_disjoint (by omega), u16_setU16, u16_setU16]
  omega

/-- A 32-bit word away from the stored one keeps its value. -/
theorem u32_setU32_of_disjoint (h : i + 3 < offset ∨ offset + 3 < i) :
    (b.setU32 offset value).u32 i = b.u32 i := by
  rw [u32, u32, setU32, u16_setU16_of_disjoint (by omega), u16_setU16_of_disjoint (by omega),
    u16_setU16_of_disjoint (by omega), u16_setU16_of_disjoint (by omega)]

/-- A stored 64-bit word reads back cut to its width. -/
theorem u64_setU64 (b : Bytes) (offset value : ℕ) :
    (b.setU64 offset value).u64 offset = value % 2 ^ 64 := by
  rw [u64, setU64, u32_setU32_of_disjoint (by omega), u32_setU32, u32_setU32]
  omega

/-- A 64-bit store touches eight bytes. -/
theorem setU64_of_not_mem (h : i < offset ∨ offset + 8 ≤ i) :
    b.setU64 offset value i = b i := by
  rw [setU64, setU32_of_not_mem (by omega), setU32_of_not_mem (by omega)]

/-- The bytes of a little-endian word. -/
def word (value : ℕ) : Bytes := fun i => UInt8.ofNat (value / 256 ^ i)

/-- A 16-bit store copies two bytes. -/
theorem setU16_eq_blit (b : Bytes) (offset value : ℕ) :
    b.setU16 offset value = b.blit offset (word value) 2 := by
  funext i
  by_cases h₀ : i = offset
  · subst h₀
    rw [blit_of_mem (le_refl i) (by omega), setU16, setU8_ne (by omega)]
    simp [word]
  · by_cases h₁ : i = offset + 1
    · subst h₁
      rw [blit_of_mem (by omega) (by omega), setU16]
      simp [word]
    · rw [blit_of_not_mem (by omega), setU16_of_not_mem h₀ h₁]

/-- A 32-bit store copies four bytes. -/
theorem setU32_eq_blit (b : Bytes) (offset value : ℕ) :
    b.setU32 offset value = b.blit offset (word value) 4 := by
  have hhigh (i : ℕ) : word (value / 65536) i = word value (2 + i) := by
    rw [word, word, Nat.div_div_eq_div_mul, Nat.pow_add]
  funext i
  rw [setU32, setU16_eq_blit, setU16_eq_blit]
  by_cases hin : offset ≤ i ∧ i < offset + 4
  · rw [blit_of_mem hin.1 hin.2]
    by_cases hi : i < offset + 2
    · rw [blit_of_not_mem (by omega), blit_of_mem hin.1 hi]
    · rw [blit_of_mem (by omega) (by omega), hhigh]
      congr 1
      omega
  · rw [blit_of_not_mem (by omega), blit_of_not_mem (by omega), blit_of_not_mem (by omega)]

/-- Two stores that agree on two bytes hold the same 16-bit word. -/
theorem u16_congr (h₀ : a i = b j) (h₁ : a (i + 1) = b (j + 1)) :
    a.u16 i = b.u16 j := by
  rw [u16, u16, h₀, h₁]

/-- Two stores that agree on four bytes hold the same 32-bit word. -/
theorem u32_congr (h : ∀ k < 4, a (i + k) = b (j + k)) :
    a.u32 i = b.u32 j := by
  have hlow : a.u16 i = b.u16 j := u16_congr (h 0 (by omega)) (h 1 (by omega))
  have hhigh : a.u16 (i + 2) = b.u16 (j + 2) := u16_congr (h 2 (by omega)) (h 3 (by omega))
  rw [u32, u32, hlow, hhigh]

/-- Two stores that agree on eight bytes hold the same 64-bit word. -/
theorem u64_congr (h : ∀ k < 8, a (i + k) = b (j + k)) :
    a.u64 i = b.u64 j := by
  have hlow : a.u32 i = b.u32 j := u32_congr fun k hk => h k (by omega)
  have hhigh : a.u32 (i + 4) = b.u32 (j + 4) := u32_congr fun k hk => by
    simpa only [Nat.add_assoc] using h (4 + k) (by omega)
  rw [u64, u64, hlow, hhigh]

/-- A 64-bit word away from the stored one keeps its value. -/
theorem u64_setU64_of_disjoint (h : i + 8 ≤ offset ∨ offset + 8 ≤ i) :
    (b.setU64 offset value).u64 i = b.u64 i :=
  u64_congr fun _ _ => setU64_of_not_mem (by omega)

/-- Stored words that do not overlap behave like cells. -/
theorem u64_setU64_cell (h : i = offset ∨ i + 8 ≤ offset ∨ offset + 8 ≤ i)
    (hvalue : value < 2 ^ 64) :
    (b.setU64 offset value).u64 i = if i = offset then value else b.u64 i := by
  split
  · next heq => rw [heq, u64_setU64, Nat.mod_eq_of_lt hvalue]
  · next hne => exact u64_setU64_of_disjoint (h.resolve_left hne)

/-- A 16-bit word fits its width. -/
theorem u16_lt (b : Bytes) (i : ℕ) : b.u16 i < 2 ^ 16 := by
  have h₀ := (b i).toNat_lt
  have h₁ := (b (i + 1)).toNat_lt
  rw [u16]
  omega

/-- A 32-bit word fits its width. -/
theorem u32_lt (b : Bytes) (i : ℕ) : b.u32 i < 2 ^ 32 := by
  have h₀ := b.u16_lt i
  have h₁ := b.u16_lt (i + 2)
  rw [u32]
  omega

/-- A 64-bit word fits its width. -/
theorem u64_lt (b : Bytes) (i : ℕ) : b.u64 i < 2 ^ 64 := by
  have h₀ := b.u32_lt i
  have h₁ := b.u32_lt (i + 4)
  rw [u64]
  omega

end Bytes

/-- Pieces of `n` items laid end to end: item `k` is in piece `k / n`. -/
theorem getElem?_flatMap {α β : Type} {f : α → List β} (hn : 0 < n) (hf : ∀ a, (f a).length = n)
    (l : List α) (k : ℕ) :
    (l.flatMap f)[k]? = l[k / n]?.bind fun a => (f a)[k % n]? := by
  induction l generalizing k with
  | nil => simp
  | cons a l ih =>
    rw [List.flatMap_cons, List.getElem?_append, hf a]
    by_cases hk : k < n
    · simp [hk, Nat.div_eq_of_lt hk, Nat.mod_eq_of_lt hk]
    · have hsucc : k / n = (k - n) / n + 1 := by
        rw [Nat.div_eq_sub_div hn (Nat.le_of_not_lt hk)]
      rw [if_neg hk, ih, hsucc, List.getElem?_cons_succ, Nat.mod_eq_sub_mod (Nat.le_of_not_lt hk)]

/-- The value of a little-endian variable of `n` bytes. -/
def littleEndian (b : Bytes) : ℕ → ℕ
  | 0 => 0
  | n + 1 => (b 0).toNat + 256 * littleEndian (b.shift 1) n

/-- A value is made of its bytes. -/
theorem littleEndian_inj {a b : Bytes} {n : ℕ} :
    littleEndian a n = littleEndian b n ↔ ∀ k < n, a k = b k := by
  induction n generalizing a b with
  | zero => simp [littleEndian]
  | succ n ih =>
    have ha := (a 0).toNat_lt
    have hb := (b 0).toNat_lt
    rw [Nat.forall_lt_succ_left, ← UInt8.toNat_inj, littleEndian, littleEndian]
    have hrest := ih (a := a.shift 1) (b := b.shift 1)
    simp only [Bytes.shift_apply, Nat.add_comm 1] at hrest
    rw [← hrest]
    omega

/-- Of two numbers the smaller one has the smaller byte at the last place where they differ. -/
theorem littleEndian_lt_iff {a b : Bytes} {n j : ℕ} (hj : j < n) (hne : a j ≠ b j)
    (hafter : ∀ k < n, j < k → a k = b k) : littleEndian a n < littleEndian b n ↔ a j < b j := by
  induction n generalizing a b j with
  | zero => omega
  | succ n ih =>
    have ha := (a 0).toNat_lt
    have hb := (b 0).toNat_lt
    rw [littleEndian, littleEndian]
    cases j with
    | zero =>
      have hrest : littleEndian (a.shift 1) n = littleEndian (b.shift 1) n := by
        refine littleEndian_inj.mpr fun k hk => ?_
        rw [Bytes.shift_apply, Bytes.shift_apply]
        exact hafter _ (by omega) (by omega)
      rw [hrest, UInt8.lt_iff_toNat_lt]
      omega
    | succ j =>
      have hrest : littleEndian (a.shift 1) n < littleEndian (b.shift 1) n ↔ a (j + 1) < b (j + 1) := by
        simp only [← Nat.add_comm 1 j] at hne hafter ⊢
        exact ih (by omega) hne fun k hk hlt => hafter (1 + k) (by omega) (by omega)
      have hdiff : littleEndian (a.shift 1) n ≠ littleEndian (b.shift 1) n := by
        intro heq
        refine hne ?_
        rw [Nat.add_comm]
        exact littleEndian_inj.mp heq j (by omega)
      rw [← hrest]
      omega

end Vsos.Lib
