import Vsos.Lib.Bits
import Vsos.Lib.Memory

/-!
# Bit vectors

The bits are packed into words, 64 to a word. `Initialize` clears as many words as it allocates. Their
number wraps around for the longest vectors, which then begin with what was in the memory.
-/

namespace Vsos.Objects

open Vsos.Lib

/-- `Bitvector`: the memory from `m_map` on, and the words of it that were accessed. -/
structure Bitvector where
  length : ℕ
  map : ℕ → BitVec 64
  accessed : List ℕ

namespace Bitvector

/-- `GetMapSize`. -/
def getMapSize (length : ℕ) : ℕ := wrap64 (length + 63) / 64

/-- `Initialize`, with what the memory holds. -/
def init (length : ℕ) (memory : ℕ → BitVec 64) : Bitvector where
  length := length
  map := fun i => if i < getMapSize length then 0 else memory i
  accessed := List.range (getMapSize length)

/-- `Get`. There is no value if the assertion fails. -/
def get (v : Bitvector) (index : ℕ) : Option (Bool × Bitvector) :=
  if index < v.length then
    some (v.map (index / 64) &&& 1#64 <<< (index % 64) ≠ 0,
      { v with accessed := index / 64 :: v.accessed })
  else none

/-- `Set`. There is no value if the assertion fails. -/
def set (v : Bitvector) (index : ℕ) (value : Bool) : Option Bitvector :=
  if index < v.length then
    some { v with
      map := Function.update v.map (index / 64) (putBit (v.map (index / 64)) (index % 64) value)
      accessed := index / 64 :: v.accessed }
  else none

/-- Calls of `Set` in a row. -/
def setAll (v : Bitvector) (sets : List (ℕ × Bool)) : Option Bitvector :=
  sets.foldlM (fun v s => v.set s.1 s.2) v

/-- What the bits of an array are behind some assignments. -/
def assign (bits : ℕ → Bool) (sets : List (ℕ × Bool)) : ℕ → Bool :=
  sets.foldl (fun bits s => Function.update bits s.1 s.2) bits

/-- A vector is an array of bits behind `Initialize`, and only its words are accessed. -/
def Refines (length : ℕ) : Prop :=
  ∀ memory (sets : List (ℕ × Bool)), (∀ s ∈ sets, s.1 < length) →
    ∃ v, (init length memory).setAll sets = some v ∧
      ∀ j < length, ∃ v', v.get j = some (assign (fun _ => false) sets j, v') ∧
        ∀ a ∈ v'.accessed, a < (length + 63) / 64

/-- The bits of a vector. -/
structure Represents (n : ℕ) (bits : ℕ → Bool) (v : Bitvector) : Prop where
  length : v.length = n
  bits : ∀ j < n, (v.map (j / 64)).getLsbD (j % 64) = bits j
  accessed : ∀ a ∈ v.accessed, a < (n + 63) / 64

variable {v : Bitvector} {n i : ℕ} {bits : ℕ → Bool}

section

variable (h : Represents n bits v) (hi : i < n)
include h hi

/-- The word of an index is one of the vector. -/
theorem Represents.accessed_cons : ∀ a ∈ i / 64 :: v.accessed, a < (n + 63) / 64 :=
  List.forall_mem_cons.mpr ⟨by omega, h.accessed⟩

/-- `Get` returns the bit at an index of the vector. -/
theorem Represents.get : v.get i = some (bits i, { v with accessed := i / 64 :: v.accessed }) := by
  have hbit (x : BitVec 64) {k : ℕ} (hk : k < 64) : decide (x &&& 1#64 <<< k ≠ 0) = x.getLsbD k := by
    have hmask : BitVec.twoPow 64 k ≠ 0#64 := by
      intro hzero
      have hlow := congrArg (·.getLsbD k) hzero
      simp [hk] at hlow
    rw [← BitVec.twoPow_eq, BitVec.and_twoPow]
    cases x.getLsbD k <;> simp [hmask]
  rw [Bitvector.get, if_pos (h.length ▸ hi), hbit _ (by omega), h.bits i hi]

/-- `Set` assigns to the bit at an index of the vector. -/
theorem Represents.set (b : Bool) :
    ∃ v', v.set i b = some v' ∧ Represents n (Function.update bits i b) v' := by
  refine ⟨_, if_pos (h.length ▸ hi), h.length, fun j hj => ?_, h.accessed_cons hi⟩
  have hold := h.bits j hj
  dsimp only
  by_cases hword : j / 64 = i / 64
  · rw [hword] at hold ⊢
    rw [Function.update_self, getLsbD_putBit _ b (by omega), hold]
    by_cases hij : j = i
    · rw [hij, if_pos rfl, Function.update_self]
    · rw [if_neg (by omega), Function.update_of_ne hij]
  · rw [Function.update_of_ne hword, Function.update_of_ne (by rintro rfl; exact hword rfl), hold]

end

/-- Calls of `Set` assign one after the other. -/
theorem Represents.setAll (h : Represents n bits v) {sets : List (ℕ × Bool)} (hsets : ∀ s ∈ sets, s.1 < n) :
    ∃ v', v.setAll sets = some v' ∧ Represents n (assign bits sets) v' := by
  induction sets generalizing v bits with
  | nil => exact ⟨v, rfl, h⟩
  | cons s sets ih =>
    rw [List.forall_mem_cons] at hsets
    obtain ⟨v₁, hset, h₁⟩ := h.set hsets.1 s.2
    rw [Bitvector.setAll, List.foldlM_cons, hset]
    exact ih h₁ hsets.2

/-- Behind `Initialize` all bits are cleared, unless the number of words wraps around. -/
theorem represents_init (hn : n + 63 < 2 ^ 64) (memory : ℕ → BitVec 64) :
    Represents n (fun _ => false) (init n memory) := by
  have hsize : getMapSize n = (n + 63) / 64 := by rw [getMapSize, wrap64_of_lt hn]
  refine ⟨rfl, fun j hj => ?_, fun a ha => ?_⟩
  · have hcleared : (init n memory).map (j / 64) = 0 := if_pos (by omega)
    rw [hcleared, BitVec.ofNat_eq_ofNat, BitVec.getLsbD_zero]
  · rwa [init, hsize, List.mem_range] at ha

end Bitvector

end Vsos.Objects
