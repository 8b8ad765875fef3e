import Vsos.Lib.Memory

/-!
# The memory map of the firmware and bit vectors

The firmware describes physical memory by descriptors, each a run of pages of one type.
Pages that no descriptor mentions are not memory at all. The bit vector of the kernel keeps
its bits in 64-bit words.
-/

namespace Vsos.Mem

open Vsos.Lib

/-- `EFI_MEMORY_TYPE`. -/
inductive MemoryType where
  | EfiReservedMemoryType
  | EfiLoaderCode
  | EfiLoaderData
  | EfiBootServicesCode
  | EfiBootServicesData
  | EfiRuntimeServicesCode
  | EfiRuntimeServicesData
  | EfiConventionalMemory
  | EfiUnusableMemory
  | EfiACPIReclaimMemory
  | EfiACPIMemoryNVS
  | EfiMemoryMappedIO
  | EfiMemoryMappedIOPortSpace
  | EfiPalCode
  | EfiPersistentMemory
  | EfiMaxMemoryType
  deriving DecidableEq, Repr

/-- The fields of `EFI_MEMORY_DESCRIPTOR` that the memory manager reads. -/
structure Descriptor where
  type : MemoryType
  physicalStart : ℕ
  numberOfPages : ℕ
  deriving DecidableEq, Repr

/-- `PageShift`. -/
def pageShift : ℕ := 12

/-- `PageSize`. -/
def pageSize : ℕ := 2 ^ pageShift

/-- `ByteAlign`: the 64-bit sum with the bits below the alignment, a power of two, cleared. -/
def byteAlign (size alignment : ℕ) : ℕ := wrap64 (size + (alignment - 1)) / alignment * alignment

/-- The number of the first page of a descriptor. -/
def Descriptor.baseIndex (desc : Descriptor) : ℕ := desc.physicalStart / pageSize

/-- The pages of a descriptor. -/
def Descriptor.Covers (desc : Descriptor) (index : ℕ) : Prop :=
  desc.baseIndex ≤ index ∧ index < desc.baseIndex + desc.numberOfPages

/-- The loop of `MemoryMap::GetLargestConventionalAddress`. -/
def largestLoop : List Descriptor → Descriptor → Descriptor
  | [], largest => largest
  | current :: rest, largest =>
    if current.type ≠ .EfiConventionalMemory then largestLoop rest largest
    else if largest.numberOfPages < current.numberOfPages then largestLoop rest current
    else largestLoop rest largest

/-- `MemoryMap::GetLargestConventionalAddress`. The first descriptor counts whatever its type;
an empty table has none. -/
def getLargestConventionalAddress : List Descriptor → Option ℕ
  | [] => none
  | first :: rest => some (largestLoop (first :: rest) first).physicalStart

/-- Page-aligned, pairwise disjoint descriptors inside the first `count` pages. -/
structure MapWellFormed (count : ℕ) (memoryMap : List Descriptor) : Prop where
  aligned : ∀ desc ∈ memoryMap, desc.physicalStart % pageSize = 0
  inside : ∀ desc ∈ memoryMap, desc.baseIndex + desc.numberOfPages ≤ count
  disjoint : memoryMap.Pairwise fun a b => ∀ index, a.Covers index → ¬ b.Covers index

/-- A conventional region that no other one exceeds. -/
structure IsLargest (memoryMap : List Descriptor) (desc : Descriptor) : Prop where
  mem : desc ∈ memoryMap
  conventional : desc.type = .EfiConventionalMemory
  largest : ∀ other ∈ memoryMap, other.type = .EfiConventionalMemory →
    other.numberOfPages ≤ desc.numberOfPages

/-- The loop never goes back to a smaller region. -/
theorem le_largestLoop (regions : List Descriptor) (start : Descriptor) :
    start.numberOfPages ≤ (largestLoop regions start).numberOfPages := by
  induction regions generalizing start with
  | nil => exact le_refl _
  | cons current rest ih =>
    rw [largestLoop]
    split
    · exact ih start
    · split
      · next hlt => exact hlt.le.trans (ih current)
      · exact ih start

/-- The loop ends with a descriptor that no conventional one exceeds. It is the one it started with
or a larger conventional one. -/
theorem largestLoop_spec (regions : List Descriptor) (start : Descriptor) :
    (∀ desc ∈ regions, desc.type = .EfiConventionalMemory →
      desc.numberOfPages ≤ (largestLoop regions start).numberOfPages) ∧
    (largestLoop regions start = start ∨ largestLoop regions start ∈ regions ∧
      (largestLoop regions start).type = .EfiConventionalMemory ∧
      start.numberOfPages < (largestLoop regions start).numberOfPages) := by
  induction regions generalizing start with
  | nil => simp [largestLoop]
  | cons current rest ih =>
    rw [largestLoop]
    split
    · next htype =>
      obtain ⟨hle, hfrom⟩ := ih start
      refine ⟨?_, hfrom.imp_right (And.imp_left (List.mem_cons_of_mem _))⟩
      rintro desc hdesc hconv
      rcases List.mem_cons.mp hdesc with rfl | hdesc
      · exact absurd hconv htype
      · exact hle desc hdesc hconv
    · next htype =>
      rw [not_not] at htype
      split
      · next hlt =>
        obtain ⟨hle, hfrom⟩ := ih current
        have hge := le_largestLoop rest current
        refine ⟨List.forall_mem_cons.mpr ⟨fun _ => hge, hle⟩, Or.inr ⟨?_, ?_, hlt.trans_le hge⟩⟩
        · rcases hfrom with heq | ⟨hmem, -⟩
          · rw [heq]
            exact List.mem_cons_self
          · exact List.mem_cons_of_mem _ hmem
        · rcases hfrom with heq | ⟨-, hconv, -⟩
          · rwa [heq]
          · exact hconv
      · next hge =>
        obtain ⟨hle, hfrom⟩ := ih start
        refine ⟨List.forall_mem_cons.mpr ⟨fun _ => ?_, hle⟩,
          hfrom.imp_right (And.imp_left (List.mem_cons_of_mem _))⟩
        exact (not_lt.mp hge).trans (le_largestLoop rest start)

/-- The start of a largest conventional region is returned just when the first descriptor is
conventional, or a conventional one has more pages, or it happens to begin where a largest
conventional region begins. -/
theorem getLargestConventionalAddress_iff (first : Descriptor) (rest : List Descriptor) :
    (∃ desc, IsLargest (first :: rest) desc ∧
      getLargestConventionalAddress (first :: rest) = some desc.physicalStart) ↔
    first.type = .EfiConventionalMemory ∨
      (∃ desc ∈ rest, desc.type = .EfiConventionalMemory ∧
        first.numberOfPages < desc.numberOfPages) ∨
      ∃ desc, IsLargest (first :: rest) desc ∧ desc.physicalStart = first.physicalStart := by
  obtain ⟨hle, hfrom⟩ := largestLoop_spec (first :: rest) first
  rw [getLargestConventionalAddress]
  rcases hfrom with heq | ⟨hmem, hconv, hlt⟩
  · rw [heq] at hle ⊢
    constructor
    · rintro ⟨desc, hlargest, hstart⟩
      injection hstart with hstart
      exact Or.inr (Or.inr ⟨desc, hlargest, hstart.symm⟩)
    · rintro (hconv | ⟨desc, hdesc, hconv, hlt⟩ | ⟨desc, hlargest, hstart⟩)
      · exact ⟨first, ⟨List.mem_cons_self, hconv, hle⟩, rfl⟩
      · exact absurd (hle desc (List.mem_cons_of_mem _ hdesc) hconv) (not_le.mpr hlt)
      · exact ⟨desc, hlargest, by rw [hstart]⟩
  · refine ⟨fun _ => Or.inr (Or.inl ⟨_, ?_, hconv, hlt⟩), fun _ => ⟨_, ⟨hmem, hconv, hle⟩, rfl⟩⟩
    refine (List.mem_cons.mp hmem).resolve_left fun heq => ?_
    rw [heq] at hlt
    exact lt_irrefl _ hlt

/-- A reserved region in front of the conventional memory is taken for it. -/
theorem not_getLargestConventionalAddress :
    ¬ ∀ memoryMap : List Descriptor, (∃ desc ∈ memoryMap, desc.type = .EfiConventionalMemory) →
      ∃ desc, IsLargest memoryMap desc ∧
        getLargestConventionalAddress memoryMap = some desc.physicalStart := by
  intro hclaim
  obtain ⟨desc, hlargest, hstart⟩ := hclaim
    [⟨.EfiReservedMemoryType, 0, 4⟩, ⟨.EfiConventionalMemory, 0x4000, 4⟩]
    ⟨⟨.EfiConventionalMemory, 0x4000, 4⟩, by decide, rfl⟩
  have hmem := hlargest.mem
  have hconv := hlargest.conventional
  simp only [List.mem_cons, List.not_mem_nil, or_false] at hmem
  rcases hmem with rfl | rfl
  · cases hconv
  · cases hstart

/-- The bit with number `index`, as `Bitvector::Get` takes it out of its word. -/
def getBit (map : ℕ → BitVec 64) (index : ℕ) : Bool :=
  map (index / 64) &&& (1#64 <<< (index % 64)) != 0#64

/-- The words after `Bitvector::Set`. -/
def setBit (map : ℕ → BitVec 64) (index : ℕ) (value : Bool) : ℕ → BitVec 64 :=
  Function.update map (index / 64)
    (if value then map (index / 64) ||| (1#64 <<< (index % 64))
      else map (index / 64) &&& ~~~(1#64 <<< (index % 64)))

/-- A masked word is not zero when the bit is set. -/
theorem getBit_eq_getLsbD (map : ℕ → BitVec 64) (index : ℕ) :
    getBit map index = (map (index / 64)).getLsbD (index % 64) := by
  have hmask : (1#64 <<< (index % 64)) = BitVec.twoPow 64 (index % 64) := rfl
  have hpow : BitVec.twoPow 64 (index % 64) ≠ 0#64 := by
    intro h
    have hbit := congrArg (fun w => w.getLsbD (index % 64)) h
    simp [Nat.mod_lt] at hbit
  rw [getBit, hmask, BitVec.and_twoPow]
  cases (map (index / 64)).getLsbD (index % 64) with
  | false => simp
  | true => simp [hpow]

/-- A stored bit reads back, and the other bits keep their values. -/
theorem getBit_setBit (map : ℕ → BitVec 64) (i j : ℕ) (value : Bool) :
    getBit (setBit map i value) j = if j = i then value else getBit map j := by
  have hmask : (1#64 <<< (i % 64)) = BitVec.twoPow 64 (i % 64) := rfl
  rw [getBit_eq_getLsbD, getBit_eq_getLsbD, setBit]
  by_cases hword : j / 64 = i / 64
  · rw [hword, hmask]
    have hlt : j % 64 < 64 := Nat.mod_lt _ (by decide)
    have hiff : j = i ↔ i % 64 = j % 64 := by omega
    by_cases hij : i % 64 = j % 64
    · rw [if_pos (hiff.mpr hij)]
      cases value <;> simp [hij, hlt]
    · rw [if_neg (fun h => hij (hiff.mp h))]
      cases value <;> simp [Ne.symm hij, hlt]
  · rw [Function.update_of_ne hword, if_neg (fun h => hword (by rw [h]))]

end Vsos.Mem
