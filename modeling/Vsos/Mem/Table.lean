import Vsos.Lib.Program
import Vsos.Mem.MemoryMap

/-!
# The table of the memory map and its copy

The firmware leaves its descriptors in a table whose stride it chooses. `MemoryMap` keeps the size of
that table in bytes. `Reallocate` takes the size for a number of descriptors: it multiplies it by the
stride, and copies as many bytes. So it reads far behind the end of the table, unless the 64-bit
product wraps to something smaller.
-/

namespace Vsos.Mem

open Vsos.Lib

variable {current i offset : ℕ}

/-- The number that stands for a memory type. -/
def MemoryType.code (type : MemoryType) : ℕ := type.ctorIdx

/-- `EFI_MEMORY_DESCRIPTOR`. -/
structure EfiMemoryDescriptor where
  type : ℕ
  pad : ℕ
  physicalStart : ℕ
  virtualStart : ℕ
  numberOfPages : ℕ
  attributes : ℕ
  deriving DecidableEq, Repr

/-- `sizeof(EFI_MEMORY_DESCRIPTOR)`. -/
def sizeofDescriptor : ℕ := 40

/-- The offset of `Attribute`. -/
def attributeOffset : ℕ := 32

/-- The descriptor at an offset. -/
def EfiMemoryDescriptor.ofBytes (b : Bytes) (offset : ℕ) : EfiMemoryDescriptor where
  type := b.u32 offset
  pad := b.u32 (offset + 4)
  physicalStart := b.u64 (offset + 8)
  virtualStart := b.u64 (offset + 16)
  numberOfPages := b.u64 (offset + 24)
  attributes := b.u64 (offset + attributeOffset)

/-- `(attributes & EFI_MEMORY_RUNTIME) == 0`. -/
def NotRuntime (attributes : ℕ) : Prop := attributes / 2 ^ 63 % 2 = 0

instance (attributes : ℕ) : Decidable (NotRuntime attributes) := inferInstanceAs (Decidable (_ = _))

/-- The cases of the switch in `Reallocate`. -/
def Reclaimable (type : ℕ) : Prop :=
  type = MemoryType.EfiBootServicesCode.code ∨ type = MemoryType.EfiBootServicesData.code ∨
    type = MemoryType.EfiLoaderCode.code

instance (type : ℕ) : Decidable (Reclaimable type) := inferInstanceAs (Decidable (_ ∨ _))

/-- The members of `MemoryMap`, with what `m_table` points to and how many bytes of it there are, and
the offsets that have been read from the table of the firmware. -/
structure MapState where
  table : Bytes
  extent : ℕ
  size : ℕ
  descSize : ℕ
  reads : List ℕ

/-- A member function of `MemoryMap`. -/
abbrev MapM (α : Type) := Prog MapState α

/-- The constructor; the table of the firmware has `size` bytes. -/
def MapState.construct (table : Bytes) (size descSize : ℕ) : MapState := ⟨table, size, size, descSize, []⟩

/-- `MemoryMap::Length`. -/
def MapState.length (s : MapState) : ℕ := s.size / s.descSize

/-- The descriptor behind the pointer that `MemoryMap::Get` returns. -/
def getDescriptor (index : ℕ) : MapM EfiMemoryDescriptor := do
  ensure (index < (← look MapState.length))
  let offset := wrap64 (index * (← look MapState.descSize))
  ensure (offset + sizeofDescriptor ≤ (← look MapState.extent))
  look fun s => .ofBytes s.table offset

/-- `memcpy(newTable, m_table, tableSize)`, into a buffer that holds `heap`. -/
def copyTable (heap : Bytes) (tableSize : ℕ) : MapM Bytes := fun s =>
  .ok (heap.blit 0 s.table tableSize) { s with reads := s.reads ++ List.range tableSize }

/-- The body of the loop of `Reallocate`, in a buffer of `tableSize` bytes. -/
def reclaim (tableSize current : ℕ) (newTable : Bytes) : MapM Bytes := do
  ensure (current + 4 ≤ tableSize)
  if Reclaimable (newTable.u32 current) then do
    ensure (current + sizeofDescriptor ≤ tableSize)
    ensure (NotRuntime (newTable.u64 (current + attributeOffset)))
    return newTable.setU32 current MemoryType.EfiConventionalMemory.code
  else return newTable

/-- The loop of `Reallocate`, within a budget of rounds. -/
def reclaimLoop (size descSize tableSize : ℕ) : ℕ → ℕ → Bytes → MapM Bytes
  | 0, _, _ => throw .diverged
  | fuel + 1, current, newTable =>
    if current < size then do
      let newTable ← reclaim tableSize current newTable
      reclaimLoop size descSize tableSize fuel (current + descSize) newTable
    else return newTable

/-- `MemoryMap::Reallocate`; `heap` is what lies in the new buffer. A round moves on by at least one
byte. -/
def reallocate (heap : Bytes) : MapM Unit := do
  let size ← look MapState.size
  let descSize ← look MapState.descSize
  let tableSize := wrap64 (size * descSize)
  let newTable ← copyTable heap tableSize
  let newTable ← reclaimLoop size descSize tableSize (size + 1) 0 newTable
  change fun s => { s with table := newTable, extent := tableSize }

/-- The descriptor after the memory of the firmware was reclaimed. -/
def EfiMemoryDescriptor.reclaimed (desc : EfiMemoryDescriptor) : EfiMemoryDescriptor :=
  if Reclaimable desc.type then { desc with type := MemoryType.EfiConventionalMemory.code } else desc

namespace EfiMemoryDescriptor

/-- A descriptor depends on its own bytes. -/
theorem ofBytes_congr {a b : Bytes} (h : ∀ k < sizeofDescriptor, a (offset + k) = b (offset + k)) :
    ofBytes a offset = ofBytes b offset := by
  simp only [sizeofDescriptor] at h
  simp only [ofBytes, attributeOffset, mk.injEq]
  refine ⟨Bytes.u32_congr fun k hk => h k (by omega), Bytes.u32_congr fun k hk => ?_,
    Bytes.u64_congr fun k hk => ?_, Bytes.u64_congr fun k hk => ?_, Bytes.u64_congr fun k hk => ?_,
    Bytes.u64_congr fun k hk => ?_⟩
  all_goals
    simp only [Nat.add_assoc]
    exact h _ (by omega)

/-- Storing a type leaves the other fields. -/
theorem ofBytes_setU32_self (b : Bytes) (offset value : ℕ) :
    ofBytes (b.setU32 offset value) offset =
      { ofBytes b offset with type := value % 2 ^ 32 } := by
  simp only [ofBytes, attributeOffset, mk.injEq, Bytes.u32_setU32, true_and]
  refine ⟨Bytes.u32_setU32_of_disjoint (by omega), Bytes.u64_congr fun k hk => ?_,
    Bytes.u64_congr fun k hk => ?_, Bytes.u64_congr fun k hk => ?_, Bytes.u64_congr fun k hk => ?_⟩
  all_goals exact Bytes.setU32_of_not_mem (by omega)

/-- Storing a type leaves the descriptors that do not overlap. -/
theorem ofBytes_setU32_of_disjoint {b : Bytes} {value other : ℕ}
    (h : other + sizeofDescriptor ≤ offset ∨ offset + sizeofDescriptor ≤ other) :
    ofBytes (b.setU32 offset value) other = ofBytes b other := by
  simp only [sizeofDescriptor] at h
  exact ofBytes_congr fun k hk => by
    simp only [sizeofDescriptor] at hk
    exact Bytes.setU32_of_not_mem (by omega)

end EfiMemoryDescriptor

section Loop

open EfiMemoryDescriptor

variable {size descSize tableSize : ℕ} {s t : MapState} {b b' : Bytes}

/-- The buffer after one round. -/
def reclaimAt (b : Bytes) (current : ℕ) : Bytes :=
  if Reclaimable (b.u32 current) then b.setU32 current MemoryType.EfiConventionalMemory.code else b

/-- A descriptor ends before the later ones begin. -/
theorem descriptor_end_le (hstride : sizeofDescriptor ≤ descSize) {j : ℕ} (h : i < j) :
    i * descSize + sizeofDescriptor ≤ j * descSize := by
  have hnext := Nat.mul_le_mul_right descSize (Nat.succ_le_of_lt h)
  rw [Nat.succ_mul] at hnext
  omega

/-- The descriptors after one round; those of the table do not overlap. -/
theorem ofBytes_reclaimAt (b : Bytes) (hstride : sizeofDescriptor ≤ descSize) (i j : ℕ) :
    ofBytes (reclaimAt b (i * descSize)) (j * descSize) =
      if j = i then (ofBytes b (j * descSize)).reclaimed else ofBytes b (j * descSize) := by
  have htype : (ofBytes b (i * descSize)).type = b.u32 (i * descSize) := rfl
  by_cases hij : j = i
  · subst hij
    rw [if_pos rfl, reclaimAt, reclaimed, htype]
    split
    · rw [ofBytes_setU32_self]
      rfl
    · rfl
  · rw [reclaimAt]
    split
    · apply ofBytes_setU32_of_disjoint
      rcases Nat.lt_or_gt_of_ne hij with hlt | hgt
      · exact .inl (descriptor_end_le hstride hlt)
      · exact .inr (descriptor_end_le hstride hgt)
    · rfl

/-- One round inside the buffer. -/
theorem reclaim_run (hinside : current + sizeofDescriptor ≤ tableSize)
    (hruntime : Reclaimable (b.u32 current) → NotRuntime (b.u64 (current + attributeOffset))) :
    (reclaim tableSize current b).run s = .ok (reclaimAt b current) s := by
  have htype : current + 4 ≤ tableSize := by
    simp only [sizeofDescriptor] at hinside
    omega
  rw [reclaim, bind_ensure htype, reclaimAt]
  by_cases hreclaim : Reclaimable (b.u32 current)
  · rw [if_pos hreclaim, if_pos hreclaim, bind_ensure hinside,
      bind_ensure (hruntime hreclaim)]
    rfl
  · rw [if_neg hreclaim, if_neg hreclaim]
    rfl

/-- A round that returns has passed its assertion. -/
theorem reclaim_ok (hrun : (reclaim tableSize current b).run s = .ok b' t) :
    b' = reclaimAt b current ∧ s = t ∧
      (Reclaimable (b.u32 current) → NotRuntime (b.u64 (current + attributeOffset))) := by
  obtain ⟨-, hrest⟩ := bind_ensure_eq_ok.mp hrun
  rw [reclaimAt]
  by_cases hreclaim : Reclaimable (b.u32 current)
  · rw [if_pos hreclaim] at hrest ⊢
    obtain ⟨-, hrest⟩ := bind_ensure_eq_ok.mp hrest
    obtain ⟨hruntime, hrest⟩ := bind_ensure_eq_ok.mp hrest
    cases hrest
    exact ⟨rfl, rfl, fun _ => hruntime⟩
  · rw [if_neg hreclaim] at hrest ⊢
    cases hrest
    exact ⟨rfl, rfl, fun h => absurd h hreclaim⟩

/-- The descriptors from number `i` on are reclaimed, if they lie in the buffer and none of them is
in use at run time. -/
theorem reclaimLoop_run (fuel : ℕ) {n : ℕ} (hstride : sizeofDescriptor ≤ descSize)
    (hcurrent : i * descSize = current) (hfuel : n < i + fuel) (hi : i ≤ n)
    (hinside : ∀ j < n, j * descSize + sizeofDescriptor ≤ tableSize)
    (hruntime : ∀ j < n, i ≤ j → Reclaimable (ofBytes b (j * descSize)).type →
      NotRuntime (ofBytes b (j * descSize)).attributes) :
    ∃ b', (reclaimLoop (n * descSize) descSize tableSize fuel current b).run s = .ok b' s ∧
      ∀ j < n, ofBytes b' (j * descSize) =
        if i ≤ j then (ofBytes b (j * descSize)).reclaimed else ofBytes b (j * descSize) := by
  have hpos : 0 < descSize := by
    simp only [sizeofDescriptor] at hstride
    omega
  induction fuel generalizing i current b with
  | zero => omega
  | succ fuel ih =>
    subst hcurrent
    rw [reclaimLoop]
    rcases Nat.eq_or_lt_of_le hi with rfl | hlt
    · rw [if_neg (Nat.lt_irrefl _)]
      exact ⟨b, rfl, fun j hj => by rw [if_neg (by omega)]⟩
    · rw [if_pos (Nat.mul_lt_mul_of_pos_right hlt hpos),
        bind_of_ok (reclaim_run (hinside i hlt) (hruntime i hlt (le_refl i)))]
      have hnext (j : ℕ) (hj : i + 1 ≤ j) : ofBytes (reclaimAt b (i * descSize)) (j * descSize) =
          ofBytes b (j * descSize) := by
        rw [ofBytes_reclaimAt b hstride, if_neg (by omega)]
      obtain ⟨b', hrun, hdesc⟩ := ih (Nat.succ_mul i descSize)
        (by omega) hlt fun j hj hij => by
          rw [hnext j hij]
          exact hruntime j hj (by omega)
      refine ⟨b', hrun, fun j hj => ?_⟩
      rw [hdesc j hj, ofBytes_reclaimAt b hstride]
      by_cases hij : j = i
      · rw [if_neg (by omega), if_pos hij, if_pos (by omega)]
      · rw [if_neg hij]
        by_cases hle : i ≤ j
        · rw [if_pos (by omega), if_pos hle]
        · rw [if_neg (by omega), if_neg hle]

/-- A loop that returns has met no reclaimed descriptor that is in use at run time. -/
theorem reclaimLoop_ok {n fuel : ℕ} (hstride : sizeofDescriptor ≤ descSize)
    (hcurrent : i * descSize = current)
    (hrun : (reclaimLoop (n * descSize) descSize tableSize fuel current b).run s = .ok b' t) :
    s = t ∧ ∀ j < n, i ≤ j → Reclaimable (ofBytes b (j * descSize)).type →
      NotRuntime (ofBytes b (j * descSize)).attributes := by
  induction fuel generalizing i current b with
  | zero => cases hrun
  | succ fuel ih =>
    subst hcurrent
    rw [reclaimLoop] at hrun
    split at hrun
    · obtain ⟨b₁, s₁, hround, hrest⟩ := bind_eq_ok.mp hrun
      obtain ⟨rfl, rfl, hruntime⟩ := reclaim_ok hround
      obtain ⟨rfl, hlater⟩ := ih (Nat.succ_mul i descSize) hrest
      refine ⟨rfl, fun j hj hij => ?_⟩
      rcases Nat.eq_or_lt_of_le hij with rfl | hlt
      · exact hruntime
      · have hkept := hlater j hj hlt
        rwa [ofBytes_reclaimAt b hstride, if_neg (by omega)] at hkept
    · next hend =>
      cases hrun
      refine ⟨rfl, fun j hj hij => absurd ?_ hend⟩
      exact Nat.mul_lt_mul_of_pos_right (hij.trans_lt hj) (by simp only [sizeofDescriptor] at hstride; omega)

end Loop

section Reallocate

open EfiMemoryDescriptor

variable {table heap : Bytes} {s t : MapState} {descSize n : ℕ}

/-- The number of bytes that `Reallocate` copies. -/
def MapState.tableSize (s : MapState) : ℕ := wrap64 (s.size * s.descSize)

/-- `Get` inside the table. -/
theorem getDescriptor_eq_ok_iff {desc : EfiMemoryDescriptor} (hi : i < s.length)
    (hsize : s.size < 2 ^ 64) :
    (getDescriptor i).run s = .ok desc t ↔
      i * s.descSize + sizeofDescriptor ≤ s.extent ∧ desc = ofBytes s.table (i * s.descSize) ∧ s = t := by
  have hwrap : wrap64 (i * s.descSize) = i * s.descSize := by
    apply Nat.mod_eq_of_lt
    have hle : i * s.descSize ≤ s.size / s.descSize * s.descSize := Nat.mul_le_mul_right _ hi.le
    exact (hle.trans (Nat.div_mul_le_self _ _)).trans_lt hsize
  rw [getDescriptor, bind_look, bind_ensure hi, bind_look,
    bind_look, hwrap]
  constructor
  · intro hrun
    obtain ⟨hextent, hrest⟩ := bind_ensure_eq_ok.mp hrun
    cases hrest
    exact ⟨hextent, rfl, rfl⟩
  · rintro ⟨hextent, rfl, rfl⟩
    rw [bind_ensure hextent]
    rfl

/-- The copy holds the descriptors of the table that fit into it. -/
theorem ofBytes_blit {tableSize : ℕ} (h : offset + sizeofDescriptor ≤ tableSize) :
    ofBytes (heap.blit 0 table tableSize) offset = ofBytes table offset :=
  ofBytes_congr fun k hk => by rw [Bytes.blit_of_mem (by omega) (by omega), Nat.sub_zero]

/-- `Reallocate` is its loop, over the copy of the table. -/
theorem reallocate_eq_ok_iff :
    (reallocate heap).run s = .ok () t ↔
      ∃ b u, (reclaimLoop s.size s.descSize s.tableSize (s.size + 1) 0
          (heap.blit 0 s.table s.tableSize)).run
            { s with reads := s.reads ++ List.range s.tableSize } = .ok b u ∧
        t = { u with table := b, extent := s.tableSize } := by
  rw [reallocate, bind_look, bind_look, bind_eq_ok]
  constructor
  · rintro ⟨_, _, hcopy, hrest⟩
    cases hcopy
    obtain ⟨b, u, hloop, hrest⟩ := bind_eq_ok.mp hrest
    cases hrest
    exact ⟨b, u, hloop, rfl⟩
  · rintro ⟨b, u, hloop, rfl⟩
    exact ⟨_, _, rfl, bind_of_ok hloop⟩

/-- Reads within the table come from a copy that is not longer than the table. -/
theorem tableSize_le_of_reads (h : ∀ offset ∈ s.reads ++ List.range s.tableSize, offset < s.size) :
    s.tableSize ≤ s.size := by
  by_contra hmore
  have hread : s.size ∈ List.range s.tableSize := List.mem_range.mpr (Nat.lt_of_not_le hmore)
  exact Nat.lt_irrefl _ (h _ (List.mem_append_right _ hread))

/-- `Reallocate` returns, has read the table only, and leaves its descriptors except that those of the
firmware have become conventional memory. -/
def Reallocates (heap : Bytes) (s : MapState) : Prop :=
  ∃ t, (reallocate heap).run s = .ok () t ∧ (∀ offset ∈ t.reads, offset < s.size) ∧
    t.length = s.length ∧ ∀ i < s.length, ∃ desc, (getDescriptor i).run s = .ok desc s ∧
      (getDescriptor i).run t = .ok desc.reclaimed t

/-- The map is kept iff the number of copied bytes, the size of the table times the stride in 64 bits,
wraps to one that is within the table and covers every descriptor, and no reclaimed descriptor is in use
at run time. -/
theorem reallocates_iff (table heap : Bytes) {size : ℕ} (hsize : size < 2 ^ 64)
    (hstride : sizeofDescriptor ≤ descSize) (hdvd : descSize ∣ size) :
    Reallocates heap (.construct table size descSize) ↔
      wrap64 (size * descSize) ≤ size ∧
      ∀ i < size / descSize, i * descSize + sizeofDescriptor ≤ wrap64 (size * descSize) ∧
        (Reclaimable (table.u32 (i * descSize)) →
          NotRuntime (table.u64 (i * descSize + attributeOffset))) := by
  obtain ⟨n, rfl⟩ := hdvd
  rw [Nat.mul_comm descSize n] at hsize ⊢
  have hpos : 0 < descSize := Nat.lt_of_lt_of_le (by decide) hstride
  rw [Nat.mul_div_cancel n hpos]
  set s : MapState := .construct table (n * descSize) descSize with hs
  have hlength : s.length = n := Nat.mul_div_cancel n hpos
  have hfits (i : ℕ) (hi : i < n) : i * descSize + sizeofDescriptor ≤ n * descSize :=
    descriptor_end_le hstride hi
  constructor
  · rintro ⟨t, hrun, hreads, -, hkept⟩
    obtain ⟨b, u, hloop, rfl⟩ := reallocate_eq_ok_iff.mp hrun
    obtain ⟨rfl, hruntime⟩ := reclaimLoop_ok hstride (Nat.zero_mul descSize) hloop
    refine ⟨?_, fun i hi => ?_⟩
    · exact tableSize_le_of_reads hreads
    · obtain ⟨desc, -, hget⟩ := hkept i (by rwa [hlength])
      have hinside : i * descSize + sizeofDescriptor ≤ s.tableSize :=
        ((getDescriptor_eq_ok_iff (by exact hlength.symm ▸ hi) hsize).mp hget).1
      refine ⟨hinside, fun hreclaim => ?_⟩
      have hnot := hruntime i hi (Nat.zero_le i)
      rw [ofBytes_blit hinside] at hnot
      exact hnot hreclaim
  · rintro ⟨hle, hdesc⟩
    have hinside (i : ℕ) (hi : i < n) : i * descSize + sizeofDescriptor ≤ s.tableSize := (hdesc i hi).1
    have hrounds : n ≤ n * descSize := Nat.le_mul_of_pos_right n hpos
    obtain ⟨b, hloop, hafter⟩ := reclaimLoop_run (n * descSize + 1) (b := heap.blit 0 table s.tableSize)
      hstride (Nat.zero_mul descSize) (Nat.lt_of_le_of_lt hrounds (by omega)) (Nat.zero_le n) hinside
      fun i hi _ => by
        rw [ofBytes_blit (hinside i hi)]
        exact (hdesc i hi).2
    refine ⟨_, reallocate_eq_ok_iff.mpr ⟨b, _, hloop, rfl⟩, fun offset hread => ?_, rfl, fun i hi => ?_⟩
    · exact (List.mem_range.mp hread).trans_le hle
    · have hin : i < n := hlength ▸ hi
      have hnew := hafter i hin
      rw [ofBytes_blit (hinside i hin)] at hnew
      exact ⟨ofBytes table (i * descSize),
        (getDescriptor_eq_ok_iff hi hsize).mpr ⟨hfits i hin, rfl, rfl⟩,
        (getDescriptor_eq_ok_iff (by exact hi) hsize).mpr ⟨hinside i hin, hnew.symm, rfl⟩⟩

/-- One descriptor, with a stride whose square wraps to less than itself. -/
theorem reallocates_wide :
    6074001000 < 2 ^ 64 ∧ Reallocates (fun _ => 0) (.construct (fun _ => 0) 6074001000 6074001000) := by
  refine ⟨by decide, (reallocates_iff _ _ (by decide) (by decide) (Nat.dvd_refl _)).mpr ⟨by decide, ?_⟩⟩
  intro i hi
  obtain rfl : i = 0 := by omega
  exact ⟨by decide, fun _ => by decide⟩

/-- A table of one descriptor with a stride of 48 bytes: 2304 bytes of it are read. -/
theorem not_reallocates : ¬ ∀ (table heap : Bytes) (size descSize : ℕ), size < 2 ^ 64 →
    sizeofDescriptor ≤ descSize → descSize ∣ size → Reallocates heap (.construct table size descSize) := by
  intro hall
  obtain ⟨t, hrun, hreads, -⟩ := hall (fun _ => 0) (fun _ => 0) 48 48 (by decide) (by decide)
    (Nat.dvd_refl _)
  obtain ⟨b, u, hloop, rfl⟩ := reallocate_eq_ok_iff.mp hrun
  obtain ⟨rfl, -⟩ := reclaimLoop_ok (n := 1) (by decide) (Nat.zero_mul 48) hloop
  exact absurd (tableSize_le_of_reads hreads) (by decide)

end Reallocate

end Vsos.Mem
