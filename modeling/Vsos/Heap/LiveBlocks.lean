import Vsos.Heap.Tiling

/-!
# The live allocations

Whatever is allocated and freed, the blocks tile the heap, and those that are not free are the
allocations that are live. The last block never gets too small to hold any data, since a split
leaves it a remainder; the pointer of an empty last block would be rejected by `Deallocate`.
-/

namespace Vsos.Heap

open Vsos.Lib Vsos.Mem

variable {heap : KHeap} {s t : HeapState} {b c : Block} {blocks l₁ l₂ : List Block}
  {live : List (ℕ × ℕ)} {n p size : ℕ}

/-- The blocks of a state and its live allocations, as pointers with the sizes asked for. -/
structure Accounts (heap : KHeap) (s : HeapState) (blocks : List Block) (live : List (ℕ × ℕ)) :
    Prop where
  tiled : Tiled heap s.mem blocks
  last : ∀ b ∈ blocks.getLast?, heapAlign ≤ b.size
  live_iff : ∀ p, (∃ b ∈ blocks, b.free = false ∧ b.address + headerSize = p) ↔
    p ∈ live.map Prod.fst
  large : ∀ e ∈ live, ∀ b ∈ blocks, b.address + headerSize = e.1 → e.2 ≤ b.size
  nodup : (live.map Prod.fst).Nodup

/-- A block that fits is the first one somewhere, unless there is none. -/
theorem exists_first_fit (n : ℕ) (blocks : List Block) :
    (∀ b ∈ blocks, ¬ b.Fits n) ∨ ∃ l₁ b l₂, blocks = l₁ ++ b :: l₂ ∧
      (∀ c ∈ l₁, ¬ c.Fits n) ∧ b.Fits n := by
  cases hfind : blocks.find? (fun b => b.Fits n) with
  | none =>
    left
    simpa using hfind
  | some b =>
    obtain ⟨hb, l₁, l₂, heq, hskip⟩ := List.find?_eq_some_iff_append.mp hfind
    exact Or.inr ⟨l₁, b, l₂, heq, by simpa using hskip, by simpa using hb⟩

/-- Rounding up does not make a size smaller. -/
theorem le_byteAlign (h : size ≤ 2 ^ 46) : size ≤ byteAlign size heapAlign := by
  rw [byteAlign, wrap64_of_lt]
  · simp only [heapAlign]
    omega
  · simp only [heapAlign]
    omega

/-- Of the blocks that take the place of a block, the first one is not free and large enough;
a second one is free. -/
theorem Block.mem_take (hn : n ≤ b.size) (hc : c ∈ b.take n) :
    c.free = false → c.address = b.address ∧ n ≤ c.size := by
  rw [take] at hc
  split at hc
  · rw [List.mem_singleton.mp hc]
    exact fun _ => ⟨rfl, hn⟩
  · rcases List.mem_cons.mp hc with rfl | hc
    · exact fun _ => ⟨rfl, le_refl n⟩
    · rw [List.mem_singleton.mp hc]
      intro hfree
      cases hfree

/-- The block that is handed out is where the free one was. -/
theorem Block.exists_take (n : ℕ) (b : Block) :
    ∃ c ∈ b.take n, c.free = false ∧ c.address = b.address := by
  rw [take]
  split
  · exact ⟨_, List.mem_cons_self, rfl, rfl⟩
  · exact ⟨_, List.mem_cons_self, rfl, rfl⟩

/-- The last block stays large enough. -/
theorem Block.last_take (hlast : ∀ c ∈ (l₁ ++ b :: l₂).getLast?, heapAlign ≤ c.size) :
    ∀ c ∈ (l₁ ++ (b.take n ++ l₂)).getLast?, heapAlign ≤ c.size := by
  have htake : ∃ l c, b.take n = l ++ [c] ∧ (heapAlign ≤ b.size → heapAlign ≤ c.size) := by
    rw [take]
    split
    · exact ⟨[], _, rfl, fun h => h⟩
    · next hlarge =>
      refine ⟨[_], _, rfl, fun _ => ?_⟩
      simp only [heapAlign, headerSize] at hlarge ⊢
      omega
  obtain ⟨l, c, htake, hc⟩ := htake
  by_cases hl₂ : l₂ = []
  · subst hl₂
    have hb : heapAlign ≤ b.size := hlast b (by simp)
    rw [htake]
    simpa using hc hb
  · rw [List.append_cons, List.getLast?_append_of_ne_nil _ hl₂] at hlast
    rwa [← List.append_assoc, List.getLast?_append_of_ne_nil _ hl₂]

section Step

/-- Two blocks with one address are the same. -/
theorem TilesHeap.eq_of_address (h : TilesHeap heap blocks) (hb : b ∈ blocks) (hc : c ∈ blocks)
    (heq : b.address = c.address) : b = c := by
  have happart := Tiles.apart h hb hc
  simp only [Block.extent, headerSize] at happart
  rcases happart with hbc | happart
  · exact hbc
  · omega

/-- Taking a free block adds its pointer to the live ones. -/
theorem Accounts.take (h : Accounts heap s (l₁ ++ b :: l₂) live) (hb : b.Fits n)
    (htiled : Tiled heap t.mem (l₁ ++ (b.take n ++ l₂))) (hsize : size ≤ n) :
    Accounts heap t (l₁ ++ (b.take n ++ l₂)) ((b.address + headerSize, size) :: live) := by
  have hb_mem : b ∈ l₁ ++ b :: l₂ := by simp
  have hrest : ∀ c ∈ l₁ ++ b :: l₂, c.free = false → c ∈ l₁ ++ (b.take n ++ l₂) := by
    intro c hc hfree
    have hne : c ≠ b := by
      rintro rfl
      rw [hb.1] at hfree
      cases hfree
    simp only [List.mem_append, List.mem_cons] at hc ⊢
    tauto
  have hold : ∀ c ∈ l₁ ++ (b.take n ++ l₂), c ∈ l₁ ++ b :: l₂ ∨ c ∈ b.take n := by
    intro c hc
    simp only [List.mem_append, List.mem_cons] at hc ⊢
    tauto
  obtain ⟨d, hd, hd_free, hd_address⟩ := b.exists_take n
  refine ⟨htiled, Block.last_take h.last, ?_, ?_, ?_⟩
  · intro p
    rw [List.map_cons, List.mem_cons]
    constructor
    · rintro ⟨c, hc, hfree, rfl⟩
      rcases hold c hc with hc | hc
      · exact Or.inr ((h.live_iff _).mp ⟨c, hc, hfree, rfl⟩)
      · rw [(Block.mem_take hb.2 hc hfree).1]
        exact Or.inl rfl
    · rintro (rfl | hp)
      · exact ⟨d, by simp [hd], hd_free, by rw [hd_address]⟩
      · obtain ⟨c, hc, hfree, heq⟩ := (h.live_iff p).mpr hp
        exact ⟨c, hrest c hc hfree, hfree, heq⟩
  · intro e he c hc heq
    rcases List.mem_cons.mp he with rfl | he
    · -- the block at the new pointer is the one that was taken
      have hcd : c = d := TilesHeap.eq_of_address htiled.tiles hc (by simp [hd])
        ((Nat.add_right_cancel heq).trans hd_address.symm)
      rw [hcd]
      exact hsize.trans (Block.mem_take hb.2 hd hd_free).2
    · obtain ⟨d', hd', hfree, hd_address'⟩ := (h.live_iff e.1).mpr (List.mem_map_of_mem he)
      have hcd : c = d' := TilesHeap.eq_of_address htiled.tiles hc (hrest d' hd' hfree)
        (Nat.add_right_cancel (heq.trans hd_address'.symm))
      rw [hcd]
      exact h.large e he d' hd' hd_address'
  · refine List.nodup_cons.mpr ⟨fun hin => ?_, h.nodup⟩
    obtain ⟨c, hc, hfree, heq⟩ := (h.live_iff _).mpr hin
    rw [TilesHeap.eq_of_address h.tiled.tiles hc hb_mem (Nat.add_right_cancel heq), hb.1] at hfree
    cases hfree

/-- Freeing a block takes its pointer from the live ones. -/
theorem Accounts.release (h : Accounts heap s (l₁ ++ b :: l₂) live)
    (htiled : Tiled heap t.mem (l₁ ++ { b with free := true } :: l₂)) :
    Accounts heap t (l₁ ++ { b with free := true } :: l₂)
      (live.filter fun e => e.1 ≠ b.address + headerSize) := by
  have hb_mem : b ∈ l₁ ++ b :: l₂ := by simp
  have hmem (c : Block) : c ∈ l₁ ++ { b with free := true } :: l₂ ↔
      (c ∈ l₁ ++ b :: l₂ ∧ c ≠ b) ∨ c = { b with free := true } := by
    have hne : c ∈ l₁ ++ l₂ → c ≠ b := TilesHeap.ne_of_mem h.tiled.tiles
    simp only [List.mem_append, List.mem_cons] at hne ⊢
    tauto
  refine ⟨htiled, ?_, ?_, ?_, ?_⟩
  · have hkept := h.last
    by_cases hl₂ : l₂ = []
    · subst hl₂
      simpa using hkept
    · rw [List.append_cons, List.getLast?_append_of_ne_nil _ hl₂] at hkept ⊢
      exact hkept
  · intro p
    have hfilter : p ∈ (live.filter fun e => e.1 ≠ b.address + headerSize).map Prod.fst ↔
        p ∈ live.map Prod.fst ∧ p ≠ b.address + headerSize := by
      simp only [List.mem_map, List.mem_filter, decide_eq_true_eq]
      constructor
      · rintro ⟨e, ⟨he, hne⟩, rfl⟩
        exact ⟨⟨e, he, rfl⟩, hne⟩
      · rintro ⟨⟨e, he, rfl⟩, hne⟩
        exact ⟨e, ⟨he, hne⟩, rfl⟩
    rw [hfilter, ← h.live_iff]
    constructor
    · rintro ⟨c, hc, hc_free, rfl⟩
      rcases (hmem c).mp hc with ⟨hc, hne⟩ | rfl
      · exact ⟨⟨c, hc, hc_free, rfl⟩, fun heq =>
          hne (TilesHeap.eq_of_address h.tiled.tiles hc hb_mem (Nat.add_right_cancel heq))⟩
      · cases hc_free
    · rintro ⟨⟨c, hc, hc_free, rfl⟩, hne⟩
      exact ⟨c, (hmem c).mpr (Or.inl ⟨hc, fun heq => hne (by rw [heq])⟩), hc_free, rfl⟩
  · intro e he c hc heq
    have he' := (List.mem_filter.mp he).1
    rcases (hmem c).mp hc with ⟨hc, -⟩ | rfl
    · exact h.large e he' c hc heq
    · exact h.large e he' b hb_mem heq
  · exact h.nodup.sublist (List.filter_sublist.map Prod.fst)

section

variable (h : Accounts heap s blocks live)
include h

/-- A heap has a block. -/
theorem Accounts.ne_nil : blocks ≠ [] := by
  rintro rfl
  have htiles : heap.start = heap.stop := h.tiled.tiles
  have hroom := heap.room
  simp only [headerSize] at hroom
  omega

/-- `Allocate` takes the first block that fits, and stops the machine if there is none. -/
theorem Accounts.allocate_cases (size : ℕ) :
    ((∀ b ∈ blocks, ¬ b.Fits (byteAlign size heapAlign)) ∧
        (allocate heap size).run s = .error .fault s) ∨
      ∃ l₁ b l₂ mem, blocks = l₁ ++ b :: l₂ ∧ (∀ c ∈ l₁, ¬ c.Fits (byteAlign size heapAlign)) ∧
        b.Fits (byteAlign size heapAlign) ∧
        (allocate heap size).run s = .ok (b.address + headerSize)
          { s.countAllocation (byteAlign size heapAlign) with
          mem
          log := allocateWrites b (byteAlign size heapAlign) (firstNode heap l₂) ++ s.log } ∧
        Tiled heap mem (l₁ ++ (b.take (byteAlign size heapAlign) ++ l₂)) := by
  obtain hnone | ⟨l₁, b, l₂, rfl, hskip, hb⟩ := exists_first_fit (byteAlign size heapAlign) blocks
  · refine Or.inl ⟨hnone, ?_⟩
    rw [Heap.allocate, bind_of_error (h.tiled.findBlock_fault h.ne_nil hnone)]
  · obtain ⟨mem, hrun, htiled⟩ := h.tiled.allocate_run rfl hskip hb
    exact Or.inr ⟨l₁, b, l₂, mem, rfl, hskip, hb, hrun, htiled⟩

/-- `Deallocate` returns for every live pointer. -/
theorem Accounts.deallocate_run (hp : p ∈ live.map Prod.fst) :
    ∃ l₁ b l₂ mem, blocks = l₁ ++ b :: l₂ ∧ b.free = false ∧ p = b.address + headerSize ∧
      (deallocate heap p).run s = .ok () { s.countRelease b.size with
        mem
        log := (b.address + headerSize, b.size) :: (b.address + 16, 8) :: s.log } ∧
      Tiled heap mem (l₁ ++ { b with free := true } :: l₂) := by
  obtain ⟨b, hb, hfree, rfl⟩ := (h.live_iff p).mpr hp
  obtain ⟨l₁, l₂, rfl⟩ := List.append_of_mem hb
  have hlast : l₂ = [] → 0 < b.size := by
    rintro rfl
    exact lt_of_lt_of_le (by decide) (h.last b (by simp))
  obtain ⟨mem, hrun, htiled⟩ := h.tiled.deallocate_run hfree hlast
  exact ⟨l₁, b, l₂, mem, rfl, hfree, rfl, hrun, htiled⟩

end

end Step

/-- The states that the heap gets into, with the allocations that are live in them. -/
inductive Reach (heap : KHeap) : HeapState → List (ℕ × ℕ) → Prop
  | init {mem : Bytes} {supply : ℕ} {s : HeapState} :
      (heapInitialize heap).run (heap.construct mem supply) = .ok () s → Reach heap s []
  | allocate {s t : HeapState} {live : List (ℕ × ℕ)} {size p : ℕ} : Reach heap s live →
      size ≤ 2 ^ 46 → (allocate heap size).run s = .ok p t → Reach heap t ((p, size) :: live)
  | deallocate {s t : HeapState} {live : List (ℕ × ℕ)} {p : ℕ} : Reach heap s live →
      p ∈ live.map Prod.fst → (deallocate heap p).run s = .ok () t →
      Reach heap t (live.filter fun e => e.1 ≠ p)

/-- `Initialize` makes one free block. -/
theorem accounts_heapInitialize {mem : Bytes} {supply : ℕ}
    (hrun : (heapInitialize heap).run (heap.construct mem supply) = .ok () s) :
    Accounts heap s [heap.firstBlock] [] := by
  obtain ⟨t, hrun', htiled, -⟩ := heapInitialize_run mem (le_of_heapInitialize hrun)
  rw [hrun] at hrun'
  injection hrun' with _ ht
  subst ht
  refine ⟨htiled, ?_, ?_, by simp, List.nodup_nil⟩
  · have hroom := heap.room
    simp only [List.getLast?_singleton, Option.mem_def, Option.some.injEq, forall_eq',
      KHeap.firstBlock]
    omega
  · simp [KHeap.firstBlock]

/-- The accounts hold in every state that is reached. -/
theorem Reach.accounts (h : Reach heap s live) : ∃ blocks, Accounts heap s blocks live := by
  induction h with
  | init hrun => exact ⟨_, accounts_heapInitialize hrun⟩
  | @allocate s t live size p _ hsize hrun ih =>
    obtain ⟨blocks, h⟩ := ih
    obtain ⟨-, hrun'⟩ | ⟨l₁, b, l₂, mem, rfl, -, hb, hrun', htiled⟩ := h.allocate_cases size
    · rw [hrun] at hrun'
      cases hrun'
    · rw [hrun] at hrun'
      injection hrun' with hp ht
      subst hp ht
      exact ⟨_, h.take hb htiled (le_byteAlign hsize)⟩
  | deallocate _ hp hrun ih =>
    obtain ⟨blocks, h⟩ := ih
    obtain ⟨l₁, b, l₂, mem, rfl, -, rfl, hrun', htiled⟩ := h.deallocate_run hp
    rw [hrun] at hrun'
    injection hrun' with _ ht
    subst ht
    exact ⟨_, h.release htiled⟩

/-- Live allocations do not overlap. -/
theorem Accounts.live_disjoint (h : Accounts heap s blocks live) :
    live.Pairwise fun e e' => e.1 + e.2 ≤ e'.1 ∨ e'.1 + e'.2 ≤ e.1 := by
  have hnodup : live.Pairwise fun e e' => e.1 ≠ e'.1 := List.pairwise_map.mp h.nodup
  refine hnodup.imp_of_mem fun {e e'} he he' hne => ?_
  obtain ⟨b, hb, -, hb_address⟩ := (h.live_iff e.1).mpr (List.mem_map_of_mem he)
  obtain ⟨c, hc, -, hc_address⟩ := (h.live_iff e'.1).mpr (List.mem_map_of_mem he')
  have hb_large := h.large e he b hb hb_address
  have hc_large := h.large e' he' c hc hc_address
  have happart := Tiles.apart h.tiled.tiles hb hc
  simp only [Block.extent] at happart
  rcases happart with rfl | happart
  · exact absurd (hb_address.symm.trans hc_address) hne
  · omega

/-- In every state that the heap gets into, the list is a ring over blocks of increasing
addresses that tile the heap, every header has its magic number, and the blocks in use are the
live allocations, which are as large as asked for and do not overlap. No assertion fails in the
next call, unless `Allocate` runs out of blocks. -/
theorem heap_tiling (h : Reach heap s live) :
    ∃ blocks, Tiled heap s.mem blocks ∧ (blocks.map Block.address).Pairwise (· < ·) ∧
      (∀ b ∈ blocks, magicField (s.mem.u64 (b.address + 16)) = magic) ∧
      (∀ p, (∃ b ∈ blocks, b.free = false ∧ b.address + headerSize = p) ↔ p ∈ live.map Prod.fst) ∧
      (∀ e ∈ live, ∀ b ∈ blocks, b.address + headerSize = e.1 → e.2 ≤ b.size) ∧
      (live.Pairwise fun e e' => e.1 + e.2 ≤ e'.1 ∨ e'.1 + e'.2 ≤ e.1) ∧
      (∀ size ≤ 2 ^ 46, (∃ b ∈ blocks, b.Fits (byteAlign size heapAlign)) →
        ∃ p t, (allocate heap size).run s = .ok p t) ∧
      ∀ p ∈ live.map Prod.fst, ∃ t, (deallocate heap p).run s = .ok () t := by
  obtain ⟨blocks, h⟩ := h.accounts
  refine ⟨blocks, h.tiled, ?_, ?_, h.live_iff, h.large, h.live_disjoint, ?_, ?_⟩
  · refine List.pairwise_map.mpr (h.tiled.tiles.pairwise.imp fun hle => ?_)
    simp only [Block.extent, headerSize] at hle
    omega
  · intro b hb
    rw [h.tiled.word b hb, magicField_word (TilesHeap.bounds h.tiled.tiles hb).2.2]
  · rintro size - ⟨b, hb, hfits⟩
    obtain ⟨hnone, -⟩ | ⟨_, _, _, _, -, -, -, hrun, -⟩ := h.allocate_cases size
    · exact absurd hfits (hnone b hb)
    · exact ⟨_, _, hrun⟩
  · intro p hp
    obtain ⟨_, _, _, _, -, -, -, hrun, -⟩ := h.deallocate_run hp
    exact ⟨_, hrun⟩

/-- `KernelHeapStart`. -/
def kernelHeapStart : ℕ := 0xFFFF802000000000

/-- `KernelHeapEnd`. -/
def kernelHeapEnd : ℕ := kernelHeapStart + 0x1000000000

/-- The heap as the kernel constructs it. Its object, with `m_blocks`, is part of the kernel
image, which lies in front of the heap. -/
def kernelHeap (blocks : ℕ) (h : blocks + 16 ≤ kernelHeapStart) : KHeap where
  start := kernelHeapStart
  stop := kernelHeapEnd
  blocks := blocks
  room := by decide
  size_lt := by decide
  stop_lt := by decide
  blocks_lt := lt_of_le_of_lt h (by decide)
  apart := Or.inl h

/-- The heap of a kernel whose object lies at the start of its image. -/
def imageHeap : KHeap := kernelHeap 0xFFFF800001000000 (by decide)

/-- The kernel heap after `Initialize`. -/
theorem imageHeap_run :
    ∃ s, (heapInitialize imageHeap).run (imageHeap.construct (fun _ => 0) initialPages) = .ok () s ∧
      Tiled imageHeap s.mem [imageHeap.firstBlock] ∧ s.isInitialized = true ∧
      s.watermark = wrap64 (kernelHeapStart + initialPages * pageSize) ∧ s.bytes = 0 ∧ s.count = 0 :=
  heapInitialize_run (fun _ => 0) (le_refl initialPages)

/-- After one allocation of a hundred bytes, the first block can be freed again. -/
theorem heap_tiling_imageHeap :
    ∃ s, Reach imageHeap s [(kernelHeapStart + 24, 100)] ∧
      ∃ t, (deallocate imageHeap (kernelHeapStart + 24)).run s = .ok () t := by
  obtain ⟨s, hinit, htiled, -⟩ := imageHeap_run
  have hfits : imageHeap.firstBlock.Fits (byteAlign 100 heapAlign) := by decide
  have hall : Tiled imageHeap s.mem ([] ++ imageHeap.firstBlock :: []) := htiled
  obtain ⟨mem, hrun, -⟩ := hall.allocate_run rfl (by simp) hfits
  have hreach := (Reach.init hinit).allocate (by decide) hrun
  obtain ⟨blocks, -, -, -, -, -, -, -, hfree⟩ := heap_tiling hreach
  exact ⟨_, hreach, hfree _ List.mem_cons_self⟩

end Vsos.Heap
