import Mathlib.Algebra.Order.BigOperators.Group.List
import Vsos.Heap.Backing

/-!
# The statistics of the heap

`Allocate` adds the size that was asked for to `m_bytes`, and `Deallocate` takes the size of the
block from it. The two are the same for a block that was split. A block that is taken as a whole
may be larger, and the bytes that are left over are counted when it is freed, but not before.
-/

namespace Vsos.Heap

open Vsos.Lib Vsos.Mem

variable {heap : KHeap} {s t : HeapState} {b : Block} {blocks l₁ l₂ : List Block}
  {live : List ℕ} {n : ℕ}

/-- The fields `Size` in front of the live pointers, added up. -/
def liveBytes (mem : Bytes) (live : List ℕ) : ℕ :=
  (live.map fun p => sizeField (mem.u64 (p - headerSize + 16))).sum

/-- `m_count` and `m_bytes` are those of the live blocks. -/
def Exact (live : List ℕ) (s : HeapState) : Prop :=
  s.count = live.length ∧ s.bytes = liveBytes s.mem live

/-- The statistics are exact after the call. -/
def CountsExactly (heap : KHeap) (live : List ℕ) (s : HeapState) (call : HeapCall) : Prop :=
  ∀ r t, (performCall heap call).run s = .ok r t → Exact (notePointer live call r) t

/-- The first free block that is large enough has just the size that is needed, or so much more
that it is split. -/
def LeavesNoRest (heap : KHeap) (_ : List ℕ) (s : HeapState) : HeapCall → Prop
  | .allocate size =>
    ∀ b ∈ (blocksOf heap s.mem).find? (fun b => b.Fits (byteAlign size heapAlign)),
      b.size = byteAlign size heapAlign ∨
        heapAlign + headerSize ≤ b.size - byteAlign size heapAlign
  | .deallocate _ => True

section Used

/-- The blocks that are not free. -/
def used (blocks : List Block) : List Block := blocks.filter fun b => !b.free

/-- The used blocks of two stretches. -/
@[simp] theorem used_append (l₁ l₂ : List Block) : used (l₁ ++ l₂) = used l₁ ++ used l₂ :=
  List.filter_append ..

/-- A free block is not counted. -/
theorem used_cons_of_free (h : b.free = true) (l : List Block) : used (b :: l) = used l :=
  List.filter_cons_of_neg (by simp [h])

/-- A used block is counted. -/
theorem used_cons_of_not_free (h : b.free = false) (l : List Block) :
    used (b :: l) = b :: used l :=
  List.filter_cons_of_pos (by simp [h])

/-- Of the blocks that take the place of a block, one is in use. -/
theorem used_take (n : ℕ) (b : Block) : ∃ c, used (b.take n) = [c] ∧
    c.size = if b.size - n < heapAlign + headerSize then b.size else n := by
  rw [Block.take]
  split
  · exact ⟨_, used_cons_of_not_free rfl _, rfl⟩
  · refine ⟨⟨b.address, n, false⟩, ?_, rfl⟩
    rfl

/-- The blocks in use are not more than the heap has room for. -/
theorem TilesHeap.used_lt (h : TilesHeap heap blocks) :
    ((used blocks).map Block.size).sum < 2 ^ 47 ∧ (used blocks).length < 2 ^ 47 := by
  have hsize := heap.size_lt
  have hsub : (used blocks).Sublist blocks := List.filter_sublist
  have hsum : ((used blocks).map Block.size).sum ≤ (blocks.map Block.size).sum :=
    (hsub.map Block.size).sum_le_sum fun _ _ => Nat.zero_le _
  have hall : heap.start + (blocks.map Block.size).sum ≤ heap.stop :=
    Tiles.sum_le h fun b _ => Nat.le_add_left b.size headerSize
  have hlength : heap.start + blocks.length * headerSize ≤ heap.stop :=
    Tiles.length_mul_le h fun b _ => Nat.le_add_right headerSize b.size
  have hle := hsub.length_le
  simp only [headerSize] at hlength
  omega

end Used

/-- The live pointers are those of the blocks in use. -/
theorem Accounts.live_perm (h : Accounts heap s blocks (live.map (·, 0))) :
    live.Perm ((used blocks).map fun b => b.address + headerSize) := by
  have hlive : (live.map (·, 0)).map Prod.fst = live := by
    rw [List.map_map]
    exact List.map_id live
  have hnodup : ((used blocks).map fun b => b.address + headerSize).Nodup := by
    refine List.pairwise_map.mpr ?_
    refine (h.tiled.tiles.pairwise.sublist List.filter_sublist).imp fun hle heq => ?_
    simp only [Block.extent, headerSize] at hle heq
    omega
  refine (List.perm_ext_iff_of_nodup (hlive ▸ h.nodup) hnodup).mpr fun p => ?_
  have hiff := h.live_iff p
  rw [hlive] at hiff
  rw [← hiff]
  simp [used, and_assoc]

/-- Exact statistics in terms of the blocks. -/
theorem Accounts.exact_iff (h : Accounts heap s blocks (live.map (·, 0))) :
    Exact live s ↔
      s.count = (used blocks).length ∧ s.bytes = ((used blocks).map Block.size).sum := by
  have hlength : live.length = (used blocks).length := by
    rw [h.live_perm.length_eq, List.length_map]
  have hsizes : liveBytes s.mem live = ((used blocks).map Block.size).sum := by
    rw [liveBytes, (h.live_perm.map _).sum_eq, List.map_map]
    refine congrArg List.sum (List.map_congr_left fun b hb => ?_)
    have hb_mem : b ∈ blocks := List.mem_of_mem_filter hb
    rw [Function.comp_apply, Nat.add_sub_cancel, h.tiled.word b hb_mem,
      sizeField_word (TilesHeap.bounds h.tiled.tiles hb_mem).2.2]
  rw [Exact, hlength, hsizes]

section

variable (h : Accounts heap s (l₁ ++ b :: l₂) (live.map (·, 0))) (hexact : Exact live s)
include h hexact

/-- Taking a block keeps the statistics exact just when nothing of it is left over. -/
theorem Accounts.exact_take (hb : b.Fits n) {mem : Bytes} {log : List (ℕ × ℕ)}
    (htiled : Tiled heap mem (l₁ ++ (b.take n ++ l₂))) :
    Exact ((b.address + headerSize) :: live) { s.countAllocation n with mem, log } ↔
      b.size = n ∨ heapAlign + headerSize ≤ b.size - n := by
  have hnext : Accounts heap { s.countAllocation n with mem, log } (l₁ ++ (b.take n ++ l₂))
      (((b.address + headerSize) :: live).map (·, 0)) := h.take hb htiled (Nat.zero_le n)
  obtain ⟨hcount, hbytes⟩ := h.exact_iff.mp hexact
  obtain ⟨c, hc, hc_size⟩ := used_take n b
  obtain ⟨hsum, hlength⟩ := TilesHeap.used_lt htiled.tiles
  have hn := hb.2
  rw [used_append, used_cons_of_free hb.1] at hcount hbytes
  rw [hnext.exact_iff]
  simp only [used_append, hc, HeapState.countAllocation, wrap64, List.map_append, List.sum_append,
    List.map_cons, List.map_nil, List.sum_cons, List.sum_nil, List.length_append, List.length_cons,
    List.length_nil] at *
  split at hc_size <;> omega

/-- Freeing a block keeps the statistics exact. -/
theorem Accounts.exact_release (hfree : b.free = false) {mem : Bytes} {log : List (ℕ × ℕ)}
    (htiled : Tiled heap mem (l₁ ++ { b with free := true } :: l₂)) :
    Exact (live.filter (· ≠ b.address + headerSize)) { s.countRelease b.size with mem, log } := by
  have hnext : Accounts heap { s.countRelease b.size with mem, log }
      (l₁ ++ { b with free := true } :: l₂)
      ((live.filter (· ≠ b.address + headerSize)).map (·, 0)) := h.release_note htiled
  obtain ⟨hcount, hbytes⟩ := h.exact_iff.mp hexact
  obtain ⟨hsum, hlength⟩ := TilesHeap.used_lt h.tiled.tiles
  rw [used_append, used_cons_of_not_free hfree] at hcount hbytes hsum hlength
  rw [hnext.exact_iff, used_append, used_cons_of_free rfl]
  simp only [HeapState.countRelease, wrap64, List.map_append, List.sum_append, List.map_cons,
    List.sum_cons, List.length_append, List.length_cons] at *
  omega

end

/-- A call with exact statistics leaves them exact just when it leaves no rest of a block. -/
theorem Accounts.countsExactly_iff (h : Accounts heap s blocks (live.map (·, 0)))
    (hexact : Exact live s) {call : HeapCall} (hcall : FreesLive live s call) :
    CountsExactly heap live s call ↔ LeavesNoRest heap live s call := by
  cases call with
  | allocate size =>
    rw [LeavesNoRest, h.tiled.blocksOf_eq]
    obtain ⟨hfind, hrun⟩ | ⟨l₁, b, l₂, mem, rfl, hfind, hb, hrun, htiled⟩ :=
      h.performAllocate_cases size
    · rw [CountsExactly, hrun, hfind]
      simp
    · rw [CountsExactly, hrun, hfind]
      simp only [Option.mem_def, Option.some.injEq, forall_eq']
      rw [← h.exact_take hexact hb htiled]
      constructor
      · intro hcounts
        exact hcounts _ _ rfl
      · intro htake r t hrun'
        cases hrun'
        exact htake
  | deallocate p =>
    refine ⟨fun _ => trivial, fun _ r t hrun' => ?_⟩
    obtain ⟨l₁, b, l₂, mem, rfl, hfree, rfl, hrun, htiled⟩ := h.performDeallocate_run hcall
    rw [hrun] at hrun'
    cases hrun'
    exact h.exact_release hexact hfree htiled

/-- A call keeps the accounts of the blocks. -/
theorem Accounts.perform (h : Accounts heap s blocks (live.map (·, 0))) {call : HeapCall}
    {r : Option ℕ} (hcall : FreesLive live s call) (hrun : (performCall heap call).run s = .ok r t) :
    ∃ blocks', Accounts heap t blocks' ((notePointer live call r).map (·, 0)) := by
  cases call with
  | allocate size =>
    obtain ⟨-, hrun'⟩ | ⟨l₁, b, l₂, mem, rfl, -, hb, hrun', htiled⟩ := h.performAllocate_cases size
    · rw [hrun] at hrun'
      cases hrun'
    · rw [hrun] at hrun'
      cases hrun'
      exact ⟨_, h.take hb htiled (Nat.zero_le _)⟩
  | deallocate p =>
    obtain ⟨l₁, b, l₂, mem, rfl, hfree, rfl, hrun', htiled⟩ := h.performDeallocate_run hcall
    rw [hrun] at hrun'
    cases hrun'
    exact ⟨_, h.release_note htiled⟩

/-- The statistics are exact after `Initialize`. -/
theorem exact_heapInitialize {mem : Bytes} {supply : ℕ}
    (hrun : (heapInitialize heap).run (heap.construct mem supply) = .ok () s) : Exact [] s := by
  obtain ⟨t, hrun', -, -, -, hbytes, hcount⟩ := heapInitialize_run mem (le_of_heapInitialize hrun)
  rw [hrun] at hrun'
  cases hrun'
  exact ⟨hcount, hbytes⟩

/-- The statistics are exact after `Initialize`. Whatever is allocated and freed from there, they
stay exact just when every `Allocate` finds a block of the size that it needs or one that it
splits. -/
theorem statistics_exact_iff {mem : Bytes} {supply : ℕ}
    (hrun : (heapInitialize heap).run (heap.construct mem supply) = .ok () s)
    {calls : List HeapCall}
    (hcalls : EachCall (performCall heap) notePointer FreesLive calls [] s) :
    Exact [] s ∧
      (EachCall (performCall heap) notePointer (CountsExactly heap) calls [] s ↔
        EachCall (performCall heap) notePointer (LeavesNoRest heap) calls [] s) := by
  have hstart := exact_heapInitialize hrun
  refine ⟨hstart, ?_⟩
  refine EachCall.congr_of_admissible
    (I := fun live s => Exact live s ∧ ∃ l, Accounts heap s l (live.map (·, 0))) ?_ ?_
    ⟨hstart, _, accounts_heapInitialize hrun⟩ hcalls
  · rintro live s call ⟨hexact, l, h⟩ hcall
    exact h.countsExactly_iff hexact hcall
  · rintro live s call r t ⟨hexact, l, h⟩ hcall hrest hperform
    exact ⟨(h.countsExactly_iff hexact hcall).mpr hrest r t hperform, h.perform hcall hperform⟩

/-- The only block in use, in front of a free one, is freed. -/
theorem Accounts.free_first {c d : Block}
    (h : Accounts heap s [c, d] ([c.address + headerSize].map (·, 0)))
    (hexact : Exact [c.address + headerSize] s) (hd : d.free = true) :
    ∃ t, (performCall heap (.deallocate (c.address + headerSize))).run s = .ok none t ∧
      Exact [] t ∧ Accounts heap t [{ c with free := true }, d] [] := by
  obtain ⟨l₁, b, l₂, mem, hblocks, hfree, hp, hrun, htiled⟩ :=
    h.performDeallocate_run List.mem_cons_self
  obtain ⟨rfl, rfl, rfl⟩ : l₁ = [] ∧ b = c ∧ l₂ = [d] := by
    rcases l₁ with - | ⟨c', - | ⟨d', l⟩⟩
    · simp_all
    · simp_all
    · simp at hblocks
  have hlive : [b.address + headerSize].filter (· ≠ b.address + headerSize) = [] := by simp
  generalize hu : ({ s.countRelease b.size with
    mem, log := [(b.address + headerSize, b.size), (b.address + 16, 8)] } : HeapState) = u at hrun
  have hexact' : Exact [] u := by
    rw [← hu, ← hlive]
    exact h.exact_release hexact hfree htiled
  have hmem : mem = u.mem := by rw [← hu]
  subst hmem
  have hall : Accounts heap s ([] ++ b :: [d]) ([b.address + headerSize].map (·, 0)) := h
  have h' : Accounts heap u ([] ++ { b with free := true } :: [d]) _ := hall.release_note htiled
  rw [hlive] at h'
  exact ⟨u, hrun, hexact', h'⟩

/-- A piece of 64 bytes is cut off the kernel heap and freed again. -/
theorem exists_freed_piece :
    ∃ s t u, (heapInitialize imageHeap).run (imageHeap.construct (fun _ => 0) initialPages) =
        .ok () s ∧
      (performCall imageHeap (.allocate 64)).run s = .ok (some (kernelHeapStart + 24)) t ∧
      (performCall imageHeap (.deallocate (kernelHeapStart + 24))).run t = .ok none u ∧
      Exact [] u ∧ Accounts imageHeap u
        [⟨kernelHeapStart, 64, true⟩, ⟨kernelHeapStart + 88, 0x1000000000 - 112, true⟩] [] := by
  obtain ⟨s, hrun, -⟩ := imageHeap_run
  have h : Accounts imageHeap s [imageHeap.firstBlock] (([] : List ℕ).map (·, 0)) :=
    accounts_heapInitialize hrun
  obtain ⟨hfind, -⟩ | ⟨l₁, b, l₂, mem, hblocks, -, hb, hallocate, htiled⟩ :=
    h.performAllocate_cases 64
  · exact absurd hfind (by decide)
  obtain ⟨rfl, rfl, rfl⟩ : l₁ = [] ∧ b = imageHeap.firstBlock ∧ l₂ = [] := by
    cases l₁ <;> simp_all
  generalize ht : ({ s.countAllocation (byteAlign 64 heapAlign) with
    mem, log := allocateWrites imageHeap.firstBlock (byteAlign 64 heapAlign)
      (firstNode imageHeap []) } : HeapState) = t at hallocate
  have hmem : mem = t.mem := by rw [← ht]
  subst hmem
  have hexact : Exact [kernelHeapStart + 24] t := by
    rw [← ht]
    exact (h.exact_take (exact_heapInitialize hrun) hb htiled).mpr (by decide)
  have htake : [] ++ (imageHeap.firstBlock.take (byteAlign 64 heapAlign) ++ []) =
      [⟨kernelHeapStart, 64, false⟩, ⟨kernelHeapStart + 88, 0x1000000000 - 112, true⟩] := by decide
  have h₁ : Accounts imageHeap t _ ([kernelHeapStart + 24].map (·, 0)) :=
    htake ▸ h.take hb htiled (Nat.zero_le _)
  obtain ⟨u, hrelease, hexact', h'⟩ := h₁.free_first hexact rfl
  exact ⟨s, t, u, hrun, hallocate, hrelease, hexact', h'⟩

/-- A piece of 64 bytes is cut off the first block and freed again. -/
theorem statistics_exact_imageHeap :
    ∃ s, (heapInitialize imageHeap).run (imageHeap.construct (fun _ => 0) initialPages) = .ok () s ∧
      EachCall (performCall imageHeap) notePointer FreesLive
        [.allocate 64, .deallocate (kernelHeapStart + 24)] [] s ∧
      EachCall (performCall imageHeap) notePointer (CountsExactly imageHeap)
        [.allocate 64, .deallocate (kernelHeapStart + 24)] [] s := by
  obtain ⟨s, t, u, hrun, hallocate, hrelease, -, -⟩ := exists_freed_piece
  have htiled : Tiled imageHeap s.mem [imageHeap.firstBlock] := (accounts_heapInitialize hrun).tiled
  have hfrees : EachCall (performCall imageHeap) notePointer FreesLive
      [.allocate 64, .deallocate (kernelHeapStart + 24)] [] s := by
    rw [eachCall_cons_of_ok hallocate, eachCall_cons_of_ok hrelease]
    exact ⟨trivial, List.mem_cons_self, trivial⟩
  refine ⟨s, hrun, hfrees, (statistics_exact_iff hrun hfrees).2.mpr ?_⟩
  rw [eachCall_cons_of_ok hallocate, eachCall_cons_of_ok hrelease]
  refine ⟨?_, trivial, trivial⟩
  rw [LeavesNoRest, htiled.blocksOf_eq]
  decide

/-- A block of 64 bytes is freed and taken again for 32 bytes. It is too small to be split, and
`m_bytes` is 32. -/
theorem not_statistics_exact :
    ¬ ∀ (heap : KHeap) (mem : Bytes) (supply : ℕ) (s : HeapState),
      (heapInitialize heap).run (heap.construct mem supply) = .ok () s →
      ∀ calls : List HeapCall, (∀ size, .allocate size ∈ calls → size ≤ 2 ^ 46) →
        EachCall (performCall heap) notePointer FreesLive calls [] s →
        EachCall (performCall heap) notePointer (CountsExactly heap) calls [] s := by
  intro hclaim
  obtain ⟨s, t, u, hrun, hallocate, hrelease, hexact, h⟩ := exists_freed_piece
  have hcounts := hclaim imageHeap _ _ s hrun
    [.allocate 64, .deallocate (kernelHeapStart + 24), .allocate 32] (by simp) (by
      rw [eachCall_cons_of_ok hallocate, eachCall_cons_of_ok hrelease]
      refine ⟨trivial, List.mem_cons_self, trivial, ?_⟩
      split <;> trivial)
  rw [eachCall_cons_of_ok hallocate, eachCall_cons_of_ok hrelease] at hcounts
  have hfrees : FreesLive [] u (.allocate 32) := trivial
  have hrest := (Accounts.countsExactly_iff h hexact hfrees).mp hcounts.2.2.1
  rw [LeavesNoRest, h.tiled.blocksOf_eq] at hrest
  revert hrest
  decide

end Vsos.Heap
