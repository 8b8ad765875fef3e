import Vsos.Heap.LiveBlocks
import Vsos.Lib.Runs

/-!
# The part of the heap that is mapped

`Initialize` maps the first pages of the heap and makes one block of all of it. `Allocate` looks
at the sizes of the blocks alone, so it stays inside of what is mapped as long as it takes a
block that has another one behind it, or cuts its piece off the last block below the watermark.
-/

namespace Vsos.Heap

open Vsos.Lib Vsos.Mem

variable {heap : KHeap} {s t : HeapState} {b c : Block} {blocks l₁ l₂ : List Block}
  {live : List ℕ} {n p size : ℕ}

/-- A call to the heap. -/
inductive HeapCall where
  | allocate (size : ℕ)
  | deallocate (address : ℕ)
  deriving DecidableEq, Repr

/-- A call, with the stores noted anew. -/
def performCall (heap : KHeap) : HeapCall → HeapM (Option ℕ)
  | .allocate size => do
    change fun s => { s with log := [] }
    let p ← allocate heap size
    return some p
  | .deallocate address => do
    change fun s => { s with log := [] }
    deallocate heap address
    return none

/-- The pointers that are live after a call. -/
def notePointer (live : List ℕ) : HeapCall → Option ℕ → List ℕ
  | .allocate _, some p => p :: live
  | .allocate _, none => live
  | .deallocate p, _ => live.filter (· ≠ p)

/-- Only live pointers are freed. -/
def FreesLive (live : List ℕ) (_ : HeapState) : HeapCall → Prop
  | .allocate _ => True
  | .deallocate p => p ∈ live

/-- The bytes that `Grow` has mapped. -/
def Mapped (heap : KHeap) (s : HeapState) (a : ℕ) : Prop := heap.start ≤ a ∧ a < s.watermark

/-- The bytes of a store are mapped, or belong to the list head in the `KHeap` object. -/
def InMap (heap : KHeap) (s : HeapState) (w : ℕ × ℕ) : Prop :=
  ∀ a, w.1 ≤ a → a < w.1 + w.2 → (heap.blocks ≤ a ∧ a < heap.blocks + 16) ∨ Mapped heap s a

/-- Every byte that the call writes is mapped, those of the list head aside, and so is every byte
of the block that it returns. -/
def WritesBacked (heap : KHeap) (_ : List ℕ) (s : HeapState) (call : HeapCall) : Prop :=
  (∀ w ∈ (final ((performCall heap call).run s)).log, InMap heap s w) ∧
  ∀ p t, (performCall heap call).run s = .ok (some p) t →
    ∀ a, p ≤ a → a < p + sizeField (t.mem.u64 (p - headerSize + 16)) → Mapped heap s a

/-- The blocks that the links lead to, from the node `entry` on. -/
def walkBlocks (heap : KHeap) (mem : Bytes) : ℕ → ℕ → List Block
  | 0, _ => []
  | fuel + 1, entry =>
    if entry = heap.blocks then []
    else ⟨entry, sizeField (mem.u64 (entry + 16)), freeField (mem.u64 (entry + 16))⟩ ::
      walkBlocks heap mem fuel (mem.u64 entry)

/-- The blocks of the list. -/
def blocksOf (heap : KHeap) (mem : Bytes) : List Block :=
  walkBlocks heap mem (rounds heap) (mem.u64 heap.blocks)

/-- The first free block that is large enough has another one behind it, or the piece that is cut
off and the header behind it end below the watermark. -/
def StaysBelow (heap : KHeap) (_ : List ℕ) (s : HeapState) : HeapCall → Prop
  | .allocate size =>
    ∀ b ∈ (blocksOf heap s.mem).find? (fun b => b.Fits (byteAlign size heapAlign)),
      b.address + b.extent ≠ heap.stop ∨
        b.address + headerSize + byteAlign size heapAlign + headerSize ≤ s.watermark
  | .deallocate _ => True

/-- The walk from a block on finds the blocks that follow. -/
theorem Tiled.walkBlocks_eq {mem : Bytes} (h : Tiled heap mem (l₁ ++ l₂)) {fuel : ℕ}
    (hfuel : l₂.length ≤ fuel) : walkBlocks heap mem fuel (firstNode heap l₂) = l₂ := by
  induction l₂ generalizing l₁ fuel with
  | nil =>
    cases fuel with
    | zero => rfl
    | succ fuel => rw [walkBlocks, firstNode, if_pos rfl]
  | cons b l ih =>
    obtain ⟨fuel, rfl⟩ := Nat.exists_eq_succ_of_ne_zero (Nat.ne_of_gt (Nat.zero_lt_of_lt hfuel))
    have hb : b ∈ l₁ ++ b :: l := by simp
    have hsize := (TilesHeap.bounds h.tiles hb).2.2
    have hrest : Tiled heap mem ((l₁ ++ [b]) ++ l) := by simpa using h
    rw [firstNode, walkBlocks, if_neg (LinkRing.ne_head h.ring hb), h.word b hb,
      LinkRing.next_eq h.ring, sizeField_word hsize, freeField_word,
      ih hrest (Nat.le_of_succ_le_succ hfuel)]

/-- The walk over the heap finds its blocks. -/
theorem Tiled.blocksOf_eq {mem : Bytes} (h : Tiled heap mem blocks) :
    blocksOf heap mem = blocks := by
  rw [blocksOf, LinkRing.next_head h.ring]
  have hall : Tiled heap mem ([] ++ blocks) := h
  exact hall.walkBlocks_eq (TilesHeap.length_lt h.tiles).le

/-- All headers lie below the watermark, the last block is free, and the heap goes on far behind
the watermark. -/
structure Marked (heap : KHeap) (live : List ℕ) (s : HeapState) (blocks : List Block) : Prop where
  accounts : Accounts heap s blocks (live.map (·, 0))
  headers : ∀ b ∈ blocks, b.address + headerSize ≤ s.watermark
  last_free : ∀ b ∈ blocks.getLast?, b.free = true
  room : s.watermark + heapAlign ≤ heap.stop

/-- The log has no part in what a call does. -/
theorem Accounts.clearLog {live : List (ℕ × ℕ)} (h : Accounts heap s blocks live) :
    Accounts heap { s with log := [] } blocks live :=
  ⟨h.tiled, h.last, h.live_iff, h.large, h.nodup⟩

/-- A call of `Allocate` takes the first block that fits, and stops the machine if there is
none. -/
theorem Accounts.performAllocate_cases {live : List (ℕ × ℕ)} (h : Accounts heap s blocks live)
    (size : ℕ) :
    (blocks.find? (fun b => b.Fits (byteAlign size heapAlign)) = none ∧
        (performCall heap (.allocate size)).run s = .error .fault { s with log := [] }) ∨
      ∃ l₁ b l₂ mem, blocks = l₁ ++ b :: l₂ ∧
        (l₁ ++ b :: l₂).find? (fun b => b.Fits (byteAlign size heapAlign)) = some b ∧
        b.Fits (byteAlign size heapAlign) ∧
        (performCall heap (.allocate size)).run s = .ok (some (b.address + headerSize))
          { s.countAllocation (byteAlign size heapAlign) with
            mem, log := allocateWrites b (byteAlign size heapAlign) (firstNode heap l₂) } ∧
        Tiled heap mem (l₁ ++ (b.take (byteAlign size heapAlign) ++ l₂)) := by
  have hclear : (change fun s : HeapState => { s with log := [] }).run s =
      .ok () { s with log := [] } := rfl
  rw [performCall, bind_of_ok hclear]
  obtain ⟨hnone, hrun⟩ | ⟨l₁, b, l₂, mem, rfl, hskip, hb, hrun, htiled⟩ :=
    h.clearLog.allocate_cases size
  · refine Or.inl ⟨by simpa using hnone, ?_⟩
    rw [bind_of_error hrun]
  · have hfind : (l₁ ++ b :: l₂).find? (fun b => b.Fits (byteAlign size heapAlign)) = some b := by
      rw [List.find?_eq_some_iff_append]
      exact ⟨by simpa using hb, l₁, l₂, rfl, by simpa using hskip⟩
    refine Or.inr ⟨l₁, b, l₂, mem, rfl, hfind, hb, ?_, htiled⟩
    rw [bind_of_ok hrun, List.append_nil]
    rfl

/-- A call of `Deallocate` with a live pointer returns. -/
theorem Accounts.performDeallocate_run (h : Accounts heap s blocks (live.map (·, 0)))
    (hp : p ∈ live) :
    ∃ l₁ b l₂ mem, blocks = l₁ ++ b :: l₂ ∧ b.free = false ∧ p = b.address + headerSize ∧
      (performCall heap (.deallocate p)).run s = .ok none { s.countRelease b.size with
        mem
        log := [(b.address + headerSize, b.size), (b.address + 16, 8)] } ∧
      Tiled heap mem (l₁ ++ { b with free := true } :: l₂) := by
  have hclear : (change fun s : HeapState => { s with log := [] }).run s =
      .ok () { s with log := [] } := rfl
  have hlive : p ∈ (live.map (·, 0)).map Prod.fst := by simpa using hp
  obtain ⟨l₁, b, l₂, mem, hblocks, hfree, rfl, hrun, htiled⟩ := h.clearLog.deallocate_run hlive
  refine ⟨l₁, b, l₂, mem, hblocks, hfree, rfl, ?_, htiled⟩
  rw [performCall, bind_of_ok hclear, bind_of_ok hrun]
  rfl

/-- Freeing a block takes its pointer from the live ones. -/
theorem Accounts.release_note (h : Accounts heap s (l₁ ++ b :: l₂) (live.map (·, 0)))
    (htiled : Tiled heap t.mem (l₁ ++ { b with free := true } :: l₂)) :
    Accounts heap t (l₁ ++ { b with free := true } :: l₂)
      ((live.filter (· ≠ b.address + headerSize)).map (·, 0)) := by
  have hfilter : (live.map (·, 0)).filter (fun e => e.1 ≠ b.address + headerSize) =
      (live.filter (· ≠ b.address + headerSize)).map (·, 0) := by
    rw [List.filter_map]
    rfl
  exact hfilter ▸ h.release htiled

section Bounds

variable (h : Marked heap live s (l₁ ++ b :: l₂))

include h

/-- A block with another one behind it ends below the watermark. -/
theorem Marked.end_le (hl₂ : l₂ ≠ []) :
    b.address + headerSize + b.size ≤ firstNode heap l₂ ∧
      firstNode heap l₂ + headerSize ≤ s.watermark ∧ b.address + b.extent ≠ heap.stop := by
  obtain ⟨c, l, rfl⟩ := List.exists_cons_of_ne_nil hl₂
  have hc := h.headers c (by simp)
  have hbehind := (tiles_split.mp h.accounts.tiled.tiles).2.1
  have hc_stop := (TilesHeap.bounds h.accounts.tiled.tiles (b := c) (by simp)).2.1
  simp only [firstNode, Block.extent, headerSize] at *
  omega

/-- The last block ends with the heap. -/
theorem Marked.end_eq (hl₂ : l₂ = []) :
    b.address + b.extent = heap.stop ∧ heapAlign ≤ b.size ∧ b.free = true := by
  subst hl₂
  exact ⟨(tiles_split.mp h.accounts.tiled.tiles).2, h.accounts.last b (by simp),
    h.last_free b (by simp)⟩

/-- A node behind a block is the list head, or a header below the watermark. -/
theorem Marked.next_cases : firstNode heap l₂ = heap.blocks ∨
    (heap.start ≤ firstNode heap l₂ ∧ firstNode heap l₂ + headerSize ≤ s.watermark) := by
  cases l₂ with
  | nil => exact Or.inl rfl
  | cons c l =>
    exact Or.inr ⟨(TilesHeap.bounds h.accounts.tiled.tiles (by simp)).1, h.headers c (by simp)⟩

end Bounds

/-- Where the piece that `Allocate` takes ends, with the header that it puts behind it. -/
def Block.takeEnd (n : ℕ) (b : Block) : ℕ :=
  if b.size - n < heapAlign + headerSize then b.address + headerSize + b.size
  else b.address + headerSize + n + headerSize

/-- The new blocks have their headers in front of that place, and the first one its data. -/
theorem Block.takeEnd_spec (hc : c ∈ b.take n) :
    c.address + headerSize ≤ b.takeEnd n ∧
      (c.free = false → b.address + headerSize + c.size ≤ b.takeEnd n) := by
  rw [take] at hc
  rw [takeEnd]
  split at hc
  · next hsmall =>
    rw [if_pos hsmall, List.mem_singleton.mp hc]
    exact ⟨Nat.le_add_right _ _, fun _ => le_refl _⟩
  · next hsmall =>
    rw [if_neg hsmall]
    rcases List.mem_cons.mp hc with rfl | hc
    · exact ⟨by simp only; omega, fun _ => Nat.le_add_right _ _⟩
    · rw [List.mem_singleton.mp hc]
      exact ⟨le_refl _, fun hfree => by cases hfree⟩

/-- All stores of `Allocate` lie in front of that place, except for one to the next node. -/
theorem inMap_allocateWrites {next : ℕ} (hstart : heap.start ≤ b.address)
    (hend : b.takeEnd n ≤ s.watermark)
    (hnext : next = heap.blocks ∨ (heap.start ≤ next ∧ next + headerSize ≤ s.watermark)) :
    ∀ w ∈ allocateWrites b n next, InMap heap s w := by
  rw [allocateWrites]
  rw [Block.takeEnd] at hend
  intro w hw a hlow hhigh
  split at hw
  · next hsmall =>
    rw [if_pos hsmall] at hend
    refine Or.inr ?_
    simp only [List.mem_cons, List.not_mem_nil, or_false, headerSize, Mapped] at *
    rcases hw with rfl | rfl <;> simp only at hlow hhigh <;> omega
  · next hsmall =>
    rw [if_neg hsmall] at hend
    by_cases hw' : w = (next + 8, 8)
    · rw [hw'] at hlow hhigh
      simp only [Mapped, headerSize] at *
      omega
    · refine Or.inr ?_
      simp only [List.mem_cons, List.not_mem_nil, or_false, hw', false_or, headerSize, Mapped] at *
      rcases hw with rfl | rfl | rfl | rfl | rfl | rfl | rfl | rfl | rfl <;>
        simp only at hlow hhigh <;> omega

/-- A store of `Allocate` reaches up to that place. -/
theorem takeEnd_le_of_inMap {next : ℕ} (hstart : heap.start ≤ b.address)
    (hstop : b.address + headerSize + b.size ≤ heap.stop) (hn : n ≤ b.size)
    (hheader : b.address + headerSize ≤ s.watermark)
    (hw : ∀ w ∈ allocateWrites b n next, InMap heap s w) : b.takeEnd n ≤ s.watermark := by
  have hapart := heap.apart
  rw [allocateWrites] at hw
  rw [Block.takeEnd]
  split
  · next hsmall =>
    rw [if_pos hsmall] at hw
    by_cases hsize : b.size = 0
    · rwa [hsize]
    · have hlast := hw (b.address + headerSize, b.size) (by simp)
        (b.address + headerSize + b.size - 1) (by omega) (by omega)
      simp only [Mapped] at hlast
      omega
  · next hsmall =>
    rw [if_neg hsmall] at hw
    have hlast := hw (b.address + headerSize + n + 16, 8) (by simp)
      (b.address + headerSize + n + 23) (by simp) (by simp)
    simp only [Mapped, headerSize, heapAlign] at *
    omega

/-- Whether the piece ends below the watermark. -/
theorem Marked.takeEnd_le_iff (h : Marked heap live s (l₁ ++ b :: l₂)) (hb : b.Fits n) :
    b.takeEnd n ≤ s.watermark ↔ b.address + b.extent ≠ heap.stop ∨
      b.address + headerSize + n + headerSize ≤ s.watermark := by
  have hroom := h.room
  have hn := hb.2
  have hend : b.takeEnd n = b.address + headerSize + b.size ∧ b.size - n < heapAlign + headerSize ∨
      b.takeEnd n = b.address + headerSize + n + headerSize ∧
        heapAlign + headerSize ≤ b.size - n := by
    rw [Block.takeEnd]
    split
    · next hsmall => exact Or.inl ⟨rfl, hsmall⟩
    · next hlarge => exact Or.inr ⟨rfl, not_lt.mp hlarge⟩
  by_cases hl₂ : l₂ = []
  · obtain ⟨hstop, hsize, -⟩ := h.end_eq hl₂
    simp only [Block.extent, headerSize, heapAlign] at *
    omega
  · obtain ⟨hnext, hheader, hne⟩ := h.end_le hl₂
    omega

/-- The calls stay in the part that is mapped just when the piece that is taken ends below the
watermark. -/
theorem Marked.writesBacked_iff (h : Marked heap live s blocks) {call : HeapCall}
    (hcall : FreesLive live s call) :
    WritesBacked heap live s call ↔ StaysBelow heap live s call := by
  cases call with
  | allocate size =>
    rw [StaysBelow, h.accounts.tiled.blocksOf_eq]
    obtain ⟨hfind, hperform⟩ | ⟨l₁, b, l₂, mem, rfl, hfind, hb, hperform, htiled⟩ :=
      h.accounts.performAllocate_cases size
    · rw [WritesBacked, hperform, hfind]
      simp
    · generalize byteAlign size heapAlign = n at hfind hb hperform htiled ⊢
      obtain ⟨hstart, hstop, -⟩ := TilesHeap.bounds h.accounts.tiled.tiles (b := b) (by simp)
      rw [WritesBacked, hperform, hfind]
      simp only [Option.mem_def, Option.some.injEq, forall_eq']
      rw [← h.takeEnd_le_iff hb]
      constructor
      · rintro ⟨hwrites, -⟩
        exact takeEnd_le_of_inMap hstart hstop hb.2 (h.headers b (by simp)) hwrites
      · intro hend
        refine ⟨inMap_allocateWrites hstart hend h.next_cases, ?_⟩
        intro p t hrun' a hlow hhigh
        injection hrun' with hp ht
        injection hp with hp
        subst hp ht
        obtain ⟨c, hc, hfree, hc_address⟩ := b.exists_take n
        have hc_mem : c ∈ l₁ ++ (b.take n ++ l₂) := by simp [hc]
        have hword := htiled.word c hc_mem
        rw [hc_address] at hword
        simp only [Nat.add_sub_cancel, hword] at hhigh
        rw [sizeField_word (TilesHeap.bounds htiled.tiles hc_mem).2.2] at hhigh
        have hdata := (Block.takeEnd_spec hc).2 hfree
        exact ⟨by omega, by omega⟩
  | deallocate p =>
    refine ⟨fun _ => trivial, fun _ => ?_⟩
    obtain ⟨l₁, b, l₂, mem, rfl, hfree, rfl, hperform, htiled⟩ :=
      h.accounts.performDeallocate_run hcall
    have hstart := (TilesHeap.bounds h.accounts.tiled.tiles (b := b) (by simp)).1
    have hl₂ : l₂ ≠ [] := by
      intro hl₂
      rw [(h.end_eq hl₂).2.2] at hfree
      cases hfree
    obtain ⟨hnext, hheader, -⟩ := h.end_le hl₂
    rw [WritesBacked, hperform]
    refine ⟨?_, fun p t hrun' => by cases hrun'⟩
    intro w hw a hlow hhigh
    refine Or.inr ?_
    simp only [final_ok, List.mem_cons, List.not_mem_nil, or_false] at hw
    simp only [Mapped, headerSize] at *
    rcases hw with rfl | rfl <;> simp only at hlow hhigh <;> omega

/-- A call that stays below the watermark keeps the headers there. -/
theorem Marked.perform (h : Marked heap live s blocks) {call : HeapCall} {r : Option ℕ}
    (hcall : FreesLive live s call) (hbelow : StaysBelow heap live s call)
    (hrun : (performCall heap call).run s = .ok r t) :
    ∃ blocks', Marked heap (notePointer live call r) t blocks' := by
  cases call with
  | allocate size =>
    rw [StaysBelow, h.accounts.tiled.blocksOf_eq] at hbelow
    obtain ⟨-, hrun'⟩ | ⟨l₁, b, l₂, mem, rfl, hfind, hb, hrun', htiled⟩ :=
      h.accounts.performAllocate_cases size
    · rw [hrun] at hrun'
      cases hrun'
    · rw [hrun] at hrun'
      cases hrun'
      generalize byteAlign size heapAlign = n at hfind hb hbelow htiled ⊢
      have hend := (h.takeEnd_le_iff hb).mpr (hbelow b hfind)
      refine ⟨_, h.accounts.take hb htiled (Nat.zero_le n), ?_, ?_, h.room⟩
      · intro c hc
        have hold : c ∈ l₁ ++ b :: l₂ ∨ c ∈ b.take n := by
          simp only [List.mem_append, List.mem_cons] at hc ⊢
          tauto
        rcases hold with hc | hc
        · exact h.headers c hc
        · exact (Block.takeEnd_spec hc).1.trans hend
      · by_cases hl₂ : l₂ = []
        · have hroom := h.room
          obtain ⟨hstop, -, -⟩ := h.end_eq hl₂
          have hlarge : ¬ b.size - n < heapAlign + headerSize := by
            intro hsmall
            rw [Block.takeEnd, if_pos hsmall] at hend
            simp only [Block.extent, heapAlign] at hstop hroom
            omega
          rw [hl₂, Block.take, if_neg hlarge]
          simp
        · have hlast := h.last_free
          rw [List.append_cons, List.getLast?_append_of_ne_nil _ hl₂] at hlast
          rwa [← List.append_assoc, List.getLast?_append_of_ne_nil _ hl₂]
  | deallocate p =>
    obtain ⟨l₁, b, l₂, mem, rfl, hfree, rfl, hrun', htiled⟩ :=
      h.accounts.performDeallocate_run hcall
    rw [hrun] at hrun'
    cases hrun'
    have hl₂ : l₂ ≠ [] := by
      intro hl₂
      rw [(h.end_eq hl₂).2.2] at hfree
      cases hfree
    refine ⟨_, h.accounts.release_note htiled, ?_, ?_, h.room⟩
    · intro c hc
      have hold : c ∈ l₁ ++ b :: l₂ ∨ c = { b with free := true } := by
        simp only [List.mem_append, List.mem_cons] at hc ⊢
        tauto
      rcases hold with hc | rfl
      · exact h.headers c hc
      · exact h.headers b (by simp)
    · have hlast := h.last_free
      rw [List.append_cons, List.getLast?_append_of_ne_nil _ hl₂] at hlast ⊢
      exact hlast

/-- The kernel heap after `Initialize`. -/
theorem marked_heapInitialize {blocks : ℕ} {hblocks : blocks + 16 ≤ kernelHeapStart} {mem : Bytes}
    {supply : ℕ}
    (hrun : (heapInitialize (kernelHeap blocks hblocks)).run
      ((kernelHeap blocks hblocks).construct mem supply) = .ok () s) :
    Marked (kernelHeap blocks hblocks) [] s [(kernelHeap blocks hblocks).firstBlock] := by
  obtain ⟨t, hrun', -, -, hwatermark, -⟩ := heapInitialize_run mem (le_of_heapInitialize hrun)
  rw [hrun] at hrun'
  injection hrun' with _ ht
  subst ht
  have hmark : wrap64 (kernelHeapStart + initialPages * pageSize) = kernelHeapStart + 0x1000000 := by
    decide
  have hroom : kernelHeapStart + 0x1000000 + heapAlign ≤ kernelHeapEnd := by decide
  refine ⟨accounts_heapInitialize hrun, ?_, ?_, ?_⟩
  · intro b hb
    rw [List.mem_singleton.mp hb, hwatermark]
    exact hmark.symm ▸ Nat.add_le_add_left (by decide) kernelHeapStart
  · simp [KHeap.firstBlock]
  · rw [hwatermark]
    exact hmark.symm ▸ hroom

/-- Whatever is allocated and freed on the kernel heap, all bytes that are written and returned
are mapped just when every `Allocate` takes a block with another one behind it, or a piece of the
last one that ends, with the header behind it, below the watermark. -/
theorem writes_backed_iff {blocks : ℕ} {hblocks : blocks + 16 ≤ kernelHeapStart} {mem : Bytes}
    {supply : ℕ}
    (hrun : (heapInitialize (kernelHeap blocks hblocks)).run
      ((kernelHeap blocks hblocks).construct mem supply) = .ok () s)
    {calls : List HeapCall}
    (hcalls : EachCall (performCall (kernelHeap blocks hblocks)) notePointer FreesLive calls [] s) :
    EachCall (performCall (kernelHeap blocks hblocks)) notePointer
        (WritesBacked (kernelHeap blocks hblocks)) calls [] s ↔
      EachCall (performCall (kernelHeap blocks hblocks)) notePointer
        (StaysBelow (kernelHeap blocks hblocks)) calls [] s := by
  refine EachCall.congr_of_admissible
    (I := fun live s => ∃ l, Marked (kernelHeap blocks hblocks) live s l) ?_ ?_
    ⟨_, marked_heapInitialize hrun⟩ hcalls
  · rintro live s call ⟨l, h⟩ hcall
    exact h.writesBacked_iff hcall
  · rintro live s call r t ⟨l, h⟩ hcall hbelow hperform
    exact h.perform hcall hbelow hperform

/-- A hundred bytes stay below the watermark. -/
theorem writes_backed_imageHeap :
    ∃ s, (heapInitialize imageHeap).run (imageHeap.construct (fun _ => 0) initialPages) = .ok () s ∧
      EachCall (performCall imageHeap) notePointer FreesLive [.allocate 100] [] s ∧
      EachCall (performCall imageHeap) notePointer (WritesBacked imageHeap) [.allocate 100] [] s := by
  obtain ⟨s, hrun, htiled, -, hwatermark, -⟩ := imageHeap_run
  have hfrees : EachCall (performCall imageHeap) notePointer FreesLive [.allocate 100] [] s := by
    refine ⟨trivial, ?_⟩
    split <;> trivial
  refine ⟨s, hrun, hfrees, (writes_backed_iff hrun hfrees).mpr ⟨?_, ?_⟩⟩
  · change ∀ b ∈ (blocksOf imageHeap s.mem).find? _, _
    rw [htiled.blocksOf_eq, hwatermark]
    decide
  · split <;> trivial

/-- Sixteen megabytes are cut off the last block, and the header behind them is not mapped. -/
theorem not_writes_backed :
    ¬ ∀ (blocks : ℕ) (hblocks : blocks + 16 ≤ kernelHeapStart) (mem : Bytes) (supply : ℕ)
      (s : HeapState), (heapInitialize (kernelHeap blocks hblocks)).run
        ((kernelHeap blocks hblocks).construct mem supply) = .ok () s →
      ∀ calls : List HeapCall,
        EachCall (performCall (kernelHeap blocks hblocks)) notePointer FreesLive calls [] s →
        EachCall (performCall (kernelHeap blocks hblocks)) notePointer
          (WritesBacked (kernelHeap blocks hblocks)) calls [] s := by
  intro hclaim
  obtain ⟨s, hrun, htiled, -, hwatermark, -⟩ := imageHeap_run
  have hbacked := hclaim _ (by decide) _ _ s hrun [.allocate 0x1000000] (by
    refine ⟨trivial, ?_⟩
    split <;> trivial)
  have hfrees : FreesLive [] s (.allocate 0x1000000) := trivial
  have hbelow := ((marked_heapInitialize hrun).writesBacked_iff hfrees).mp hbacked.1
  change ∀ b ∈ (blocksOf imageHeap s.mem).find? _, _ at hbelow
  rw [htiled.blocksOf_eq, hwatermark] at hbelow
  revert hbelow
  decide

end Vsos.Heap
