import Vsos.Heap.KHeap
import Vsos.Lib.Ring
import Vsos.Lib.Tiles

/-!
# The blocks in memory

Memory holds a list of blocks when the links form a ring over their addresses, the headers have
the fields of the blocks, and the blocks tile the heap. The bytes that matter for this are those
of the headers, and a store to a header reaches no other one. The loops of the heap walk over the
list.
-/

namespace Vsos.Heap

open Vsos.Lib Vsos.Mem

/-- A block of the heap. -/
structure Block where
  address : ℕ
  size : ℕ
  free : Bool
  deriving DecidableEq, Repr

/-- The bytes of a block, header and data. -/
def Block.extent (b : Block) : ℕ := headerSize + b.size

/-- The third word of the header. -/
def Block.word (b : Block) : ℕ := b.free.toNat + 2 * b.size + 2 ^ 48 * magic

/-- What `Allocate` searches for. -/
def Block.Fits (allocationSize : ℕ) (b : Block) : Prop := b.free = true ∧ allocationSize ≤ b.size

instance (allocationSize : ℕ) (b : Block) : Decidable (b.Fits allocationSize) :=
  inferInstanceAs (Decidable (_ ∧ _))

/-- The blocks lie end to end from the start of the heap to its end. -/
abbrev TilesHeap (heap : KHeap) (blocks : List Block) : Prop :=
  Tiles Block.address Block.extent heap.start blocks heap.stop

/-- The links of the list head and of the blocks. -/
abbrev LinkRing (heap : KHeap) (mem : Bytes) (blocks : List Block) : Prop :=
  Ring mem.u64 (fun entry => mem.u64 (entry + 8)) heap.blocks (blocks.map Block.address)

/-- The blocks that memory holds. -/
structure Tiled (heap : KHeap) (mem : Bytes) (blocks : List Block) : Prop where
  ring : LinkRing heap mem blocks
  word : ∀ b ∈ blocks, mem.u64 (b.address + 16) = b.word
  tiles : TilesHeap heap blocks

variable {heap : KHeap} {mem : Bytes} {s t : HeapState} {b c : Block} {blocks l l₁ l₂ : List Block}

section Fields

/-- The packed word of a header has 64 bits. -/
theorem Block.word_lt (h : b.size < 2 ^ 47) : b.word < 2 ^ 64 := by
  have hfree := b.free.toNat_le
  simp only [word, magic]
  omega

/-- The flag in the packed word. -/
theorem freeField_word (b : Block) : freeField b.word = b.free := by
  have hword : b.word = b.free.toNat + 2 * (b.size + 2 ^ 47 * magic) := by
    simp only [Block.word, magic]
    omega
  rw [freeField, hword, Nat.add_mul_mod_self_left]
  cases b.free <;> rfl

/-- The size in the packed word. -/
theorem sizeField_word (h : b.size < 2 ^ 47) : sizeField b.word = b.size := by
  have hfree := b.free.toNat_le
  simp only [sizeField, Block.word, magic]
  omega

/-- The magic number in the packed word. -/
theorem magicField_word (h : b.size < 2 ^ 47) : magicField b.word = magic := by
  have hfree := b.free.toNat_le
  simp only [magicField, Block.word, magic]
  omega

end Fields

section Tiles

variable (h : TilesHeap heap blocks)

include h

/-- A block lies in the heap, and its size fits into the field. -/
theorem TilesHeap.bounds (hb : b ∈ blocks) :
    heap.start ≤ b.address ∧ b.address + headerSize + b.size ≤ heap.stop ∧ b.size < 2 ^ 47 := by
  obtain ⟨hlow, hhigh⟩ := Tiles.bounds h hb
  have hsize := heap.size_lt
  simp only [Block.extent] at hhigh
  omega

/-- Two nodes of the list, the head among them, are the same or lie sixteen bytes apart. -/
theorem TilesHeap.nodes_apart {a a' : ℕ} (ha : a ∈ heap.blocks :: blocks.map Block.address)
    (ha' : a' ∈ heap.blocks :: blocks.map Block.address) :
    a = a' ∨ a + 16 ≤ a' ∨ a' + 16 ≤ a := by
  have hhead : ∀ b ∈ blocks, b.address + 16 ≤ heap.blocks ∨ heap.blocks + 16 ≤ b.address := by
    intro b hb
    obtain ⟨hlow, hhigh, -⟩ := TilesHeap.bounds h hb
    have hapart := heap.apart
    simp only [headerSize] at hhigh
    omega
  rcases List.mem_cons.mp ha with rfl | ha
  · rcases List.mem_cons.mp ha' with rfl | ha'
    · exact Or.inl rfl
    · obtain ⟨b, hb, rfl⟩ := List.mem_map.mp ha'
      exact Or.inr (hhead b hb).symm
  · obtain ⟨b, hb, rfl⟩ := List.mem_map.mp ha
    rcases List.mem_cons.mp ha' with rfl | ha'
    · exact Or.inr (hhead b hb)
    · obtain ⟨c, hc, rfl⟩ := List.mem_map.mp ha'
      have happart := Tiles.apart h hb hc
      simp only [Block.extent, headerSize] at happart
      rcases happart with rfl | happart
      · exact Or.inl rfl
      · omega

/-- The third word of a header is apart from all links. -/
theorem TilesHeap.word_apart (hb : b ∈ blocks) {a : ℕ}
    (ha : a ∈ heap.blocks :: blocks.map Block.address) :
    a + 16 ≤ b.address + 16 ∨ b.address + 16 + 8 ≤ a := by
  obtain ⟨hlow, hhigh, -⟩ := TilesHeap.bounds h hb
  have hapart := heap.apart
  rcases List.mem_cons.mp ha with rfl | ha
  · simp only [headerSize] at hhigh
    omega
  · obtain ⟨c, hc, rfl⟩ := List.mem_map.mp ha
    have happart := Tiles.apart h hb hc
    simp only [Block.extent, headerSize] at happart
    rcases happart with rfl | happart
    · omega
    · omega

/-- Nodes are addresses. -/
theorem TilesHeap.node_lt {a : ℕ} (ha : a ∈ heap.blocks :: blocks.map Block.address) :
    a + 16 < 2 ^ 64 := by
  have hstop := heap.stop_lt
  rcases List.mem_cons.mp ha with rfl | ha
  · exact heap.blocks_lt
  · obtain ⟨b, hb, rfl⟩ := List.mem_map.mp ha
    obtain ⟨-, hhigh, -⟩ := TilesHeap.bounds h hb
    simp only [headerSize] at hhigh
    omega

/-- There is a round for each block. -/
theorem TilesHeap.length_lt : blocks.length < rounds heap := by
  have hle := Tiles.length_mul_le h fun b _ => Nat.le_add_right _ _
  rw [rounds, Nat.lt_succ_iff, Nat.le_div_iff_mul_le (by decide)]
  omega

end Tiles

section Frame

variable {mem' : Bytes}

/-- The ring depends on the bytes of the links. -/
theorem LinkRing.congr (h : LinkRing heap mem blocks)
    (hsame : ∀ a ∈ heap.blocks :: blocks.map Block.address, ∀ k < 16, mem' (a + k) = mem (a + k)) :
    LinkRing heap mem' blocks := by
  refine Ring.congr h (fun a ha => ?_) fun a ha => ?_
  · exact Bytes.u64_congr fun k hk => hsame a ha k (by omega)
  · refine Bytes.u64_congr fun k hk => ?_
    simpa only [Nat.add_assoc] using hsame a ha (8 + k) (by omega)

/-- The bytes of the list head and of the headers. -/
def InHeader (heap : KHeap) (blocks : List Block) (a : ℕ) : Prop :=
  (heap.blocks ≤ a ∧ a < heap.blocks + 16) ∨
    ∃ b ∈ blocks, b.address ≤ a ∧ a < b.address + headerSize

/-- Only the bytes of the headers matter. -/
theorem Tiled.congr (h : Tiled heap mem blocks)
    (hsame : ∀ a, InHeader heap blocks a → mem' a = mem a) : Tiled heap mem' blocks where
  ring := by
    refine LinkRing.congr h.ring fun a ha k hk => hsame _ ?_
    rcases List.mem_cons.mp ha with rfl | ha
    · exact Or.inl ⟨by omega, by omega⟩
    · obtain ⟨b, hb, rfl⟩ := List.mem_map.mp ha
      exact Or.inr ⟨b, hb, by omega, by simp only [headerSize]; omega⟩
  word := by
    intro b hb
    rw [← h.word b hb]
    refine Bytes.u64_congr fun k hk => hsame _ (Or.inr ⟨b, hb, by omega, ?_⟩)
    simp only [headerSize]
    omega
  tiles := h.tiles

/-- The data of a block is no part of any header. -/
theorem TilesHeap.not_inHeader (h : TilesHeap heap blocks) (hb : b ∈ blocks) {a : ℕ}
    (hlow : b.address + headerSize ≤ a) (hhigh : a < b.address + headerSize + b.size) :
    ¬ InHeader heap blocks a := by
  obtain ⟨hstart, hstop, -⟩ := TilesHeap.bounds h hb
  rintro (hhead | ⟨c, hc, hin⟩)
  · have hapart := heap.apart
    omega
  · have happart := Tiles.apart h hb hc
    simp only [Block.extent] at happart
    rcases happart with rfl | happart
    · omega
    · omega

/-- Filling the data of a block leaves the blocks as they are. -/
theorem Tiled.fill (h : Tiled heap mem blocks) (hb : b ∈ blocks) (value : UInt8) :
    Tiled heap (mem.blit (b.address + headerSize) (fun _ => value) b.size) blocks := by
  refine h.congr fun a ha => Bytes.blit_of_not_mem ?_
  by_contra hin
  exact TilesHeap.not_inHeader h.tiles hb (by omega) (by omega) ha

end Frame

section Walk

/-- The first node behind the head, or the head. -/
def firstNode (heap : KHeap) : List Block → ℕ
  | [] => heap.blocks
  | b :: _ => b.address

/-- Where the link of a block leads. -/
theorem LinkRing.next_eq (h : LinkRing heap mem (l₁ ++ b :: l₂)) :
    mem.u64 b.address = firstNode heap l₂ := by
  rw [LinkRing, List.map_append, List.map_cons] at h
  have hrotate := Ring.rotate h
  cases l₂ with
  | nil => exact Ring.next_head hrotate
  | cons c l => exact Ring.next_head hrotate

/-- The list head leads to the first block. -/
theorem LinkRing.next_head (h : LinkRing heap mem blocks) :
    mem.u64 heap.blocks = firstNode heap blocks := by
  cases blocks with
  | nil => exact (Ring.next_head_eq_iff h).mpr rfl
  | cons b l => exact Ring.next_head h

/-- No block is the list head. -/
theorem LinkRing.ne_head (h : LinkRing heap mem blocks) (hb : b ∈ blocks) :
    b.address ≠ heap.blocks := by
  have hnodup := (List.nodup_cons.mp (Ring.nodup h)).1
  exact fun heq => hnodup (heq ▸ List.mem_map_of_mem hb)

/-- The search stops at the first block that fits, or comes back to the head. -/
theorem Tiled.searchLoop_run (h : Tiled heap s.mem (l₁ ++ l₂)) (hne : l₂ ≠ []) {n fuel : ℕ}
    (hfuel : l₂.length ≤ fuel) :
    (searchLoop heap n fuel (firstNode heap l₂)).run s =
      .ok (firstNode heap (l₂.dropWhile fun b => ¬ b.Fits n)) s := by
  induction l₂ generalizing l₁ fuel with
  | nil => exact absurd rfl hne
  | cons b l ih =>
    obtain ⟨fuel, rfl⟩ := Nat.exists_eq_succ_of_ne_zero (Nat.ne_of_gt (Nat.zero_lt_of_lt hfuel))
    have hb : b ∈ l₁ ++ b :: l := by simp
    have hsize := (TilesHeap.bounds h.tiles hb).2.2
    have hread : (read64 (b.address + 16)).run s = .ok b.word s := by
      rw [← h.word b hb]
      rfl
    rw [firstNode, searchLoop, bind_of_ok hread, freeField_word, sizeField_word hsize]
    by_cases hfits : b.Fits n
    · rw [if_neg (by simp [hfits.1, hfits.2]), List.dropWhile_cons_of_neg (by simpa using hfits)]
      rfl
    · rw [if_pos (by simpa [Block.Fits, imp_iff_not_or] using hfits),
        bind_ensure (magicField_word hsize), List.dropWhile_cons_of_pos (by simpa using hfits)]
      have hnext : (read64 b.address).run s = .ok (firstNode heap l) s := by
        rw [← LinkRing.next_eq h.ring]
        rfl
      rw [bind_of_ok hnext]
      cases l with
      | nil => rw [firstNode, if_pos rfl]; rfl
      | cons c l =>
        rw [if_neg (show firstNode heap (c :: l) ≠ heap.blocks from
          LinkRing.ne_head h.ring (by simp))]
        have hrest : Tiled heap s.mem ((l₁ ++ [b]) ++ c :: l) := by simpa using h
        exact ih hrest (by simp) (Nat.le_of_succ_le_succ hfuel)

/-- The check walks over blocks of increasing addresses. -/
theorem Tiled.checkLoop_run (h : Tiled heap s.mem (l₁ ++ l₂)) {lastAddr fuel : ℕ}
    (hfuel : l₂.length < fuel) (hlast : ∀ b ∈ l₂, lastAddr ≤ b.address + headerSize) :
    (checkLoop heap fuel (firstNode heap l₂) lastAddr).run s = .ok true s := by
  induction l₂ generalizing l₁ fuel lastAddr with
  | nil =>
    obtain ⟨fuel, rfl⟩ := Nat.exists_eq_succ_of_ne_zero (Nat.ne_of_gt (Nat.zero_lt_of_lt hfuel))
    rw [firstNode, checkLoop, if_pos rfl]
    rfl
  | cons b l ih =>
    obtain ⟨fuel, rfl⟩ := Nat.exists_eq_succ_of_ne_zero (Nat.ne_of_gt (Nat.zero_lt_of_lt hfuel))
    have hb : b ∈ l₁ ++ b :: l := by simp
    have hnext : (read64 b.address).run s = .ok (firstNode heap l) s := by
      rw [← LinkRing.next_eq h.ring]
      rfl
    rw [firstNode, checkLoop, if_neg (LinkRing.ne_head h.ring hb),
      if_neg (not_lt.mpr (hlast b List.mem_cons_self)), bind_of_ok hnext]
    have hrest : Tiled heap s.mem ((l₁ ++ [b]) ++ l) := by simpa using h
    refine ih hrest (Nat.lt_of_succ_lt_succ hfuel) fun c hc => ?_
    have hbehind := ((tiles_split.mp h.tiles).2.bounds hc).1
    omega

/-- No check of the heap fails. -/
theorem Tiled.checkHeap_run (h : Tiled heap s.mem blocks) : (checkHeap heap).run s = .ok true s := by
  have hhead : (read64 heap.blocks).run s = .ok (firstNode heap blocks) s := by
    rw [← LinkRing.next_head h.ring]
    rfl
  rw [checkHeap, bind_of_ok hhead]
  have hall : Tiled heap s.mem ([] ++ blocks) := h
  exact hall.checkLoop_run (TilesHeap.length_lt h.tiles |>.trans (Nat.lt_succ_self _))
    fun _ _ => Nat.zero_le _

end Walk

end Vsos.Heap
