import Mathlib.Data.List.TakeWhile
import Vsos.Heap.Blocks

/-!
# `Allocate` and `Deallocate` on the block list

`Allocate` takes the first block that is free and large enough and cuts off what it does not
need; `Deallocate` marks a block free again, and never joins two of them. The words of the
headers are rewritten in place, one field at a time.
-/

namespace Vsos.Heap

open Vsos.Lib Vsos.Mem

variable {heap : KHeap} {mem mem' : Bytes} {s t : HeapState} {b c d : Block}
  {blocks l l₁ l₂ : List Block} {n : ℕ}

section Store

/-- The memory after a store. -/
@[simp] theorem HeapState.store_mem (s : HeapState) (a v : ℕ) :
    (s.store a v).mem = s.mem.setU64 a v := rfl

/-- A read changes nothing. -/
theorem read64_run (s : HeapState) (a : ℕ) : (read64 a).run s = .ok (s.mem.u64 a) s := rfl

/-- The field `Free` of a block is replaced. -/
theorem setFree_run (hword : s.mem.u64 (b.address + 16) = b.word) (value : Bool) :
    (setFree b.address value).run s =
      .ok () (s.store (b.address + 16) { b with free := value }.word) := by
  rw [setFree, bind_of_ok (read64_run _ _), hword]
  have hvalue : b.word / 2 * 2 + value.toNat = { b with free := value }.word := by
    have hfree := b.free.toNat_le
    simp only [Block.word, magic]
    omega
  rw [hvalue]
  rfl

/-- The field `Size` of a block is replaced. -/
theorem setSize_run (hword : s.mem.u64 (b.address + 16) = b.word) (hsize : b.size < 2 ^ 47)
    (hn : n < 2 ^ 47) :
    (setSize b.address n).run s =
      .ok () (s.store (b.address + 16) { b with size := n }.word) := by
  rw [setSize, bind_of_ok (read64_run _ _), hword]
  have hvalue : b.word % 2 + 2 * (n % 2 ^ 47) + b.word / 2 ^ 48 * 2 ^ 48 =
      { b with size := n }.word := by
    have hfree := b.free.toNat_le
    simp only [Block.word, magic]
    omega
  rw [hvalue]
  rfl

/-- The three assignments of a new header, whatever the memory held before. -/
theorem makeBlock_run (s : HeapState) (a : ℕ) (hn : n < 2 ^ 47) :
    ∃ mem, (makeBlock a n).run s =
        .ok () { s with mem, log := (a + 16, 8) :: (a + 16, 8) :: (a + 16, 8) :: s.log } ∧
      mem.u64 (a + 16) = (⟨a, n, true⟩ : Block).word ∧
      ∀ i, i < a + 16 ∨ a + 24 ≤ i → mem i = s.mem i := by
  let w₀ := s.mem.u64 (a + 16)
  let w₁ := w₀ / 2 * 2 + 1
  let w₂ := w₁ % 2 + 2 * (n % 2 ^ 47) + w₁ / 2 ^ 48 * 2 ^ 48
  let w₃ := w₂ % 2 ^ 48 + 2 ^ 48 * magic
  have h₀ : w₀ < 2 ^ 64 := Bytes.u64_lt _ _
  have h₁ : w₁ < 2 ^ 64 := by
    omega
  have h₂ : w₂ < 2 ^ 64 := by
    omega
  have h₃ : w₃ = (⟨a, n, true⟩ : Block).word := by
    simp only [w₃, w₂, w₁, Block.word, magic, Bool.toNat_true]
    omega
  let m₁ := s.mem.setU64 (a + 16) w₁
  let m₂ := m₁.setU64 (a + 16) w₂
  have hread₁ : m₁.u64 (a + 16) = w₁ := (Bytes.u64_setU64 _ _ _).trans (Nat.mod_eq_of_lt h₁)
  have hread₂ : m₂.u64 (a + 16) = w₂ := (Bytes.u64_setU64 _ _ _).trans (Nat.mod_eq_of_lt h₂)
  refine ⟨m₂.setU64 (a + 16) w₃, ?_, ?_, ?_⟩
  · have hfree : (setFree a true).run s = .ok () (s.store (a + 16) w₁) := rfl
    have hsize : (setSize a n).run (s.store (a + 16) w₁) =
        .ok () ((s.store (a + 16) w₁).store (a + 16) w₂) := by
      rw [setSize, bind_of_ok (read64_run _ _), HeapState.store_mem, hread₁]
      rfl
    rw [makeBlock, bind_of_ok hfree, bind_of_ok hsize, setMagic, bind_of_ok (read64_run _ _),
      HeapState.store_mem, HeapState.store_mem, hread₂]
    rfl
  · rw [Bytes.u64_setU64, h₃, Nat.mod_eq_of_lt (Block.word_lt hn)]
  · intro i hi
    have hold (m : Bytes) (v : ℕ) : m.setU64 (a + 16) v i = m i :=
      Bytes.setU64_of_not_mem (by omega)
    exact (hold _ _).trans ((hold _ _).trans (hold _ _))

/-- A word of a header can be changed without touching the links. -/
theorem LinkRing.setWord (h : LinkRing heap mem blocks) (htiles : TilesHeap heap blocks)
    (hb : b ∈ blocks) (hsame : ∀ i, i < b.address + 16 ∨ b.address + 24 ≤ i → mem' i = mem i) :
    LinkRing heap mem' blocks := by
  refine h.congr fun a ha k hk => hsame _ ?_
  have happart := TilesHeap.word_apart htiles hb ha
  omega

/-- Nor are the words of the other headers. -/
theorem u64_word_of_ne (htiles : TilesHeap heap blocks) (hb : b ∈ blocks) (hc : c ∈ blocks)
    (hne : c ≠ b) (hsame : ∀ i, i < b.address + 16 ∨ b.address + 24 ≤ i → mem' i = mem i) :
    mem'.u64 (c.address + 16) = mem.u64 (c.address + 16) := by
  refine Bytes.u64_congr fun k hk => hsame _ ?_
  have happart := (Tiles.apart htiles hb hc).resolve_left hne.symm
  simp only [Block.extent, headerSize] at happart
  omega

/-- The blocks of a tiling are pairwise different. -/
theorem TilesHeap.ne_of_mem (h : TilesHeap heap (l₁ ++ b :: l₂)) (hc : c ∈ l₁ ++ l₂) : c ≠ b := by
  rintro rfl
  obtain ⟨hl₁, hl₂⟩ := tiles_split.mp h
  rcases List.mem_append.mp hc with hc | hc
  · have hle := (hl₁.bounds hc).2
    simp only [Block.extent, headerSize] at hle
    omega
  · have hle := (hl₂.bounds hc).1
    simp only [Block.extent, headerSize] at hle
    omega

/-- A block is replaced by one of the same extent when its word is rewritten. -/
theorem Tiled.setWord (h : Tiled heap mem (l₁ ++ b :: l₂)) (haddress : c.address = b.address)
    (hsize : c.size = b.size) :
    Tiled heap (mem.setU64 (b.address + 16) c.word) (l₁ ++ c :: l₂) := by
  have hb : b ∈ l₁ ++ b :: l₂ := by simp
  have hsame : ∀ i, i < b.address + 16 ∨ b.address + 24 ≤ i →
      mem.setU64 (b.address + 16) c.word i = mem i := fun i hi =>
    Bytes.setU64_of_not_mem (by omega)
  refine ⟨?_, ?_, ?_⟩
  · have hring := LinkRing.setWord h.ring h.tiles hb hsame
    simpa only [LinkRing, List.map_append, List.map_cons, haddress] using hring
  · intro d hd
    rw [List.mem_append, List.mem_cons] at hd
    by_cases hdc : d = c
    · rw [hdc, haddress, Bytes.u64_setU64, Nat.mod_eq_of_lt]
      exact Block.word_lt (hsize ▸ (TilesHeap.bounds h.tiles hb).2.2)
    · have hd' : d ∈ l₁ ++ l₂ := by
        rw [List.mem_append]
        tauto
      have hin : d ∈ l₁ ++ b :: l₂ := by
        simp only [List.mem_append, List.mem_cons] at hd' ⊢
        tauto
      rw [u64_word_of_ne h.tiles hb hin (TilesHeap.ne_of_mem h.tiles hd') hsame, h.word d hin]
  · have htiles := tiles_split.mp h.tiles
    rw [TilesHeap, tiles_split, haddress, show c.extent = b.extent by rw [Block.extent, hsize]; rfl]
    exact htiles

end Store

section Insert

/-- Memory after `ListInsertHead`. -/
def linkAfter (mem : Bytes) (listHead entry : ℕ) : Bytes :=
  (((mem.setU64 entry (mem.u64 listHead)).setU64 (entry + 8) listHead).setU64
    (mem.u64 listHead + 8) entry).setU64 listHead entry

/-- The nodes of a ring lead to nodes of it. -/
theorem LinkRing.next_mem (h : LinkRing heap mem (l₁ ++ b :: l₂)) :
    mem.u64 b.address ∈ heap.blocks :: (l₁ ++ l₂).map Block.address := by
  rw [LinkRing.next_eq h]
  cases l₂ with
  | nil => exact List.mem_cons_self
  | cons c l => simp [firstNode]

section

variable (h : LinkRing heap mem (l₁ ++ b :: l₂)) (htiles : TilesHeap heap (l₁ ++ c :: d :: l₂))
  (haddress : c.address = b.address)
include h htiles haddress

/-- A new block is linked behind another one. -/
theorem LinkRing.insert :
    LinkRing heap (linkAfter mem b.address d.address) (l₁ ++ c :: d :: l₂) := by
  have hnext := LinkRing.next_mem h
  have hnodes : ∀ a ∈ heap.blocks :: (l₁ ++ l₂).map Block.address,
      a ∈ heap.blocks :: (l₁ ++ c :: d :: l₂).map Block.address := by
    intro a ha
    simp only [List.mem_cons, List.map_append, List.map_cons, List.mem_append] at ha ⊢
    tauto
  have hc : b.address ∈ heap.blocks :: (l₁ ++ c :: d :: l₂).map Block.address := by
    simp [← haddress]
  have hd : d.address ∈ heap.blocks :: (l₁ ++ c :: d :: l₂).map Block.address := by simp
  have hnew : d.address ∉ heap.blocks :: (l₁.map Block.address ++ b.address :: l₂.map Block.address) := by
    have hsplit : l₁ ++ c :: d :: l₂ = (l₁ ++ [c]) ++ d :: l₂ := by simp
    have hapart : ∀ e ∈ l₁ ++ [c] ++ l₂, e.address ≠ d.address := by
      intro e he heq
      rw [hsplit] at htiles
      have hne := TilesHeap.ne_of_mem htiles he
      have hin : e ∈ l₁ ++ [c] ++ d :: l₂ := by
        simp only [List.mem_append, List.mem_cons] at he ⊢
        tauto
      have happart := (Tiles.apart htiles hin (by simp)).resolve_left hne
      simp only [Block.extent, headerSize] at happart
      omega
    rw [List.mem_cons, not_or]
    constructor
    · intro heq
      have hbounds := TilesHeap.bounds htiles (b := d) (by simp)
      have hhead := heap.apart
      simp only [headerSize] at hbounds
      omega
    · rw [← haddress, List.mem_append, List.mem_cons, List.mem_map, List.mem_map]
      rintro (⟨e, he, heq⟩ | heq | ⟨e, he, heq⟩)
      · exact hapart e (by simp [he]) heq
      · exact hapart c (by simp) heq.symm
      · exact hapart e (by simp [he]) heq
  have hlt : ∀ a ∈ heap.blocks :: (l₁ ++ c :: d :: l₂).map Block.address, a < 2 ^ 64 := fun a ha =>
    Nat.lt_of_le_of_lt (Nat.le_add_right a 16) (TilesHeap.node_lt htiles ha)
  rw [LinkRing, List.map_append] at h
  have hring := Ring.insertAfter h hnew
  rw [LinkRing, List.map_append, List.map_cons, haddress]
  have hsame : heap.blocks :: (l₁.map Block.address ++ b.address :: d.address :: l₂.map Block.address) =
      heap.blocks :: (l₁ ++ c :: d :: l₂).map Block.address := by
    simp [haddress]
  refine hring.congr (fun a ha => ?_) fun a ha => ?_
  · -- the links forward: the cells of the new block and of the one before it
    rw [hsame] at ha
    have h₁ := TilesHeap.nodes_apart htiles ha hc
    have h₂ := TilesHeap.nodes_apart htiles ha hd
    have h₃ := TilesHeap.nodes_apart htiles ha (hnodes _ hnext)
    rw [linkAfter, Bytes.u64_setU64_cell (by omega) (hlt _ hd), Bytes.u64_setU64_of_disjoint (by omega),
      Bytes.u64_setU64_of_disjoint (by omega), Bytes.u64_setU64_cell (by omega) (Bytes.u64_lt _ _),
      Function.update_apply, Function.update_apply]
  · -- the links back: the cells of the new block and of the one behind it
    rw [hsame] at ha
    have h₁ := TilesHeap.nodes_apart htiles ha hc
    have h₂ := TilesHeap.nodes_apart htiles ha hd
    have h₃ := TilesHeap.nodes_apart htiles ha (hnodes _ hnext)
    rw [linkAfter, Bytes.u64_setU64_of_disjoint (by omega), Bytes.u64_setU64_cell (by omega) (hlt _ hd),
      Bytes.u64_setU64_cell (by omega) (hlt _ hc), Bytes.u64_setU64_of_disjoint (by omega),
      Function.update_apply, Function.update_apply]
    simp only [Nat.add_right_cancel_iff]

/-- Linking a block leaves the words of all headers alone. -/
theorem linkAfter_word {e : Block} (he : e ∈ l₁ ++ c :: d :: l₂) :
    (linkAfter mem b.address d.address).u64 (e.address + 16) = mem.u64 (e.address + 16) := by
  have hnext : mem.u64 b.address ∈ heap.blocks :: (l₁ ++ c :: d :: l₂).map Block.address := by
    have hin := LinkRing.next_mem h
    simp only [List.mem_cons, List.map_append, List.map_cons, List.mem_append] at hin ⊢
    tauto
  have h₁ := TilesHeap.word_apart htiles he (a := b.address) (by simp [← haddress])
  have h₂ := TilesHeap.word_apart htiles he (a := d.address) (by simp)
  have h₃ := TilesHeap.word_apart htiles he hnext
  rw [linkAfter, Bytes.u64_setU64_of_disjoint (by omega), Bytes.u64_setU64_of_disjoint (by omega),
    Bytes.u64_setU64_of_disjoint (by omega), Bytes.u64_setU64_of_disjoint (by omega)]

end

end Insert

section Split

/-- What `Allocate` makes of the block it takes: the block itself, or a block of the size that
is needed and a free one behind it. -/
def Block.take (n : ℕ) (b : Block) : List Block :=
  if b.size - n < heapAlign + headerSize then [{ b with free := false }]
  else [⟨b.address, n, false⟩,
    ⟨b.address + headerSize + n, b.size - n - headerSize, true⟩]

/-- The new blocks cover the old one. -/
theorem Block.tiles_take (hn : n ≤ b.size) :
    Tiles Block.address Block.extent b.address (b.take n) (b.address + b.extent) := by
  rw [take]
  split
  · exact ⟨rfl, rfl⟩
  · next hlarge =>
    simp only [heapAlign, headerSize] at hlarge
    refine ⟨rfl, ?_, ?_⟩
    · simp only [extent]
      omega
    · simp only [Tiles, extent, headerSize]
      omega

/-- A split in memory: the new block is linked and gets its header, and then the size of the
old one is reduced. -/
theorem Tiled.split (h : Tiled heap mem (l₁ ++ b :: l₂))
    (htiles : TilesHeap heap (l₁ ++ c :: d :: l₂)) (haddress : c.address = b.address)
    (hd : mem'.u64 (d.address + 16) = d.word)
    (hsame : ∀ i, i < d.address + 16 ∨ d.address + 24 ≤ i →
      mem' i = linkAfter mem b.address d.address i) :
    Tiled heap (mem'.setU64 (b.address + 16) c.word) (l₁ ++ c :: d :: l₂) := by
  have hc_mem : c ∈ l₁ ++ c :: d :: l₂ := by simp
  have hd_mem : d ∈ l₁ ++ c :: d :: l₂ := by simp
  have hword : ∀ i, i < c.address + 16 ∨ c.address + 24 ≤ i →
      mem'.setU64 (b.address + 16) c.word i = mem' i := fun i hi =>
    Bytes.setU64_of_not_mem (by omega)
  refine ⟨?_, ?_, htiles⟩
  · have hlinked := LinkRing.insert h.ring htiles haddress
    have hheader := LinkRing.setWord hlinked htiles hd_mem hsame
    exact LinkRing.setWord hheader htiles hc_mem hword
  · intro e he
    by_cases hec : e = c
    · rw [hec, haddress, Bytes.u64_setU64, Nat.mod_eq_of_lt]
      exact Block.word_lt (TilesHeap.bounds htiles hc_mem).2.2
    · rw [u64_word_of_ne htiles hc_mem he hec hword]
      by_cases hed : e = d
      · rw [hed, hd]
      · rw [u64_word_of_ne htiles hd_mem he hed hsame, linkAfter_word h.ring htiles haddress he]
        apply h.word
        simp only [List.mem_append, List.mem_cons] at he ⊢
        tauto

/-- The stores of `Allocate`, the last one first, when it takes the block `b` with the node
`next` behind it. -/
def allocateWrites (b : Block) (n next : ℕ) : List (ℕ × ℕ) :=
  let address := b.address + headerSize
  let newBlock := address + n
  if b.size - n < heapAlign + headerSize then [(address, b.size), (b.address + 16, 8)]
  else [(address, n), (b.address + 16, 8), (newBlock + 16, 8), (newBlock + 16, 8),
    (newBlock + 16, 8), (b.address, 8), (next + 8, 8), (newBlock + 8, 8), (newBlock, 8),
    (b.address + 16, 8)]

/-- The search stops at the first block that fits. -/
theorem dropWhile_append_of_first (hskip : ∀ c ∈ l₁, ¬ c.Fits n) (hb : b.Fits n) :
    (l₁ ++ b :: l₂).dropWhile (fun b => ¬ b.Fits n) = b :: l₂ := by
  rw [List.dropWhile_append_of_pos (by simpa using hskip),
    List.dropWhile_cons_of_neg (by simpa using hb)]

/-- What the search leads to, the head if no block fits. -/
theorem Tiled.search_run (h : Tiled heap s.mem blocks) (hne : blocks ≠ []) (n : ℕ) :
    (read64 heap.blocks >>= searchLoop heap n (rounds heap)).run s =
      .ok (firstNode heap (blocks.dropWhile fun b => ¬ b.Fits n)) s := by
  have hhead : (read64 heap.blocks).run s = .ok (firstNode heap blocks) s := by
    rw [← LinkRing.next_head h.ring]
    rfl
  rw [bind_of_ok hhead]
  have hall : Tiled heap s.mem ([] ++ blocks) := h
  exact hall.searchLoop_run hne (TilesHeap.length_lt h.tiles).le

/-- The search finds the first block that fits. -/
theorem Tiled.findBlock_run (h : Tiled heap s.mem (l₁ ++ b :: l₂))
    (hskip : ∀ c ∈ l₁, ¬ c.Fits n) (hb : b.Fits n) :
    (findBlock heap n).run s = .ok b.address s := by
  have hsearch := h.search_run (by simp) n
  rw [dropWhile_append_of_first hskip hb, firstNode] at hsearch
  obtain ⟨first, s', hfirst, hloop⟩ := bind_eq_ok.mp hsearch
  rw [findBlock, bind_of_ok hfirst, bind_of_ok hloop,
    bind_ensure (LinkRing.ne_head h.ring (by simp))]
  rfl

/-- Without a block that fits, the machine is stopped. -/
theorem Tiled.findBlock_fault (h : Tiled heap s.mem blocks) (hne : blocks ≠ [])
    (hnone : ∀ b ∈ blocks, ¬ b.Fits n) : (findBlock heap n).run s = .error .fault s := by
  have hsearch := h.search_run hne n
  rw [List.dropWhile_eq_nil_iff.mpr (by simpa using hnone)] at hsearch
  obtain ⟨first, s', hfirst, hloop⟩ := bind_eq_ok.mp hsearch
  rw [findBlock, bind_of_ok hfirst, bind_of_ok hloop, ensure, if_neg (fun h => h rfl)]
  rfl

/-- The blocks after a split. -/
theorem Tiled.splitBlock_run (h : Tiled heap s.mem (l₁ ++ b :: l₂))
    (htiles : TilesHeap heap (l₁ ++ c :: d :: l₂)) (hc : c = ⟨b.address, n, b.free⟩)
    (hd : d = ⟨b.address + headerSize + n, b.size - n - headerSize, true⟩) :
    ∃ mem, (splitBlock b.address (b.address + headerSize) b.size n).run s = .ok ()
        { s with
          mem
          log := (b.address + 16, 8) :: (d.address + 16, 8) :: (d.address + 16, 8) ::
            (d.address + 16, 8) :: (b.address, 8) :: (firstNode heap l₂ + 8, 8) ::
            (d.address + 8, 8) :: (d.address, 8) :: s.log } ∧
      Tiled heap mem (l₁ ++ c :: d :: l₂) := by
  have hc_mem : c ∈ l₁ ++ c :: d :: l₂ := by simp
  have haddress : c.address = b.address := by rw [hc]
  have hsize := (TilesHeap.bounds h.tiles (b := b) (by simp)).2.2
  have hn : n < 2 ^ 47 := by
    have hc_size := (TilesHeap.bounds htiles hc_mem).2.2
    rwa [hc] at hc_size
  obtain ⟨-, hd_stop, hd_size⟩ := TilesHeap.bounds htiles (b := d) (by simp)
  have hnew : wrap64 (b.address + headerSize + n) = d.address := by
    have hstop_lt := heap.stop_lt
    rw [hd] at hd_stop ⊢
    exact wrap64_of_lt (by simp only at hd_stop; omega)
  have hinsert : (listInsertHead b.address d.address).run s = .ok ()
      { s with
        mem := linkAfter s.mem b.address d.address
        log := (b.address, 8) :: (s.mem.u64 b.address + 8, 8) :: (d.address + 8, 8) ::
          (d.address, 8) :: s.log } := rfl
  rw [LinkRing.next_eq h.ring] at hinsert
  obtain ⟨mem, hmake, hword, hsame⟩ := makeBlock_run
    { s with
      mem := linkAfter s.mem b.address d.address
      log := (b.address, 8) :: (firstNode heap l₂ + 8, 8) :: (d.address + 8, 8) ::
        (d.address, 8) :: s.log } d.address hd_size
  have hd_word : mem.u64 (d.address + 16) = d.word := by
    rw [hword, hd]
  have hb_word : mem.u64 (b.address + 16) = b.word := by
    have hsplit : TilesHeap heap ((l₁ ++ [c]) ++ d :: l₂) := by simpa using htiles
    have hne : c ≠ d := TilesHeap.ne_of_mem hsplit (by simp)
    have hmem := u64_word_of_ne htiles (by simp) hc_mem hne hsame
    rw [haddress] at hmem
    have hlink := linkAfter_word h.ring htiles haddress hc_mem
    rw [haddress] at hlink
    exact hmem.trans (hlink.trans (h.word b (by simp)))
  rw [splitBlock, hnew, show b.size - n - headerSize = d.size by rw [hd], bind_of_ok hinsert,
    bind_of_ok hmake]
  refine ⟨_, setSize_run hb_word hsize hn, ?_⟩
  rw [show { b with size := n } = c from hc.symm]
  exact Tiled.split h htiles haddress hd_word hsame

/-- `Allocate` takes the first block that fits. -/
theorem Tiled.allocate_run {size : ℕ} (h : Tiled heap s.mem (l₁ ++ b :: l₂))
    (hsize : byteAlign size heapAlign = n) (hskip : ∀ c ∈ l₁, ¬ c.Fits n) (hb : b.Fits n) :
    ∃ mem, (allocate heap size).run s = .ok (b.address + headerSize)
        { s.countAllocation n with mem, log := allocateWrites b n (firstNode heap l₂) ++ s.log } ∧
      Tiled heap mem (l₁ ++ (b.take n ++ l₂)) := by
  let b₁ : Block := { b with free := false }
  let s₀ := s.store (b.address + 16) b₁.word
  let s₁ := s₀.countAllocation n
  have hb_mem : b ∈ l₁ ++ b :: l₂ := by simp
  obtain ⟨-, hstop, hb_size⟩ := TilesHeap.bounds h.tiles hb_mem
  have hstop_lt := heap.stop_lt
  have htiled₁ : Tiled heap s₁.mem (l₁ ++ b₁ :: l₂) := h.setWord rfl rfl
  have hread : (read64 (b.address + 16)).run s₁ = .ok b₁.word s₁ := by
    rw [← htiled₁.word b₁ (by simp)]
    rfl
  rw [allocate, hsize, bind_of_ok (h.findBlock_run hskip hb),
    bind_of_ok (setFree_run (h.word b hb_mem) false), bind_change, bind_of_ok hread,
    sizeField_word (b := b₁) hb_size, wrap64_of_lt (by omega),
    Block.take, allocateWrites]
  by_cases hsmall : b.size - n < heapAlign + headerSize
  · rw [if_pos hsmall, if_pos hsmall, if_pos hsmall]
    refine ⟨_, ?_, htiled₁.fill (b := b₁) (by simp) 0xCC⟩
    rw [bind_of_ok htiled₁.checkHeap_run, bind_ensure rfl, bind_of_ok hread,
      sizeField_word (b := b₁) hb_size]
    rfl
  · rw [if_neg hsmall, if_neg hsmall, if_neg hsmall]
    let c : Block := ⟨b.address, n, false⟩
    let d : Block := ⟨b.address + headerSize + n, b.size - n - headerSize, true⟩
    have htake : b.take n = [c, d] := if_neg hsmall
    have htiles : TilesHeap heap (l₁ ++ c :: d :: l₂) := by
      have hreplace := Tiles.replace h.tiles (Block.tiles_take hb.2)
      rwa [htake] at hreplace
    obtain ⟨mem, hsplit, htiled⟩ := htiled₁.splitBlock_run htiles rfl rfl
    have hc_read := htiled.word c (by simp)
    have hc_size := (TilesHeap.bounds htiles (b := c) (by simp)).2.2
    refine ⟨_, ?_, htiled.fill (b := c) (by simp) 0xCC⟩
    rw [bind_of_ok hsplit, bind_of_ok (Tiled.checkHeap_run htiled), bind_ensure rfl,
      bind_of_ok (read64_run _ _), hc_read, sizeField_word hc_size]
    rfl

end Split

/-- `Deallocate` marks a block free. The data of a block that is not the last one begins inside
of the heap; that of the last one has to be shown not to be empty. -/
theorem Tiled.deallocate_run (h : Tiled heap s.mem (l₁ ++ b :: l₂)) (hfree : b.free = false)
    (hlast : l₂ = [] → 0 < b.size) :
    ∃ mem, (deallocate heap (b.address + headerSize)).run s = .ok ()
        { s.countRelease b.size with
          mem
          log := (b.address + headerSize, b.size) :: (b.address + 16, 8) :: s.log } ∧
      Tiled heap mem (l₁ ++ { b with free := true } :: l₂) := by
  let b₁ : Block := { b with free := true }
  let s₀ := s.store (b.address + 16) b₁.word
  let s₁ := s₀.countRelease b.size
  have hb_mem : b ∈ l₁ ++ b :: l₂ := by simp
  obtain ⟨hstart, hstop, hsize⟩ := TilesHeap.bounds h.tiles hb_mem
  have hinside : b.address + headerSize < heap.stop := by
    cases l₂ with
    | nil =>
      have hpos := hlast rfl
      omega
    | cons c l =>
      have hc := TilesHeap.bounds h.tiles (b := c) (by simp)
      have hbehind := ((tiles_split.mp h.tiles).2.bounds (b := c) (by simp)).1
      simp only [Block.extent, headerSize] at hbehind hc ⊢
      omega
  have htiled₁ : Tiled heap s₁.mem (l₁ ++ b₁ :: l₂) := h.setWord rfl rfl
  have hread : (read64 (b.address + 16)).run s = .ok b.word s := by
    rw [← h.word b hb_mem]
    rfl
  have hread₀ : (read64 (b.address + 16)).run s₀ = .ok b₁.word s₀ := by
    rw [← htiled₁.word b₁ (by simp)]
    rfl
  have hread₁ : (read64 (b.address + 16)).run s₁ = .ok b₁.word s₁ := by
    rw [← htiled₁.word b₁ (by simp)]
    rfl
  have hfilled := htiled₁.fill (b := b₁) (by simp) 0xEF
  have hcheck := Tiled.checkHeap_run (s := s₁.fill (b.address + headerSize) 0xEF b.size) hfilled
  refine ⟨_, ?_, hfilled⟩
  rw [deallocate, bind_ensure (by omega), bind_ensure hinside,
    Nat.add_sub_cancel, bind_of_ok hread, bind_ensure (magicField_word hsize),
    bind_ensure ((freeField_word b).trans hfree), bind_ensure rfl,
    bind_of_ok (setFree_run (h.word b hb_mem) true), bind_of_ok hread₀,
    sizeField_word (b := b₁) hsize, bind_change, bind_of_ok hread₁,
    sizeField_word (b := b₁) hsize]
  exact (bind_of_ok (show (memset (b.address + headerSize) 0xEF b.size).run s₁ =
    .ok () (s₁.fill (b.address + headerSize) 0xEF b.size) from rfl)).trans
      ((bind_of_ok hcheck).trans (ensure_run rfl _))

section Start

/-- `Grow` moves the watermark, if it gets its pages. -/
theorem grow_run (hw : s.watermark < 2 ^ 64) (hn : n ≤ s.supply) :
    (grow n).run s = .ok ()
      { s with supply := s.supply - n, watermark := wrap64 (s.watermark + n * pageSize) } := by
  induction n generalizing s with
  | zero => simp [grow, wrap64_of_lt hw]
  | succ n ih =>
    have hpos : 0 < s.supply := by omega
    have hchange : (change fun s : HeapState =>
        { s with supply := s.supply - 1, watermark := wrap64 (s.watermark + pageSize) }).run s =
        .ok () { s with supply := s.supply - 1, watermark := wrap64 (s.watermark + pageSize) } := rfl
    have hmark : wrap64 (wrap64 (s.watermark + pageSize) + n * pageSize) =
        wrap64 (s.watermark + (n + 1) * pageSize) := by
      rw [wrap64, wrap64, Nat.mod_add_mod, Nat.succ_mul, Nat.add_assoc, Nat.add_comm pageSize]
      rfl
    rw [grow, bind_look, bind_ensure hpos, bind_of_ok hchange,
      ih (wrap64_lt _) (by simp only; omega)]
    simp only [hmark, Nat.sub_sub, Nat.add_comm 1 n]

/-- The heap grows by pages that there are. -/
theorem le_of_grow {u : Unit} (hrun : (grow n).run s = .ok u t) : n ≤ s.supply := by
  induction n generalizing s with
  | zero => exact Nat.zero_le _
  | succ n ih =>
    obtain ⟨hpos, hrest⟩ := bind_ensure_eq_ok.mp hrun
    obtain ⟨_, s₂, hchange, hgrow⟩ := bind_eq_ok.mp hrest
    cases hchange
    have hle : n ≤ s.supply - 1 := ih hgrow
    omega

/-- The block that `Initialize` makes. -/
def KHeap.firstBlock (heap : KHeap) : Block :=
  ⟨heap.start, heap.stop - heap.start - headerSize, true⟩

/-- Memory after `Initialize` has linked the first block. -/
def linkFirst (heap : KHeap) (mem : Bytes) : Bytes :=
  ((((mem.setU64 (heap.blocks + 8) heap.blocks).setU64 heap.blocks heap.blocks).setU64 heap.start
    heap.blocks).setU64 (heap.start + 8) heap.blocks).setU64 heap.blocks heap.start |>.setU64
    (heap.blocks + 8) heap.start

/-- One block fills the heap. -/
theorem tiles_firstBlock (heap : KHeap) : TilesHeap heap [heap.firstBlock] := by
  have hroom := heap.room
  refine ⟨rfl, ?_⟩
  simp only [Tiles, KHeap.firstBlock, Block.extent, headerSize, heapAlign] at hroom ⊢
  omega

/-- The list of the first block. -/
theorem linkRing_first (heap : KHeap) (mem : Bytes) :
    LinkRing heap (linkFirst heap mem) [heap.firstBlock] := by
  have hapart : heap.blocks + 16 ≤ heap.start ∨ heap.start + 16 ≤ heap.blocks := by
    have hhead := heap.apart
    have hroom := heap.room
    simp only [headerSize, heapAlign] at hroom
    omega
  have hblocks : heap.blocks < 2 ^ 64 := by
    have hlt := heap.blocks_lt
    omega
  have hstart : heap.start < 2 ^ 64 := by
    have hlt := heap.stop_lt
    have hroom := heap.room
    omega
  refine Ring.singleton (show heap.start ≠ heap.blocks by omega) ?_ ?_ ?_ ?_
  · rw [linkFirst, Bytes.u64_setU64_of_disjoint (by omega), Bytes.u64_setU64_cell (by omega) hstart,
      if_pos rfl]
    rfl
  · change (linkFirst heap mem).u64 heap.start = heap.blocks
    rw [linkFirst, Bytes.u64_setU64_of_disjoint (by omega), Bytes.u64_setU64_of_disjoint (by omega),
      Bytes.u64_setU64_of_disjoint (by omega), Bytes.u64_setU64_cell (by omega) hblocks, if_pos rfl]
  · rw [linkFirst, Bytes.u64_setU64_cell (by omega) hstart, if_pos rfl]
    rfl
  · change (linkFirst heap mem).u64 (heap.start + 8) = heap.blocks
    rw [linkFirst, Bytes.u64_setU64_of_disjoint (by omega), Bytes.u64_setU64_of_disjoint (by omega),
      Bytes.u64_setU64_cell (by omega) hblocks, if_pos rfl]

/-- `Initialize` makes one block of the whole heap, and has counted nothing. -/
theorem heapInitialize_run (mem : Bytes) {supply : ℕ} (hsupply : initialPages ≤ supply) :
    ∃ t, (heapInitialize heap).run (heap.construct mem supply) = .ok () t ∧
      Tiled heap t.mem [heap.firstBlock] ∧ t.isInitialized = true ∧
      t.watermark = wrap64 (heap.start + initialPages * pageSize) ∧ t.bytes = 0 ∧ t.count = 0 := by
  have hstart : heap.start < 2 ^ 64 := by
    have hlt := heap.stop_lt
    have hroom := heap.room
    omega
  let s₁ := ((heap.construct mem supply).store (heap.blocks + 8) heap.blocks).store heap.blocks
    heap.blocks
  let s₂ : HeapState := { s₁ with
    supply := supply - initialPages
    watermark := wrap64 (heap.start + initialPages * pageSize) }
  have hhead : (listInitializeHead heap.blocks).run (heap.construct mem supply) = .ok () s₁ := rfl
  have hgrow : (grow initialPages).run s₁ = .ok () s₂ := grow_run hstart hsupply
  have hblink : s₂.mem.u64 (heap.blocks + 8) = heap.blocks := by
    change ((mem.setU64 (heap.blocks + 8) heap.blocks).setU64 heap.blocks heap.blocks).u64
      (heap.blocks + 8) = heap.blocks
    have hblocks := heap.blocks_lt
    rw [Bytes.u64_setU64_of_disjoint (by omega), Bytes.u64_setU64, Nat.mod_eq_of_lt (by omega)]
  let s₃ := (((s₂.store heap.start heap.blocks).store (heap.start + 8) heap.blocks).store
    heap.blocks heap.start).store (heap.blocks + 8) heap.start
  have hinsert : (listInsertTail heap.blocks heap.start).run s₂ = .ok () s₃ := by
    rw [listInsertTail, bind_of_ok (read64_run _ _), hblink]
    rfl
  obtain ⟨mem', hmake, hword, hsame⟩ := makeBlock_run s₃ heap.start
    (n := heap.stop - heap.start - headerSize) (by have := heap.size_lt; omega)
  have htiles := tiles_firstBlock heap
  have hring : LinkRing heap mem' [heap.firstBlock] :=
    LinkRing.setWord (b := heap.firstBlock) (linkRing_first heap mem) htiles (by simp) hsame
  let s₄ : HeapState := { s₃ with
    mem := mem'
    log := (heap.start + 16, 8) :: (heap.start + 16, 8) :: (heap.start + 16, 8) :: s₃.log
    isInitialized := true }
  refine ⟨s₄, ?_, ⟨hring, ?_, htiles⟩, rfl, rfl, rfl, rfl⟩
  · exact (bind_of_ok hhead).trans ((bind_of_ok hgrow).trans ((bind_of_ok hinsert).trans
      (bind_of_ok hmake)))
  · rintro b hb
    rw [List.mem_singleton.mp hb]
    exact hword

/-- `Initialize` returns only if it gets its pages. -/
theorem le_of_heapInitialize {supply : ℕ} {u : Unit}
    (hrun : (heapInitialize heap).run (heap.construct mem supply) = .ok u t) :
    initialPages ≤ supply := by
  obtain ⟨_, s₁, hhead, hrest⟩ := bind_eq_ok.mp hrun
  obtain ⟨_, s₂, hgrow, -⟩ := bind_eq_ok.mp hrest
  cases hhead
  exact le_of_grow hgrow

end Start

end Vsos.Heap
