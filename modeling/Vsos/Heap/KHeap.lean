import Vsos.Lib.Program
import Vsos.Mem.MemoryMap

/-!
# The kernel heap

The blocks of the heap lie in one stretch of memory. A block is a header of 24 bytes, two links
and a word with three bit fields, and the data behind it. The links form a circular list from a
head inside the `KHeap` object over the blocks in the order of their addresses. Nothing but the
bytes of memory says where the blocks are, and the data is filled with patterns in between.

All stores are noted. The pages that `Grow` maps come from the physical memory manager and the
pool of page tables; how many those can still supply is a number here.
-/

namespace Vsos.Heap

open Vsos.Lib Vsos.Mem

/-- `sizeof(HeapBlock)`. -/
def headerSize : ℕ := 24

/-- `KHeap::Magic`. -/
def magic : ℕ := 0xBEEF

/-- `HeapAlign`. -/
def heapAlign : ℕ := 32

/-- `InitialPages`. -/
def initialPages : ℕ := 2 ^ 12

/-- The constants of a `KHeap`: `m_start`, `m_end` and the address of `m_blocks`, which lies
outside of the heap. The first block is not too small, and its size fits into its field. -/
structure KHeap where
  start : ℕ
  stop : ℕ
  blocks : ℕ
  room : start + headerSize + heapAlign ≤ stop
  size_lt : stop - start < 2 ^ 47
  stop_lt : stop < 2 ^ 64
  blocks_lt : blocks + 16 < 2 ^ 64
  apart : blocks + 16 ≤ start ∨ stop ≤ blocks

/-- Memory, `m_watermark`, the pages that `Grow` can still get, `m_isInitialized`, the statistics
`m_bytes` and `m_count`, and the stores so far as addresses with lengths, the last one first. -/
structure HeapState where
  mem : Bytes
  watermark : ℕ
  supply : ℕ
  isInitialized : Bool
  bytes : ℕ
  count : ℕ
  log : List (ℕ × ℕ)

abbrev HeapM := Prog HeapState

/-- Load a 64-bit word. -/
def read64 (address : ℕ) : HeapM ℕ := look fun s => s.mem.u64 address

/-- The state after a store of a 64-bit word. -/
def HeapState.store (s : HeapState) (address value : ℕ) : HeapState :=
  { s with mem := s.mem.setU64 address value, log := (address, 8) :: s.log }

/-- Store a 64-bit word. -/
def write64 (address value : ℕ) : HeapM Unit := change fun s => s.store address value

/-- The state after a range was filled with a byte. -/
def HeapState.fill (s : HeapState) (address : ℕ) (value : UInt8) (count : ℕ) : HeapState :=
  { s with mem := s.mem.blit address (fun _ => value) count, log := (address, count) :: s.log }

/-- `memset`. -/
def memset (address : ℕ) (value : UInt8) (count : ℕ) : HeapM Unit :=
  change fun s => s.fill address value count

/-- The state after the statistics have counted an allocation. -/
def HeapState.countAllocation (s : HeapState) (allocationSize : ℕ) : HeapState :=
  { s with bytes := wrap64 (s.bytes + allocationSize), count := wrap64 (s.count + 1) }

/-- The state after the statistics have counted a release. -/
def HeapState.countRelease (s : HeapState) (size : ℕ) : HeapState :=
  { s with bytes := wrap64 (s.bytes + (2 ^ 64 - size)), count := wrap64 (s.count + (2 ^ 64 - 1)) }

/-- `ListInitializeHead`. -/
def listInitializeHead (listHead : ℕ) : HeapM Unit := do
  write64 (listHead + 8) listHead
  write64 listHead listHead

/-- `ListInsertHead`. -/
def listInsertHead (listHead entry : ℕ) : HeapM Unit := do
  let flink ← read64 listHead
  write64 entry flink
  write64 (entry + 8) listHead
  write64 (flink + 8) entry
  write64 listHead entry

/-- `ListInsertTail`. -/
def listInsertTail (listHead entry : ℕ) : HeapM Unit := do
  let blink ← read64 (listHead + 8)
  write64 entry listHead
  write64 (entry + 8) blink
  write64 blink entry
  write64 (listHead + 8) entry

/-- The field `Free` of the third word of a header. -/
def freeField (word : ℕ) : Bool := word % 2 == 1

/-- The field `Size`. -/
def sizeField (word : ℕ) : ℕ := word / 2 % 2 ^ 47

/-- The field `Magic`. -/
def magicField (word : ℕ) : ℕ := word / 2 ^ 48

/-- `block->Free = value`. -/
def setFree (block : ℕ) (value : Bool) : HeapM Unit := do
  let word ← read64 (block + 16)
  write64 (block + 16) (word / 2 * 2 + value.toNat)

/-- `block->Size = value`. -/
def setSize (block value : ℕ) : HeapM Unit := do
  let word ← read64 (block + 16)
  write64 (block + 16) (word % 2 + 2 * (value % 2 ^ 47) + word / 2 ^ 48 * 2 ^ 48)

/-- `block->Magic = value`. -/
def setMagic (block value : ℕ) : HeapM Unit := do
  let word ← read64 (block + 16)
  write64 (block + 16) (word % 2 ^ 48 + 2 ^ 48 * value)

/-- The assignments to `Free`, `Size` and `Magic` that make a free block. -/
def makeBlock (block size : ℕ) : HeapM Unit := do
  setFree block true
  setSize block size
  setMagic block magic

/-- `KHeap::Grow`. -/
def grow : ℕ → HeapM Unit
  | 0 => return ()
  | pages + 1 => do
    ensure (0 < (← look HeapState.supply))
    change fun s => { s with supply := s.supply - 1, watermark := wrap64 (s.watermark + pageSize) }
    grow pages

variable (heap : KHeap)

/-- The constructor, on memory that holds anything. -/
def KHeap.construct (mem : Bytes) (supply : ℕ) : HeapState :=
  ⟨mem, heap.start, supply, false, 0, 0, []⟩

/-- `KHeap::Initialize`. -/
def heapInitialize : HeapM Unit := do
  listInitializeHead heap.blocks
  grow initialPages
  listInsertTail heap.blocks heap.start
  makeBlock heap.start (heap.stop - heap.start - headerSize)
  change fun s => { s with isInitialized := true }

/-- More rounds than there is room for headers. -/
def rounds : ℕ := (heap.stop - heap.start) / headerSize + 1

/-- The search loop of `Allocate`, from the block at `entry` on. -/
def searchLoop (allocationSize : ℕ) : ℕ → ℕ → HeapM ℕ
  | 0, _ => throw .diverged
  | fuel + 1, entry => do
    let word ← read64 (entry + 16)
    if freeField word = false ∨ sizeField word < allocationSize then do
      ensure (magicField word = magic)
      let next ← read64 entry
      if next = heap.blocks then return next else searchLoop allocationSize fuel next
    else return entry

/-- The loop of `CheckHeap`, from the block at `current` on. -/
def checkLoop : ℕ → ℕ → ℕ → HeapM Bool
  | 0, _, _ => throw .diverged
  | fuel + 1, current, lastAddr =>
    if current = heap.blocks then return true
    else if current + headerSize < lastAddr then return false
    else do
      let next ← read64 current
      checkLoop fuel next (current + headerSize)

/-- `KHeap::CheckHeap`. -/
def checkHeap : HeapM Bool := do
  let current ← read64 heap.blocks
  checkLoop heap (rounds heap + 1) current 0

/-- The first part of `Allocate`: the first free block that is large enough. -/
def findBlock (allocationSize : ℕ) : HeapM ℕ := do
  let first ← read64 heap.blocks
  let block ← searchLoop heap allocationSize (rounds heap) first
  ensure (block ≠ heap.blocks)
  return block

/-- The part of `Allocate` that inserts a new block behind the current one. -/
def splitBlock (block address size allocationSize : ℕ) : HeapM Unit := do
  let newBlock := wrap64 (address + allocationSize)
  listInsertHead block newBlock
  makeBlock newBlock (size - allocationSize - headerSize)
  setSize block allocationSize

/-- `KHeap::Allocate`. The block that was found is large enough, so the differences of sizes are
never negative. -/
def allocate (size : ℕ) : HeapM ℕ := do
  let allocationSize := byteAlign size heapAlign
  let block ← findBlock heap allocationSize
  setFree block false
  change fun s => s.countAllocation allocationSize
  let address := wrap64 (block + headerSize)
  let blockSize := sizeField (← read64 (block + 16))
  if blockSize - allocationSize < heapAlign + headerSize then do
    ensure ((← checkHeap heap) = true)
    memset address 0xCC (sizeField (← read64 (block + 16)))
    return address
  else do
    splitBlock block address blockSize allocationSize
    ensure ((← checkHeap heap) = true)
    memset address 0xCC (sizeField (← read64 (block + 16)))
    return address

/-- `KHeap::Deallocate`. The fill takes the lowest byte of its pattern. -/
def deallocate (address : ℕ) : HeapM Unit := do
  ensure (address ≥ heap.start + headerSize)
  ensure (address < heap.stop)
  let block := address - headerSize
  let word ← read64 (block + 16)
  ensure (magicField word = magic)
  ensure (freeField word = false)
  ensure (block + headerSize = address)
  setFree block true
  let size := sizeField (← read64 (block + 16))
  change fun s => s.countRelease size
  memset address 0xEF (sizeField (← read64 (block + 16)))
  ensure ((← checkHeap heap) = true)

end Vsos.Heap
