import Vsos.Lib.Bits
import Vsos.Lib.Program
import Vsos.Mem.MemoryMap

/-!
# Page tables and the pool of their pages

The tables are pages of a pool that is contiguous in physical and in virtual memory; the first
page of the pool says which pages are taken. Table entries are 64-bit words. A walk takes nine
bits of the virtual address for each of its four levels.
-/

namespace Vsos.Virtual

open Vsos.Lib Vsos.Mem

/-- The constants of a `PageTablesPool`. `Initialize` asserts the bound on the number of pages,
so that the index fits into the first one. -/
structure Pool where
  virtualBase : ℕ
  physicalBase : ℕ
  count : ℕ
  aligned : physicalBase % pageSize = 0
  count_lt : count < pageSize
  virtual_le : virtualBase + count * pageSize ≤ 2 ^ 64
  physical_le : physicalBase + count * pageSize ≤ 2 ^ 64

/-- The memory that page tables live in: the index of the pool, the words at virtual addresses,
and the root of the current table. -/
structure PtState where
  index : ℕ → Bool
  mem : ℕ → BitVec 64
  cr3 : ℕ

abbrev PtM := Prog PtState

variable (pool : Pool)

/-- The loop of `PageTablesPool::AllocatePage` over the pages from number `i` on. -/
def poolLoop : ℕ → ℕ → PtM (Option ℕ)
  | 0, _ => return none
  | n + 1, i => do
    if ← look fun s => s.index i then poolLoop n (i + 1)
    else do
      change fun s => { s with index := Function.update s.index i true }
      return some (wrap64 (pool.physicalBase + i * pageSize))

/-- `PageTablesPool::AllocatePage`; `none` when it returns false, and the address otherwise. -/
def poolAllocatePage : PtM (Option ℕ) := poolLoop pool (pool.count - 1) 1

/-- `PageTablesPool::GetVirtualAddress`; pages in front of the pool are identity-mapped. -/
def getVirtualAddress (address : ℕ) : ℕ :=
  if address < pool.physicalBase then address
  else wrap64 ((address - pool.physicalBase) + pool.virtualBase)

/-- The address of an entry of the table at a physical address. -/
def slot (table : ℕ) (index : Fin 512) : ℕ := wrap64 (getVirtualAddress pool table + 8 * index)

def readEntry (address : ℕ) : PtM (BitVec 64) := look fun s => s.mem address

def writeEntry (address : ℕ) (value : BitVec 64) : PtM Unit :=
  change fun s => { s with mem := Function.update s.mem address value }

/-- The address lies in the lower or in the upper canonical half. -/
def Canonical (address : ℕ) : Prop :=
  address < 2 ^ 47 ∨ (2 ^ 64 - 2 ^ 47 ≤ address ∧ address < 2 ^ 64)

instance (address : ℕ) : Decidable (Canonical address) := inferInstanceAs (Decidable (_ ∨ _))

/-- Nine bits of a virtual address from bit number `shift` on. -/
def indexAt (shift address : ℕ) : Fin 512 := ⟨address / 2 ^ shift % 512, Nat.mod_lt _ (by decide)⟩

/-- `VirtualAddress::index4`. -/
def index4 : ℕ → Fin 512 := indexAt 39

/-- `VirtualAddress::index3`. -/
def index3 : ℕ → Fin 512 := indexAt 30

/-- `VirtualAddress::index2`. -/
def index2 : ℕ → Fin 512 := indexAt 21

/-- `VirtualAddress::index1`. -/
def index1 : ℕ → Fin 512 := indexAt 12

/-- The assignments that a new entry of any level starts with: the address, `Present`,
`ReadWrite` and `UserSupervisor`. -/
def commonEntry (address : ℕ) (global : Bool) : BitVec 64 :=
  putBit (putBit (putBit (BitVec.ofNat 64 address) 0 true) 1 true) 2 (!global)

/-- A new `PML4E` or `PDPTE_DIR`, with `Accessed` set. -/
def accessedEntry (allocated : ℕ) (global : Bool) : BitVec 64 :=
  putBit (commonEntry allocated global) 5 true

/-- A new `PDE_DIR`. -/
def directoryEntry (allocated : ℕ) (global : Bool) : BitVec 64 := commonEntry allocated global

/-- A new `PTE`, with `Global` assigned. -/
def pageEntry (physicalAddress : ℕ) (global : Bool) : BitVec 64 :=
  putBit (commonEntry physicalAddress global) 8 global

/-- One level of `MapPage`: the entry at an address, which is made to lead to a new page of the
pool if it is zero. -/
def openEntry (address : ℕ) (entry : ℕ → BitVec 64) : PtM (BitVec 64) := do
  let value ← readEntry address
  if value = 0#64 then
    match ← poolAllocatePage pool with
    | none => throw .fault
    | some allocated => do
      writeEntry address (entry allocated)
      readEntry address
  else return value

/-- `PageTables::MapPage`. -/
def mapPage (root virtualAddress physicalAddress : ℕ) (global : Bool) : PtM Bool := do
  ensure (root ≠ 0)
  let level4 ← openEntry pool (slot pool root (index4 virtualAddress)) (accessedEntry · global)
  let level3 ← openEntry pool (slot pool (frame level4) (index3 virtualAddress))
    (accessedEntry · global)
  let level2 ← openEntry pool (slot pool (frame level3) (index2 virtualAddress))
    (directoryEntry · global)
  writeEntry (slot pool (frame level2) (index1 virtualAddress)) (pageEntry physicalAddress global)
  return true

/-- The loop of `MapPages` over the pages from number `i` on. -/
def mapLoop (root virtualBase physicalBase : ℕ) (global : Bool) : ℕ → ℕ → PtM Bool
  | 0, _ => return true
  | n + 1, i => do
    if ← mapPage pool root (wrap64 (virtualBase + i * pageSize))
        (wrap64 (physicalBase + i * pageSize)) global then
      mapLoop root virtualBase physicalBase global n (i + 1)
    else return false

/-- `PageTables::MapPages`. -/
def mapPages (root virtualBase physicalBase count : ℕ) (global : Bool) : PtM Bool := do
  ensure (root ≠ 0)
  mapLoop pool root virtualBase physicalBase global count 0

/-- The entries of the four levels on the walk of an address, the highest first. -/
def walk (root address : ℕ) (s : PtState) : List (BitVec 64) :=
  let level4 := s.mem (slot pool root (index4 address))
  let level3 := s.mem (slot pool (frame level4) (index3 address))
  let level2 := s.mem (slot pool (frame level3) (index2 address))
  let level1 := s.mem (slot pool (frame level2) (index1 address))
  [level4, level3, level2, level1]

/-- `PageTables::ResolveAddress`. -/
def resolveAddress (root virtualAddress : ℕ) (s : PtState) : ℕ :=
  let level4 := s.mem (slot pool root (index4 virtualAddress))
  let level3 := s.mem (slot pool (frame level4) (index3 virtualAddress))
  let level2 := s.mem (slot pool (frame level3) (index2 virtualAddress))
  if level2.getLsbD 7 = true then
    level2.toNat / 2 ^ 21 * 2 ^ 21 + virtualAddress % 2 ^ 21
  else
    let level1 := s.mem (slot pool (frame level2) (index1 virtualAddress))
    wrap64 (frame level1 + virtualAddress % 2 ^ 12)

/-- `PageTables::CreateNew`; the new root. -/
def createNew : PtM ℕ := do
  match ← poolAllocatePage pool with
  | none => throw .fault
  | some root => return root

/-- `PageTables::LoadKernelMappings`: the upper half of the current root is copied. -/
def loadKernelMappings (root : ℕ) : PtM Unit := do
  let current ← look PtState.cr3
  let target := getVirtualAddress pool root + 256 * 8
  let source := getVirtualAddress pool current + 256 * 8
  change fun s => { s with
    mem := fun a => if target ≤ a ∧ a < target + pageSize / 2 then s.mem (source + (a - target))
      else s.mem a }

end Vsos.Virtual
