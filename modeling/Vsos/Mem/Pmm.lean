import Vsos.Lib.Program
import Vsos.Mem.MemoryMap

/-!
# The physical memory manager

The frames of physical memory lie in one array. Free frames hang on a circular list through
links inside the array; a bit vector says for each group of four frames whether some of them
is in use. A single page is taken from the list, a run of pages is searched in the bit
vector, and its frames are then unlinked from the list.

The manager hands out pages only after the kernel has switched to page tables that map
nothing but the kernel's own space. So a link that leads nowhere, which is what the frames
outside of all descriptors have, cannot be followed: the store faults. A failed assertion
stops the machine in the same way; the one about the index into the bit vector is told apart.
-/

namespace Vsos.Mem

open Vsos.Lib

/-- `PageState`. -/
inductive PageState where
  | Free
  | Active
  | Reserved
  deriving DecidableEq, Repr

/-- The address of a `ListEntry`: the list head inside the manager or the link of a frame. -/
inductive Link where
  | null
  | head
  | frame (index : ℕ)
  deriving DecidableEq, Repr

/-- The frame array; its frames stand for the pages of a 64-bit address space. -/
structure FrameArray where
  count : ℕ
  count_le : count * pageSize ≤ 2 ^ 64

/-- The members of `PMM` that change, with the frames it manages. -/
structure State where
  flink : Link → Link
  blink : Link → Link
  pageState : ℕ → PageState
  buddyMap : ℕ → BitVec 64
  nextBuddy : ℕ

/-- A member function of `PMM`. -/
abbrev PmmM (α : Type) := Prog State α

/-- `BuddySize`. -/
def buddySize : ℕ := 4

variable (f : FrameArray)

/-- Is there a `ListEntry` at this address? -/
def Mapped : Link → Bool
  | .null => false
  | .head => true
  | .frame index => decide (index < f.count)

/-- `entry->Flink`. -/
def readFlink (entry : Link) : PmmM Link := fun s =>
  if Mapped f entry then .ok (s.flink entry) s else .error .fault s

/-- `entry->Blink`. -/
def readBlink (entry : Link) : PmmM Link := fun s =>
  if Mapped f entry then .ok (s.blink entry) s else .error .fault s

/-- `entry->Flink = value`. -/
def writeFlink (entry value : Link) : PmmM Unit := fun s =>
  if Mapped f entry then .ok () { s with flink := Function.update s.flink entry value }
  else .error .fault s

/-- `entry->Blink = value`. -/
def writeBlink (entry value : Link) : PmmM Unit := fun s =>
  if Mapped f entry then .ok () { s with blink := Function.update s.blink entry value }
  else .error .fault s

/-- `ListInitializeHead`. -/
def listInitializeHead (listHead : Link) : PmmM Unit := do
  writeBlink f listHead listHead
  writeFlink f listHead listHead

/-- `ListIsEmpty`. -/
def listIsEmpty (listHead : Link) : PmmM Bool := do
  return (← readFlink f listHead) == listHead

/-- `ListRemoveEntry`. -/
def listRemoveEntry (entry : Link) : PmmM Unit := do
  let flink ← readFlink f entry
  let blink ← readBlink f entry
  writeFlink f blink flink
  writeBlink f flink blink

/-- `ListRemoveHead`. -/
def listRemoveHead (listHead : Link) : PmmM Link := do
  let flink ← readFlink f listHead
  listRemoveEntry f flink
  return flink

/-- `ListInsertHead`. -/
def listInsertHead (listHead entry : Link) : PmmM Unit := do
  let flink ← readFlink f listHead
  writeFlink f entry flink
  writeBlink f entry listHead
  writeBlink f flink entry
  writeFlink f listHead entry

/-- `Length` of the buddy map. -/
def buddyLength : ℕ := f.count / buddySize

/-- `Assert`. -/
def assert (condition : Bool) : PmmM Unit := if condition then pure () else throw .fault

/-- `AssertOp(index, <, Length)` in `Bitvector::Get` and `Bitvector::Set`. -/
def assertIndex (index : ℕ) : PmmM Unit :=
  if index < buddyLength f then pure () else throw .outOfRange

/-- `m_buddyMap.Get`. -/
def buddyGet (index : ℕ) : PmmM Bool := do
  assertIndex f index
  look fun s => getBit s.buddyMap index

/-- `m_buddyMap.Set`. -/
def buddySet (index : ℕ) (value : Bool) : PmmM Unit := do
  assertIndex f index
  change fun s => { s with buddyMap := setBit s.buddyMap index value }

/-- Change the state of a frame. -/
def setPageState (index : ℕ) (state : PageState) : PmmM Unit := fun s =>
  if index < f.count then .ok () { s with pageState := Function.update s.pageState index state }
  else .error .fault s

/-- `GetPageState`. -/
def getPageState (desc : Descriptor) : PageState :=
  if desc.type = .EfiConventionalMemory then .Free else .Reserved

/-- The body of the loop of `Initialize` over the pages of a descriptor. -/
def initializePage (desc : Descriptor) (absIndex : ℕ) : PmmM Unit := do
  let regionInUse := getPageState desc != .Free
  setPageState f absIndex (getPageState desc)
  let buddyInUse ← buddyGet f (absIndex / buddySize)
  buddySet f (absIndex / buddySize) (regionInUse || buddyInUse)
  if regionInUse = false then listInsertHead f .head (.frame absIndex) else return ()

/-- The loop of `Initialize` over the pages of a descriptor, from page `j` on. -/
def initializePages (desc : Descriptor) : ℕ → ℕ → PmmM Unit
  | 0, _ => return ()
  | n + 1, j => do
    initializePage f desc (desc.baseIndex + j)
    initializePages desc n (j + 1)

/-- The loop of `Initialize` over the descriptors. -/
def initializeRegions : List Descriptor → PmmM Unit
  | [] => return ()
  | desc :: rest => do
    assert (desc.physicalStart % pageSize == 0)
    initializePages f desc desc.numberOfPages 0
    initializeRegions rest

/-- A link of a zeroed frame. -/
def zeroedLink (link : Link → Link) : Link → Link
  | .frame index => if index < f.count then .null else link (.frame index)
  | l => link l

/-- All frames and the buddy map zeroed. -/
def clearFrames : PmmM Unit := change fun s =>
  { s with
    flink := zeroedLink f s.flink
    blink := zeroedLink f s.blink
    pageState := fun index => if index < f.count then .Free else s.pageState index
    buddyMap := fun _ => 0#64 }

/-- Set `m_nextBuddy`. -/
def setNextBuddy (value : ℕ) : PmmM Unit := change fun s => { s with nextBuddy := value }

/-- `PMM::Initialize`. The start of the largest region is read from an empty map as well, from
whatever lies behind it. -/
def pmmInitialize (memoryMap : List Descriptor) : PmmM Unit := do
  clearFrames f
  listInitializeHead f .head
  initializeRegions f memoryMap
  match getLargestConventionalAddress memoryMap with
  | none => throw .fault
  | some address => setNextBuddy ((address / pageSize + (buddySize - 1)) / buddySize)

/-- `address << PageShift` for a frame number. -/
def pageAddress (index : ℕ) : ℕ := wrap64 (index * pageSize)

/-- `LIST_CONTAINING_RECORD` and `GetIndex`. -/
def getIndex : Link → PmmM ℕ
  | .frame index => return index
  | _ => throw .fault

/-- The branch of `PMM::AllocatePage` for a page that the caller chose. -/
def allocateChosen (address : ℕ) : PmmM (Option ℕ) := do
  assert (address % pageSize == 0)
  let index := address / pageSize
  assert (decide (index < f.count))
  let state ← look fun s => s.pageState index
  if state ≠ PageState.Free then return none
  else do
    setPageState f index .Active
    buddySet f (address / pageSize / buddySize) true
    listRemoveEntry f (.frame index)
    return some address

/-- The branch of `PMM::AllocatePage` that takes the first free page. -/
def allocateFirst : PmmM (Option ℕ) := do
  let empty ← listIsEmpty f .head
  assert (!empty)
  let popped ← listRemoveHead f .head
  let index ← getIndex popped
  setPageState f index .Active
  buddySet f (pageAddress index / pageSize / buddySize) true
  return some (pageAddress index)

/-- `PMM::AllocatePage`; `none` when it returns false, and the address otherwise. -/
def allocatePage (address : ℕ) : PmmM (Option ℕ) :=
  if address ≠ 0 then allocateChosen f address else allocateFirst f

/-- The loop of `AllocateContiguous` that looks at the buddies of a group, from number `i` on. -/
def groupInUse (nextBuddy : ℕ) : ℕ → ℕ → PmmM Bool
  | 0, _ => return false
  | n + 1, i => do
    let inUse ← buddyGet f (nextBuddy + i)
    if inUse then return true else groupInUse nextBuddy n (i + 1)

/-- The loop of `AllocateContiguous` that takes frames off the free list, from number `i` on. -/
def removeFrames (index : ℕ) : ℕ → ℕ → PmmM Unit
  | 0, _ => return ()
  | n + 1, i => do
    listRemoveEntry f (.frame (index + i))
    removeFrames index n (i + 1)

/-- The loop of `AllocateContiguous` that marks the buddies, from number `i` on. It marks them
as free. -/
def markBuddies (nextBuddy : ℕ) : ℕ → ℕ → PmmM Unit
  | 0, _ => return ()
  | n + 1, i => do
    buddySet f (nextBuddy + i) false
    markBuddies nextBuddy n (i + 1)

/-- `DivRoundUp`, with a 64-bit sum. -/
def divRoundUp (x y : ℕ) : ℕ := wrap64 (x + y - 1) / y

/-- `length - buddyCount`, a 64-bit difference. -/
def searchEnd (buddyCount : ℕ) : ℕ := wrap64 (buddyLength f + (2 ^ 64 - buddyCount))

/-- The search loop of `AllocateContiguous`, within a budget of rounds. -/
def contiguousLoop (pageCount buddyCount : ℕ) : ℕ → PmmM (Option ℕ)
  | 0 => throw .diverged
  | fuel + 1 => do
    let nextBuddy ← look State.nextBuddy
    if nextBuddy < searchEnd f buddyCount then do
      let inUse ← groupInUse f nextBuddy buddyCount 0
      if inUse then do
        setNextBuddy (nextBuddy + 1)
        contiguousLoop pageCount buddyCount fuel
      else do
        let index := nextBuddy * buddySize
        removeFrames f index pageCount 0
        markBuddies f nextBuddy buddyCount 0
        setNextBuddy (nextBuddy + buddyCount)
        return some (pageAddress index)
    else return none

/-- `PMM::AllocateContiguous`; `none` when it returns false, and the address otherwise. The
search ends after one round for each buddy at the latest. -/
def allocateContiguous (pageCount : ℕ) : PmmM (Option ℕ) :=
  contiguousLoop f pageCount (divRoundUp pageCount buddySize) (buddyLength f + 2)

end Vsos.Mem
