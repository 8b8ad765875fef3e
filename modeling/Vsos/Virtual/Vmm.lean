import Vsos.Mem.Pmm
import Vsos.Virtual.PageTables
import Vsos.Virtual.Vas

/-!
# The virtual memory manager

`VMM::Allocate` reserves a range of an address space, takes one physical page for each page of
the range, and maps it through the current page table. The three parts of the memory do not
share state. The pages are filled with zeros through the new mapping; they lie outside of the
pool, so the fill shows only in the fault it takes at an address that is not canonical.
-/

namespace Vsos.Virtual

open Vsos.Lib Vsos.Mem

/-- The constants of the parts, with the address spaces numbered by `ι`. -/
structure Machine (ι : Type) where
  frames : FrameArray
  pool : Pool
  space : ι → Space

/-- The physical memory manager, the page tables and the address spaces. -/
structure VmmState (ι : Type) where
  physical : State
  tables : PtState
  spaces : ι → VasState

abbrev VmmM (ι : Type) := Prog (VmmState ι)

variable {ι α : Type}

def onPhysical (x : PmmM α) : VmmM ι α :=
  within VmmState.physical (fun physical s => { s with physical }) x

def onTables (x : PtM α) : VmmM ι α :=
  within VmmState.tables (fun tables s => { s with tables }) x

def onSpace [DecidableEq ι] (i : ι) (x : VasM α) : VmmM ι α :=
  within (fun s => s.spaces i) (fun space s => { s with spaces := Function.update s.spaces i space }) x

/-- The loop of `VMM::Allocate` over the pages from number `i` on. -/
def allocateLoop (m : Machine ι) (root addr : ℕ) (isGlobal : Bool) : ℕ → ℕ → VmmM ι Unit
  | 0, _ => return ()
  | n + 1, i => do
    match ← onPhysical (allocatePage m.frames 0) with
    | none => throw .fault
    | some pAddr => do
      let mapped ← onTables
        (mapPages m.pool root (wrap64 (addr + wrap64 (i * pageSize))) pAddr 1 isGlobal)
      ensure (mapped = true)
      allocateLoop m root addr isGlobal n (i + 1)

/-- `memset` over whole pages. -/
def memset (address length : ℕ) : VmmM ι Unit :=
  ensure (∀ i < length / pageSize, Canonical (wrap64 (address + i * pageSize)))

/-- `VMM::Allocate`; `none` for the null pointer. The current page table is opened anew. -/
def vmmAllocate [DecidableEq ι] (m : Machine ι) (address count : ℕ) (i : ι) :
    VmmM ι (Option ℕ) := do
  ensure (address ≠ 0 → address % pageSize = 0)
  match ← onSpace i (reserve (m.space i) address count) with
  | none => return none
  | some addr => do
    let root ← look fun s => s.tables.cr3
    allocateLoop m root addr (m.space i).isGlobal count 0
    memset addr (wrap64 (count * pageSize))
    return some addr

/-- A range of pages that a call returned. -/
structure Range (ι : Type) where
  space : ι
  address : ℕ
  count : ℕ
  deriving DecidableEq

/-- The addresses of the pages of a range. -/
def Range.pages (r : Range ι) : List ℕ := (List.range r.count).map (r.address + · * pageSize)

/-- The range does not leave its address space. -/
def Range.Fits (m : Machine ι) (r : Range ι) : Prop :=
  (m.space r.space).start ≤ r.address ∧
    r.address + r.count * pageSize ≤ (m.space r.space).stop

instance (m : Machine ι) (r : Range ι) : Decidable (r.Fits m) := inferInstanceAs (Decidable (_ ∧ _))

/-- The ranges that a sequence of calls without an address returns; a call names an address
space and a number of pages. -/
def vmmCalls [DecidableEq ι] (m : Machine ι) : List (ι × ℕ) → VmmM ι (List (Range ι))
  | [] => return []
  | call :: rest => do
    match ← vmmAllocate m 0 call.2 call.1 with
    | none => vmmCalls m rest
    | some address => do
      let later ← vmmCalls m rest
      return ⟨call.1, address, call.2⟩ :: later

end Vsos.Virtual
