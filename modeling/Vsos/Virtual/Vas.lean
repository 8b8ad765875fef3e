import Vsos.Lib.Program
import Vsos.Mem.MemoryMap

/-!
# The virtual address spaces

A `VirtualAddressSpace` keeps a list of reservations and a watermark for requests that leave
the address to it. Whether a range is free is decided from its first address and from the
address behind it alone. All addresses are 64-bit sums.
-/

namespace Vsos.Virtual

open Vsos.Lib Vsos.Mem

/-- The constants of a `VirtualAddressSpace`. -/
structure Space where
  start : ℕ
  stop : ℕ
  isGlobal : Bool
  start_lt : start < 2 ^ 64
  stop_lt : stop < 2 ^ 64

/-- `VirtualAddressSpace::Reservation`. -/
structure Reservation where
  address : ℕ
  pageCount : ℕ
  deriving DecidableEq, Repr

/-- The address behind a range of pages, a 64-bit sum. -/
def highAddress (address count : ℕ) : ℕ := wrap64 (address + wrap64 (count * pageSize))

/-- The address behind a reservation. -/
def Reservation.stop (res : Reservation) : ℕ := highAddress res.address res.pageCount

/-- The members of a `VirtualAddressSpace` that change. -/
structure VasState where
  reservations : List Reservation
  watermark : ℕ
  initialized : Bool

abbrev VasM := Prog VasState

/-- `AllocationGranularity`. -/
def allocationGranularity : ℕ := pageSize * 4

/-- The constructor; user allocations have a base of their own. -/
def Space.construct (v : Space) : VasState where
  reservations := []
  watermark := if v.start = 0 then 0x140000000 else v.start
  initialized := false

/-- `VirtualAddressSpace::Initialize`. -/
def vasInitialize : VasM Unit := do
  ensure (¬ (← look VasState.initialized) = true)
  change fun s => { s with reservations := [], initialized := true }

/-- The loop of `IsFree` over the reservations. -/
def freeLoop (address high : ℕ) : List Reservation → Bool
  | [] => true
  | res :: rest =>
    if address ≥ res.address ∧ address < res.stop then false
    else if high ≥ res.address ∧ high < res.stop then false
    else freeLoop address high rest

/-- `VirtualAddressSpace::IsFree`. -/
def isFree (v : Space) (address count : ℕ) : VasM Bool := do
  ensure ((← look VasState.initialized) = true)
  ensure (address % pageSize = 0)
  if address < v.start ∨ address ≥ v.stop then return false
  else look fun s => freeLoop address (highAddress address count) s.reservations

def setWatermark (watermark : ℕ) : VasM Unit := change fun s => { s with watermark }

/-- Storing the watermark. -/
@[simp] theorem setWatermark_run (watermark : ℕ) (s : VasState) :
    (setWatermark watermark).run s = .ok () { s with watermark } := rfl

/-- The search loop of `Reserve`, within a budget of rounds. -/
def reserveLoop (v : Space) (count : ℕ) : ℕ → VasM Unit
  | 0 => throw .diverged
  | fuel + 1 => do
    let watermark ← look VasState.watermark
    if ← isFree v watermark count then return ()
    else do
      ensure (watermark < v.stop)
      setWatermark (wrap64 (watermark + allocationGranularity))
      reserveLoop v count fuel

/-- `ListInsertTail` of a new reservation. -/
def insertReservation (address count : ℕ) : VasM Unit :=
  change fun s => { s with reservations := s.reservations ++ [⟨address, count⟩] }

/-- `VirtualAddressSpace::Reserve`; `none` when it returns false, and the address otherwise. The
watermark comes back to where it was after `2 ^ 50` rounds. -/
def reserve (v : Space) (address count : ℕ) : VasM (Option ℕ) := do
  ensure ((← look VasState.initialized) = true)
  ensure (count ≠ 0)
  if address ≠ 0 then do
    if ← isFree v address count then do
      insertReservation address count
      return some address
    else return none
  else do
    reserveLoop v count (2 ^ 50)
    let address ← look VasState.watermark
    setWatermark (wrap64 (address + byteAlign (wrap64 (count * pageSize)) allocationGranularity))
    insertReservation address count
    return some address

/-- `VirtualAddressSpace::IsValidPointer`. -/
def isValidPointer (v : Space) (p : ℕ) : VasM Bool := do
  let page := p / pageSize * pageSize
  return !(← isFree v page 1)

end Vsos.Virtual
