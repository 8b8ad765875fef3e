import Vsos.Lib.Memory
import Vsos.Lib.Program

/-!
# The AHCI driver

A sector is transferred through the buffer of a port: the driver issues a command, polls the
registers of the port until the command is done, and counts the bytes. The port answers every
poll as it likes, so its registers depend on the number of polls made so far. This is about when a
transfer fails and what it returns; `Vsos.Disk.CommandTable` has the tables that describe a command
to the controller.
-/

namespace Vsos.Disk

open Vsos.Lib

/-- What a port shows to the driver, by the number of polls before. -/
structure HbaPort where
  isATAPI : Bool
  hostCapabilities : UInt32
  sataActive : ℕ → UInt32
  commandIssue : ℕ → UInt32
  taskFileData : ℕ → UInt32
  interruptStatus : ℕ → UInt32
  /-- What a finished command leaves in the buffer. -/
  transfer : Bool → ℕ → ℕ → Bytes → Bytes

/-- What changes while a port is used. -/
structure PortState where
  buffer : Bytes
  polls : ℕ

/-- `ATA_DEV_BUSY | ATA_DEV_DRQ`. -/
def ataBusy : UInt32 := 0x88

/-- `HBA_PxIS_TFES`. -/
def taskFileError : UInt32 := 0x40000000

/-- Poll a register. -/
def poll (register : ℕ → UInt32) : Prog PortState UInt32 := fun s =>
  .ok (register s.polls) { s with polls := s.polls + 1 }

/-- The loop of `FindFreeCMDSlot` over the slots from `i` on. -/
def findSlot : ℕ → ℕ → UInt32 → ℤ
  | 0, _, _ => -1
  | n + 1, i, slots => if slots &&& 1 = 0 then i else findSlot n (i + 1) (slots >>> 1)

/-- `AHCIPort::FindFreeCMDSlot`. -/
def findFreeCMDSlot (port : HbaPort) : Prog PortState ℤ := do
  let active ← poll port.sataActive
  let issued ← poll port.commandIssue
  return findSlot ((port.hostCapabilities &&& 0x0f00) >>> 8).toNat 0 (active ||| issued)

/-- The wait until the port is idle, with the polls that are left; `true` if it hangs. -/
def spin (port : HbaPort) : ℕ → Prog PortState Bool
  | 0 => do
    let _ ← poll port.taskFileData
    return true
  | n + 1 => do
    let data ← poll port.taskFileData
    if data &&& ataBusy ≠ 0 then spin port n else return false

/-- The wait until the command is done; `false` after an error. -/
def awaitCommand (port : HbaPort) (slot : ℕ) : ℕ → Prog PortState Bool
  | 0 => throw .diverged
  | fuel + 1 => do
    let issued ← poll port.commandIssue
    if issued &&& (1 <<< UInt32.ofNat slot) = 0 then return true
    else do
      let status ← poll port.interruptStatus
      if status &&& taskFileError ≠ 0 then return false else awaitCommand port slot fuel

/-- The end of `TransferData`. -/
def finishTransfer (port : HbaPort) (dirIn : Bool) (sector : ℕ) (count : UInt32) :
    Prog PortState UInt32 := do
  let status ← poll port.interruptStatus
  if status &&& taskFileError ≠ 0 then return 0
  else do
    change fun s => { s with buffer := port.transfer dirIn sector s.polls s.buffer }
    return count * if port.isATAPI then 2048 else 512

/-- `AHCIPort::TransferData`: the number of bytes, or 0 on failure. -/
def transferData (port : HbaPort) (fuel : ℕ) (dirIn : Bool) (sector : ℕ) (count : UInt32) :
    Prog PortState UInt32 := do
  let slot ← findFreeCMDSlot port
  if slot = -1 then return 0
  else do
    let hung ← spin port 1000000
    if hung then return 0
    else do
      let done ← awaitCommand port slot.toNat fuel
      if done = false then return 0 else finishTransfer port dirIn sector count

/-- A transfer returns 0 or the size of its sectors. -/
theorem transferData_result {port : HbaPort} {fuel sector : ℕ} {dirIn : Bool} {count r : UInt32}
    {s t : PortState} (hrun : (transferData port fuel dirIn sector count).run s = .ok r t) :
    r = 0 ∨ r = count * if port.isATAPI then 2048 else 512 := by
  obtain ⟨slot, s₁, -, hrun⟩ := bind_eq_ok.mp hrun
  split at hrun
  · cases hrun
    exact Or.inl rfl
  obtain ⟨hung, s₂, -, hrun⟩ := bind_eq_ok.mp hrun
  split at hrun
  · cases hrun
    exact Or.inl rfl
  obtain ⟨done, s₃, -, hrun⟩ := bind_eq_ok.mp hrun
  split at hrun
  · cases hrun
    exact Or.inl rfl
  obtain ⟨status, s₄, -, hrun⟩ := bind_eq_ok.mp hrun
  split at hrun
  · cases hrun
    exact Or.inl rfl
  cases hrun
  exact Or.inr rfl

/-- A port that is idle, with the given number of command slots, and never fails. -/
def idlePort (slots : UInt32) : HbaPort :=
  ⟨false, slots <<< 8, fun _ => 0, fun _ => 0, fun _ => 0, fun _ => 0, fun _ _ _ b => b⟩

/-- The ports of a driver, and the state of each. -/
abbrev AhciM (α : Type) := Prog (ℕ → PortState) α

/-- Use the port of a drive. -/
def onPort {α : Type} (drive : ℕ) (x : Prog PortState α) : AhciM α :=
  within (fun s => s drive) (fun t s => Function.update s drive t) x

/-- `AHCIDriver::ReadSector`: the status and the caller's buffer. Without a port the function ends
without a value. -/
def ahciReadSector (ports : ℕ → Option HbaPort) (fuel drive sector : ℕ) (buffer : Bytes) :
    AhciM (Option ℤ × Bytes) := do
  ensure (drive < 32)
  match ports drive with
  | none => return (none, buffer)
  | some port => do
    let res ← onPort drive (transferData port fuel true sector 1)
    if 0 < res then do
      let source ← look fun s => (s drive).buffer
      return (some 0, buffer.blit 0 source res.toNat)
    else return (some 1, buffer)

/-- The part of `AHCIDriver::WriteSector` on the port of the drive. The result of the transfer is
kept in eight bits. -/
def writePort (port : HbaPort) (fuel sector : ℕ) (buffer : Bytes) : Prog PortState ℤ := do
  change fun s => { s with buffer := s.buffer.blit 0 buffer 512 }
  let res ← transferData port fuel false sector 1
  return if 0 < res.toUInt8 then 0 else 1

/-- `AHCIDriver::WriteSector`. -/
def ahciWriteSector (ports : ℕ → Option HbaPort) (fuel drive sector : ℕ) (buffer : Bytes) :
    AhciM (Option ℤ) := do
  ensure (drive < 32)
  match ports drive with
  | none => return none
  | some port => do
    let status ← onPort drive (writePort port fuel sector buffer)
    return some status

end Vsos.Disk
