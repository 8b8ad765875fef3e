import Vsos.Disk.Ahci
import Vsos.Fat.Effects
import Vsos.Fat.WriteBounds

/-!
# The status of a write

A transfer returns the number of its bytes, 512 or 2048, or 0. `ReadSector` keeps it in 32 bits and
tells success from failure. `WriteSector` keeps it in 8 bits, in which all three numbers are 0, and
reports a failure whatever happened. The file system gives up at the first status that is not 0, so
no file can be written on such a disk.
-/

namespace Vsos.Disk

open Vsos.Lib Vsos.Fat

variable {port : HbaPort} {ports : ℕ → Option HbaPort} {drive sector : ℕ} {buffer : Bytes}
  {r : UInt32} {u : PortState}

/-- The status of `WriteSector` is 0 just when the transfer returned bytes. -/
def WritesTruthfully (ports : ℕ → Option HbaPort) (drive sector : ℕ) (buffer : Bytes)
    (s : ℕ → PortState) (r : UInt32) : Prop :=
  ∃ status t, Returns (fun n => ahciWriteSector ports n drive sector buffer) s (some status) t ∧
    (status = 0 ↔ 0 < r)

/-- The same for `ReadSector`. -/
def ReadsTruthfully (ports : ℕ → Option HbaPort) (drive sector : ℕ) (buffer : Bytes)
    (s : ℕ → PortState) (r : UInt32) : Prop :=
  ∃ status out t,
    Returns (fun n => ahciReadSector ports n drive sector buffer) s (some status, out) t ∧
      (status = 0 ↔ 0 < r)

/-- The state of a port with a sector in its buffer. -/
def PortState.staged (s : PortState) (buffer : Bytes) : PortState :=
  { s with buffer := s.buffer.blit 0 buffer 512 }

section Status

/-- A transfer of one sector returns 0 or the size of the sector. -/
theorem transferData_one {fuel : ℕ} {dirIn : Bool} {s t : PortState}
    (hrun : (transferData port fuel dirIn sector 1).run s = .ok r t) :
    r = 0 ∨ r = 512 ∨ r = 2048 := by
  rcases transferData_result hrun with hr | hr
  · exact Or.inl hr
  · cases hatapi : port.isATAPI <;> rw [hatapi] at hr
    · exact Or.inr (Or.inl hr)
    · exact Or.inr (Or.inr hr)

/-- None of these numbers has bits among the lowest eight. -/
theorem toUInt8_of_result (h : r = 0 ∨ r = 512 ∨ r = 2048) : ¬ 0 < r.toUInt8 := by
  obtain rfl | rfl | rfl := h <;> decide

/-- A call of a port changes that port. -/
theorem onPort_returns {α : Type} {x : ℕ → Prog PortState α} {s : ℕ → PortState} {a : α} {t : PortState}
    (h : Returns x (s drive) a t) :
    Returns (fun n => onPort drive (x n)) s a (Function.update s drive t) := by
  obtain ⟨n, hn⟩ := h
  exact ⟨n, fun m hm => within_eq_ok.mpr ⟨t, hn m hm, rfl⟩⟩

section

variable (hdrive : drive < 32) (hport : ports drive = some port)
include hdrive hport

/-- `ReadSector` tells a transfer with bytes from one without. -/
theorem readsTruthfully {s : ℕ → PortState}
    (htransfer : Returns (fun n => transferData port n true sector 1) (s drive) r u) :
    ReadsTruthfully ports drive sector buffer s r := by
  obtain ⟨n, hn⟩ := onPort_returns htransfer
  have hrun (m : ℕ) (hm : n ≤ m) : (ahciReadSector ports m drive sector buffer).run s =
      (if 0 < r then do
        let source ← look fun s : ℕ → PortState => (s drive).buffer
        return (some 0, buffer.blit 0 source r.toNat)
      else return (some 1, buffer) : AhciM (Option ℤ × Bytes)).run (Function.update s drive u) := by
    rw [ahciReadSector, bind_ensure hdrive, hport]
    exact bind_of_ok (hn m hm)
  by_cases hr : 0 < r
  · refine ⟨0, buffer.blit 0 (Function.update s drive u drive).buffer r.toNat, Function.update s drive u,
      ⟨n, fun m hm => (hrun m hm).trans ?_⟩, iff_of_true rfl hr⟩
    rw [if_pos hr]
    rfl
  · refine ⟨1, buffer, Function.update s drive u, ⟨n, fun m hm => (hrun m hm).trans ?_⟩,
      iff_of_false (by decide) hr⟩
    rw [if_neg hr]
    rfl

/-- `WriteSector` reports a failure after every transfer. -/
theorem ahciWriteSector_returns {s : ℕ → PortState}
    (htransfer : Returns (fun n => transferData port n false sector 1) ((s drive).staged buffer) r u) :
    Returns (fun n => ahciWriteSector ports n drive sector buffer) s (some 1)
      (Function.update s drive u) := by
  obtain ⟨n, hn⟩ := htransfer
  have hstatus : ¬ 0 < r.toUInt8 := toUInt8_of_result (transferData_one (hn n (le_refl n)))
  have hwrite : Returns (fun m => writePort port m sector buffer) (s drive) 1 u := by
    refine ⟨n, fun m hm => (bind_change).trans ((bind_of_ok (hn m hm)).trans ?_)⟩
    rw [if_neg hstatus]
    rfl
  obtain ⟨n', hn'⟩ := onPort_returns hwrite
  refine ⟨n', fun m hm => (bind_ensure hdrive).trans ?_⟩
  rw [hport]
  exact bind_of_ok (hn' m hm)

/-- The status is true just when the transfer has failed. -/
theorem writesTruthfully_iff {s : ℕ → PortState}
    (htransfer : Returns (fun n => transferData port n false sector 1) ((s drive).staged buffer) r u) :
    WritesTruthfully ports drive sector buffer s r ↔ r = 0 := by
  have hreturns := ahciWriteSector_returns hdrive hport htransfer
  constructor
  · rintro ⟨status, t, hreturns', hstatus⟩
    cases (hreturns.unique hreturns').1
    by_contra hne
    exact absurd (hstatus.mpr (UInt32.pos_iff_ne_zero.mpr hne)) (by decide)
  · rintro rfl
    exact ⟨1, _, hreturns, iff_of_false (by decide) (by decide)⟩

end

end Status

section Files

variable {v : Volume} {s : State} {path : List UInt8}

/-- The volume lies on the disk of a port: its accesses have the status that the driver returns, in
some state of the port for each of them. -/
structure ServedBy (v : Volume) (ports : ℕ → Option HbaPort) (drive : ℕ) : Prop where
  read : ∀ history address, ∃ buffer u out t,
    Returns (fun n => ahciReadSector ports n drive address buffer) u
      (some (v.readStatus history address), out) t
  write : ∀ history address, ∃ buffer u t,
    Returns (fun n => ahciWriteSector ports n drive address buffer) u
      (some (v.writeStatus history address)) t

/-- Every transfer of the port succeeds. -/
def AlwaysTransfers (port : HbaPort) : Prop :=
  ∀ dirIn sector s, ∃ r t, Returns (fun n => transferData port n dirIn sector 1) s r t ∧ 0 < r

/-- The path leads to an entry that is not a directory. -/
def IsFile (v : Volume) (s : State) (path : List UInt8) : Prop :=
  ∃ entry t, Returns (fun n => getEntryByPath v n path) s (some entry) t ∧
    isDirectory entry.entry = false

section

variable (h : ServedBy v ports drive) (hdrive : drive < 32) (hport : ports drive = some port)
  (htransfers : AlwaysTransfers port) (history : List Event) (address : ℕ)
include h hdrive hport htransfers history address

/-- A read through the driver answers 0. -/
theorem ServedBy.readStatus_eq : v.readStatus history address = 0 := by
  obtain ⟨buffer, u, out, t, hreturns⟩ := h.read history address
  obtain ⟨r, w, htransfer, hr⟩ := htransfers true address (u drive)
  obtain ⟨status, out', t', hreturns', hstatus⟩ : ReadsTruthfully ports drive address buffer u r :=
    readsTruthfully hdrive hport htransfer
  cases (hreturns.unique hreturns').1
  exact hstatus.mpr hr

/-- A write through the driver answers 1. -/
theorem ServedBy.writeStatus_eq : v.writeStatus history address = 1 := by
  obtain ⟨buffer, u, t, hreturns⟩ := h.write history address
  obtain ⟨r, w, htransfer, -⟩ := htransfers false address ((u drive).staged buffer)
  have hreturns' := ahciWriteSector_returns hdrive hport htransfer
  exact Option.some.inj (hreturns.unique hreturns').1

end

/-- The status of a sector of file data is that of a write. -/
theorem writeDataSector_status (v : Volume) (buffer : Bytes) (address index bytesLeft : ℕ) (s : State) :
    ∃ history t, (writeDataSector v buffer address index bytesLeft).run s =
      .ok (v.writeStatus history address) t := by
  rw [writeDataSector]
  split
  · exact ⟨_, _, rfl⟩
  · exact ⟨_, _, rfl⟩

/-- An entry is not modified if writes fail. -/
theorem modifyEntry_of_failing (hwrite : ∀ h a, v.writeStatus h a ≠ 0) (entry : FATEntryInfo)
    (new : Bytes) (s : State) : ∃ t, (modifyEntry v entry new).run s = .ok false t := by
  obtain ⟨status, s₁, hread⟩ : ∃ status s₁, (readSector v (lba v entry.sector 0)).run s = .ok status s₁ :=
    ⟨_, _, rfl⟩
  rw [modifyEntry, bind_of_ok hread]
  split
  · exact ⟨s₁, rfl⟩
  · rw [bind_of_ok (getReadBuffer_run s₁)]
    split
    · exact ⟨s₁, rfl⟩
    · let s₂ : State := { s₁ with readBuffer := s₁.readBuffer.blit entry.offsetInSector new 32 }
      obtain ⟨t, hrun⟩ : ∃ t, (writeReadBuffer v (lba v entry.sector 0)).run s₂ =
          .ok (v.writeStatus s₂.trace (lba v entry.sector 0)) t := ⟨_, rfl⟩
      refine ⟨t, (bind_of_ok (modifyReadBuffer_run _ s₁)).trans ((bind_of_ok hrun).trans ?_)⟩
      rw [decide_eq_false (hwrite _ _)]
      rfl

/-- `WriteFile` gives up at its first write: that of the first sector, or that of the entry if there
is nothing to write. -/
theorem writeEntry_of_failing (hwrite : ∀ h a, v.writeStatus h a ≠ 0) (entry : FATEntryInfo)
    (buffer : Bytes) (len : ℕ) (s : State) : ∃ t, (writeEntry v entry buffer len).run s = .ok (-1) t := by
  rw [writeEntry]
  cases hclusters : reqClusters v len with
  | zero =>
    obtain ⟨date, hdate⟩ : ∃ date, (fatDate v).run s = .ok date s := ⟨_, rfl⟩
    obtain ⟨time, htime⟩ : ∃ time, (fatTime v).run s = .ok time s := ⟨_, rfl⟩
    obtain ⟨t, hmodify⟩ := modifyEntry_of_failing hwrite entry (rewritten entry.entry len date time) s
    have hupdate : (updateEntry v entry len).run s = .ok (-1) t := by
      rw [updateEntry, bind_of_ok hdate, bind_of_ok htime, bind_of_ok hmodify]
      rfl
    have hnone : (writeClusters v buffer len 0 0 (getCluster entry.entry) 0).run s = .ok true s := rfl
    exact ⟨t, (bind_of_ok hnone).trans hupdate⟩
  | succ n =>
    obtain ⟨m, hsectors⟩ := Nat.exists_eq_succ_of_ne_zero v.sectorsPerCluster_pos.ne'
    obtain ⟨history, t, hsector⟩ := writeDataSector_status v buffer
      (lba v (clusterToSector v (getCluster entry.entry)) 0) (wrap32 (0 * v.clusterSize) + 0 * v.bytesPerSector)
      (sub32 len 0) s
    have hwriteSectors : (writeSectors v buffer len (clusterToSector v (getCluster entry.entry))
        (wrap32 (0 * v.clusterSize)) v.sectorsPerCluster 0 0).run s = .ok none t := by
      rw [hsectors, writeSectors, bind_of_ok hsector, if_pos (hwrite _ _)]
      rfl
    have hwriteClusters : (writeClusters v buffer len (n + 1) 0 (getCluster entry.entry) 0).run s =
        .ok false t := by
      rw [writeClusters, bind_of_ok hwriteSectors]
      rfl
    exact ⟨t, (bind_of_ok hwriteClusters).trans rfl⟩

/-- No existing file can be written on the disk of a port whose transfers all succeed. -/
theorem writeFile_fails (hserved : ServedBy v ports drive) (hdrive : drive < 32)
    (hport : ports drive = some port) (htransfers : AlwaysTransfers port) (hfile : IsFile v s path)
    (buffer : Bytes) (len : ℕ) (create : Bool) :
    ∃ t, Returns (fun n => writeFile v n path buffer len create) s (-1) t := by
  have hread := hserved.readStatus_eq hdrive hport htransfers
  have hwrite (h : List Event) (a : ℕ) : v.writeStatus h a ≠ 0 := by
    rw [hserved.writeStatus_eq hdrive hport htransfers]
    decide
  obtain ⟨entry, t, ⟨n, hn⟩, hfile⟩ := hfile
  obtain ⟨w, -, hrun⟩ := writeFile_of_getEntry hread (hn n (le_refl n))
  obtain ⟨u, hfails⟩ := writeEntry_of_failing hwrite entry buffer len w
  exact ⟨u, (writeFile_stable v path buffer len create).returns
    ((hrun buffer len create (Or.inl hfile)).trans hfails)⟩

end Files

/-- For every drive with a port, whatever the port answers: the status of a read is that of its
transfer; the status of a write is that of its transfer just when the transfer fails; and if all
transfers succeed, `WriteFile` of an existing file returns -1. -/
theorem writeSector_truthful_iff (hdrive : drive < 32) (hport : ports drive = some port) :
    (∀ sector buffer (s : ℕ → PortState) r u,
        Returns (fun n => transferData port n true sector 1) (s drive) r u →
        ReadsTruthfully ports drive sector buffer s r) ∧
      (∀ sector buffer (s : ℕ → PortState) r u,
        Returns (fun n => transferData port n false sector 1) ((s drive).staged buffer) r u →
        (WritesTruthfully ports drive sector buffer s r ↔ r = 0)) ∧
      (AlwaysTransfers port → ∀ (v : Volume) s path buffer len create, ServedBy v ports drive →
        IsFile v s path → ∃ t, Returns (fun n => writeFile v n path buffer len create) s (-1) t) :=
  ⟨fun _ _ _ _ _ htransfer => readsTruthfully hdrive hport htransfer,
    fun _ _ _ _ _ htransfer => writesTruthfully_iff hdrive hport htransfer,
    fun htransfers _ _ _ buffer len create hserved hfile =>
      writeFile_fails hserved hdrive hport htransfers hfile buffer len create⟩

/-- No polls were made, and all buffers are empty. -/
def freshPorts : ℕ → PortState := fun _ => ⟨fun _ => 0, 0⟩

/-- A poll of a register. -/
theorem poll_run (register : ℕ → UInt32) (s : PortState) :
    (poll register).run s = .ok (register s.polls) { s with polls := s.polls + 1 } := rfl

/-- An idle port transfers a sector. -/
theorem idlePort_transfers (dirIn : Bool) (sector : ℕ) (s : PortState) :
    ∃ t, Returns (fun n => transferData (idlePort 1) n dirIn sector 1) s 512 t := by
  have hslot (s : PortState) :
      (findFreeCMDSlot (idlePort 1)).run s = .ok 0 { s with polls := s.polls + 2 } := by
    have hfirst : findSlot (((1 : UInt32) <<< 8 &&& 0x0f00) >>> 8).toNat 0 (0 ||| 0) = 0 := by decide
    exact congrArg (fun slot => EStateM.Result.ok slot _) hfirst
  have hspin (s : PortState) :
      (spin (idlePort 1) (999999 + 1)).run s = .ok false { s with polls := s.polls + 1 } := by
    have hidle : ¬ (0 : UInt32) &&& ataBusy ≠ 0 := by decide
    refine (bind_of_ok (poll_run _ s)).trans ?_
    rw [idlePort, if_neg hidle]
    rfl
  have hawait (fuel : ℕ) (s : PortState) :
      (awaitCommand (idlePort 1) 0 (fuel + 1)).run s = .ok true { s with polls := s.polls + 1 } := by
    have hdone : (0 : UInt32) &&& (1 <<< UInt32.ofNat 0) = 0 := by decide
    refine (bind_of_ok (poll_run _ s)).trans ?_
    rw [idlePort, if_pos hdone]
    rfl
  have hfinish (s : PortState) :
      (finishTransfer (idlePort 1) dirIn sector 1).run s = .ok 512 { s with polls := s.polls + 1 } := by
    have hfine : ¬ (0 : UInt32) &&& taskFileError ≠ 0 := by decide
    refine (bind_of_ok (poll_run _ s)).trans ?_
    rw [idlePort, if_neg hfine]
    rfl
  refine ⟨{ s with polls := s.polls + 5 }, 1, fun fuel hfuel => ?_⟩
  obtain ⟨n, rfl⟩ := Nat.exists_eq_add_of_le' hfuel
  refine (bind_of_ok (hslot s)).trans ?_
  refine (bind_of_ok (hspin _)).trans ?_
  refine (bind_of_ok (hawait n _)).trans ?_
  exact hfinish _

/-- A driver whose drives are all such a port. -/
def idlePorts (slots : UInt32) : ℕ → Option HbaPort := fun _ => some (idlePort slots)

/-- All ports are idle. -/
theorem idlePorts_apply (slots : UInt32) (drive : ℕ) : idlePorts slots drive = some (idlePort slots) :=
  rfl

/-- Without command slots every write fails, and its status says so. -/
theorem writeSector_truthful_noSlots :
    WritesTruthfully (idlePorts 0) 0 7 (fun _ => 0xAA) freshPorts 0 := by
  let staged := (freshPorts 0).staged fun _ => 0xAA
  have htransfer : Returns (fun n => transferData (idlePort 0) n false 7 1) staged 0
      { staged with polls := 2 } := ⟨0, fun _ _ => rfl⟩
  have hwrite := (writeSector_truthful_iff (by decide) (idlePorts_apply 0 0)).2.1 7 (fun _ => 0xAA)
    freshPorts 0 _ htransfer
  exact hwrite.mpr rfl

/-- A sector is written by a port that never fails, and the status says that it was not. -/
theorem not_writeSector_truthful :
    ¬ ∀ (ports : ℕ → Option HbaPort) (drive : ℕ) (port : HbaPort) (sector : ℕ) (buffer : Bytes)
      (s : ℕ → PortState) (r : UInt32) (u : PortState), drive < 32 → ports drive = some port →
      Returns (fun n => transferData port n false sector 1) ((s drive).staged buffer) r u →
      WritesTruthfully ports drive sector buffer s r := by
  intro hclaim
  obtain ⟨t, htransfer⟩ := idlePort_transfers false 7 ((freshPorts 0).staged fun _ => 0xAA)
  have htruthful := hclaim (idlePorts 1) 0 (idlePort 1) 7 (fun _ => 0xAA) freshPorts 512 t
    (by decide) (idlePorts_apply 1 0) htransfer
  have hfailed := (writesTruthfully_iff (by decide) (idlePorts_apply 1 0) htransfer).mp htruthful
  exact absurd hfailed (by decide)

end Vsos.Disk
