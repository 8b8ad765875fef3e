import Vsos.Disk.Ahci

/-!
# The command of a transfer

`TransferData` describes a transfer to the controller twice: by a list of physical ranges, sixteen
sectors to an entry, and by a number of sectors in the command. The number is taken from the
variable that the loop over the entries has counted down, and the loop goes on by 4096 bytes after
an entry of 8192. Both show with the second entry.
-/

namespace Vsos.Disk

open Vsos.Lib

/-- `hba_prdt_entry`. -/
structure PrdtEntry where
  dataBaseAddress : UInt32
  dataBaseAddressUpper : UInt32
  byteCount : BitVec 22
  interruptOnCompletion : Bool
  deriving DecidableEq, Repr

/-- `hba_command_fis`, the fields that a transfer sets. The others are 0. -/
structure CommandFis where
  fisType : UInt8 := 0
  commandControl : Bool := false
  command : UInt8 := 0
  featureLow : UInt8 := 0
  lba0 : UInt8 := 0
  lba1 : UInt8 := 0
  lba2 : UInt8 := 0
  deviceRegister : UInt8 := 0
  lba3 : UInt8 := 0
  lba4 : UInt8 := 0
  lba5 : UInt8 := 0
  featureHigh : UInt8 := 0
  countLow : UInt8 := 0
  countHigh : UInt8 := 0
  deriving DecidableEq, Repr

/-- `hba_command_table`, with the entries that a transfer writes. -/
structure CommandTable where
  commandFis : CommandFis
  atapiCommand : List UInt8
  prdtEntry : List PrdtEntry
  deriving DecidableEq, Repr

/-- The number of entries. -/
def prdtLength (count : UInt32) : UInt16 := ((count - 1) >>> 4).toUInt16 + 1

/-- An entry for the bytes from `buffer` on, with one byte more than `byteCount`. -/
def prdtEntry (buffer : UInt64) (byteCount : UInt32) : PrdtEntry where
  dataBaseAddress := buffer.toUInt32
  dataBaseAddressUpper := (buffer >>> 32).toUInt32
  byteCount := byteCount.toBitVec.setWidth 22
  interruptOnCompletion := true

/-- The loop of `TransferData` over the entries, and the last one behind it: the entries, and what
is left of `count`. -/
def scatterList : ℕ → UInt64 → UInt32 → List PrdtEntry × UInt32
  | 0, buffer, count => ([prdtEntry buffer ((count <<< 9) - 1)], count)
  | n + 1, buffer, count =>
    let (entries, left) := scatterList n (buffer + 0x1000) (count - 16)
    (prdtEntry buffer (8 * 1024 - 1) :: entries, left)

/-- The command of a transfer, with the number of sectors as the loop has left it. -/
def commandFis (isATAPI dirIn : Bool) (sectorLow sectorHigh count : UInt32) : CommandFis :=
  if isATAPI then
    { fisType := 0x27
      commandControl := true
      command := 0xA0
      featureLow := 1
      featureHigh := 0
      countLow := (count &&& 0xFF).toUInt8
      countHigh := (count >>> 8).toUInt8 }
  else
    { fisType := 0x27
      commandControl := true
      command := if dirIn then 0x25 else 0x35
      lba0 := sectorLow.toUInt8
      lba1 := (sectorLow >>> 8).toUInt8
      lba2 := (sectorLow >>> 16).toUInt8
      deviceRegister := (1 : UInt8) <<< 6
      lba3 := (sectorLow >>> 24).toUInt8
      lba4 := sectorHigh.toUInt8
      lba5 := (sectorHigh >>> 8).toUInt8
      countLow := (count &&& 0xFF).toUInt8
      countHigh := (count >>> 8).toUInt8 }

/-- The packet of a transfer from an optical drive. -/
def atapiCommand (sectorLow sectorHigh count : UInt32) : List UInt8 :=
  [0xA8, 0, (sectorHigh >>> 8 &&& 0xFF).toUInt8, sectorHigh.toUInt8,
    (sectorLow >>> 24 &&& 0xFF).toUInt8, (sectorLow >>> 16 &&& 0xFF).toUInt8,
    (sectorLow >>> 8 &&& 0xFF).toUInt8, (sectorLow &&& 0xFF).toUInt8, 0, count.toUInt8, 0, 0]

/-- The table that `TransferData` fills in. -/
def commandTable (isATAPI dirIn : Bool) (bufferPhysicalAddr sector : UInt64) (count : UInt32) :
    CommandTable :=
  let (entries, left) := scatterList ((prdtLength count).toNat - 1) bufferPhysicalAddr count
  let sectorLow := sector.toUInt32
  let sectorHigh := (sector >>> 32).toUInt32
  { commandFis := commandFis isATAPI dirIn sectorLow sectorHigh left
    atapiCommand := if isATAPI then atapiCommand sectorLow sectorHigh left else []
    prdtEntry := entries }

/-- The first byte of the range of an entry. -/
def PrdtEntry.base (entry : PrdtEntry) : ℕ :=
  entry.dataBaseAddress.toNat + 2 ^ 32 * entry.dataBaseAddressUpper.toNat

/-- The number of bytes in the range of an entry. -/
def PrdtEntry.size (entry : PrdtEntry) : ℕ := entry.byteCount.toNat + 1

/-- The ranges follow each other from `start` on. -/
def Consecutive : ℕ → List PrdtEntry → Prop
  | _, [] => True
  | start, entry :: rest => entry.base = start ∧ Consecutive (start + entry.size) rest

/-- The number of sectors in the command. -/
def CommandFis.count (fis : CommandFis) : ℕ := fis.countLow.toNat + 256 * fis.countHigh.toNat

/-- The ranges, the command and the result of a transfer are about the same sectors. -/
structure Agrees (port : HbaPort) (dirIn : Bool) (bufferPhysicalAddr sector : UInt64)
    (count : UInt32) : Prop where
  length : (commandTable port.isATAPI dirIn bufferPhysicalAddr sector count).prdtEntry.length =
    (prdtLength count).toNat
  consecutive : Consecutive bufferPhysicalAddr.toNat
    (commandTable port.isATAPI dirIn bufferPhysicalAddr sector count).prdtEntry
  total : ((commandTable port.isATAPI dirIn bufferPhysicalAddr sector count).prdtEntry.map
    PrdtEntry.size).sum = count.toNat * 512
  command : (commandTable port.isATAPI dirIn bufferPhysicalAddr sector count).commandFis.count =
    count.toNat
  result : ∀ fuel s r t, (transferData port fuel dirIn sector.toNat count).run s = .ok r t →
    r = 0 ∨ r.toNat = count.toNat * if port.isATAPI then 2048 else 512

section Entries

variable {n : ℕ} {buffer : UInt64} {count : UInt32}

/-- The two halves of an address give it back. -/
theorem base_prdtEntry (buffer : UInt64) (byteCount : UInt32) :
    (prdtEntry buffer byteCount).base = buffer.toNat := by
  have hlow : (prdtEntry buffer byteCount).dataBaseAddress.toNat = buffer.toNat % 2 ^ 32 :=
    UInt64.toNat_toUInt32 buffer
  have hhigh : (prdtEntry buffer byteCount).dataBaseAddressUpper.toNat = buffer.toNat / 2 ^ 32 := by
    have hlt : buffer.toNat / 2 ^ 32 < 2 ^ 32 := by
      have := buffer.toNat_lt
      omega
    show (buffer >>> 32).toUInt32.toNat = _
    rw [UInt64.toNat_toUInt32, UInt64.toNat_shiftRight, Nat.shiftRight_eq_div_pow]
    exact Nat.mod_eq_of_lt hlt
  rw [PrdtEntry.base, hlow]
  omega

/-- The size that an entry stands for. -/
theorem size_prdtEntry {byteCount : UInt32} (h : byteCount.toNat < 2 ^ 22) :
    (prdtEntry buffer byteCount).size = byteCount.toNat + 1 := by
  exact congrArg (· + 1) (Nat.mod_eq_of_lt h)

/-- The first entry of a list starts at the buffer. -/
theorem scatterList_first (n : ℕ) (buffer : UInt64) (count : UInt32) :
    ∃ byteCount rest, (scatterList n buffer count).1 = prdtEntry buffer byteCount :: rest := by
  cases n with
  | zero => exact ⟨_, [], rfl⟩
  | succ n => exact ⟨_, _, rfl⟩

/-- The number of entries. -/
theorem length_scatterList (n : ℕ) (buffer : UInt64) (count : UInt32) :
    (scatterList n buffer count).1.length = n + 1 := by
  induction n generalizing buffer count with
  | zero => rfl
  | succ n ih => exact congrArg (· + 1) (ih _ _)

/-- Sixteen sectors to each entry in front of the last one, which has the rest. -/
theorem scatterList_total (hn : 16 * n < count.toNat) (hcount : count.toNat ≤ 512) :
    ((scatterList n buffer count).1.map PrdtEntry.size).sum = count.toNat * 512 := by
  induction n generalizing buffer count with
  | zero =>
    have hbytes : ((count <<< 9) - 1).toNat = count.toNat * 512 - 1 := by
      have hshift : (count <<< 9).toNat = count.toNat * 512 := by
        rw [UInt32.toNat_shiftLeft, Nat.shiftLeft_eq]
        exact Nat.mod_eq_of_lt (by show count.toNat * 512 < 4294967296; omega)
      rw [UInt32.toNat_sub_of_le _ _ (UInt32.le_iff_toNat_le.mpr (by show 1 ≤ _; omega)), hshift]
      rfl
    simp only [scatterList, List.map_cons, List.map_nil, List.sum_cons, List.sum_nil]
    rw [size_prdtEntry (by omega)]
    omega
  | succ n ih =>
    have hleft : (count - 16).toNat = count.toNat - 16 :=
      UInt32.toNat_sub_of_le _ _ (UInt32.le_iff_toNat_le.mpr (by show 16 ≤ _; omega))
    have hrest : ((scatterList n (buffer + 0x1000) (count - 16)).1.map PrdtEntry.size).sum =
        (count - 16).toNat * 512 := ih (by omega) (by omega)
    simp only [scatterList, List.map_cons, List.sum_cons]
    show 8191 + 1 + _ = _
    omega

/-- After an entry of 8192 bytes, the next one starts too early. -/
theorem not_consecutive_scatterList :
    ¬ Consecutive buffer.toNat (scatterList (n + 1) buffer count).1 := by
  intro h
  obtain ⟨byteCount, rest, hrest⟩ := scatterList_first n (buffer + 0x1000) (count - 16)
  have hentries : (scatterList (n + 1) buffer count).1 =
      prdtEntry buffer (8 * 1024 - 1) :: prdtEntry (buffer + 0x1000) byteCount :: rest :=
    congrArg (List.cons _) hrest
  rw [hentries] at h
  have hsecond : (prdtEntry (buffer + 0x1000) byteCount).base =
      buffer.toNat + (prdtEntry buffer (8 * 1024 - 1)).size := h.2.1
  rw [base_prdtEntry, size_prdtEntry (by decide), UInt64.toNat_add] at hsecond
  have hstep : (0x1000 : UInt64).toNat = 4096 := rfl
  have hsize : (8 * 1024 - 1 : UInt32).toNat = 8191 := rfl
  omega

/-- The length that the command header gets. -/
theorem toNat_prdtLength (hpos : 1 ≤ count.toNat) (hcount : count.toNat ≤ 512) :
    (prdtLength count).toNat = (count.toNat - 1) / 16 + 1 := by
  have hpred : (count - 1).toNat = count.toNat - 1 :=
    UInt32.toNat_sub_of_le _ _ (UInt32.le_iff_toNat_le.mpr hpos)
  have hshift : ((count - 1) >>> 4).toNat = (count.toNat - 1) / 16 := by
    rw [UInt32.toNat_shiftRight, hpred, Nat.shiftRight_eq_div_pow]
    rfl
  rw [prdtLength, UInt16.toNat_add, UInt32.toNat_toUInt16, hshift]
  show ((count.toNat - 1) / 16 % 65536 + 1) % 65536 = _
  omega

end Entries

/-- The two bytes of the command hold the number that is left. -/
theorem count_commandFis (isATAPI dirIn : Bool) (sectorLow sectorHigh : UInt32) {left : UInt32}
    (h : left.toNat < 2 ^ 16) :
    (commandFis isATAPI dirIn sectorLow sectorHigh left).count = left.toNat := by
  have hlow : (left &&& 0xFF).toUInt8.toNat = left.toNat % 256 := by
    have hmask : (0xFF : UInt32).toNat = 2 ^ 8 - 1 := rfl
    rw [UInt32.toNat_toUInt8, UInt32.toNat_and, hmask, Nat.and_two_pow_sub_one_eq_mod]
    omega
  have hhigh : (left >>> 8).toUInt8.toNat = left.toNat / 256 := by
    rw [UInt32.toNat_toUInt8, UInt32.toNat_shiftRight, Nat.shiftRight_eq_div_pow]
    show left.toNat / 256 % 256 = _
    omega
  have hcount : (commandFis isATAPI dirIn sectorLow sectorHigh left).count =
      (left &&& 0xFF).toUInt8.toNat + 256 * (left >>> 8).toUInt8.toNat := by
    cases isATAPI <;> rfl
  omega

/-- The description of a transfer agrees with itself just when one entry is enough. -/
theorem agrees_iff (port : HbaPort) (dirIn : Bool) (bufferPhysicalAddr sector : UInt64)
    {count : UInt32} (hpos : 1 ≤ count.toNat) (hcount : count.toNat ≤ 512) :
    Agrees port dirIn bufferPhysicalAddr sector count ↔ count.toNat ≤ 16 := by
  have hlength := toNat_prdtLength hpos hcount
  constructor
  · intro h
    by_contra hmore
    obtain ⟨n, hn⟩ : ∃ n, (prdtLength count).toNat - 1 = n + 1 :=
      ⟨(prdtLength count).toNat - 2, by omega⟩
    have hranges := h.consecutive
    simp only [commandTable, hn] at hranges
    exact not_consecutive_scatterList hranges
  · intro hfew
    have hone : (prdtLength count).toNat - 1 = 0 := by omega
    have htotal : ((scatterList 0 bufferPhysicalAddr count).1.map PrdtEntry.size).sum =
        count.toNat * 512 := scatterList_total (by omega) hcount
    refine ⟨?_, ?_, ?_, ?_, ?_⟩
    · simp only [commandTable, length_scatterList]
      omega
    · simp only [commandTable, hone, scatterList]
      exact ⟨base_prdtEntry _ _, trivial⟩
    · simp only [commandTable, hone]
      exact htotal
    · simp only [commandTable, hone, scatterList]
      exact count_commandFis _ _ _ _ (by omega)
    · intro fuel s r t hrun
      refine (transferData_result hrun).imp_right fun hr => ?_
      rw [hr]
      cases port.isATAPI
      · show count.toNat * 512 % 4294967296 = count.toNat * 512
        omega
      · show count.toNat * 2048 % 4294967296 = count.toNat * 2048
        omega

/-- The command of a transfer of seventeen sectors asks for one. -/
theorem not_agrees : ¬ ∀ (port : HbaPort) (dirIn : Bool) (bufferPhysicalAddr sector : UInt64)
    (count : UInt32), 1 ≤ count.toNat → count.toNat ≤ 512 →
      Agrees port dirIn bufferPhysicalAddr sector count := by
  intro h
  have hcommand := (h (idlePort 1) true 0x100000 0 17 (by decide) (by decide)).command
  exact absurd hcommand (by decide)

/-- Sixteen sectors are described exactly, seventeen are not. -/
theorem agrees_iff_sixteen :
    Agrees (idlePort 1) true 0x100000 0 16 ∧ ¬ Agrees (idlePort 1) true 0x100000 0 17 :=
  ⟨(agrees_iff (idlePort 1) true 0x100000 0 (by decide) (by decide)).mpr (by decide),
    fun h => absurd ((agrees_iff (idlePort 1) true 0x100000 0 (by decide) (by decide)).mp h) (by decide)⟩

end Vsos.Disk
