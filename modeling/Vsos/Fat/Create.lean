import Vsos.Fat.Directory

/-!
# Creating files and directories

A new entry needs a run of free slots, one for each thirteen characters of its name and one
for the 8.3 entry. Three routines compute where these slots lie, each in its own way: the
search remembers the cluster, the sector inside the scan and the byte offset; the writer of
the long-name slots and the writer of the 8.3 entry advance from there.
-/

namespace Vsos.Fat

open Vsos.Lib

/-- The results `targetCluster`, `targetSector` and `sectorOffset` of the slot search. -/
structure Target where
  cluster : ℕ
  sector : ℕ
  offset : ℕ
  deriving DecidableEq, Repr

/-- The length of the run of free slots and where it started. -/
structure Search where
  freeCount : ℕ
  target : Target
  deriving DecidableEq, Repr

/-- A slot that may be overwritten. -/
def slotFree (slot : Bytes) : Bool := slot 0 == entryEnd || slot 0 == entryUnused

/-- One round of the innermost loop of `FindEntryStartpoint`. -/
def searchSlot (slot : Bytes) (here : Target) (entryCount : ℕ) (st : Search) : Search ⊕ Target :=
  if slotFree slot then
    let target := if st.freeCount = 0 then here else st.target
    let freeCount := wrap32 (st.freeCount + 1)
    if freeCount = entryCount then .inr target else .inl ⟨freeCount, target⟩
  else .inl ⟨0, ⟨0, 0, 0⟩⟩

/-- The loop of `FindEntryStartpoint` over the sectors of a cluster, from `i` on. The right
result is what the call returns. -/
def searchSectors (v : Volume) (budget cluster sector entryCount : ℕ) :
    ℕ → ℕ → Search → FatM (Search ⊕ Option Target)
  | 0, _, st => return .inl st
  | n + 1, i, st => do
    let status ← readSector v (lba v sector i)
    if status ≠ 0 then return .inr none
    else do
      let buffer ← getReadBuffer
      let body := fun j => searchSlot (slotAt buffer (32 * j)) ⟨cluster, i, 32 * j⟩ entryCount
      match loop8 (v.bytesPerSector / 32) body budget 0 st with
      | none => throw .diverged
      | some (.inr target) => return .inr (some target)
      | some (.inl st') => searchSectors v budget cluster sector entryCount n (i + 1) st'

/-- The sector at which the search gives up in a fixed root directory of 224 entries. -/
def rootDirLastSector (v : Volume) : ℕ :=
  wrap32 (sub32 v.firstDataSector v.rootDirSectors + 224 * 32 / v.bytesPerSector)

/-- The outer loop of `FindEntryStartpoint`; a full directory grows by a cleared cluster. -/
def findEntryLoop (v : Volume) (entryCount : ℕ) (rootDirectory : Bool) (budget : ℕ) :
    ℕ → ℕ → ℕ → Search → FatM (Option Target)
  | 0, _, _, _ => throw .diverged
  | fuel + 1, sector, cluster, st =>
    if ChainStops v cluster then return none
    else do
      let start := scanStart v rootDirectory sector cluster
      match ← searchSectors v budget cluster start entryCount v.sectorsPerCluster 0 st with
      | .inr result => return result
      | .inl st' =>
        if fixedRoot v rootDirectory then
          if rootDirLastSector v ≤ wrap32 (start + 1) then return none
          else findEntryLoop v entryCount rootDirectory budget fuel (wrap32 (start + 1)) cluster st'
        else do
          let next ← readTable v cluster
          if v.clusterEnd ≤ next then do
            let newCluster ← allocateCluster v
            clearCluster v newCluster
            writeTable v cluster newCluster
            findEntryLoop v entryCount rootDirectory budget fuel start newCluster st'
          else findEntryLoop v entryCount rootDirectory budget fuel start next st'

/-- `FAT::FindEntryStartpoint`. -/
def findEntryStartpoint (v : Volume) (fuel cluster entryCount : ℕ) (rootDirectory : Bool) :
    FatM (Option Target) :=
  findEntryLoop v entryCount rootDirectory fuel fuel 0 cluster ⟨0, ⟨0, 0, 0⟩⟩

/-- The loop of `WriteLongFilenameEntries`, with `i` slots written. -/
def writeLongLoop (v : Volume) (targetSector : ℕ) (rootDirectory : Bool) :
    List Bytes → ℕ → ℕ → ℕ → ℕ → FatM Bool
  | [], _, _, _, _ => return true
  | target :: rest, i, sector, targetCluster, sectorOffset => do
    let entryOffset := wrap32 (sectorOffset + i * 32)
    let start := scanStart v rootDirectory sector targetCluster
    let status ← readSector v (lba v start targetSector)
    if status ≠ 0 then return false
    else do
      modifyReadBuffer fun b => b.blit entryOffset target 32
      let status ← writeReadBuffer v (lba v start targetSector)
      if status ≠ 0 then return false
      else if v.bytesPerSector ≤ entryOffset + 32 then
        if fixedRoot v rootDirectory then
          writeLongLoop v targetSector rootDirectory rest (i + 1) (wrap32 (start + 1))
            targetCluster 0
        -- `start` is a sector of the volume here, not of the cluster
        else if v.sectorsPerCluster < wrap32 (start + 1) then do
          let next ← readTable v targetCluster
          writeLongLoop v targetSector rootDirectory rest (i + 1) start next sectorOffset
        else
          writeLongLoop v targetSector rootDirectory rest (i + 1) (wrap32 (start + 1))
            targetCluster sectorOffset
      else writeLongLoop v targetSector rootDirectory rest (i + 1) start targetCluster sectorOffset

/-- `FAT::WriteLongFilenameEntries`. -/
def writeLongFilenameEntries (v : Volume) (entries : List Bytes) (target : Target)
    (rootDirectory : Bool) : FatM Bool :=
  writeLongLoop v target.sector rootDirectory entries 0 0 target.cluster target.offset

/-- `FAT::WriteDirectoryEntry`. -/
def writeDirectoryEntry (v : Volume) (entry : Bytes) (targetSector sectorOffset : ℕ) :
    FatM Bool := do
  let status ← readSector v (lba v targetSector 0)
  if status ≠ 0 then return false
  else do
    modifyReadBuffer fun b => b.blit sectorOffset entry 32
    let status ← writeReadBuffer v (lba v targetSector 0)
    return status = 0

/-- The slots a name of this length needs for its characters. -/
def requiredLFNEntries (nameLength : ℕ) : ℕ :=
  nameLength / 13 + if 0 < nameLength % 13 then 1 else 0

/-- The sector and the offset that `CreateEntry` computes for the 8.3 entry. -/
def entryPlace (v : Volume) (target : Target) (count : ℕ) (rootDirectory : Bool) :
    FatM (ℕ × ℕ) :=
  let offset := wrap32 (target.offset + count * 32)
  if fixedRoot v rootDirectory then
    let first := sub32 v.firstDataSector v.rootDirSectors
    if v.bytesPerSector ≤ offset then return (wrap32 (first + 1), offset % v.bytesPerSector)
    else return (first, offset)
  else if v.bytesPerSector ≤ offset then
    if v.sectorsPerCluster ≤ wrap32 (target.sector + 1) then do
      let next ← readTable v target.cluster
      if v.clusterEnd ≤ next then do
        let tmp ← allocateCluster v
        clearCluster v tmp
        writeTable v next tmp
        return (clusterToSector v tmp, offset % v.bytesPerSector)
      else return (clusterToSector v next, offset % v.bytesPerSector)
    else
      return (wrap32 (clusterToSector v target.cluster + wrap32 (target.sector + 1)),
        offset % v.bytesPerSector)
  else return (wrap32 (clusterToSector v target.cluster + target.sector), offset)

/-- The 8.3 entry that `CreateEntry` writes. -/
def newDirectoryEntry (shortName : Bytes) (attr targetCluster date time : ℕ) : Bytes :=
  let named : Bytes := Bytes.blit (fun _ => 0) 0 shortName 11
  let placed := (named.setU16 26 targetCluster).setU16 20 (targetCluster / 65536)
  let created := (((placed.setU8 11 attr).setU16 16 date).setU16 14 time).setU8 13 100
  ((created.setU16 18 date).setU16 24 date).setU16 22 time

/-- `FAT::CreateEntry`. The result is the offset of the new entry in `readBuffer`. -/
def createEntry (v : Volume) (fuel parentCluster : ℕ) (name : List UInt8) (attr : ℕ)
    (rootDirectory : Bool) (targetCluster : ℕ) : FatM (Option ℕ) :=
  let nameLength := name.length % 256
  if nameLength = 0 then return none
  else do
    let count := requiredLFNEntries nameLength
    match ← findEntryStartpoint v fuel parentCluster (count + 1) rootDirectory with
    | none => return none
    | some target =>
      match createShortFilename name with
      -- the checksum of a null pointer is a read from address 0
      | none => throw .fault
      | some shortName =>
        let lfnEntries := createLFNEntriesFromName name count (checksum shortName)
        let written ← writeLongFilenameEntries v lfnEntries target rootDirectory
        if written = false then return none
        else do
          let place ← entryPlace v target count rootDirectory
          let date ← fatDate v
          let time ← fatTime v
          let entry := newDirectoryEntry shortName attr targetCluster date time
          let written ← writeDirectoryEntry v entry place.1 place.2
          if written = false then return none
          else return some place.2

/-- The `.` and `..` entries copy the dates of the entry just created. -/
def dotEntry (createdEntry : Bytes) (dots : ℕ) (cluster : ℕ) : Bytes :=
  let named : Bytes := fun i => if i < dots then 0x2E else if i < 11 then 0x20 else 0
  let dated := ((named.setU8 11 attrDirectory.toNat).setU16 18 (createdEntry.u16 18)).setU16 16
    (createdEntry.u16 16)
  let timed := ((dated.setU16 14 (createdEntry.u16 14)).setU8 13 (createdEntry 13).toNat).setU16 24
    (createdEntry.u16 24)
  ((timed.setU16 22 (createdEntry.u16 22)).setU16 26 cluster).setU16 20 (cluster / 65536)

/-- The end of `CreateNewDirFileEntry`: clear the new cluster and give a directory its dots. -/
def finishNewEntry (v : Volume) (isDir : Bool) (entryRootCluster offset : ℕ) : FatM ℤ := do
  let buffer ← getReadBuffer
  let createdEntry := slotAt buffer offset
  let directoryCluster := getCluster createdEntry
  clearCluster v directoryCluster
  if isDir then do
    let sector := clusterToSector v directoryCluster
    let status ← readSector v (lba v sector 0)
    if status ≠ 0 then return -1
    else do
      modifyReadBuffer fun b =>
        (b.blit 0 (dotEntry createdEntry 1 directoryCluster) 32).blit 32
          (dotEntry createdEntry 2 entryRootCluster) 32
      let status ← writeReadBuffer v (lba v sector 0)
      return if status ≠ 0 then -1 else 0
  else return 0

/-- `FAT::CreateNewDirFileEntry`. The path is cut in place at the separator that `IndexOf`
finds, also when it finds none and answers -1. -/
def createNewDirFileEntry (v : Volume) (fuel : ℕ) (path : List UInt8) (attributes : ℕ) :
    FatM ℤ :=
  let pathParts := strSplit path pathSeperator
  let isDir := attributes &&& attrDirectory.toNat != 0
  if pathParts = [] then do
    let newCluster ← allocateCluster v
    match ← createEntry v fuel v.rootDirCluster path attributes true newCluster with
    | none => return -1
    | some offset => finishNewEntry v isDir 0 offset
  else do
    let i := indexOf path pathSeperator (sub32 pathParts.length 2)
    emit (.path i)
    let parentDirectory := if i < 0 then path else path.take i.toNat
    match ← getEntryByPath v fuel parentDirectory with
    | none => return -1
    | some parentEntry => do
      let newCluster ← allocateCluster v
      let parentCluster := getCluster parentEntry.entry
      let name := path.drop (i + 1).toNat
      match ← createEntry v fuel parentCluster name attributes false newCluster with
      | none => return -1
      | some offset => finishNewEntry v isDir parentCluster offset

/-- `FAT::CreateFile`. -/
def createFile (v : Volume) (fuel : ℕ) (path : List UInt8) : FatM ℤ :=
  createNewDirFileEntry v fuel path 0

/-- `FAT::CreateDirectory`. -/
def createDirectory (v : Volume) (fuel : ℕ) (path : List UInt8) : FatM ℤ :=
  createNewDirFileEntry v fuel path attrDirectory.toNat

end Vsos.Fat
