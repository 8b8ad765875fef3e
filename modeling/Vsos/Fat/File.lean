import Vsos.Fat.Create

/-!
# Reading and writing files

`ReadFile` follows the cluster chain of a file to its end and copies sector after sector
into the caller's buffer; how much of a sector is copied comes from a 32-bit subtraction.
`WriteFile` overwrites the first cluster of a file, links a freshly allocated cluster behind
it and goes on there.
-/

namespace Vsos.Fat

open Vsos.Lib

/-- The caller's buffer with `bytesRead` and the index `bufferPointer` stands for. -/
structure Copy where
  bytesRead : ℕ
  bufferPointer : ℕ
  buffer : Bytes

/-- How many bytes of a sector `ReadFile` copies. -/
def copyCount (v : Volume) (len bytesRead : ℕ) : ℕ :=
  let remaingBytes := sub32 len bytesRead
  if remaingBytes ≤ v.bytesPerSector then remaingBytes else v.bytesPerSector

/-- Copy the front of a sector to where `bufferPointer` points and step over a whole sector. -/
def copySector (v : Volume) (len : ℕ) (st : Copy) (source : Bytes) : Copy :=
  ⟨wrap32 (st.bytesRead + v.bytesPerSector), st.bufferPointer + v.bytesPerSector,
    st.buffer.blit st.bufferPointer source (copyCount v len st.bytesRead)⟩

/-- The loop of `ReadFile` over the sectors of a cluster, from `i` on; `false` after a failed
read. -/
def readSectors (v : Volume) (len sector : ℕ) : ℕ → ℕ → Copy → FatM (Bool × Copy)
  | 0, _, st => return (true, st)
  | n + 1, i, st => do
    let status ← readSector v (lba v sector i)
    if status ≠ 0 then return (false, st)
    else do
      let source ← getReadBuffer
      emit (.store st.bufferPointer (copyCount v len st.bytesRead))
      readSectors v len sector n (i + 1) (copySector v len st source)

/-- The chain walk of `ReadFile`. -/
def readClusters (v : Volume) (len : ℕ) : ℕ → ℕ → Copy → FatM (ℤ × Bytes)
  | 0, _, _ => throw .diverged
  | fuel + 1, cluster, st =>
    if ChainStops v cluster then return (0, st.buffer)
    else do
      match ← readSectors v len (clusterToSector v cluster) v.sectorsPerCluster 0 st with
      | (false, st') => return (-1, st'.buffer)
      | (true, st') => do
        let next ← readTable v cluster
        readClusters v len fuel next st'

/-- The part of `ReadFile` after the length is known. -/
def readEntry (v : Volume) (fuel : ℕ) (path : List UInt8) (buffer : Bytes) (len : ℕ) :
    FatM (ℤ × Bytes) := do
  match ← getEntryByPath v fuel path with
  | none => return (-1, buffer)
  | some entry =>
    if isDirectory entry.entry then return (-1, buffer)
    else readClusters v len fuel (getCluster entry.entry) ⟨0, 0, buffer⟩

/-- `FAT::ReadFile`: the status and the caller's buffer afterwards. The offset is not used. -/
def readFile (v : Volume) (fuel : ℕ) (path : List UInt8) (buffer : Bytes) (_offset len : ℕ) :
    FatM (ℤ × Bytes) :=
  if len = 2 ^ 32 - 1 then do
    let len ← getFileSize v fuel path
    readEntry v fuel path buffer len
  else readEntry v fuel path buffer len

/-- Write one sector of file data: from `readBuffer`, padded with zeros, when less than a
sector is left, and straight from the caller's buffer otherwise. -/
def writeDataSector (v : Volume) (buffer : Bytes) (address index bytesLeft : ℕ) : FatM ℤ :=
  if bytesLeft < v.bytesPerSector then do
    emit (.load index bytesLeft)
    modifyReadBuffer fun b =>
      (b.fill 0 v.bytesPerSector).blit 0 (buffer.shift index) bytesLeft
    writeReadBuffer v address
  else do
    emit (.load index v.blockSize)
    writeSector v address (buffer.shift index)

/-- The loop of `WriteFile` over the sectors of a cluster, from `i` on; `none` after a failed
write, and `bytesWritten` otherwise. -/
def writeSectors (v : Volume) (buffer : Bytes) (len sector base : ℕ) :
    ℕ → ℕ → ℕ → FatM (Option ℕ)
  | 0, _, bytesWritten => return some bytesWritten
  | n + 1, i, bytesWritten => do
    let index := base + i * v.bytesPerSector
    let status ← writeDataSector v buffer (lba v sector i) index (sub32 len bytesWritten)
    if status ≠ 0 then return none
    else writeSectors v buffer len sector base n (i + 1) (wrap32 (bytesWritten + v.bytesPerSector))

/-- The loop of `WriteFile` over the required clusters, from number `i` on. -/
def writeClusters (v : Volume) (buffer : Bytes) (len : ℕ) : ℕ → ℕ → ℕ → ℕ → FatM Bool
  | 0, _, _, _ => return true
  | n + 1, i, cluster, bytesWritten => do
    let base := wrap32 (i * v.clusterSize)
    match ← writeSectors v buffer len (clusterToSector v cluster) base v.sectorsPerCluster 0
        bytesWritten with
    | none => return false
    | some bytesWritten => do
      let newCluster ← allocateCluster v
      writeTable v cluster newCluster
      writeClusters v buffer len n (i + 1) newCluster bytesWritten

/-- `reqClusters`. -/
def reqClusters (v : Volume) (len : ℕ) : ℕ :=
  len / v.clusterSize + if len % v.clusterSize ≠ 0 then 1 else 0

/-- `FAT::ModifyEntry`. -/
def modifyEntry (v : Volume) (entry : FATEntryInfo) (newVersion : Bytes) : FatM Bool := do
  let status ← readSector v (lba v entry.sector 0)
  if status ≠ 0 then return false
  else do
    let buffer ← getReadBuffer
    if entry.entry.same (buffer.shift entry.offsetInSector) 32 = false then return false
    else do
      modifyReadBuffer fun b => b.blit entry.offsetInSector newVersion 32
      let status ← writeReadBuffer v (lba v entry.sector 0)
      return status = 0

/-- The entry of a file with a new size and date. -/
def rewritten (entry : Bytes) (len date time : ℕ) : Bytes :=
  ((entry.setU32 28 len).setU16 24 date).setU16 22 time

/-- The end of `WriteFile`, which modifies the entry. -/
def updateEntry (v : Volume) (entry : FATEntryInfo) (len : ℕ) : FatM ℤ := do
  let date ← fatDate v
  let time ← fatTime v
  let modified ← modifyEntry v entry (rewritten entry.entry len date time)
  return if modified = false then -1 else 0

/-- The part of `WriteFile` after the entry was found. -/
def writeEntry (v : Volume) (entry : FATEntryInfo) (buffer : Bytes) (len : ℕ) : FatM ℤ := do
  let written ← writeClusters v buffer len (reqClusters v len) 0 (getCluster entry.entry) 0
  if written = false then return -1
  else updateEntry v entry len

/-- The part of `WriteFile` after a missing file was created. -/
def writeExisting (v : Volume) (fuel : ℕ) (path : List UInt8) (buffer : Bytes) (len : ℕ) :
    FatM ℤ := do
  match ← getEntryByPath v fuel path with
  | none => return -1
  | some entry => writeEntry v entry buffer len

/-- `FAT::WriteFile`. -/
def writeFile (v : Volume) (fuel : ℕ) (path : List UInt8) (buffer : Bytes) (len : ℕ)
    (create : Bool) : FatM ℤ := do
  let isFile ← fileExists v fuel path
  if isFile = false ∧ create then do
    let created ← createFile v fuel path
    if created ≠ 0 then return -1
    else writeExisting v fuel path buffer len
  else writeExisting v fuel path buffer len

end Vsos.Fat
