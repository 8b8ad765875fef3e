import Vsos.Lib.Memory
import Vsos.Lib.Program

/-!
# The FAT driver's volume, its state and its disk

The constants `FAT::Initialize` computes from the boot sector are the geometry of a volume.
What a mounted volume changes is the content of the disk, the driver's one-sector buffer
`readBuffer` and the allocation cursor kept in `fsInfo`. A history of the accesses made is
kept beside them; the disk driver and the clock may answer differently at every access, so
their answers depend on that history.

`readBuffer` is a byte store and not a list of `bytesPerSector` bytes: an access past its
end meets the bytes that lie behind it on the heap.
-/

namespace Vsos.Fat

open Vsos.Lib

/-- `enum FATType`. -/
inductive FATType where
  | FAT12
  | FAT16
  | FAT32
  deriving DecidableEq, Repr

/-- What a call of the driver does to the world around it. -/
inductive Event where
  /-- `Disk::ReadSector` at this address. -/
  | readSector (lba : ℕ)
  /-- `Disk::WriteSector` at this address. -/
  | writeSector (lba : ℕ)
  /-- `count` bytes of the caller's buffer are read, from this index on. -/
  | load (index count : ℕ)
  /-- `count` bytes of the caller's buffer are overwritten, from this index on. -/
  | store (index count : ℕ)
  /-- `AllocateCluster` returns this cluster number. -/
  | allocated (cluster : ℕ)
  /-- The caller's path string is accessed at this index. -/
  | path (index : ℤ)
  deriving DecidableEq, Repr

/-- The fields of `Time` the driver reads from the clock. -/
structure Time where
  year : ℕ
  month : ℕ
  day : ℕ
  hour : ℕ
  minute : ℕ
  second : ℕ
  deriving DecidableEq, Repr

/-- The members of `FAT` that stay fixed after `Initialize`, within the bounds of their types.
`Initialize` divides by the sector size and by the cluster size, so neither is 0. -/
structure Geometry where
  fatType : FATType
  startLBA : ℕ
  bytesPerSector : ℕ
  rootDirSectors : ℕ
  sectorsPerCluster : ℕ
  firstDataSector : ℕ
  firstFatSector : ℕ
  rootDirCluster : ℕ
  totalClusters : ℕ
  startLBA_lt : startLBA < 2 ^ 64
  bytesPerSector_pos : 0 < bytesPerSector
  bytesPerSector_lt : bytesPerSector < 2 ^ 16
  rootDirSectors_lt : rootDirSectors < 2 ^ 32
  sectorsPerCluster_pos : 0 < sectorsPerCluster
  sectorsPerCluster_lt : sectorsPerCluster < 2 ^ 8
  firstDataSector_lt : firstDataSector < 2 ^ 32
  firstFatSector_lt : firstFatSector < 2 ^ 32
  rootDirCluster_lt : rootDirCluster < 2 ^ 32
  totalClusters_lt : totalClusters < 2 ^ 32

/-- The disk driver and the clock as seen from the file system. -/
structure Device where
  blockSize : ℕ
  readStatus : List Event → ℕ → ℤ
  writeStatus : List Event → ℕ → ℤ
  getTime : List Event → Time

/-- A mounted volume. -/
structure Volume extends Geometry, Device

/-- The member `clusterSize`. -/
def Geometry.clusterSize (g : Geometry) : ℕ := g.bytesPerSector * g.sectorsPerCluster

/-- A cluster is not empty. -/
theorem Geometry.clusterSize_pos (g : Geometry) : 0 < g.clusterSize :=
  Nat.mul_pos g.bytesPerSector_pos g.sectorsPerCluster_pos

/-- The cluster of a byte is the cluster of its sector. -/
theorem Geometry.div_clusterSize (g : Geometry) (i : ℕ) :
    i / g.bytesPerSector / g.sectorsPerCluster = i / g.clusterSize :=
  Nat.div_div_eq_div_mul i g.bytesPerSector g.sectorsPerCluster

/-- `CLUSTER_END`. -/
def Geometry.clusterEnd (g : Geometry) : ℕ :=
  match g.fatType with
  | .FAT12 => 0xFF8
  | .FAT16 => 0xFFF8
  | .FAT32 => 0x0FFFFFF8

/-- `CLUSTER_FREE`, which is the same for all three types. -/
def clusterFree : ℕ := 0

/-- What changes while the volume is mounted. -/
structure State where
  /-- Byte `i` of the disk block at address `lba`. -/
  data : ℕ → Bytes
  readBuffer : Bytes
  startSearchCluster : ℕ
  /-- The accesses made so far, newest first. -/
  trace : List Event

/-- A member function of `FAT`. -/
abbrev FatM (α : Type) := Prog State α

/-- Record an access. -/
def emit (event : Event) : FatM Unit := fun s => .ok () { s with trace := event :: s.trace }

/-- The content of `readBuffer`. -/
def getReadBuffer : FatM Bytes := fun s => .ok s.readBuffer s

/-- Change `readBuffer` in place. -/
def modifyReadBuffer (f : Bytes → Bytes) : FatM Unit :=
  fun s => .ok () { s with readBuffer := f s.readBuffer }

/-- The disk address `StartLBA + sector + i`, a 64-bit sum. -/
def lba (v : Volume) (sector i : ℕ) : ℕ := wrap64 (v.startLBA + sector + i)

/-- `disk->ReadSector(address, readBuffer)`: a whole block arrives unless the driver fails. -/
def readSector (v : Volume) (address : ℕ) : FatM ℤ := fun s =>
  let status := v.readStatus s.trace address
  .ok status
    { s with
      readBuffer := if status = 0 then s.readBuffer.blit 0 (s.data address) v.blockSize
        else s.readBuffer
      trace := .readSector address :: s.trace }

/-- `disk->WriteSector(address, src)`: the block at `address` is replaced unless the driver fails. -/
def writeSector (v : Volume) (address : ℕ) (src : Bytes) : FatM ℤ := fun s =>
  let status := v.writeStatus s.trace address
  .ok status
    { s with
      data := if status = 0 then
          Function.update s.data address ((s.data address).blit 0 src v.blockSize)
        else s.data
      trace := .writeSector address :: s.trace }

/-- Write `readBuffer` to the disk. -/
def writeReadBuffer (v : Volume) (address : ℕ) : FatM ℤ := do
  writeSector v address (← getReadBuffer)

/-- `FAT::FatTime`. -/
def fatTime (v : Volume) : FatM ℕ := fun s =>
  let t := v.getTime s.trace
  .ok ((t.hour <<< 11 ||| t.minute <<< 5 ||| t.second >>> 1) % 2 ^ 16) s

/-- `FAT::FatDate`; the year is counted from 1980 in 16 bits. -/
def fatDate (v : Volume) : FatM ℕ := fun s =>
  let t := v.getTime s.trace
  .ok ((((t.year + 2 ^ 16 - 1980) % 2 ^ 16) <<< 9 ||| t.month <<< 5 ||| t.day) % 2 ^ 16) s

/-- Every access to the disk reports success. -/
def Device.AlwaysSucceeds (d : Device) : Prop :=
  (∀ history address, d.readStatus history address = 0) ∧
    ∀ history address, d.writeStatus history address = 0

end Vsos.Fat
