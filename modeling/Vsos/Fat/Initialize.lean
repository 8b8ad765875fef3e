import Vsos.Fat.Volume

/-!
# Mounting a volume

`FAT::Initialize` reads the boot sector of a partition and computes the geometry of the volume
from it, in 32 bits and without a check of any field. The type of the volume follows from the
number of its clusters. Only a FAT32 volume has a sector with the cluster at which the search for
a free one starts; the other types start at the first cluster.
-/

namespace Vsos.Fat

open Vsos.Lib

/-- The fields of `FAT32_BPB` that `Initialize` uses. -/
structure FAT32BPB where
  bytesPerSector : UInt16
  sectorsPerCluster : UInt8
  reservedSectors : UInt16
  numOfFats : UInt8
  numDirEntries : UInt16
  totalSectorsSmall : UInt16
  sectorsPerFat12_16 : UInt16
  totalSectorsBig : UInt32
  sectorsPerFat32 : UInt32
  rootDirCluster : UInt32
  fsInfoSector : UInt16
  deriving DecidableEq, Repr

/-- The boot sector, at the offsets of the packed structure. -/
def FAT32BPB.ofBytes (b : Bytes) : FAT32BPB where
  bytesPerSector := .ofNat (b.u16 11)
  sectorsPerCluster := b 13
  reservedSectors := .ofNat (b.u16 14)
  numOfFats := b 16
  numDirEntries := .ofNat (b.u16 17)
  totalSectorsSmall := .ofNat (b.u16 19)
  sectorsPerFat12_16 := .ofNat (b.u16 22)
  totalSectorsBig := .ofNat (b.u32 32)
  sectorsPerFat32 := .ofNat (b.u32 36)
  rootDirCluster := .ofNat (b.u32 44)
  fsInfoSector := .ofNat (b.u16 48)

namespace FAT32BPB

variable (bpb : FAT32BPB)

def rootDirSectors : ℕ :=
  (bpb.numDirEntries.toNat * 32 + (bpb.bytesPerSector.toNat - 1)) / bpb.bytesPerSector.toNat

/-- `FatSize`. -/
def fatSize : ℕ :=
  if bpb.sectorsPerFat12_16 ≠ 0 then bpb.sectorsPerFat12_16.toNat else bpb.sectorsPerFat32.toNat

/-- The sector behind the tables. -/
def tablesEnd : ℕ := wrap32 (bpb.reservedSectors.toNat + bpb.numOfFats.toNat * bpb.fatSize)

def firstDataSector : ℕ := wrap32 (bpb.tablesEnd + bpb.rootDirSectors)

/-- `TotalSectors`. -/
def totalSectors : ℕ :=
  if bpb.totalSectorsSmall ≠ 0 then bpb.totalSectorsSmall.toNat else bpb.totalSectorsBig.toNat

/-- The number of clusters; the number of sectors of the data region wraps. -/
def totalClusters : ℕ :=
  sub32 bpb.totalSectors bpb.firstDataSector / bpb.sectorsPerCluster.toNat

def fatType : FATType :=
  if bpb.totalClusters < 4085 then .FAT12 else if bpb.totalClusters < 65525 then .FAT16 else .FAT32

/-- `rootDirCluster`, which is a sector number on a FAT12 or FAT16 volume. -/
def rootCluster : ℕ :=
  if bpb.fatType = .FAT32 then bpb.rootDirCluster.toNat else bpb.tablesEnd

/-- The size of the root fits its variable. -/
theorem rootDirSectors_lt (hpos : 0 < bpb.bytesPerSector.toNat) : bpb.rootDirSectors < 2 ^ 32 := by
  have hentries := bpb.numDirEntries.toNat_lt
  have hsector := bpb.bytesPerSector.toNat_lt
  exact (Nat.div_le_self _ _).trans_lt (by omega)

/-- The number of clusters fits its variable. -/
theorem totalClusters_lt : bpb.totalClusters < 2 ^ 32 :=
  (Nat.div_le_self _ _).trans_lt (Nat.mod_lt _ (Nat.two_pow_pos 32))

/-- The root cluster fits its variable. -/
theorem rootCluster_lt : bpb.rootCluster < 2 ^ 32 := by
  rw [rootCluster]
  split
  · exact bpb.rootDirCluster.toNat_lt
  · exact Nat.mod_lt _ (Nat.two_pow_pos 32)

/-- The members of `FAT` for this boot sector, unless `Initialize` divides by 0. -/
def geometry (startLBA : UInt32) : Option Geometry :=
  if h : 0 < bpb.bytesPerSector.toNat ∧ 0 < bpb.sectorsPerCluster.toNat then
    some
      { fatType := bpb.fatType
        startLBA := startLBA.toNat
        bytesPerSector := bpb.bytesPerSector.toNat
        rootDirSectors := bpb.rootDirSectors
        sectorsPerCluster := bpb.sectorsPerCluster.toNat
        firstDataSector := bpb.firstDataSector
        firstFatSector := bpb.reservedSectors.toNat
        rootDirCluster := bpb.rootCluster
        totalClusters := bpb.totalClusters
        startLBA_lt := startLBA.toNat_lt.trans (by decide)
        bytesPerSector_pos := h.1
        bytesPerSector_lt := bpb.bytesPerSector.toNat_lt
        rootDirSectors_lt := bpb.rootDirSectors_lt h.1
        sectorsPerCluster_pos := h.2
        sectorsPerCluster_lt := bpb.sectorsPerCluster.toNat_lt
        firstDataSector_lt := Nat.mod_lt _ (Nat.two_pow_pos 32)
        firstFatSector_lt := bpb.reservedSectors.toNat_lt.trans (by decide)
        rootDirCluster_lt := bpb.rootCluster_lt
        totalClusters_lt := bpb.totalClusters_lt }
  else none

end FAT32BPB

/-- `disk->ReadSector(address, dst)` into a structure of its own. -/
def readInto (d : Device) (address : ℕ) (dst : Bytes) : FatM (Option Bytes) := fun s =>
  .ok (if d.readStatus s.trace address = 0 then some (dst.blit 0 (s.data address) d.blockSize) else none)
    { s with trace := .readSector address :: s.trace }

/-- The start of the search in `fsInfo`. The constructor fills the structure with zeros, and only a
FAT32 volume that names a sector for it reads it. -/
def readFSInfo (d : Device) (g : Geometry) (fsInfoSector : ℕ) : FatM (Option ℕ) :=
  if g.fatType = .FAT32 ∧ 0 < fsInfoSector then do
    match ← readInto d (wrap64 (g.startLBA + fsInfoSector)) fun _ => 0 with
    | none => return none
    | some fsInfo => return some (fsInfo.u32 492)
  else return some 0

/-- The start of the search that a volume uses. -/
def searchStart (fatType : FATType) (startSearchCluster : ℕ) : ℕ :=
  if startSearchCluster = 0xFFFFFFFF then 2
  else if fatType = .FAT12 ∨ fatType = .FAT16 then 2
  else startSearchCluster

/-- `FAT::Initialize`, with what it leaves in the members. `start_lba` comes from the partition
table; `stack` is what lies in the place of the boot sector structure before it is read, and `heap`
in the place of the new `readBuffer`. -/
def fatInitialize (d : Device) (start_lba : UInt32) (stack heap : Bytes) : FatM (Option Volume) := do
  match ← readInto d start_lba.toNat stack with
  | none => return none
  | some sector =>
    match (FAT32BPB.ofBytes sector).geometry start_lba with
    | none => throw .fault
    | some g =>
      modifyReadBuffer fun _ => heap
      match ← readFSInfo d g (FAT32BPB.ofBytes sector).fsInfoSector.toNat with
      | none => return none
      | some startSearchCluster =>
        change fun s => { s with startSearchCluster := searchStart g.fatType startSearchCluster }
        return some { toGeometry := g, toDevice := d }

/-- What the fields of a boot sector say about any volume that is mounted. -/
structure Booted (v : Volume) : Prop where
  startLBA_lt : v.startLBA < 2 ^ 32
  firstFatSector_lt : v.firstFatSector < 2 ^ 16
  fat12 : v.fatType = .FAT12 ↔ v.totalClusters < 4085
  fat16 : v.fatType = .FAT16 ↔ 4085 ≤ v.totalClusters ∧ v.totalClusters < 65525

/-- A geometry that is accepted is that of a boot sector. -/
theorem FAT32BPB.booted {bpb : FAT32BPB} {startLBA : UInt32} {v : Volume}
    (h : bpb.geometry startLBA = some v.toGeometry) : Booted v := by
  rw [geometry] at h
  split at h
  · obtain ⟨g, d⟩ := v
    cases h
    refine ⟨startLBA.toNat_lt, bpb.reservedSectors.toNat_lt, ?_, ?_⟩
    · simp only [fatType]
      split
      · simpa
      · split <;> simp_all
    · simp only [fatType]
      split
      · simp
        omega
      · split <;> simp_all
  · cases h

section Mounting

variable {d : Device} {start_lba : UInt32} {stack heap : Bytes} {s t : State} {v : Volume}

/-- A volume is mounted from the boot sector that the disk delivers. -/
theorem fatInitialize_eq_ok
    (hrun : (fatInitialize d start_lba stack heap).run s = .ok (some v) t) :
    Booted v ∧ v.toDevice = d ∧ t.data = s.data ∧
      (v.fatType ≠ .FAT32 → t.startSearchCluster = 2) := by
  obtain ⟨sector, s₁, hread, hrun⟩ := bind_eq_ok.mp hrun
  have hs₁ : s₁.data = s.data := by
    cases hread
    rfl
  cases sector with
  | none => cases hrun
  | some sector =>
    simp only at hrun
    cases hgeometry : (FAT32BPB.ofBytes sector).geometry start_lba with
    | none =>
      rw [hgeometry] at hrun
      cases hrun
    | some g =>
      rw [hgeometry] at hrun
      obtain ⟨_, s₂, hbuffer, hrun⟩ := bind_eq_ok.mp hrun
      obtain ⟨start, s₃, hinfo, hrun⟩ := bind_eq_ok.mp hrun
      cases start with
      | none => cases hrun
      | some start =>
        obtain ⟨_, s₄, hset, hrun⟩ := bind_eq_ok.mp hrun
        cases hrun
        cases hset
        have hdata : s₃.data = s.data := by
          rw [← hs₁]
          cases hbuffer
          rw [readFSInfo] at hinfo
          split at hinfo
          · obtain ⟨info, u, hread', hinfo⟩ := bind_eq_ok.mp hinfo
            cases hread'
            split at hinfo
            · cases hinfo
            · cases hinfo
              rfl
          · cases hinfo
            rfl
        refine ⟨FAT32BPB.booted hgeometry, rfl, hdata, fun htype => ?_⟩
        have hother : g.fatType = .FAT12 ∨ g.fatType = .FAT16 := by
          cases h : g.fatType with
          | FAT12 => exact Or.inl rfl
          | FAT16 => exact Or.inr rfl
          | FAT32 => exact absurd h htype
        change searchStart g.fatType start = 2
        rw [searchStart]
        split <;> rfl

end Mounting

end Vsos.Fat
