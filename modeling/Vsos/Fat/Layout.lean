import Vsos.Fat.Copying

/-!
# The layout of a volume on the disk

What a FAT volume means does not depend on the driver: the table is a run of bytes that
starts at the first table sector, the root directory of a FAT12 or FAT16 volume lies between
the table and the data region, and cluster number 2 starts the data region. This module
states the layout without the driver's buffer, its 32-bit arithmetic and its range checks,
and shows where the accessors of the driver agree with it.
-/

namespace Vsos.Fat

open Vsos.Lib

variable {cluster k : ℕ}

/-- The first sector of the root directory region. -/
def Geometry.rootStart (g : Geometry) : ℕ := g.firstDataSector - g.rootDirSectors

/-- The bytes that the entries of all clusters take. -/
def Geometry.tableSize (g : Geometry) : ℕ :=
  match g.fatType with
  | .FAT32 => 4 * (g.totalClusters + 2)
  | .FAT16 => 2 * (g.totalClusters + 2)
  | .FAT12 => (3 * (g.totalClusters + 2) + 1) / 2

/-- A volume whose regions follow each other without overlap and can be addressed. -/
structure Volume.WellFormed (v : Volume) : Prop where
  blockSize_eq : v.blockSize = v.bytesPerSector
  slots_dvd : 32 ∣ v.bytesPerSector
  root_le : v.rootDirSectors ≤ v.firstDataSector
  table_le : v.firstFatSector * v.bytesPerSector + v.tableSize ≤ v.rootStart * v.bytesPerSector
  data_le : v.firstDataSector + v.totalClusters * v.sectorsPerCluster ≤ 2 ^ 32
  lba_le : v.startLBA + (v.firstDataSector + v.totalClusters * v.sectorsPerCluster) ≤ 2 ^ 64
  clusters_lt : v.totalClusters + 1 < v.clusterEnd

/-- The table as one run of bytes. -/
def tableBytes (v : Volume) (s : State) : Bytes := fun b =>
  s.data (v.startLBA + (v.firstFatSector + b / v.bytesPerSector)) (b % v.bytesPerSector)

/-- Where the entry of a cluster starts in the table. -/
def entryOffset (v : Volume) (cluster : ℕ) : ℕ :=
  match v.fatType with
  | .FAT32 => 4 * cluster
  | .FAT16 => 2 * cluster
  | .FAT12 => cluster + cluster / 2

/-- The entry of a cluster as the disk holds it. -/
def diskEntry (v : Volume) (s : State) (cluster : ℕ) : ℕ :=
  match v.fatType with
  | .FAT32 => (tableBytes v s).u32 (entryOffset v cluster) % 2 ^ 28
  | .FAT16 => (tableBytes v s).u16 (entryOffset v cluster)
  | .FAT12 =>
    if cluster % 2 = 1 then (tableBytes v s).u16 (entryOffset v cluster) >>> 4
    else (tableBytes v s).u16 (entryOffset v cluster) &&& 0x0FFF

/-- The address of sector `i` of a cluster. -/
def clusterAddress (v : Volume) (cluster i : ℕ) : ℕ :=
  v.startLBA + (v.firstDataSector + (cluster - 2) * v.sectorsPerCluster + i)

/-- A number of a cluster of the data region. -/
def IsCluster (v : Volume) (cluster : ℕ) : Prop := 2 ≤ cluster ∧ cluster ≤ v.totalClusters + 1

/-- The entry starts in the last byte of a table sector and ends in the next sector. Only the
entries of a FAT12 table can do so. -/
def Straddles (v : Volume) (cluster : ℕ) : Prop :=
  v.fatType = .FAT12 ∧ entryOffset v cluster % v.bytesPerSector + 1 = v.bytesPerSector

/-- The smallest end mark. -/
theorem Geometry.clusterEnd_le (g : Geometry) : g.clusterEnd ≤ 2 ^ 28 := by
  unfold Geometry.clusterEnd
  split <;> simp

/-- The root comes before the data. -/
theorem Geometry.rootStart_le (g : Geometry) : g.rootStart ≤ g.firstDataSector := Nat.sub_le _ _

/-- The data follow the root. -/
theorem Volume.WellFormed.rootStart_add {v : Volume} (h : v.WellFormed) :
    v.rootStart + v.rootDirSectors = v.firstDataSector :=
  Nat.sub_add_cancel h.root_le

/-- An entry lies in the table. -/
theorem entryOffset_lt {v : Volume} (h : cluster ≤ v.totalClusters + 1) :
    entryOffset v cluster + 1 < v.tableSize := by
  unfold entryOffset Geometry.tableSize
  cases v.fatType <;> simp only <;> omega

/-- Bytes of the table in one sector. -/
theorem tableBytes_add {v : Volume} (s : State) {b : ℕ}
    (h : b % v.bytesPerSector + k < v.bytesPerSector) :
    tableBytes v s (b + k) =
      s.data (v.startLBA + (v.firstFatSector + b / v.bytesPerSector)) (b % v.bytesPerSector + k) := by
  have hsplit : b + k = b % v.bytesPerSector + k + v.bytesPerSector * (b / v.bytesPerSector) := by
    have := Nat.mod_add_div b v.bytesPerSector
    omega
  have hdiv : (b + k) / v.bytesPerSector = b / v.bytesPerSector := by
    rw [hsplit, Nat.add_mul_div_left _ _ v.bytesPerSector_pos, Nat.div_eq_of_lt h, Nat.zero_add]
  have hmod : (b + k) % v.bytesPerSector = b % v.bytesPerSector + k := by
    rw [hsplit, Nat.add_mul_mod_self_left, Nat.mod_eq_of_lt h]
  rw [tableBytes, hdiv, hmod]

namespace Volume.WellFormed

variable {v : Volume} (hwf : v.WellFormed)
include hwf

/-- The sectors of the table lie in front of the root directory. -/
theorem tableSector_lt {b : ℕ} (h : b < v.tableSize) :
    v.firstFatSector + b / v.bytesPerSector < v.rootStart := by
  have hle := hwf.table_le
  have hmul : (v.firstFatSector + b / v.bytesPerSector) * v.bytesPerSector <
      v.rootStart * v.bytesPerSector := by
    rw [Nat.add_mul]
    have := Nat.div_mul_le_self b v.bytesPerSector
    omega
  exact Nat.lt_of_mul_lt_mul_right hmul

/-- The offset of an entry does not wrap around. -/
theorem fatOffset_eq (h : cluster ≤ v.totalClusters + 1) :
    fatOffset v cluster = entryOffset v cluster := by
  have hend := v.clusterEnd_le
  have hlt := hwf.clusters_lt
  unfold fatOffset entryOffset
  cases v.fatType with
  | FAT12 => exact wrap32_of_lt (by omega)
  | FAT16 => simp only; rw [wrap32_of_lt (by omega), Nat.mul_comm]
  | FAT32 => rw [wrap32_of_lt (by omega), Nat.mul_comm]

/-- The driver finds the table sector of a cluster. -/
theorem lba_fatSector (h : cluster ≤ v.totalClusters + 1) :
    lba v (fatSector v cluster) 0 =
      v.startLBA + (v.firstFatSector + entryOffset v cluster / v.bytesPerSector) := by
  have hsector := hwf.tableSector_lt (Nat.lt_of_succ_lt (entryOffset_lt h))
  have hroot := v.rootStart_le
  have hdata := v.firstDataSector_lt
  have hlba := hwf.lba_le
  rw [lba, fatSector, hwf.fatOffset_eq h, wrap32_of_lt (by omega), wrap64, Nat.add_zero,
    Nat.mod_eq_of_lt (by omega)]

/-- The driver finds the sectors of a cluster. -/
theorem lba_cluster {i : ℕ} (h : IsCluster v cluster) (hi : i < v.sectorsPerCluster) :
    lba v (clusterToSector v cluster) i = clusterAddress v cluster i := by
  obtain ⟨hlow, hhigh⟩ := h
  have hend := v.clusterEnd_le
  have hlt := hwf.clusters_lt
  have hdata := hwf.data_le
  have hlba := hwf.lba_le
  have hmul : (cluster - 2) * v.sectorsPerCluster + v.sectorsPerCluster ≤
      v.totalClusters * v.sectorsPerCluster := by
    rw [← Nat.succ_mul]
    exact Nat.mul_le_mul_right _ (by omega)
  have hsub : sub32 cluster 2 = cluster - 2 := sub32_of_le hlow (by omega)
  rw [lba, clusterToSector, hsub, wrap32_of_lt (by omega), wrap64, clusterAddress]
  omega

/-- A block read from the disk shows the disk up to the sector size. -/
theorem blockAt_apply (s : State) (address : ℕ) {i : ℕ} (h : i < v.bytesPerSector) :
    blockAt v s address i = s.data address i := by
  have hblock := hwf.blockSize_eq
  rw [blockAt, Bytes.blit_of_mem (by omega) (by omega), Nat.sub_zero]

/-- Storing 32 bytes in a buffered block and writing it back changes these bytes of the disk. -/
theorem blit_blockAt (s : State) (address : ℕ) {offset : ℕ} (h : offset + 32 ≤ v.bytesPerSector)
    (new : Bytes) :
    (s.data address).blit 0 ((blockAt v s address).blit offset new 32) v.blockSize =
      (s.data address).blit offset new 32 := by
  have hblock := hwf.blockSize_eq
  funext i
  by_cases hi : i < v.bytesPerSector
  · rw [Bytes.blit_of_mem (Nat.zero_le _) (by omega), Nat.sub_zero]
    unfold Bytes.blit
    split
    · rfl
    · exact hwf.blockAt_apply s address hi
  · rw [Bytes.blit_of_not_mem (by omega), Bytes.blit_of_not_mem (by omega)]

/-- A word of the buffered table sector is a word of the table. -/
theorem blockAt_table (s : State) (h : cluster ≤ v.totalClusters + 1)
    (hk : entryOffset v cluster % v.bytesPerSector + k < v.bytesPerSector) :
    blockAt v s (lba v (fatSector v cluster) 0) (entOffset v cluster + k) =
      tableBytes v s (entryOffset v cluster + k) := by
  rw [hwf.lba_fatSector h, entOffset, hwf.fatOffset_eq h, hwf.blockAt_apply s _ hk,
    tableBytes_add s hk]

/-- Entries of two or four bytes never straddle. -/
theorem entry_inside {m : ℕ} (hm : m ∣ 32) (hdvd : m ∣ entryOffset v cluster) (hk : k < m) :
    entryOffset v cluster % v.bytesPerSector + k < v.bytesPerSector := by
  have hmod : m ∣ entryOffset v cluster % v.bytesPerSector :=
    (Nat.dvd_mod_iff (Nat.dvd_trans hm hwf.slots_dvd)).mpr hdvd
  have hlt := Nat.mod_lt (entryOffset v cluster) v.bytesPerSector_pos
  obtain ⟨a, ha⟩ := hmod
  obtain ⟨b, hb⟩ := Nat.dvd_trans hm hwf.slots_dvd
  rw [ha, hb] at hlt ⊢
  have hab : a < b := Nat.lt_of_mul_lt_mul_left hlt
  calc m * a + k < m * a + m := by omega
    _ = m * (a + 1) := (Nat.mul_succ m a).symm
    _ ≤ m * b := Nat.mul_le_mul_left m hab

/-- `ReadTable` returns the entry of the disk, for an entry that does not straddle or whose
last byte happens to lie behind the buffer. -/
theorem tableEntry_eq_diskEntry (s : State) (hlow : 2 ≤ cluster) (hhigh : cluster ≤ v.totalClusters)
    (hstraddle : Straddles v cluster →
      s.readBuffer v.bytesPerSector = tableBytes v s (entryOffset v cluster + 1)) :
    tableEntry v s cluster = diskEntry v s cluster := by
  have hle : cluster ≤ v.totalClusters + 1 := by omega
  rw [tableEntry, if_neg (by omega), tableValue, diskEntry]
  cases htype : v.fatType with
  | FAT32 =>
    have hdvd : 4 ∣ entryOffset v cluster := ⟨cluster, by simp [entryOffset, htype]⟩
    rw [Bytes.u32_congr fun k hk => hwf.blockAt_table s hle (hwf.entry_inside (by decide) hdvd hk)]
  | FAT16 =>
    have hdvd : 2 ∣ entryOffset v cluster := ⟨cluster, by simp [entryOffset, htype]⟩
    have hbyte {k : ℕ} (hk : k < 2) :=
      hwf.blockAt_table s hle (hwf.entry_inside (by decide) hdvd hk)
    exact Bytes.u16_congr (hbyte (by decide : 0 < 2)) (hbyte (by decide : 1 < 2))
  | FAT12 =>
    have hlt := Nat.mod_lt (entryOffset v cluster) v.bytesPerSector_pos
    have hfirst : blockAt v s (lba v (fatSector v cluster) 0) (entOffset v cluster) =
        tableBytes v s (entryOffset v cluster) := hwf.blockAt_table s (k := 0) hle hlt
    have hsecond : blockAt v s (lba v (fatSector v cluster) 0) (entOffset v cluster + 1) =
        tableBytes v s (entryOffset v cluster + 1) := by
      by_cases hend : entryOffset v cluster % v.bytesPerSector + 1 = v.bytesPerSector
      · rw [← hstraddle ⟨htype, hend⟩, entOffset, hwf.fatOffset_eq hle, hend, blockAt,
          Bytes.blit_of_not_mem (by rw [hwf.blockSize_eq]; omega)]
      · exact hwf.blockAt_table s hle (by omega)
    rw [Bytes.u16_congr hfirst hsecond]

end Volume.WellFormed

end Vsos.Fat
