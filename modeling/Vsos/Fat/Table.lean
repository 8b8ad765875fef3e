import Vsos.Fat.Volume

/-!
# Clusters and the allocation table

The table accessors of the driver share their address computation: an entry is found
through its byte offset in the first table, the sector that holds this offset and the
offset inside that sector. They differ in how an entry is cut out of the sector. A FAT12
entry is one and a half bytes long and is read as a whole word even when the word ends in
the next sector; its second byte is then the byte behind `readBuffer`.
-/

namespace Vsos.Fat

open Vsos.Lib

/-- `FAT::ClusterToSector`. -/
def clusterToSector (v : Volume) (cluster : ℕ) : ℕ :=
  wrap32 (sub32 cluster 2 * v.sectorsPerCluster + v.firstDataSector)

/-- The negation of `(cluster != CLUSTER_FREE) && (cluster < CLUSTER_END)`, the condition under
which the chain walks of the driver go on. -/
def ChainStops (v : Volume) (cluster : ℕ) : Prop := cluster = clusterFree ∨ v.clusterEnd ≤ cluster

instance (v : Volume) (cluster : ℕ) : Decidable (ChainStops v cluster) :=
  inferInstanceAs (Decidable (_ ∨ _))

/-- `fatOffset`, the byte offset of an entry in the table. -/
def fatOffset (v : Volume) (cluster : ℕ) : ℕ :=
  match v.fatType with
  | .FAT32 => wrap32 (cluster * 4)
  | .FAT16 => wrap32 (cluster * 2)
  | .FAT12 => wrap32 (cluster + cluster / 2)

/-- `fatSector`, the sector an entry starts in. -/
def fatSector (v : Volume) (cluster : ℕ) : ℕ :=
  wrap32 (v.firstFatSector + fatOffset v cluster / v.bytesPerSector)

/-- `entOffset`, the offset of an entry in its sector. -/
def entOffset (v : Volume) (cluster : ℕ) : ℕ := fatOffset v cluster % v.bytesPerSector

/-- The entry of a cluster, cut out of the buffered table sector. -/
def tableValue (v : Volume) (cluster : ℕ) (buffer : Bytes) : ℕ :=
  match v.fatType with
  -- the high four bits of a FAT32 entry are ignored
  | .FAT32 => buffer.u32 (entOffset v cluster) % 2 ^ 28
  | .FAT16 => buffer.u16 (entOffset v cluster)
  | .FAT12 =>
    if cluster % 2 = 1 then buffer.u16 (entOffset v cluster) >>> 4
    else buffer.u16 (entOffset v cluster) &&& 0x0FFF

/-- Put a new entry into the buffered table sector. -/
def storeTableValue (v : Volume) (cluster value : ℕ) (buffer : Bytes) : Bytes :=
  match v.fatType with
  | .FAT32 => buffer.setU32 (entOffset v cluster) value
  | .FAT16 => buffer.setU16 (entOffset v cluster) value
  | .FAT12 =>
    let word := buffer.u16 (entOffset v cluster)
    if cluster % 2 = 1 then
      buffer.setU16 (entOffset v cluster) (word &&& 0x000F ||| wrap32 (value <<< 4))
    else
      buffer.setU16 (entOffset v cluster) (word &&& 0xF000 ||| value &&& 0x0FFF)

/-- `FAT::ReadTable`. A failed read looks like a free entry. -/
def readTable (v : Volume) (cluster : ℕ) : FatM ℕ :=
  if cluster < 2 ∨ v.totalClusters < cluster then return 0
  else do
    let status ← readSector v (lba v (fatSector v cluster) 0)
    if status ≠ 0 then return 0
    else do
      let buffer ← getReadBuffer
      return tableValue v cluster buffer

/-- `FAT::WriteTable`. Failures are printed and otherwise ignored. -/
def writeTable (v : Volume) (cluster value : ℕ) : FatM Unit :=
  if cluster < 2 ∨ v.totalClusters < cluster then return ()
  else do
    let status ← readSector v (lba v (fatSector v cluster) 0)
    if status ≠ 0 then return ()
    else do
      modifyReadBuffer (storeTableValue v cluster value)
      let _ ← writeReadBuffer v (lba v (fatSector v cluster) 0)
      return ()

/-- Record the cluster the next search starts from. -/
def setStartSearchCluster (cluster : ℕ) : FatM Unit :=
  change fun s => { s with startSearchCluster := cluster }

/-- The search loop of `FAT::AllocateCluster`, over `n` clusters from `cluster` on. -/
def allocateLoop (v : Volume) : ℕ → ℕ → FatM ℕ
  | 0, _ => return 0
  | n + 1, cluster => do
    let value ← readTable v cluster
    if value = clusterFree then do
      setStartSearchCluster cluster
      writeTable v cluster v.clusterEnd
      return cluster
    else allocateLoop v n (cluster + 1)

/-- `FAT::AllocateCluster`. The last cluster numbers of the volume are never tried. -/
def allocateCluster (v : Volume) : FatM ℕ := do
  let start ← look State.startSearchCluster
  let cluster ← allocateLoop v (v.totalClusters - start) start
  emit (.allocated cluster)
  return cluster

/-- The loop of `FAT::ClearCluster` over the sectors from `i` on. -/
def clearLoop (v : Volume) (sector : ℕ) : ℕ → ℕ → FatM Unit
  | 0, _ => return ()
  | n + 1, i => do
    let status ← writeReadBuffer v (lba v sector i)
    if status ≠ 0 then return ()
    else clearLoop v sector n (i + 1)

/-- `FAT::ClearCluster`. -/
def clearCluster (v : Volume) (cluster : ℕ) : FatM Unit := do
  modifyReadBuffer fun b => b.fill 0 v.bytesPerSector
  clearLoop v (clusterToSector v cluster) v.sectorsPerCluster 0

end Vsos.Fat
