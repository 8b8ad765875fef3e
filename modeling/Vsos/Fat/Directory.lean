import Vsos.Fat.Name
import Vsos.Fat.Table
import Vsos.Lib.Loop

/-!
# Reading directories and resolving paths

A directory is read slot by slot. A FAT12 or FAT16 root directory lies in front of the data
region: its scan starts at the first root sector, covers `sectorsPerCluster` sectors, moves
on by a single sector and repeats, until a slot with first byte 0 ends it. Every other
directory is a chain of clusters.

The slots of a sector are counted by an 8-bit variable. The scans keep a budget for that
loop and for the loop over clusters, both of which can fail to end.
-/

namespace Vsos.Fat

open Vsos.Lib

/-- `FATEntryInfo`: a slot with its name and its place on the disk. -/
structure FATEntryInfo where
  entry : Bytes
  filename : List UInt8
  sector : ℕ
  offsetInSector : ℕ

/-- Does the call address the fixed root directory of a FAT12 or FAT16 volume? -/
def fixedRoot (v : Volume) (rootDirectory : Bool) : Bool :=
  rootDirectory && v.fatType != .FAT32

/-- The sector that the directory routines work on next. In the fixed root a sector number
of 0 stands for the start of the scan. -/
def scanStart (v : Volume) (rootDirectory : Bool) (sector cluster : ℕ) : ℕ :=
  if fixedRoot v rootDirectory then
    if sector = 0 then sub32 v.firstDataSector v.rootDirSectors else sector
  else clusterToSector v cluster

/-- The entries found so far and the long-name slots that wait for their 8.3 entry. -/
structure Scan where
  results : List FATEntryInfo
  lfnEntries : List Bytes

/-- The slot at an offset of a block, 32 bytes long. -/
def slotAt (block : Bytes) (offset : ℕ) : Bytes := fun i => if i < 32 then block (offset + i) else 0

/-- One round of the innermost loop of `GetDirectoryEntries`. -/
def scanSlot (entry : Bytes) (sector offset : ℕ) (sc : Scan) : Scan ⊕ Scan :=
  if entry 0 = entryEnd then .inr sc
  else if entry 0 = entryUnused then .inl sc
  else if entry 0 = 0x2E then .inl sc
  else if entry 0 = 0x05 then .inl sc
  else if attributes entry = attrVolumeId then .inl sc
  else if attributes entry = attrLongName then
    .inl { sc with lfnEntries := sc.lfnEntries ++ [entry] }
  else
    let filename := if sc.lfnEntries ≠ [] then parseLFNEntries sc.lfnEntries entry
      else parseShortFilename entry
    .inl ⟨sc.results ++ [⟨entry, filename, sector, offset⟩], []⟩

/-- The loop of `GetDirectoryEntries` over the sectors of a cluster, from `i` on. The right
result means that the call returns what it has. -/
def scanSectors (v : Volume) (budget sector : ℕ) : ℕ → ℕ → Scan → FatM (Scan ⊕ Scan)
  | 0, _, sc => return .inl sc
  | n + 1, i, sc => do
    let status ← readSector v (lba v sector i)
    if status ≠ 0 then return .inr sc
    else do
      let buffer ← getReadBuffer
      let body := fun j => scanSlot (slotAt buffer (32 * j)) (wrap32 (sector + i)) (32 * j)
      match loop8 (v.bytesPerSector / 32) body budget 0 sc with
      | none => throw .diverged
      | some (.inr sc') => return .inr sc'
      | some (.inl sc') => scanSectors v budget sector n (i + 1) sc'

/-- The outer loop of `GetDirectoryEntries`. -/
def getDirectoryLoop (v : Volume) (rootDirectory : Bool) (budget : ℕ) :
    ℕ → ℕ → ℕ → Scan → FatM (List FATEntryInfo)
  | 0, _, _, _ => throw .diverged
  | fuel + 1, sector, cluster, sc =>
    if ChainStops v cluster then return sc.results
    else do
      let start := scanStart v rootDirectory sector cluster
      match ← scanSectors v budget start v.sectorsPerCluster 0 sc with
      | .inr sc' => return sc'.results
      | .inl sc' =>
        -- the fixed root moves on by one sector, whatever the cluster size
        if fixedRoot v rootDirectory then
          getDirectoryLoop v rootDirectory budget fuel (wrap32 (start + 1)) cluster sc'
        else do
          let next ← readTable v cluster
          getDirectoryLoop v rootDirectory budget fuel start next sc'

/-- `FAT::GetDirectoryEntries`. -/
def getDirectoryEntries (v : Volume) (fuel dirCluster : ℕ) (rootDirectory : Bool) :
    FatM (List FATEntryInfo) :=
  getDirectoryLoop v rootDirectory fuel fuel 0 dirCluster ⟨[], []⟩

/-- `FAT::SeachInDirectory`: the first entry of that name. -/
def seachInDirectory (v : Volume) (fuel : ℕ) (name : List UInt8) (dirCluster : ℕ)
    (rootDirectory : Bool) : FatM (Option FATEntryInfo) := do
  let childs ← getDirectoryEntries v fuel dirCluster rootDirectory
  return childs.find? fun item => item.filename = name

/-- The loop of `GetEntryByPath` over the parts of a path. -/
def walkPath (v : Volume) (fuel : ℕ) :
    List (List UInt8) → ℕ → Bool → FatM (Option FATEntryInfo)
  | [], _, _ => return none
  | part :: rest, searchCluster, first => do
    match ← seachInDirectory v fuel part searchCluster first with
    | none => return none
    | some entry =>
      if rest = [] then return some entry
      else if isDirectory entry.entry then walkPath v fuel rest (getCluster entry.entry) false
      else return none

/-- `FAT::GetEntryByPath`. A path without a separator names an entry of the root. -/
def getEntryByPath (v : Volume) (fuel : ℕ) (path : List UInt8) : FatM (Option FATEntryInfo) :=
  let pathList := strSplit path pathSeperator
  if pathList = [] then seachInDirectory v fuel path v.rootDirCluster true
  else walkPath v fuel pathList v.rootDirCluster true

/-- `FAT::FileExists`. -/
def fileExists (v : Volume) (fuel : ℕ) (path : List UInt8) : FatM Bool := do
  match ← getEntryByPath v fuel path with
  | none => return false
  | some entry => return !isDirectory entry.entry

/-- `FAT::DirectoryExists`. -/
def directoryExists (v : Volume) (fuel : ℕ) (path : List UInt8) : FatM Bool := do
  match ← getEntryByPath v fuel path with
  | none => return false
  | some entry => return isDirectory entry.entry

/-- `FAT::GetFileSize`; a directory has the size -1. -/
def getFileSize (v : Volume) (fuel : ℕ) (path : List UInt8) : FatM ℕ := do
  match ← getEntryByPath v fuel path with
  | none => return 0
  | some entry => return if isDirectory entry.entry then 2 ^ 32 - 1 else fileSize entry.entry

end Vsos.Fat
