import Vsos.Fat.Budget
import Vsos.Fat.Copying

/-!
# Where `ReadFile` stores

`ReadFile` copies every sector of a chain, also those past the requested length: once
`bytesRead` exceeds `len` the 32-bit difference wraps to a large number and a whole sector
is copied. The stores stay inside the first `len` bytes exactly when the last sector of the
chain starts no later than `len`.
-/

namespace Vsos.Fat

open Vsos.Lib

variable {v : Volume} {len : ℕ} {path : List UInt8} {s : State}

/-- Every stored byte has an index below `len`. -/
def StoresWithin (len : ℕ) (events : List Event) : Prop :=
  ∀ index count k, Event.store index count ∈ events → k < count → index + k < len

/-- The last sector of the file at `path` starts no later than `len`. -/
def ReadFits (v : Volume) (s : State) (path : List UInt8) (len : ℕ) : Prop :=
  ∀ entry t l, Returns (fun n => getEntryByPath v n path) s (some entry) t →
    isDirectory entry.entry = false →
    Walks (tableEntry v s) (ChainStops v) (getCluster entry.entry) l →
    (l.length * v.sectorsPerCluster - 1) * v.bytesPerSector ≤ len

/-- A sector that starts by `len` is cut at `len`. -/
theorem copyCount_le {x : ℕ} (hx : x ≤ len) (hlen : len < 2 ^ 32) :
    x + copyCount v len (wrap32 x) ≤ len := by
  have hsub : sub32 len (wrap32 x) = len - x := by
    rw [wrap32_of_lt (lt_of_le_of_lt hx hlen), sub32_of_le hx hlen]
  simp only [copyCount, hsub]
  split <;> omega

/-- A sector that starts less than `2 ^ 32` bytes past `len` is copied. -/
theorem copyCount_pos {x : ℕ} (hx : len < x) (hclose : x < len + 2 ^ 32)
    (hbytes : 0 < v.bytesPerSector) : 0 < copyCount v len (wrap32 x) := by
  have hsub : 0 < sub32 len (wrap32 x) := by
    unfold sub32 wrap32
    omega
  simp only [copyCount]
  split <;> omega

/-- All stores of `n` sectors stay below `len` when the last sector starts by `len`. -/
theorem storeOf_within {n k index count i : ℕ} (hlen : len < 2 ^ 32)
    (hfits : (n - 1) * v.bytesPerSector ≤ len) (hk : k < n)
    (hstore : Event.store index count = storeOf v len k) (hi : i < count) : index + i < len := by
  injection hstore with hindex hcount
  have hstart : k * v.bytesPerSector ≤ len :=
    (Nat.mul_le_mul_right _ (by omega : k ≤ n - 1)).trans hfits
  have := copyCount_le (v := v) hstart hlen
  omega

/-- The first sector that starts behind `len` is less than a sector away from it. -/
theorem exists_sector_behind {b n : ℕ} (hb : 0 < b) (hover : len < (n - 1) * b) :
    ∃ k, k < n ∧ len < k * b ∧ k * b ≤ len + b := by
  have hlt : len / b < n - 1 := (Nat.div_lt_iff_lt_mul hb).mpr hover
  refine ⟨len / b + 1, Nat.add_lt_of_lt_sub hlt, ?_, ?_⟩
  · rw [Nat.succ_mul, Nat.mul_comm]
    have := Nat.mod_lt len hb
    have := Nat.div_add_mod len b
    omega
  · rw [Nat.succ_mul]
    exact Nat.add_le_add_right (Nat.div_mul_le_self _ _) _

/-- With a length other than -1 the size of the file is not looked up. -/
theorem readFile_eq (hlen : len < 2 ^ 32 - 1) (v : Volume) (fuel : ℕ) (path : List UInt8)
    (buffer : Bytes) (offset : ℕ) :
    readFile v fuel path buffer offset len = readEntry v fuel path buffer len :=
  if_neg (by omega)

/-- What `ReadFile` does when the path was resolved. -/
theorem readFile_of_getEntry (hlen : len < 2 ^ 32 - 1) {fuel : ℕ} {t : State} {entry : FATEntryInfo}
    (hget : (getEntryByPath v fuel path).run s = .ok (some entry) t)
    (hfile : isDirectory entry.entry = false) (buffer : Bytes) (offset : ℕ) :
    (readFile v fuel path buffer offset len).run s =
      (readClusters v len fuel (getCluster entry.entry) ⟨0, 0, buffer⟩).run t := by
  rw [readFile_eq hlen, readEntry, bind_of_ok hget]
  simp only [hfile, Bool.false_eq_true, if_false]

/-- The chain of the file at `path` comes to an end. -/
def ChainEnds (v : Volume) (s : State) (path : List UInt8) : Prop :=
  ∀ entry t, Returns (fun n => getEntryByPath v n path) s (some entry) t →
    isDirectory entry.entry = false →
    ∃ l, Walks (tableEntry v s) (ChainStops v) (getCluster entry.entry) l

/-- Every byte that `ReadFile` stores lies in the first `len` bytes, at whatever point the run
is stopped. -/
def ReadFileStoresWithin (v : Volume) (s : State) (path : List UInt8) (buffer : Bytes)
    (offset len : ℕ) : Prop :=
  ∀ fuel, StoresWithin len
    (eventsSince s (final ((readFile v fuel path buffer offset len).run s)))

/-- Reading sectors stores nothing. -/
theorem Observes.storesWithin {t : State} (h : Reads v s t) (len : ℕ) :
    StoresWithin len (eventsSince s t) := by
  intro index count k hmem
  obtain ⟨_, heq⟩ := h.of_mem_eventsSince hmem
  cases heq

/-- The copy starts with the first sector. -/
theorem copy_at_zero (v : Volume) (buffer : Bytes) : (⟨0, 0, buffer⟩ : Copy).At v 0 := by
  constructor <;> simp [wrap32]

/-- A chain that fits keeps the stores inside, whatever the driver answers. -/
theorem storesWithin_of_fits (hlen : len < 2 ^ 32 - 1) (hchain : ChainEnds v s path)
    (hfits : ReadFits v s path len) (buffer : Bytes) (offset : ℕ) :
    ReadFileStoresWithin v s path buffer offset len := by
  intro fuel
  have hlookup := keepsReads_getEntryByPath v fuel path s
  cases hget : (getEntryByPath v fuel path).run s with
  | error e t =>
    rw [hget] at hlookup
    rw [readFile_eq hlen, readEntry, bind_of_error hget]
    exact hlookup.storesWithin len
  | ok r t =>
    rw [hget] at hlookup
    have hnone : StoresWithin len (eventsSince s t) := hlookup.storesWithin len
    cases r with
    | none => rw [readFile_eq hlen, readEntry, bind_of_ok hget]; exact hnone
    | some entry =>
      by_cases hdir : isDirectory entry.entry = true
      · rw [readFile_eq hlen, readEntry, bind_of_ok hget]
        simp only [hdir, if_true]
        exact hnone
      · have hfile : isDirectory entry.entry = false := by simpa using hdir
        have hres := (getEntryByPath_stable v path).returns hget
        obtain ⟨l, hwalk⟩ := hchain entry t hres hfile
        rw [readFile_of_getEntry hlen hget hfile]
        have hobs := (readClusters_run v len fuel
          (hwalk.congr fun c _ => hlookup.tableEntry_eq c) (copy_at_zero v buffer)).1
        rw [Nat.zero_add] at hobs
        intro index count k hmem hk
        rcases ((hlookup.mono fun _ => Or.inl).trans hobs).of_mem_eventsSince hmem with
          ⟨_, h⟩ | ⟨j, -, hj, h⟩
        · cases h
        · exact storeOf_within (by omega) (hfits entry t l hres hfile hwalk) hj h hk

/-- On a disk that answers, a file whose chain the driver walks over is copied as a whole. -/
theorem exists_readClusters (hread : ∀ h a, v.readStatus h a = 0) {entry : FATEntryInfo} {t : State}
    {l : List ℕ} (hres : Returns (fun n => getEntryByPath v n path) s (some entry) t)
    (hwalk : Walks (tableEntry v s) (ChainStops v) (getCluster entry.entry) l) (buffer : Bytes)
    (len : ℕ) :
    ∃ n u, (getEntryByPath v n path).run s = .ok (some entry) t ∧
      (readClusters v len n (getCluster entry.entry) ⟨0, 0, buffer⟩).run t =
        .ok (0, ((chainBlocks v s l).foldl (copySector v len) ⟨0, 0, buffer⟩).buffer) u ∧
      ∀ k < l.length * v.sectorsPerCluster, storeOf v len k ∈ eventsSince s u := by
  obtain ⟨n, hn⟩ := hres
  have hget := hn (max n (l.length + 1)) (le_max_left _ _)
  have hlookup := (keepsReads_getEntryByPath v _ path).of_ok hget
  obtain ⟨hobs, hreturns⟩ := readClusters_run v len (max n (l.length + 1))
    (hwalk.congr fun c _ => hlookup.tableEntry_eq c) (copy_at_zero v buffer)
  obtain ⟨u, hrun, hmem⟩ := hreturns hread
    (lt_of_lt_of_le (Nat.lt_succ_self _) (le_max_right n (l.length + 1)))
  rw [hrun] at hobs
  rw [hlookup.chainBlocks_eq] at hrun
  refine ⟨_, u, hget, hrun, fun k hk => ?_⟩
  rw [hlookup.eventsSince_append (u := u) hobs]
  exact List.mem_append_left _ (hmem k (Nat.zero_le k) (by omega))

/-- On a disk that answers, a chain that does not fit makes some store overshoot. -/
theorem fits_of_storesWithin (hlen : len < 2 ^ 32 - 1) (hread : ∀ h a, v.readStatus h a = 0)
    {buffer : Bytes} {offset : ℕ} (hwithin : ReadFileStoresWithin v s path buffer offset len) :
    ReadFits v s path len := by
  intro entry t l hres hfile hwalk
  by_contra hover
  obtain ⟨k, hk, houtside, hclose⟩ :=
    exists_sector_behind v.bytesPerSector_pos (Nat.lt_of_not_le hover)
  have hsmall := v.bytesPerSector_lt
  have hpos := copyCount_pos houtside (by omega) v.bytesPerSector_pos
  obtain ⟨n, u, hget, hrun, hmem⟩ := exists_readClusters hread hres hwalk buffer len
  have hbad := hwithin n
  rw [readFile_of_getEntry hlen hget hfile, hrun] at hbad
  exact absurd (hbad _ _ 0 (hmem k hk) hpos) (by omega)

/-- The stores of `ReadFile` lie in the first `len` bytes if the last sector of the chain starts
by then, whatever the driver answers; on a disk that answers, they do so only then. -/
theorem readFile_stores_within_iff (v : Volume) (s : State) (path : List UInt8) (buffer : Bytes)
    (offset len : ℕ) (hlen : len < 2 ^ 32 - 1) (hchain : ChainEnds v s path) :
    (ReadFits v s path len → ReadFileStoresWithin v s path buffer offset len) ∧
      ((∀ h a, v.readStatus h a = 0) →
        (ReadFileStoresWithin v s path buffer offset len ↔ ReadFits v s path len)) :=
  ⟨fun hfits => storesWithin_of_fits hlen hchain hfits buffer offset, fun hread =>
    ⟨fits_of_storesWithin hlen hread, fun hfits =>
      storesWithin_of_fits hlen hchain hfits buffer offset⟩⟩

section Sample

/-- Blocks given by the bytes at their front; all other bytes are 0. -/
def diskImage (blocks : List (ℕ × List UInt8)) : ℕ → Bytes := fun address i =>
  ((blocks.lookup address).getD []).getD i 0

/-- The 32 bytes of an 8.3 entry with zero dates. -/
def slotBytes (name : List UInt8) (attr : UInt8) (cluster size : ℕ) : List UInt8 :=
  name ++ [attr] ++ List.replicate 14 0 ++ [UInt8.ofNat cluster, UInt8.ofNat (cluster / 256),
    UInt8.ofNat size, UInt8.ofNat (size / 256), UInt8.ofNat (size / 65536), 0]

/-- A disk with 512-byte blocks that never fails, and a clock that stands still. -/
def steadyDevice : Device where
  blockSize := 512
  readStatus _ _ := 0
  writeStatus _ _ := 0
  getTime _ := ⟨1980, 1, 1, 0, 0, 0⟩

/-- The smallest FAT16 volume: a boot sector, a table of 16 sectors and a root directory of one
sector in front of 4085 clusters of `2 ^ k` sectors. -/
def smallVolume (k : Fin 8) : Volume where
  fatType := .FAT16
  startLBA := 0
  bytesPerSector := 512
  rootDirSectors := 1
  sectorsPerCluster := 2 ^ k.val
  firstDataSector := 18
  firstFatSector := 1
  rootDirCluster := 17
  totalClusters := 4085
  startLBA_lt := by decide
  bytesPerSector_pos := by decide
  bytesPerSector_lt := by decide
  rootDirSectors_lt := by decide
  sectorsPerCluster_pos := Nat.two_pow_pos _
  sectorsPerCluster_lt := Nat.pow_lt_pow_right (by decide) k.isLt
  firstDataSector_lt := by decide
  firstFatSector_lt := by decide
  rootDirCluster_lt := by decide
  totalClusters_lt := by decide
  toDevice := steadyDevice

/-- A volume just mounted, with the allocation cursor at its first cluster. -/
def mounted (data : ℕ → Bytes) : State := ⟨data, fun _ => 0, 2, []⟩

/-- The name `A.TXT`. -/
def samplePath : List UInt8 := [0x41, 0x2E, 0x54, 0x58, 0x54]

/-- The name bytes of `A.TXT` in an 8.3 entry. -/
def sampleName : List UInt8 := [0x41, 0x20, 0x20, 0x20, 0x20, 0x20, 0x20, 0x20, 0x54, 0x58, 0x54]

/-- One file `A.TXT` of 100 bytes in cluster 2. -/
def sampleState : State :=
  mounted (diskImage [(1, [0xF8, 0xFF, 0xFF, 0xFF, 0xF8, 0xFF]), (17, slotBytes sampleName 0x20 2 100)])

/-- What `A.TXT` leads to. -/
theorem sample_resolved : ∃ entry, resolved (smallVolume 1) sampleState 18 samplePath = some entry ∧
    isDirectory entry.entry = false ∧ getCluster entry.entry = 2 := by
  have h : (resolved (smallVolume 1) sampleState 18 samplePath).map
      (fun e => (isDirectory e.entry, getCluster e.entry)) = some (false, 2) := by decide +kernel
  obtain ⟨entry, hentry, heq⟩ := Option.map_eq_some_iff.mp h
  injection heq with hfile hcluster
  exact ⟨entry, hentry, hfile, hcluster⟩

/-- The file of the sample has one cluster. -/
theorem sample_walks :
    Walks (tableEntry (smallVolume 1) sampleState) (ChainStops (smallVolume 1)) 2 [2] :=
  ⟨rfl, by decide, show ChainStops _ _ by decide +kernel⟩

/-- The chain of the sample ends. -/
theorem sample_chainEnds : ChainEnds (smallVolume 1) sampleState samplePath := by
  intro entry t hres _
  obtain ⟨entry', hentry', -, hcluster⟩ := sample_resolved
  rw [eq_of_returns_of_resolved _ hentry' hres, hcluster]
  exact ⟨[2], sample_walks⟩

/-- Reading 100 bytes of a file with one cluster of two sectors stores all of the second sector,
412 bytes behind the end of the buffer. -/
theorem readFile_stores_behind_buffer :
    ¬ ∀ (v : Volume) (s : State) (path : List UInt8) (buffer : Bytes) (offset len : ℕ),
      len < 2 ^ 32 - 1 → ChainEnds v s path →
      ReadFileStoresWithin v s path buffer offset len := by
  intro h
  have hwithin := h (smallVolume 1) sampleState samplePath (fun _ => 0) 0 100
    (by decide) sample_chainEnds 18
  have hstore : Event.store 512 512 ∈ eventsSince sampleState
      (final ((readFile (smallVolume 1) 18 samplePath (fun _ => 0) 0 100).run sampleState)) := by
    decide +kernel
  exact absurd (hwithin 512 512 0 hstore (by decide)) (by decide)

/-- A buffer of 600 bytes is long enough for the second sector to be cut. -/
theorem readFile_stores_within_600 :
    ReadFileStoresWithin (smallVolume 1) sampleState samplePath (fun _ => 0) 0 600 := by
  refine (readFile_stores_within_iff _ _ _ _ _ _ (by decide) sample_chainEnds).1 ?_
  intro entry t l hres _ hwalk
  obtain ⟨entry', hentry', -, hcluster⟩ := sample_resolved
  rw [eq_of_returns_of_resolved _ hentry' hres, hcluster] at hwalk
  rw [hwalk.unique sample_walks]
  decide

end Sample

end Vsos.Fat
