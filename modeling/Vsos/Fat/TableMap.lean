import Vsos.Fat.Initialize
import Vsos.Fat.Links
import Vsos.Fat.ReadBounds

/-!
# The table as a map

On a mounted volume `WriteTable` and `ReadTable` treat the table as a map from cluster numbers to
entries exactly when every entry is placed. Offsets beyond 32 bits and FAT12 entries that span two
sectors are the two ways to miss an entry.
-/

namespace Vsos.Fat

open Vsos.Lib

variable {v : Volume} {s t : State} {cluster : ℕ}

/-- The indices of `readBuffer` that `ReadTable` and `WriteTable` access for an entry. -/
def entryAccess (v : Volume) (cluster : ℕ) : List ℕ :=
  (List.range (entrySize v)).map (entOffset v cluster + ·)

section Laws

/-- A cluster number that the accessors of the table accept. -/
def InTable (v : Volume) (cluster : ℕ) : Prop := 2 ≤ cluster ∧ cluster ≤ v.totalClusters

/-- `WriteTable(cluster, value)` leads from `s` to `t`, `ReadTable` returns what an entry keeps of
the value there, and for any other cluster what it returned before. -/
structure StoresEntry (v : Volume) (s t : State) (cluster value : ℕ) : Prop where
  run : (writeTable v cluster value).run s = .ok () t
  self : answer ((readTable v cluster).run t) = some (entryValue v value)
  others : ∀ c, InTable v c → c ≠ cluster →
    answer ((readTable v c).run t) = answer ((readTable v c).run s)

/-- The state after a store into the table. -/
def State.afterStore (v : Volume) (s : State) (cluster value : ℕ) : State :=
  let address := lba v (fatSector v cluster) 0
  let buffer := storeTableValue v cluster value (blockAt v s address)
  { s with
    data := Function.update s.data address ((s.data address).blit 0 buffer v.blockSize)
    readBuffer := buffer
    trace := .writeSector address :: .readSector address :: s.trace }

/-- What `WriteTable` does to the disk. -/
theorem writeTable_afterStore (hdev : v.AlwaysSucceeds) (hc : InTable v cluster) (value : ℕ)
    (s : State) : (writeTable v cluster value).run s = .ok () (s.afterStore v cluster value) := by
  obtain ⟨hlow, hhigh⟩ := hc
  rw [writeTable, if_neg (by omega), bind_of_ok (readSector_run hdev.1 _ s), if_neg (by simp),
    bind_of_ok (modifyReadBuffer_run _ _), bind_of_ok (writeReadBuffer_run hdev.2 _ _)]
  rfl

/-- What `ReadTable` answers. -/
theorem answer_readTable (hdev : v.AlwaysSucceeds) (cluster : ℕ) (s : State) :
    answer ((readTable v cluster).run s) = some (tableEntry v s cluster) := by
  obtain ⟨t, hrun, -⟩ := readTable_run hdev.1 cluster s
  rw [hrun]
  rfl

/-- Placed entries are the cells of a map. -/
theorem storesEntry_of_placed (hdev : v.AlwaysSucceeds) (hplaced : ∀ c, InTable v c → Placed v c)
    (hc : InTable v cluster) (value : ℕ) (s : State) :
    StoresEntry v s (s.afterStore v cluster value) cluster value ∧
      Alters (fun a => a = entryAddress v cluster) s (s.afterStore v cluster value) := by
  have hstore := (hplaced cluster hc).diskEntry_store (t := s.afterStore v cluster value) value rfl
  have hread (c : ℕ) (h : InTable v c) (u : State) :
      answer ((readTable v c).run u) = some (diskEntry v u c) := by
    rw [answer_readTable hdev, (hplaced c h).tableEntry_eq u h.1 h.2]
  refine ⟨⟨writeTable_afterStore hdev hc value s, ?_, ?_⟩, ?_, ?_⟩
  · rw [hread cluster hc, hstore, Function.update_self]
  · intro c h hne
    rw [hread c h, hread c h, hstore, Function.update_of_ne hne]
  · intro a ha
    refine Function.update_of_ne (fun heq => ha ?_) _ _
    rw [heq, (hplaced cluster hc).address_eq]
  · refine ⟨[.writeSector _, .readSector _], rfl, ?_⟩
    simp [Event.Confined, (hplaced cluster hc).address_eq]

/-- On a mounted volume, an entry is placed that needs no more than 32 bits for its offset and
lies in one sector. -/
theorem Booted.placed (hboot : Booted v) (hoffset : entryOffset v cluster < 2 ^ 32)
    (hsector : entryOffset v cluster % v.bytesPerSector + entrySize v ≤ v.bytesPerSector)
    (hblock : entryOffset v cluster % v.bytesPerSector + entrySize v ≤ v.blockSize) :
    Placed v cluster := by
  have hsize : 2 ≤ entrySize v := by
    rw [entrySize]
    split <;> omega
  have hstart := hboot.startLBA_lt
  have hfat := hboot.firstFatSector_lt
  have heq : fatOffset v cluster = entryOffset v cluster := by
    rw [fatOffset]
    rw [entryOffset] at hoffset ⊢
    cases htype : v.fatType with
    | FAT12 =>
      rw [htype] at hoffset
      exact wrap32_of_lt hoffset
    | FAT16 =>
      rw [htype] at hoffset
      simp only at hoffset ⊢
      rw [Nat.mul_comm, wrap32_of_lt hoffset]
    | FAT32 =>
      rw [htype] at hoffset
      simp only at hoffset ⊢
      rw [Nat.mul_comm, wrap32_of_lt hoffset]
  have hdiv : entryOffset v cluster / v.bytesPerSector ≤ entryOffset v cluster / 2 :=
    Nat.div_le_div_left (by omega) (by decide)
  refine ⟨heq, ?_, hsector, hblock⟩
  rw [lba, fatSector, heq, wrap32_of_lt (by omega), wrap64_of_lt (by omega), entryAddress]
  rfl

end Laws

/-! ## Entries of two and four bytes -/

section Whole

/-- A multiple of four bytes holds whole entries. -/
theorem fits_of_dvd (htype : v.fatType ≠ .FAT12) (hdvd : 4 ∣ v.bytesPerSector) (cluster : ℕ) :
    entryOffset v cluster % v.bytesPerSector + entrySize v ≤ v.bytesPerSector := by
  have hlt := Nat.mod_lt (entryOffset v cluster) v.bytesPerSector_pos
  have hdvd' : entrySize v ∣ v.bytesPerSector := by
    rw [entrySize]
    split
    · exact hdvd
    · exact Nat.dvd_trans (by decide) hdvd
  have hentry : entrySize v ∣ entryOffset v cluster % v.bytesPerSector := by
    refine (Nat.dvd_mod_iff hdvd').mpr ?_
    rw [entrySize, entryOffset]
    cases h : v.fatType with
    | FAT12 => exact absurd h htype
    | FAT16 => exact ⟨cluster, rfl⟩
    | FAT32 => exact ⟨cluster, rfl⟩
  obtain ⟨a, ha⟩ := hentry
  obtain ⟨b, hb⟩ := hdvd'
  rw [ha, hb] at hlt ⊢
  have hab : a < b := Nat.lt_of_mul_lt_mul_left hlt
  calc entrySize v * a + entrySize v = entrySize v * (a + 1) := (Nat.mul_succ _ a).symm
    _ ≤ entrySize v * b := Nat.mul_le_mul_left _ hab

/-- Entries of two or four bytes are placed as long as their offsets fit into 32 bits. -/
theorem Booted.placed_whole (hboot : Booted v) (htype : v.fatType ≠ .FAT12)
    (hdvd : 4 ∣ v.bytesPerSector) (hblock : v.bytesPerSector = v.blockSize) (hc : InTable v cluster)
    (hsmall : v.fatType = .FAT32 → v.totalClusters < 2 ^ 30) : Placed v cluster := by
  have hfits := fits_of_dvd htype hdvd cluster
  have hle := hc.2
  refine hboot.placed ?_ hfits (hfits.trans hblock.le)
  rw [entryOffset]
  cases hfat : v.fatType with
  | FAT12 => exact absurd hfat htype
  | FAT16 =>
    have hclusters := hboot.fat16.mp hfat
    simp only
    omega
  | FAT32 =>
    have hclusters := hsmall hfat
    simp only
    omega

/-- The offset of cluster `2 ^ 30` wraps to the start of the table. -/
theorem not_alters_of_wrap (hboot : Booted v) (hdev : v.AlwaysSucceeds) (htype : v.fatType = .FAT32)
    (hclusters : 2 ^ 30 ≤ v.totalClusters) {value : ℕ}
    (hrun : (writeTable v (2 ^ 30) value).run s = .ok () t) :
    ¬ Alters (fun a => a = entryAddress v (2 ^ 30)) s t := by
  have hstart := hboot.startLBA_lt
  have hfat := hboot.firstFatSector_lt
  have hoffset : fatOffset v (2 ^ 30) = 0 := by
    rw [fatOffset, htype]
    rfl
  have haddress : lba v (fatSector v (2 ^ 30)) 0 = v.startLBA + v.firstFatSector := by
    rw [lba, fatSector, hoffset, Nat.zero_div, wrap32_of_lt (by omega), wrap64_of_lt (by omega)]
    rfl
  have hentry : entryOffset v (2 ^ 30) = 2 ^ 32 := by simp [entryOffset, htype]
  have hpast : 0 < 2 ^ 32 / v.bytesPerSector :=
    Nat.div_pos (v.bytesPerSector_lt.le.trans (by decide)) v.bytesPerSector_pos
  have hin : InTable v (2 ^ 30) := ⟨by decide, hclusters⟩
  rw [writeTable_afterStore hdev hin] at hrun
  cases hrun
  intro halters
  obtain ⟨new, htrace, hnew⟩ := halters.trace
  have hwrites : Event.writeSector (lba v (fatSector v (2 ^ 30)) 0) ∈ new := by
    have hcons : State.trace (s.afterStore v (2 ^ 30) value) =
        [.writeSector (lba v (fatSector v (2 ^ 30)) 0), .readSector (lba v (fatSector v (2 ^ 30)) 0)] ++
          s.trace := rfl
    rw [← List.append_cancel_right (hcons.symm.trans htrace)]
    exact List.mem_cons_self
  have hsame : lba v (fatSector v (2 ^ 30)) 0 = entryAddress v (2 ^ 30) := hnew _ hwrites
  rw [entryAddress, hentry] at hsame
  omega

end Whole

section Mounted

variable {d : Device} {start_lba : UInt32} {stack heap : Bytes} {s₀ s₁ : State}

/-- On a mounted FAT16 or FAT32 volume with sectors of whole entries, the table is a map, and a
store writes the one sector that holds the entry, just when the offsets of all entries fit into 32
bits. -/
theorem table_isMap_iff (hmount : (fatInitialize d start_lba stack heap).run s₀ = .ok (some v) s₁)
    (hdev : v.AlwaysSucceeds) (htype : v.fatType ≠ .FAT12) (hdvd : 4 ∣ v.bytesPerSector)
    (hblock : v.bytesPerSector = v.blockSize) :
    (∀ s cluster value, InTable v cluster → value < 2 ^ 32 →
        ∃ t, StoresEntry v s t cluster value ∧ Alters (fun a => a = entryAddress v cluster) s t) ↔
      (v.fatType = .FAT32 → v.totalClusters < 2 ^ 30) := by
  obtain ⟨hboot, -⟩ := fatInitialize_eq_ok hmount
  constructor
  · intro hmap hfat32
    by_contra hlarge
    obtain ⟨t, hstores, halters⟩ :=
      hmap s₀ (2 ^ 30) 0 ⟨by decide, Nat.not_lt.mp hlarge⟩ (by decide)
    exact not_alters_of_wrap hboot hdev hfat32 (Nat.not_lt.mp hlarge) hstores.run halters
  · intro hsmall s cluster value hc _
    have hplaced (c : ℕ) (h : InTable v c) : Placed v c :=
      hboot.placed_whole htype hdvd hblock h hsmall
    exact ⟨_, storesEntry_of_placed hdev hplaced hc value s⟩

end Mounted

/-- The boot sector of a FAT16 volume of 5000 sectors of 512 bytes with one sector a cluster. -/
def fat16Boot : List UInt8 :=
  [0, 0, 0, 0, 0, 0, 0, 0, 0, 0, 0, 0, 2, 1, 1, 0, 2, 16, 0, 0x88, 0x13, 0xF8, 20, 0]

/-- The boot sector of a FAT32 volume of `2 ^ 31` sectors of 512 bytes with one sector a cluster. -/
def fat32Boot : List UInt8 :=
  [0, 0, 0, 0, 0, 0, 0, 0, 0, 0, 0, 0, 2, 1, 32, 0, 2, 0, 0, 0, 0, 0xF8, 0, 0,
    0, 0, 0, 0, 0, 0, 0, 0, 0, 0, 0, 0x80, 0, 0, 0x80, 0]

/-- The volume that a disk with this boot sector mounts as, on a device that never fails. -/
def Mounts (sector : List UInt8) (v : Volume) : Prop :=
  v.AlwaysSucceeds ∧ v.bytesPerSector = 512 ∧ v.blockSize = 512 ∧
    ∃ t, (fatInitialize steadyDevice 0 (fun _ => 0) fun _ => 0).run
      (mounted (diskImage [(0, sector)])) = .ok (some v) t

/-- The FAT16 sample is mounted. -/
theorem fat16_mounts : ∃ v, Mounts fat16Boot v ∧ v.fatType = .FAT16 :=
  ⟨_, ⟨⟨fun _ _ => rfl, fun _ _ => rfl⟩, rfl, rfl, _, rfl⟩, rfl⟩

/-- The FAT32 sample is mounted. -/
theorem fat32_mounts : ∃ v, Mounts fat32Boot v ∧ v.fatType = .FAT32 ∧ v.totalClusters = 2130706400 :=
  ⟨_, ⟨⟨fun _ _ => rfl, fun _ _ => rfl⟩, rfl, rfl, _, rfl⟩, rfl, rfl⟩

/-- The table of the FAT16 sample is a map. -/
theorem table_isMap_fat16 : ∃ v, Mounts fat16Boot v ∧
    ∀ s cluster value, InTable v cluster → value < 2 ^ 32 →
      ∃ t, StoresEntry v s t cluster value ∧ Alters (fun a => a = entryAddress v cluster) s t := by
  obtain ⟨v, hv, htype⟩ := fat16_mounts
  refine ⟨v, hv, ?_⟩
  obtain ⟨hdev, hsector, hblock, t, hmount⟩ := hv
  refine (table_isMap_iff hmount hdev (by simp [htype]) ?_ (by rw [hsector, hblock])).mpr ?_
  · rw [hsector]
    decide
  · simp [htype]

/-- With `2 ^ 30` clusters or more, the entry of cluster `2 ^ 30` is stored at the start of the
table. -/
theorem not_table_isMap :
    ¬ ∀ (d : Device) (start_lba : UInt32) (stack heap : Bytes) (s₀ s₁ : State) (v : Volume),
      (fatInitialize d start_lba stack heap).run s₀ = .ok (some v) s₁ → v.AlwaysSucceeds →
      v.fatType ≠ .FAT12 → 4 ∣ v.bytesPerSector → v.bytesPerSector = v.blockSize →
      ∀ s cluster value, InTable v cluster → value < 2 ^ 32 →
        ∃ t, StoresEntry v s t cluster value ∧ Alters (fun a => a = entryAddress v cluster) s t := by
  intro hclaim
  obtain ⟨v, ⟨hdev, hsector, hblock, s₁, hmount⟩, htype, hclusters⟩ := fat32_mounts
  have hlarge : 2 ^ 30 ≤ v.totalClusters := by
    rw [hclusters]
    decide
  have hdvd : 4 ∣ v.bytesPerSector := by
    rw [hsector]
    decide
  obtain ⟨t, hstores, halters⟩ := hclaim _ _ _ _ _ s₁ v hmount hdev (by simp [htype]) hdvd
    (by rw [hsector, hblock]) s₁ (2 ^ 30) 0 ⟨by decide, hlarge⟩ (by decide)
  exact not_alters_of_wrap (fatInitialize_eq_ok hmount).1 hdev htype hlarge hstores.run halters

/-! ## Packed entries -/

section Packed

variable {d : Device} {start_lba : UInt32} {stack heap : Bytes} {s₀ s₁ : State}

/-- The entry of cluster 341 starts in the last byte of a sector of 512 bytes. -/
theorem entryAccess_past_end (htype : v.fatType = .FAT12)
    (hsector : v.bytesPerSector = 512) :
    ¬ ∀ i ∈ entryAccess v 341, i < v.bytesPerSector := by
  intro hbelow
  have hsize : entrySize v = 2 := by simp [entrySize, htype]
  have hoffset : entOffset v 341 = 511 := by
    rw [entOffset, fatOffset, htype, hsector]
    rfl
  have hmem : 512 ∈ entryAccess v 341 := by
    rw [entryAccess, hsize, hoffset]
    decide
  exact absurd (hbelow 512 hmem) (by rw [hsector]; decide)

/-- The entries of the clusters in front of cluster 341 lie in the first sector of the table. -/
theorem Booted.placed_packed (hboot : Booted v) (htype : v.fatType = .FAT12)
    (hsector : v.bytesPerSector = 512) (hblock : v.blockSize = 512) (hc : cluster < 341) :
    Placed v cluster := by
  have hsize : entrySize v = 2 := by simp [entrySize, htype]
  have hoffset : entryOffset v cluster = cluster + cluster / 2 := by simp only [entryOffset, htype]
  refine hboot.placed ?_ ?_ ?_
  · omega
  · rw [hsector]
    omega
  · rw [hsector]
    omega

/-- On a mounted FAT12 volume with sectors of 512 bytes, the packed table is a map, with no access
past `readBuffer`, just when the table of its clusters lies in front of the first entry that spans
two sectors. -/
theorem packedTable_isMap_iff
    (hmount : (fatInitialize d start_lba stack heap).run s₀ = .ok (some v) s₁)
    (hdev : v.AlwaysSucceeds) (htype : v.fatType = .FAT12) (hsector : v.bytesPerSector = 512)
    (hblock : v.blockSize = 512) :
    (∀ s cluster value, InTable v cluster → value < 2 ^ 12 →
        (∃ t, StoresEntry v s t cluster value) ∧ ∀ i ∈ entryAccess v cluster, i < v.bytesPerSector) ↔
      v.totalClusters < 341 := by
  obtain ⟨hboot, -⟩ := fatInitialize_eq_ok hmount
  constructor
  · intro hmap
    by_contra hlarge
    have haccess := (hmap s₀ 341 0 ⟨by decide, Nat.not_lt.mp hlarge⟩ (by decide)).2
    exact entryAccess_past_end htype hsector haccess
  · intro hsmall s cluster value hc _
    have hplaced (c : ℕ) (h : InTable v c) : Placed v c :=
      hboot.placed_packed htype hsector hblock (h.2.trans_lt hsmall)
    refine ⟨⟨_, (storesEntry_of_placed hdev hplaced hc value s).1⟩, ?_⟩
    intro i hi
    obtain ⟨k, hk, rfl⟩ := List.mem_map.mp hi
    have hfits := (hplaced cluster hc).in_sector
    rw [entOffset, (hplaced cluster hc).offset_eq]
    have hk' := List.mem_range.mp hk
    omega

end Packed

/-- The boot sector of a FAT12 volume of 300 sectors. -/
def fat12Boot : List UInt8 :=
  [0, 0, 0, 0, 0, 0, 0, 0, 0, 0, 0, 0, 2, 1, 1, 0, 2, 16, 0, 0x2C, 0x01, 0xF8, 1, 0]

/-- The boot sector of a floppy disk with 2880 sectors. -/
def floppyBoot : List UInt8 :=
  [0, 0, 0, 0, 0, 0, 0, 0, 0, 0, 0, 0, 2, 1, 1, 0, 2, 224, 0, 0x40, 0x0B, 0xF0, 9, 0]

/-- The small FAT12 sample is mounted. -/
theorem fat12_mounts : ∃ v, Mounts fat12Boot v ∧ v.fatType = .FAT12 ∧ v.totalClusters = 296 :=
  ⟨_, ⟨⟨fun _ _ => rfl, fun _ _ => rfl⟩, rfl, rfl, _, rfl⟩, rfl, rfl⟩

/-- The floppy disk is mounted. -/
theorem floppy_mounts : ∃ v, Mounts floppyBoot v ∧ v.fatType = .FAT12 ∧ v.totalClusters = 2847 :=
  ⟨_, ⟨⟨fun _ _ => rfl, fun _ _ => rfl⟩, rfl, rfl, _, rfl⟩, rfl, rfl⟩

/-- The packed table of the small sample is a map. -/
theorem packedTable_isMap_fat12 : ∃ v, Mounts fat12Boot v ∧
    ∀ s cluster value, InTable v cluster → value < 2 ^ 12 →
      (∃ t, StoresEntry v s t cluster value) ∧ ∀ i ∈ entryAccess v cluster, i < v.bytesPerSector := by
  obtain ⟨v, hv, htype, hclusters⟩ := fat12_mounts
  refine ⟨v, hv, ?_⟩
  obtain ⟨hdev, hsector, hblock, t, hmount⟩ := hv
  refine (packedTable_isMap_iff hmount hdev htype hsector hblock).mpr ?_
  rw [hclusters]
  decide

/-- The accessors reach past `readBuffer` for cluster 341 of a floppy disk. -/
theorem not_packedTable_isMap :
    ¬ ∀ (d : Device) (start_lba : UInt32) (stack heap : Bytes) (s₀ s₁ : State) (v : Volume),
      (fatInitialize d start_lba stack heap).run s₀ = .ok (some v) s₁ → v.AlwaysSucceeds →
      v.fatType = .FAT12 → v.bytesPerSector = 512 → v.blockSize = 512 →
      ∀ s cluster value, InTable v cluster → value < 2 ^ 12 →
        (∃ t, StoresEntry v s t cluster value) ∧
          ∀ i ∈ entryAccess v cluster, i < v.bytesPerSector := by
  intro hclaim
  obtain ⟨v, ⟨hdev, hsector, hblock, s₁, hmount⟩, htype, hclusters⟩ := floppy_mounts
  have hin : InTable v 341 := ⟨by decide, by rw [hclusters]; decide⟩
  have haccess := (hclaim _ _ _ _ _ s₁ v hmount hdev htype hsector hblock s₁ 341 0 hin (by decide)).2
  exact entryAccess_past_end htype hsector haccess

end Vsos.Fat
