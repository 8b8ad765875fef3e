import Vsos.Fat.Budget
import Vsos.Fat.Slots

/-!
# What `GetDirectoryEntries` returns

For a chain of clusters the scan visits the slots of the chain in order. The fixed root
directory of a FAT12 or FAT16 volume is scanned through a window of as many sectors as a
cluster has, which moves on by one sector; the scan only ends at a slot that starts with 0.
As long as the root directory holds such an end mark, no slot behind it is visited.
-/

namespace Vsos.Fat

open Vsos.Lib

variable {budget i n sector : ℕ} {rootDirectory : Bool}

/-- The number of slots in a sector. -/
def Geometry.slotsPerSector (g : Geometry) : ℕ := g.bytesPerSector / 32

/-- A sector number whose address does not wrap. -/
def Addressable (v : Volume) (sector : ℕ) : Prop :=
  sector < 2 ^ 32 ∧ v.startLBA + sector < 2 ^ 64

/-- The address of a sector does not wrap around. -/
theorem lba_of_addressable {v : Volume} (h : Addressable v (sector + i)) :
    lba v sector i = v.startLBA + (sector + i) := by
  rw [lba, wrap64, Nat.mod_eq_of_lt (by have := h.2; omega), Nat.add_assoc]

/-- A cluster lies in the data. -/
theorem clusterSector_lt {v : Volume} {cluster : ℕ} (h : IsCluster v cluster)
    (hi : i < v.sectorsPerCluster) :
    clusterSector v cluster i < v.firstDataSector + v.totalClusters * v.sectorsPerCluster := by
  have hmul : (cluster - 2 + 1) * v.sectorsPerCluster ≤ v.totalClusters * v.sectorsPerCluster :=
    Nat.mul_le_mul_right _ (by have := h.2; have := h.1; omega)
  rw [Nat.succ_mul] at hmul
  unfold clusterSector
  omega

namespace Volume.WellFormed

variable {v : Volume} (hwf : v.WellFormed) {cluster : ℕ} (h : IsCluster v cluster)
include hwf h

/-- The sectors of a cluster have addresses. -/
theorem addressable_cluster (hi : i < v.sectorsPerCluster) :
    Addressable v (clusterSector v cluster 0 + i) := by
  have hlt := clusterSector_lt h hi
  have hdata := hwf.data_le
  have hlba := hwf.lba_le
  rw [show clusterSector v cluster 0 + i = clusterSector v cluster i from rfl]
  constructor <;> omega

/-- The first sector of a cluster. -/
theorem clusterToSector_eq : clusterToSector v cluster = clusterSector v cluster 0 := by
  have hlt := clusterSector_lt h v.sectorsPerCluster_pos
  have hdata := hwf.data_le
  have hend := v.clusterEnd_le
  have hclusters := hwf.clusters_lt
  obtain ⟨hlow, hhigh⟩ := h
  unfold clusterSector at hlt ⊢
  rw [clusterToSector, sub32_of_le hlow (by omega), wrap32_of_lt (by omega), Nat.add_comm,
    Nat.add_zero]

end Volume.WellFormed

/-- The slots of a buffered block are those of the disk. -/
theorem slotAt_blockAt {v : Volume} (hblock : v.blockSize = v.bytesPerSector) (s : State)
    (sector : ℕ) {j : ℕ} (hj : j < v.slotsPerSector) :
    slotAt (blockAt v s (v.startLBA + sector)) (32 * j) = slotOf v s ⟨sector, 32 * j⟩ := by
  have hj' : 32 * j + 32 ≤ v.bytesPerSector := by
    unfold Geometry.slotsPerSector at hj
    omega
  funext i
  simp only [slotAt, slotOf, Place.address]
  split
  · rw [blockAt, Bytes.blit_of_mem (Nat.zero_le _) (by omega), Nat.sub_zero]
  · rfl

/-- A slot of a sector. -/
theorem of_mem_sectorPlaces {v : Volume} {p : Place} (h : p ∈ sectorPlaces v sector) :
    p.sector = sector ∧ ∃ j < v.slotsPerSector, p.offset = 32 * j := by
  obtain ⟨j, hj, rfl⟩ := List.mem_map.mp h
  exact ⟨rfl, j, List.mem_range.mp hj, rfl⟩

/-- The slots of consecutive sectors, the first of them apart. -/
theorem runPlaces_succ (v : Volume) (sector i n : ℕ) :
    runPlaces v sector i (n + 1) = sectorPlaces v (sector + i) ++ runPlaces v sector (i + 1) n := by
  simp [runPlaces, List.range'_succ]

/-- A scan goes on where the scan of the first slots has stopped. -/
theorem scanPlaces_append (v : Volume) (s : State) (ps qs : List Place) (sc : Scan) :
    scanPlaces v s (ps ++ qs) sc =
      match scanPlaces v s ps sc with
      | .inl sc' => scanPlaces v s qs sc'
      | .inr r => .inr r := by
  unfold scanPlaces
  rw [foldStop_append]
  cases foldStop (fun p => scanSlot (slotOf v s p) p.sector p.offset) ps sc <;> rfl

/-- The slots of the first cluster come first. -/
theorem chainPlaces_cons (v : Volume) (c : ℕ) (l : List ℕ) :
    chainPlaces v (c :: l) =
      runPlaces v (clusterSector v c 0) 0 v.sectorsPerCluster ++ chainPlaces v l := List.flatMap_cons

/-- Slot number `m` from the start of a sector on. -/
def slotPlace (v : Volume) (sector m : ℕ) : Place :=
  ⟨sector + m / v.slotsPerSector, 32 * (m % v.slotsPerSector)⟩

/-- A sector has a slot. -/
theorem Volume.WellFormed.slotsPerSector_pos {v : Volume} (hwf : v.WellFormed) :
    0 < v.slotsPerSector :=
  Nat.div_pos (Nat.le_of_dvd v.bytesPerSector_pos hwf.slots_dvd) (by decide)

/-- The slots of one sector of a run, counted from the first slot of the run. -/
theorem sectorPlaces_eq_map {v : Volume} (hpos : 0 < v.slotsPerSector) (sector i : ℕ) :
    sectorPlaces v (sector + i) =
      (List.range' (i * v.slotsPerSector) v.slotsPerSector).map (slotPlace v sector) := by
  rw [List.range'_eq_map_range, List.map_map]
  apply List.map_congr_left
  intro j hj
  have hj : j < v.slotsPerSector := List.mem_range.mp hj
  rw [Function.comp_apply, slotPlace, Nat.mul_comm i, Nat.mul_add_div hpos, Nat.mul_add_mod,
    Nat.div_eq_of_lt hj, Nat.mod_eq_of_lt hj, Nat.add_zero]

/-- The positions of `n + 1` sectors are those of the first sector and of the `n` behind it. -/
theorem range'_sector (v : Volume) (i n : ℕ) :
    List.range' (i * v.slotsPerSector) ((n + 1) * v.slotsPerSector) =
      List.range' (i * v.slotsPerSector) v.slotsPerSector ++
        List.range' ((i + 1) * v.slotsPerSector) (n * v.slotsPerSector) := by
  rw [Nat.succ_mul, Nat.add_comm, Nat.succ_mul, ← List.range'_append_1]

/-- The slots of consecutive sectors, counted from the first slot of the run. -/
theorem runPlaces_eq_map {v : Volume} (hpos : 0 < v.slotsPerSector) (sector i n : ℕ) :
    runPlaces v sector i n =
      (List.range' (i * v.slotsPerSector) (n * v.slotsPerSector)).map (slotPlace v sector) := by
  induction n generalizing i with
  | zero => simp [runPlaces]
  | succ n ih =>
    rw [runPlaces_succ, sectorPlaces_eq_map hpos, ih, range'_sector, List.map_append]

/-- A run of sectors that starts later. -/
theorem runPlaces_add (v : Volume) (sector i n : ℕ) :
    runPlaces v (sector + i) 0 n = runPlaces v sector i n := by
  simp [runPlaces, List.range'_eq_map_range, List.flatMap_map, Nat.add_assoc]

/-- The slots that the scan of the fixed root visits when slot `e` is the first end mark: `n`
windows of `width` slots from number `k` on, where each starts one sector behind the other. -/
def windows (perSector width e : ℕ) : ℕ → ℕ → List ℕ
  | 0, _ => []
  | n + 1, k =>
    if e < k * perSector + width then List.range' (k * perSector) (e - k * perSector)
    else List.range' (k * perSector) width ++ windows perSector width e n (k + 1)

/-- The slots that the scan of the fixed root visits. -/
def rootVisits (v : Volume) (e : ℕ) : List Place :=
  (windows v.slotsPerSector (v.sectorsPerCluster * v.slotsPerSector) e (e + v.slotsPerSector + 1) 0).map
    (slotPlace v v.rootStart)

/-- No slot behind the end mark is visited. -/
theorem windows_lt {perSector width e k m : ℕ} (h : m ∈ windows perSector width e n k) : m < e := by
  induction n generalizing k with
  | zero => cases h
  | succ n ih =>
    rw [windows] at h
    split at h
    · have := List.mem_range'_1.mp h
      omega
    · rcases List.mem_append.mp h with h | h
      · have := List.mem_range'_1.mp h
        omega
      · exact ih h

/-- A range around one of its elements. -/
theorem range'_split {a e : ℕ} (hle : a ≤ e) (hlt : e < a + n) :
    List.range' a n = List.range' a (e - a) ++ e :: List.range' (e + 1) (a + n - (e + 1)) := by
  obtain ⟨d, rfl⟩ := Nat.exists_eq_add_of_le hle
  rw [← List.range'_succ, Nat.add_sub_cancel_left, List.range'_append_1]
  congr 1
  omega

/-- A scan of some slots stops exactly at an end mark. -/
theorem scanPlaces_isLeft_iff {v : Volume} {s : State} {ps : List Place} (sc : Scan) :
    (scanPlaces v s ps sc).isLeft = true ↔ ∀ p ∈ ps, slotOf v s p 0 ≠ entryEnd := by
  induction ps generalizing sc with
  | nil => simp [scanPlaces, foldStop]
  | cons p ps ih =>
    rw [scanPlaces, foldStop, List.forall_mem_cons]
    by_cases hend : slotOf v s p 0 = entryEnd
    · simp [scanSlot_of_end hend, hend]
    · by_cases hlisted : Listed (slotOf v s p)
      · rw [scanSlot_of_listed hend hlisted, and_iff_right hend]
        exact ih _
      · rw [scanSlot_of_not_listed hend hlisted, and_iff_right hend]
        exact ih _

/-- Reading does not change the slots. -/
theorem slotOf_of_reads {v : Volume} {s t : State} (h : Reads v s t) : slotOf v t = slotOf v s := by
  funext p
  rw [slotOf, slotOf, h.data]

/-- Reads do not change what a scan finds. -/
theorem scanPlaces_of_reads {v : Volume} {s t : State} (h : Reads v s t) :
    scanPlaces v t = scanPlaces v s := by
  funext ps sc
  rw [scanPlaces, scanPlaces, slotOf_of_reads h]

section FixedRoot

variable {v : Volume} (hwf : v.WellFormed) {rootDirectory : Bool} (hroot : fixedRoot v rootDirectory = true)
  {k : ℕ}
include hwf

/-- The windows of the root directory can be addressed. -/
theorem addressable_window (hclusters : 0 < v.totalClusters) (hk : k ≤ v.rootDirSectors) (j : ℕ)
    (hj : j < v.sectorsPerCluster) : Addressable v (v.rootStart + k + j) := by
  have hmul : v.sectorsPerCluster ≤ v.totalClusters * v.sectorsPerCluster :=
    Nat.le_mul_of_pos_left _ hclusters
  have hdata := hwf.data_le
  have hlba := hwf.lba_le
  have hrootStart := hwf.rootStart_add
  constructor <;> omega

include hroot

/-- The scan of the root starts at its first sector. -/
theorem scanStart_root (cluster : ℕ) : scanStart v rootDirectory 0 cluster = v.rootStart := by
  rw [scanStart, if_pos hroot, sub32_of_le hwf.root_le v.firstDataSector_lt]
  rfl

/-- The next window starts one sector later. -/
theorem scanStart_next (hk : k < v.rootDirSectors) (cluster : ℕ) :
    scanStart v rootDirectory (wrap32 (v.rootStart + k + 1)) cluster = v.rootStart + (k + 1) := by
  have hdata := v.firstDataSector_lt
  have hrootStart := hwf.rootStart_add
  rw [wrap32_of_lt (by omega), scanStart, if_pos hroot, if_neg (by omega)]
  rfl

end FixedRoot

section Scan

variable {v : Volume} (hblock : v.blockSize = v.bytesPerSector) (hslots : v.slotsPerSector < 256)
include hblock hslots

/-- The loop over the slots of a buffered sector is a fold over the slots of the disk. -/
theorem loop8_slots {τ ρ : Type} (body : Bytes → ℕ → τ → τ ⊕ ρ)
    (haddress : Addressable v (sector + i)) (hbudget : v.slotsPerSector < budget) (s : State)
    (st : τ) :
    loop8 (v.bytesPerSector / 32)
        (fun j => body (slotAt (blockAt v s (lba v sector i)) (32 * j)) (32 * j)) budget 0 st =
      some (foldStop (fun p => body (slotOf v s p) p.offset) (sectorPlaces v (sector + i)) st) := by
  change loop8 v.slotsPerSector _ budget 0 st = _
  rw [loop8_eq_foldStop hslots _ _ _ (Nat.zero_add _) hbudget, sectorPlaces, foldStop_map,
    ← List.range_eq_range']
  congr 1
  apply foldStop_congr
  intro j hj st
  rw [lba_of_addressable haddress, slotAt_blockAt hblock s _ (List.mem_range.mp hj)]

variable (hread : ∀ h a, v.readStatus h a = 0)
include hread

/-- The scan of a sector, and of the sectors behind it unless it holds an end mark. -/
theorem scanSectors_succ_run (haddress : Addressable v (sector + i))
    (hbudget : v.slotsPerSector < budget) (n : ℕ) (sc : Scan) (s : State) :
    (scanSectors v budget sector (n + 1) i sc).run s =
      match scanPlaces v s (sectorPlaces v (sector + i)) sc with
      | .inr sc' => .ok (.inr sc') (s.afterRead v (v.startLBA + (sector + i)))
      | .inl sc' => (scanSectors v budget sector n (i + 1) sc').run
          (s.afterRead v (v.startLBA + (sector + i))) := by
  have hfold := loop8_slots hblock hslots
    (fun entry offset => scanSlot entry (wrap32 (sector + i)) offset) haddress hbudget s sc
  have hplaces : foldStop (fun p => scanSlot (slotOf v s p) (wrap32 (sector + i)) p.offset)
      (sectorPlaces v (sector + i)) sc = scanPlaces v s (sectorPlaces v (sector + i)) sc := by
    apply foldStop_congr
    intro p hp sc
    rw [wrap32_of_lt haddress.1, (of_mem_sectorPlaces hp).1]
  have hbuffer : getReadBuffer.run (s.afterRead v (lba v sector i)) =
      .ok (blockAt v s (lba v sector i)) (s.afterRead v (lba v sector i)) := rfl
  rw [scanSectors, bind_of_ok (readSector_run hread _ s), if_neg (by simp), bind_of_ok hbuffer]
  simp only [hfold, hplaces]
  rw [lba_of_addressable haddress]
  cases scanPlaces v s (sectorPlaces v (sector + i)) sc <;> rfl

/-- The scan of consecutive sectors. -/
theorem scanSectors_run (haddress : ∀ k, i ≤ k → k < i + n → Addressable v (sector + k))
    (hbudget : v.slotsPerSector < budget) (sc : Scan) (s : State) :
    ∃ t, (scanSectors v budget sector n i sc).run s =
        .ok (scanPlaces v s (runPlaces v sector i n) sc) t ∧ Reads v s t := by
  induction n generalizing i sc s with
  | zero => exact ⟨s, rfl, Observes.refl v _ s⟩
  | succ n ih =>
    have hreads := reads_afterRead v s (v.startLBA + (sector + i))
    rw [scanSectors_succ_run hblock hslots hread (haddress i (le_refl i) (by omega)) hbudget,
      runPlaces_succ, scanPlaces_append]
    cases scanPlaces v s (sectorPlaces v (sector + i)) sc with
    | inr sc' => exact ⟨_, rfl, hreads⟩
    | inl sc' =>
      obtain ⟨t, hrun, hreads'⟩ := ih (i := i + 1)
        (fun k hk hk' => haddress k (by omega) (by omega)) sc'
        (s.afterRead v (v.startLBA + (sector + i)))
      exact ⟨t, hrun, hreads.trans hreads'⟩

/-- The scan of a chain of clusters. -/
theorem getDirectoryLoop_chain (hwf : v.WellFormed) (hroot : fixedRoot v rootDirectory = false)
    {cluster : ℕ} (fuel sector : ℕ) {l : List ℕ} {s : State}
    (hwalk : Walks (tableEntry v s) (ChainStops v) cluster l) (hclusters : ∀ c ∈ l, IsCluster v c)
    (hbudget : v.slotsPerSector < budget) (hfuel : l.length < fuel) (sc : Scan) :
    ∃ t, (getDirectoryLoop v rootDirectory budget fuel sector cluster sc).run s =
        .ok (scanResults (scanPlaces v s (chainPlaces v l) sc)) t ∧ Reads v s t := by
  induction l generalizing fuel sector cluster s sc with
  | nil =>
    obtain ⟨fuel, rfl⟩ := Nat.exists_eq_succ_of_ne_zero (Nat.ne_of_gt hfuel)
    have hstop : ChainStops v cluster := hwalk
    rw [getDirectoryLoop, if_pos hstop]
    exact ⟨s, rfl, Observes.refl v _ s⟩
  | cons c l ih =>
    obtain ⟨fuel, rfl⟩ := Nat.exists_eq_succ_of_ne_zero (show fuel ≠ 0 by omega)
    obtain ⟨rfl, hgo, hrest⟩ := hwalk
    have hc := hclusters cluster List.mem_cons_self
    have hstart : scanStart v rootDirectory sector cluster = clusterSector v cluster 0 := by
      simp only [scanStart, hroot, Bool.false_eq_true, if_false]
      exact hwf.clusterToSector_eq hc
    have haddress : ∀ k, 0 ≤ k → k < 0 + v.sectorsPerCluster →
        Addressable v (clusterSector v cluster 0 + k) :=
      fun k _ hk => hwf.addressable_cluster hc (by omega)
    obtain ⟨t, hrun, hreads⟩ := scanSectors_run hblock hslots hread haddress hbudget sc s
    rw [getDirectoryLoop, if_neg hgo]
    simp only [hstart, hroot, Bool.false_eq_true, if_false]
    rw [bind_of_ok hrun, chainPlaces_cons, scanPlaces_append]
    cases scanPlaces v s (runPlaces v (clusterSector v cluster 0) 0 v.sectorsPerCluster) sc with
    | inr sc' => exact ⟨t, rfl, hreads⟩
    | inl sc' =>
      obtain ⟨t', hnext, hreads'⟩ := readTable_run hread cluster t
      have hboth := hreads.trans hreads'
      obtain ⟨u, hrun', hreads''⟩ := ih fuel (clusterSector v cluster 0)
        (hrest.congr fun b _ => hboth.tableEntry_eq b)
        (fun b hb => hclusters b (List.mem_cons_of_mem _ hb)) (by simpa using hfuel) sc'
      refine ⟨u, ?_, hboth.trans hreads''⟩
      rw [bind_of_ok hnext, hreads.tableEntry_eq, hrun', scanPlaces_of_reads hboth]

/-- The scan of the fixed root directory from window `k` on, up to the end mark in slot `e`. -/
theorem getDirectoryLoop_root (hwf : v.WellFormed) (hclusters : 0 < v.totalClusters)
    (hroot : fixedRoot v rootDirectory = true) {cluster e : ℕ} (hgo : ¬ ChainStops v cluster)
    (hinside : e < v.rootDirSectors * v.slotsPerSector) (hbudget : v.slotsPerSector < budget)
    (fuel sector k : ℕ) {s : State}
    (hbefore : ∀ m < e, slotOf v s (slotPlace v v.rootStart m) 0 ≠ entryEnd)
    (hend : slotOf v s (slotPlace v v.rootStart e) 0 = entryEnd) (hk : k * v.slotsPerSector ≤ e)
    (hstart : scanStart v rootDirectory sector cluster = v.rootStart + k)
    (hfuel : e / v.slotsPerSector < fuel + k) (sc : Scan) :
    ∃ t, (getDirectoryLoop v rootDirectory budget fuel sector cluster sc).run s =
        .ok (scanResults (scanPlaces v s ((windows v.slotsPerSector
          (v.sectorsPerCluster * v.slotsPerSector) e fuel k).map (slotPlace v v.rootStart)) sc)) t ∧
      Reads v s t := by
  have hpos := hwf.slotsPerSector_pos
  induction fuel generalizing sector k s sc with
  | zero =>
    have := (Nat.le_div_iff_mul_le hpos).mpr hk
    omega
  | succ fuel ih =>
    have hsectors : k < v.rootDirSectors :=
      Nat.lt_of_mul_lt_mul_right (lt_of_le_of_lt hk hinside)
    have haddress := fun j (_ : 0 ≤ j) (hj : j < 0 + v.sectorsPerCluster) =>
      addressable_window hwf hclusters hsectors.le j (by omega)
    obtain ⟨t, hrun, hreads⟩ := scanSectors_run hblock hslots hread haddress hbudget sc s
    have hwindow : runPlaces v (v.rootStart + k) 0 v.sectorsPerCluster =
        (List.range' (k * v.slotsPerSector) (v.sectorsPerCluster * v.slotsPerSector)).map
          (slotPlace v v.rootStart) := by
      rw [runPlaces_add, runPlaces_eq_map hpos]
    have hno_end {a n : ℕ} (hle : a + n ≤ e) (sc : Scan) :
        ∃ sc', scanPlaces v s ((List.range' a n).map (slotPlace v v.rootStart)) sc = .inl sc' := by
      apply Sum.isLeft_iff.mp
      rw [scanPlaces_isLeft_iff]
      intro p hp
      obtain ⟨m, hm, rfl⟩ := List.mem_map.mp hp
      have := List.mem_range'_1.mp hm
      exact hbefore m (by omega)
    rw [getDirectoryLoop, if_neg hgo]
    simp only [hstart, hroot, if_true]
    rw [bind_of_ok hrun, hwindow, windows]
    by_cases hlast : e < k * v.slotsPerSector + v.sectorsPerCluster * v.slotsPerSector
    · -- the end mark lies in this window
      obtain ⟨sc', hsc'⟩ := hno_end (show k * v.slotsPerSector + (e - k * v.slotsPerSector) ≤ e by omega) sc
      rw [if_pos hlast, range'_split hk hlast, List.map_append, List.map_cons, scanPlaces_append, hsc']
      simp only [scanPlaces, foldStop, scanSlot_of_end hend]
      exact ⟨t, rfl, hreads⟩
    · obtain ⟨sc', hsc'⟩ := hno_end (Nat.le_of_not_lt hlast) sc
      rw [if_neg hlast, List.map_append, scanPlaces_append, hsc']
      have hstep : v.slotsPerSector ≤ v.sectorsPerCluster * v.slotsPerSector :=
        Nat.le_mul_of_pos_left _ v.sectorsPerCluster_pos
      obtain ⟨u, hrun', hreads'⟩ := ih (wrap32 (v.rootStart + k + 1)) (k + 1)
        (by rw [slotOf_of_reads hreads]; exact hbefore) (by rw [slotOf_of_reads hreads]; exact hend)
        (by rw [Nat.succ_mul]; omega) (scanStart_next hwf hroot hsectors cluster) (by omega) sc'
      rw [scanPlaces_of_reads hreads] at hrun'
      exact ⟨u, hrun', hreads.trans hreads'⟩

/-- `GetDirectoryEntries` of a chain of clusters. -/
theorem getDirectoryEntries_chain (hwf : v.WellFormed) (hroot : fixedRoot v rootDirectory = false)
    {cluster : ℕ} {l : List ℕ} {s : State} (hwalk : Walks (tableEntry v s) (ChainStops v) cluster l)
    (hclusters : ∀ c ∈ l, IsCluster v c) :
    ∃ t, Returns (fun n => getDirectoryEntries v n cluster rootDirectory) s
      (listing v s (chainPlaces v l)) t ∧ Reads v s t := by
  obtain ⟨t, hrun, hreads⟩ := getDirectoryLoop_chain hblock hslots hread hwf hroot
    (l.length + v.slotsPerSector + 1) 0 hwalk hclusters
    (show v.slotsPerSector < l.length + v.slotsPerSector + 1 by omega) (by omega) ⟨[], []⟩
  exact ⟨t, ⟨_, fun n hn => getDirectoryLoop_stable v rootDirectory hn hn hrun⟩, hreads⟩

end Scan

/-- The slot with number `e` is the first end mark of the root directory region. -/
structure RootEndsAt (v : Volume) (s : State) (e : ℕ) : Prop where
  inside : e < v.rootDirSectors * v.slotsPerSector
  before : ∀ m < e, slotOf v s (slotPlace v v.rootStart m) 0 ≠ entryEnd
  mark : slotOf v s (slotPlace v v.rootStart e) 0 = entryEnd

/-- The slots of the fixed root in a row. -/
theorem rootPlaces_eq_map {v : Volume} (hpos : 0 < v.slotsPerSector) :
    rootPlaces v = (List.range' 0 (v.rootDirSectors * v.slotsPerSector)).map
      (slotPlace v v.rootStart) := by
  rw [rootPlaces, runPlaces_eq_map hpos, Nat.zero_mul]

/-- An end mark in the root directory region has a first one before it. -/
theorem exists_rootEndsAt {v : Volume} (hpos : 0 < v.slotsPerSector) {s : State}
    (h : ∃ p ∈ rootPlaces v, slotOf v s p 0 = entryEnd) : ∃ e, RootEndsAt v s e := by
  obtain ⟨p, hp, hmark⟩ := h
  rw [rootPlaces_eq_map hpos] at hp
  obtain ⟨m, hm, rfl⟩ := List.mem_map.mp hp
  have hex : ∃ m, slotOf v s (slotPlace v v.rootStart m) 0 = entryEnd := ⟨m, hmark⟩
  have hle : Nat.find hex ≤ m := Nat.find_min' hex hmark
  have hlt := (List.mem_range'_1.mp hm).2
  exact ⟨Nat.find hex, by omega, fun k hk => Nat.find_min hex hk, Nat.find_spec hex⟩

namespace RootEndsAt

variable {v : Volume} {s : State} {e : ℕ} (h : RootEndsAt v s e)
include h

/-- The root directory is in use up to its end mark. -/
theorem slotsInUse_eq (hpos : 0 < v.slotsPerSector) :
    slotsInUse v s (rootPlaces v) = (List.range' 0 e).map (slotPlace v v.rootStart) := by
  have hinside := h.inside
  rw [slotsInUse, rootPlaces_eq_map hpos, range'_split (Nat.zero_le e) (by omega), List.map_append,
    List.takeWhile_append_of_pos, List.map_cons, List.takeWhile_cons_of_neg, List.append_nil, Nat.sub_zero]
  · simpa using h.mark
  · intro p hp
    obtain ⟨m, hm, rfl⟩ := List.mem_map.mp hp
    have := List.mem_range'_1.mp hm
    simpa using h.before m (by omega)

/-- The entries that are found through the windows are entries of the root directory. -/
theorem mem_liveSlots (hpos : 0 < v.slotsPerSector) {p : Place}
    (hp : p ∈ liveSlots v s (rootVisits v e)) : p ∈ liveSlots v s (rootPlaces v) := by
  obtain ⟨m, hm, rfl⟩ := List.mem_map.mp (mem_of_mem_liveSlots hp)
  rw [liveSlots, h.slotsInUse_eq hpos, List.mem_filter]
  refine ⟨List.mem_map_of_mem (List.mem_range'_1.mpr ⟨Nat.zero_le m, ?_⟩), ?_⟩
  · have := windows_lt hm
    omega
  · simpa using (listed_of_mem_liveSlots hp).2

/-- `GetDirectoryEntries` of a fixed root directory with an end mark. -/
theorem getDirectoryEntries_root (hwf : v.WellFormed) (hslots : v.slotsPerSector < 256)
    (hread : ∀ h a, v.readStatus h a = 0) (hclusters : 0 < v.totalClusters)
    (htype : v.fatType ≠ .FAT32) {cluster : ℕ} (hgo : ¬ ChainStops v cluster) :
    ∃ t, Returns (fun n => getDirectoryEntries v n cluster true) s
      (listing v s (rootVisits v e)) t ∧ Reads v s t := by
  have hroot : fixedRoot v true = true := by simp [fixedRoot, htype]
  obtain ⟨t, hrun, hreads⟩ := getDirectoryLoop_root hwf.blockSize_eq hslots hread hwf hclusters hroot
    hgo h.inside (show v.slotsPerSector < e + v.slotsPerSector + 1 by omega)
    (e + v.slotsPerSector + 1) 0 0 h.before h.mark (by omega) (scanStart_root hwf hroot _)
    (lt_of_le_of_lt (Nat.div_le_self e _) (by omega)) ⟨[], []⟩
  exact ⟨t, ⟨_, fun n hn => getDirectoryLoop_stable v true hn hn hrun⟩, hreads⟩

end RootEndsAt

end Vsos.Fat
