import Vsos.Fat.Effects
import Vsos.Fat.Entries

/-!
# Changing the links of a volume

FAT16 and FAT32 entries never straddle two sectors, and those of a small FAT12 volume do not
either. The driver's accessors then read and write exactly the entry they mean. Seen as a
function from clusters to entries, a table write is an update at one cluster, and an allocation
is an update at a cluster that was free.
-/

namespace Vsos.Fat

open Vsos.Lib

variable {a c cluster n : ℕ}

/-- The sectors in front of the root directory that hold the table and its copies. -/
def TableRegion (v : Volume) (a : ℕ) : Prop :=
  v.startLBA + v.firstFatSector ≤ a ∧ a < v.startLBA + v.rootStart

/-- The sectors of a cluster. -/
def ClusterRegion (v : Volume) (cluster a : ℕ) : Prop :=
  ∃ i < v.sectorsPerCluster, a = clusterAddress v cluster i

/-- The table as a function on the cluster numbers of the volume. -/
def links (v : Volume) (s : State) (cluster : ℕ) : ℕ :=
  if cluster ≤ v.totalClusters + 1 then diskEntry v s cluster else 0

/-- The link of a cluster is its entry. -/
theorem links_of_le {v : Volume} (s : State) (h : cluster ≤ v.totalClusters + 1) :
    links v s cluster = diskEntry v s cluster := if_pos h

/-- The data region lies behind the table. -/
theorem clusterRegion_ge {v : Volume} (h : ClusterRegion v cluster a) :
    v.startLBA + v.firstDataSector ≤ a := by
  obtain ⟨i, -, rfl⟩ := h
  rw [clusterAddress]
  omega

/-- The root and the data are not in the table. -/
theorem not_tableRegion_of_le {v : Volume} (h : v.startLBA + v.rootStart ≤ a) :
    ¬ TableRegion v a := by
  rintro ⟨-, hlt⟩
  omega

/-- A cluster is not in the table. -/
theorem not_tableRegion_cluster {v : Volume} (h : ClusterRegion v cluster a) :
    ¬ TableRegion v a := by
  apply not_tableRegion_of_le
  have hge := clusterRegion_ge h
  have hroot := v.rootStart_le
  omega

/-- Different clusters have different sectors. -/
theorem clusterRegion_unique {v : Volume} {c' : ℕ} (hc : 2 ≤ c) (hc' : 2 ≤ c')
    (h : ClusterRegion v c a) (h' : ClusterRegion v c' a) : c = c' := by
  obtain ⟨i, hi, rfl⟩ := h
  obtain ⟨i', hi', heq⟩ := h'
  rw [clusterAddress, clusterAddress] at heq
  have hsum : v.sectorsPerCluster * (c - 2) + i = v.sectorsPerCluster * (c' - 2) + i' := by
    rw [Nat.mul_comm, Nat.mul_comm _ (c' - 2)]
    omega
  have hdiv := congrArg (· / v.sectorsPerCluster) hsum
  simp only [Nat.mul_add_div v.sectorsPerCluster_pos, Nat.div_eq_of_lt hi, Nat.div_eq_of_lt hi'] at hdiv
  omega

/-- The entry of a cluster lies in the table region. -/
theorem Volume.WellFormed.tableRegion {v : Volume} (hwf : v.WellFormed) {b : ℕ}
    (h : b < v.tableSize) : TableRegion v (v.startLBA + (v.firstFatSector + b / v.bytesPerSector)) := by
  exact ⟨Nat.add_le_add_left (Nat.le_add_right _ _) _, Nat.add_lt_add_left (hwf.tableSector_lt h) _⟩

/-- Writes outside of the table keep the links. -/
theorem Volume.WellFormed.links_eq {v : Volume} (hwf : v.WellFormed) {s t : State}
    (h : ∀ a, TableRegion v a → t.data a = s.data a) : links v t = links v s := by
  have hbytes {b : ℕ} (hb : b < v.tableSize) : tableBytes v t b = tableBytes v s b := by
    rw [tableBytes, tableBytes, h _ (hwf.tableRegion hb)]
  funext c
  unfold links
  split
  · next hc =>
    rw [diskEntry, diskEntry]
    cases htype : v.fatType with
    | FAT32 =>
      simp only [entryOffset, htype]
      rw [Bytes.u32_congr fun k hk => hbytes (by simp only [Geometry.tableSize, htype]; omega)]
    | FAT16 =>
      simp only [entryOffset, htype]
      exact Bytes.u16_congr (hbytes (by simp only [Geometry.tableSize, htype]; omega))
        (hbytes (by simp only [Geometry.tableSize, htype]; omega))
    | FAT12 =>
      simp only [entryOffset, htype]
      rw [Bytes.u16_congr (hbytes (by simp only [Geometry.tableSize, htype]; omega))
        (hbytes (by simp only [Geometry.tableSize, htype]; omega))]
  · rfl

section Whole

variable {v : Volume} (hwf : v.WellFormed) (hwhole : WholeEntries v)
include hwf hwhole

/-- `ReadTable` returns the link of a cluster. -/
theorem tableEntry_eq_links (s : State) (hlow : 2 ≤ cluster) (hhigh : cluster ≤ v.totalClusters) :
    tableEntry v s cluster = links v s cluster := by
  rw [(hwf.placed hwhole hhigh).tableEntry_eq s hlow hhigh, links_of_le s (by omega)]

/-- The links after an entry was stored. -/
theorem links_store {value : ℕ} (hhigh : cluster ≤ v.totalClusters) (hvalue : value ≤ v.clusterEnd)
    {s t : State} (ht : t.data = Function.update s.data (lba v (fatSector v cluster) 0)
      ((s.data (lba v (fatSector v cluster) 0)).blit 0
        (storeTableValue v cluster value (blockAt v s (lba v (fatSector v cluster) 0)))
        v.blockSize)) :
    links v t = Function.update (links v s) cluster value := by
  have hstore := (hwf.placed hwhole hhigh).diskEntry_store value ht
  rw [entryValue_of_le hvalue] at hstore
  funext c
  simp only [links, Function.update_apply, hstore]
  split
  · rfl
  · rw [if_neg (by omega)]

/-- `WriteTable` replaces one link. -/
theorem writeTable_run (hdev : v.AlwaysSucceeds) {value : ℕ} (hlow : 2 ≤ cluster)
    (hhigh : cluster ≤ v.totalClusters) (hvalue : value ≤ v.clusterEnd) (s : State) :
    ∃ t, (writeTable v cluster value).run s = .ok () t ∧ Alters (TableRegion v) s t ∧
      t.startSearchCluster = s.startSearchCluster ∧
      links v t = Function.update (links v s) cluster value := by
  have hle : cluster ≤ v.totalClusters + 1 := by omega
  have hregion : TableRegion v (lba v (fatSector v cluster) 0) := by
    rw [hwf.lba_fatSector hle]
    exact hwf.tableRegion (Nat.lt_of_succ_lt (entryOffset_lt hle))
  rw [writeTable, if_neg (by omega), bind_of_ok (readSector_run hdev.1 _ s), if_neg (by simp),
    bind_of_ok (modifyReadBuffer_run _ _), bind_of_ok (writeReadBuffer_run hdev.2 _ _)]
  refine ⟨_, rfl, ?_, rfl, ?_⟩
  · refine ⟨fun a ha => ?_, [.writeSector _, .readSector _], rfl, by simp [Event.Confined, hregion]⟩
    have hne : a ≠ lba v (fatSector v cluster) 0 := fun heq => ha (heq ▸ hregion)
    exact Function.update_of_ne hne _ _
  · exact links_store hwf hwhole hhigh hvalue rfl

/-- The search of `AllocateCluster` takes the first free cluster it meets. -/
theorem allocateLoop_run (hdev : v.AlwaysSucceeds) (hlow : 2 ≤ cluster)
    (hhigh : n ≤ v.totalClusters - cluster) (s : State) :
    ∃ r t, (allocateLoop v n cluster).run s = .ok r t ∧ Alters (TableRegion v) s t ∧
      (r ≠ 0 → cluster ≤ r ∧ r < cluster + n ∧ links v s r = 0 ∧ t.startSearchCluster = r ∧
        links v t = Function.update (links v s) r v.clusterEnd) := by
  induction n generalizing cluster s with
  | zero => exact ⟨0, s, rfl, Alters.refl _ s, fun h => absurd rfl h⟩
  | succ n ih =>
    obtain ⟨s', hread, hreads⟩ := readTable_run hdev.1 cluster s
    have halters := hreads.alters_of_reads (TableRegion v)
    have hlinks : links v s' = links v s := hwf.links_eq fun a _ => by rw [hreads.data]
    rw [allocateLoop, bind_of_ok hread, tableEntry_eq_links hwf hwhole s hlow (by omega)]
    by_cases hfree : links v s cluster = clusterFree
    · rw [if_pos hfree, setStartSearchCluster, bind_change]
      obtain ⟨t, hrun, halters', hstart, hlinks'⟩ := writeTable_run hwf hwhole hdev
        hlow (by omega) (le_refl v.clusterEnd) { s' with startSearchCluster := cluster }
      refine ⟨cluster, t, ?_, ?_, fun _ => ⟨le_refl _, by omega, hfree, hstart, ?_⟩⟩
      · rw [bind_of_ok hrun]
        rfl
      · exact halters.trans ⟨halters'.data, halters'.trace⟩
      · rw [hlinks', ← hlinks]
        rfl
    · rw [if_neg hfree]
      obtain ⟨r, t, hrun, halters', hr⟩ := ih (show 2 ≤ cluster + 1 by omega) (by omega) s'
      refine ⟨r, t, hrun, halters.trans halters', fun hne => ?_⟩
      obtain ⟨h₁, h₂, h₃, h₄, h₅⟩ := hr hne
      rw [hlinks] at h₃ h₅
      exact ⟨by omega, by omega, h₃, h₄, h₅⟩

/-- `AllocateCluster` returns 0 or marks a free cluster as the end of a chain. -/
theorem allocateCluster_run (hdev : v.AlwaysSucceeds) {s : State} (hstart : 2 ≤ s.startSearchCluster) :
    ∃ r t, (allocateCluster v).run s = .ok r t ∧ Alters (TableRegion v) s t ∧
      Event.allocated r ∈ eventsSince s t ∧
      (r ≠ 0 → 2 ≤ r ∧ r < v.totalClusters ∧ links v s r = 0 ∧ t.startSearchCluster = r ∧
        links v t = Function.update (links v s) r v.clusterEnd) := by
  obtain ⟨r, t, hrun, halters, hr⟩ := allocateLoop_run hwf hwhole hdev
    hstart (le_refl _) s
  refine ⟨r, { t with trace := .allocated r :: t.trace }, ?_, ?_, ?_, fun hne => ?_⟩
  · rw [allocateCluster, bind_look, bind_of_ok hrun]
    rfl
  · exact halters.trans ⟨fun _ _ => rfl, Traces.emit (e := .allocated r) trivial rfl⟩
  · obtain ⟨new, htrace, -⟩ := halters.trace
    rw [@eventsSince_eq _ _ (.allocated r :: new) (by simp [htrace])]
    exact List.mem_cons_self
  · obtain ⟨h₁, h₂, h₃, h₄, h₅⟩ := hr hne
    exact ⟨by omega, by omega, h₃, h₄, h₅⟩

end Whole

/-- A search for a free cluster that finds none only reads. -/
theorem reads_of_allocateLoop {v : Volume} (hpos : 0 < cluster) {s t : State}
    (hrun : (allocateLoop v n cluster).run s = .ok 0 t) : Reads v s t := by
  induction n generalizing cluster s with
  | zero =>
    cases hrun
    exact Observes.refl v _ _
  | succ n ih =>
    obtain ⟨value, u, hread, hrun⟩ := bind_eq_ok.mp hrun
    have hreads := (readsOnly_readTable (v := v) cluster).keeps s
    rw [hread] at hreads
    split at hrun
    · obtain ⟨_, u₁, -, hrun⟩ := bind_eq_ok.mp hrun
      obtain ⟨_, u₂, -, hrun⟩ := bind_eq_ok.mp hrun
      cases hrun
      omega
    · exact Observes.trans hreads (ih (Nat.succ_pos _) hrun)

/-- An allocation that fails leaves the disk and the cursor as they are. -/
theorem allocateCluster_failed {v : Volume} {s t : State} (hstart : 0 < s.startSearchCluster)
    (hrun : (allocateCluster v).run s = .ok 0 t) :
    SameView v s t ∧ t.startSearchCluster = s.startSearchCluster := by
  rw [allocateCluster, bind_look] at hrun
  obtain ⟨cluster, u, hloop, hrun⟩ := bind_eq_ok.mp hrun
  cases hrun
  have hreads := reads_of_allocateLoop hstart hloop
  exact ⟨⟨hreads.data, hreads.behind⟩, hreads.start⟩

section Relinks

variable {v : Volume} {s t u : State}

/-- From `s` to `t` the chain that ended in `c` was led on through the clusters `ns`, which were
free. -/
structure Relinks (v : Volume) (c : ℕ) (ns : List ℕ) (s t : State) : Prop where
  links_eq : links v t = relink (links v s) v.clusterEnd c ns
  fresh : ∀ x ∈ ns, 2 ≤ x ∧ x < v.totalClusters ∧ links v s x = 0
  nodup : (c :: ns).Nodup

/-- No cluster gets a new link. -/
theorem Relinks.nil (h : links v t = links v s) : Relinks v c [] s t :=
  ⟨h, by simp, by simp⟩

/-- A chain is led on through its first new cluster, and then through the others. -/
theorem Relinks.cons (hwf : v.WellFormed) {ns : List ℕ}
    (hn : 2 ≤ n ∧ n < v.totalClusters ∧ links v s n = 0) (hne : n ≠ c)
    (hlinks : links v t = Function.update (Function.update (links v s) n v.clusterEnd) c n)
    (h : Relinks v n ns t u) : Relinks v c (n :: ns) s u := by
  have hend : v.clusterEnd ≠ 0 := by
    have := hwf.clusters_lt
    omega
  -- a cluster that is free in `t` is neither `c` nor `n`
  have hfree {x : ℕ} (hx : links v t x = 0) : x ≠ c ∧ links v s x = 0 := by
    rw [hlinks] at hx
    have hxc : x ≠ c := by
      rintro rfl
      rw [Function.update_self] at hx
      omega
    rw [Function.update_of_ne hxc] at hx
    have hxn : x ≠ n := by
      rintro rfl
      rw [Function.update_self] at hx
      exact hend hx
    rw [Function.update_of_ne hxn] at hx
    exact ⟨hxc, hx⟩
  have hfresh (x : ℕ) (hx : x ∈ ns) := hfree (h.fresh x hx).2.2
  have hnotin : c ∉ n :: ns := by
    intro hmem
    rcases List.mem_cons.mp hmem with heq | hin
    · exact hne heq.symm
    · exact (hfresh c hin).1 rfl
  refine ⟨?_, ?_, List.nodup_cons.mpr ⟨hnotin, h.nodup⟩⟩
  · rw [h.links_eq, hlinks]
    rfl
  · intro x hx
    rcases List.mem_cons.mp hx with rfl | hx
    · exact hn
    · exact ⟨(h.fresh x hx).1, (h.fresh x hx).2.1, (hfresh x hx).2⟩

end Relinks

end Vsos.Fat
