import Vsos.Fat.Frame

/-!
# Writing an existing file

`WriteFile` of a path that leads to a file rewrites that file and nothing else: the volume
stays sound and every other file keeps its size and its bytes. Reading the file back gives
what was written. Both rest on a root directory that ends: `GetDirectoryEntries` does not
stop behind the last sector of a fixed root directory, and takes the data of a file for
directory entries when all slots of the root are in use.
-/

namespace Vsos.Fat

open Vsos.Lib

variable {v : Volume} {s u : State} {path : List UInt8} {buffer : Bytes} {len : ℕ} {create : Bool}
  {entry : FATEntryInfo} {p : Place} {ns : List ℕ}

/-- A FAT16 or FAT32 volume with 512-byte sectors and sound chains, on a disk that never fails. -/
structure Intact (v : Volume) (s : State) : Prop where
  wellFormed : v.WellFormed
  device : v.AlwaysSucceeds
  type_ne : v.fatType ≠ .FAT12
  sector_size : v.bytesPerSector = 512
  start : 2 ≤ s.startSearchCluster
  sound : Sound v s

/-- The path leads to a file whose first cluster is one of the volume. -/
structure LeadsTo (v : Volume) (s : State) (path : List UInt8) (entry : FATEntryInfo) : Prop where
  lookup : ∃ t, Returns (fun n => getEntryByPath v n path) s (some entry) t
  file : isDirectory entry.entry = false
  low : 2 ≤ getCluster entry.entry
  high : getCluster entry.entry ≤ v.totalClusters

/-- Every `AllocateCluster` of the call finds a cluster. -/
def FindsClusters (v : Volume) (s : State) (path : List UInt8) (buffer : Bytes) (len : ℕ)
    (create : Bool) : Prop :=
  ∀ fuel, Event.allocated 0 ∉ eventsSince s (final ((writeFile v fuel path buffer len create).run s))

/-- One run that answers shows what `AllocateCluster` returned. -/
theorem findsClusters_of_answer {n : ℕ} {r : ℤ}
    (hrun : answer ((writeFile v n path buffer len create).run s) = some r) (h : ∀ fuel < n + 1,
      Event.allocated 0 ∉ eventsSince s (final ((writeFile v fuel path buffer len create).run s))) :
    FindsClusters v s path buffer len create := by
  intro fuel
  by_cases hfuel : fuel < n + 1
  · exact h fuel hfuel
  · have hsame := writeFile_stable v path buffer len create n fuel _ _ _ (by omega)
      (eq_ok_of_answer hrun)
    rw [hsame]
    exact h n (by omega)

/-- The lookups work on an intact volume with a cluster. -/
theorem Intact.searchable (h : Intact v s) (hpos : 0 < v.totalClusters) :
    Searchable v where
  wellFormed := h.wellFormed
  slots_lt := by
    rw [Geometry.slotsPerSector, h.sector_size]
    decide
  read := h.device.1
  type_ne := h.type_ne
  clusters_pos := hpos

/-- A volume with a file has a cluster. -/
theorem LeadsTo.clusters_pos (h : LeadsTo v s path entry) : 0 < v.totalClusters := by
  have hlow := h.low
  have hhigh := h.high
  omega

/-- The entry is one of the tree and holds the bytes of its slot. -/
def InTree (v : Volume) (s : State) (entry : FATEntryInfo) : Prop :=
  Reach v s entry.place ∧ entry.entry = slotOf v s entry.place

/-- When the root directory ends, a path leads to an entry of the tree. -/
theorem LeadsTo.inTree (h : LeadsTo v s path entry) (hv : Intact v s) (hends : RootEnds v s) :
    InTree v s entry := by
  obtain ⟨t, hres⟩ := h.lookup
  exact getEntryByPath_reach (hv.searchable h.clusters_pos) hv.sound hends hres

/-- What is written after some reads. -/
theorem Rewrites.of_reads (hwf : v.WellFormed) {t : State} (hreads : Reads v s t) {new : Bytes}
    {c : ℕ} (h : Rewrites v t u p new buffer len c ns) : Rewrites v s u p new buffer len c ns := by
  have hlinks : links v t = links v s := hwf.links_eq fun a _ => by rw [hreads.data]
  exact ⟨(hreads.alters_of_reads _).trans h.alters, h.apart, by rw [h.entry, hreads.data],
    by rw [h.links_eq, hlinks], fun x hx => hlinks ▸ h.fresh x hx, h.nodup, h.length, h.bytes⟩

/-- The part of `WriteFile` behind the lookups, for an entry of the tree: unless an allocation fails,
the file is rewritten. -/
theorem writeEntry_writes (hdev : v.AlwaysSucceeds) (hwf : v.WellFormed) (hwhole : WholeEntries v)
    {w : State} (hsound : Sound v s) (hstart : 2 ≤ s.startSearchCluster) (hreads : Reads v s w)
    (htree : InTree v s entry) (hfile : isDirectory entry.entry = false)
    (hlow : 2 ≤ getCluster entry.entry) (hhigh : getCluster entry.entry ≤ v.totalClusters)
    (buffer : Bytes) (hlen : len < 2 ^ 32) :
    ∃ r u, (writeEntry v entry buffer len).run w = .ok r u ∧ Traces (fun _ => True) w u ∧
      (Event.allocated 0 ∉ eventsSince w u → r = 0 ∧ 2 ≤ u.startSearchCluster ∧
        ∃ ns date time, WritesFile v s u entry.place buffer len date time ns) := by
  obtain ⟨hreach, hentry⟩ := htree
  obtain ⟨hregion, haligned⟩ := hreach.dirRegion hwf
  have hslot : slotOf v w = slotOf v s := slotOf_of_reads hreads
  have hlinks : links v w = links v s := hwf.links_eq fun a _ => by rw [hreads.data]
  have hused : links v w (getCluster entry.entry) ≠ 0 := by
    obtain ⟨l, hl, -⟩ := hsound.chain (.slot entry.place) hreach
    rw [Owner.first, ← hentry] at hl
    rw [hlinks]
    exact hl.links_ne_zero hwf (hl.mem_first hwf hlow hhigh)
  obtain ⟨r, u, hwrite, htraces, hdone⟩ := writeEntry_rewrites hdev hwf hwhole buffer hlen
    (by rw [hreads.start]; exact hstart) hlow hhigh hused (by rw [hslot]; exact hentry) haligned
    (DirRegion.addressable hwf hregion) hregion.not_table
    fun x hx hor => hregion.not_cluster hwf hsound hreach (hentry ▸ hlow) (hentry ▸ hhigh)
      (hentry ▸ hfile) hx (by rwa [← hentry, ← hlinks])
  refine ⟨r, u, hwrite, htraces, fun hnone => ?_⟩
  obtain ⟨hr, hstart', ns, date, time, hrewrites⟩ := hdone hnone
  rw [hentry] at hrewrites hfile hlow hhigh
  exact ⟨hr, hstart', ns, date, time, hwf, hsound, hreach, hfile, hlow, hhigh, hrewrites.of_reads hwf hreads⟩

/-- `WriteFile` of an entry of the tree returns 0 and rewrites the file. -/
theorem LeadsTo.writes (hpath : LeadsTo v s path entry) (hdev : v.AlwaysSucceeds)
    (hwf : v.WellFormed) (hwhole : WholeEntries v) (hsound : Sound v s)
    (hstart : 2 ≤ s.startSearchCluster) (htree : InTree v s entry) (hlen : len < 2 ^ 32)
    (halloc : FindsClusters v s path buffer len create) :
    ∃ u ns date time, Returns (fun n => writeFile v n path buffer len create) s 0 u ∧
      2 ≤ u.startSearchCluster ∧ WritesFile v s u entry.place buffer len date time ns := by
  obtain ⟨t, n, hn⟩ := hpath.lookup
  obtain ⟨w, hreads, hrun⟩ := writeFile_of_getEntry hdev.1 (hn n (le_refl n))
  obtain ⟨r, u, hwrite, htraces, hdone⟩ := writeEntry_writes hdev hwf hwhole hsound hstart hreads htree
    hpath.file hpath.low hpath.high buffer hlen
  have hall : (writeFile v n path buffer len create).run s = .ok r u := (hrun _ _ _ (Or.inl hpath.file)).trans hwrite
  have hnone : Event.allocated 0 ∉ eventsSince w u := by
    have hsince := halloc n
    rw [hall] at hsince
    change Event.allocated 0 ∉ eventsSince s u at hsince
    rw [hreads.traces.eventsSince_append htraces] at hsince
    exact fun hmem => hsince (List.mem_append_left _ hmem)
  obtain ⟨rfl, hstart', ns, date, time, hwrites⟩ := hdone hnone
  exact ⟨u, ns, date, time, (writeFile_stable v path buffer len create).returns hall, hstart', hwrites⟩

/-- `WriteFile` of an existing file of an intact volume returns 0 and rewrites the file. -/
theorem writeFile_writes (hv : Intact v s) (hpath : LeadsTo v s path entry) (hlen : len < 2 ^ 32)
    (halloc : FindsClusters v s path buffer len create) (htree : InTree v s entry) :
    ∃ u ns date time, Returns (fun n => writeFile v n path buffer len create) s 0 u ∧
      2 ≤ u.startSearchCluster ∧ WritesFile v s u entry.place buffer len date time ns :=
  hpath.writes hv.device hv.wellFormed (wholeEntries_of_type hv.type_ne) hv.sound hv.start htree hlen halloc

section Sample

/-- The 8.3 entry of a file whose name is one letter and `TXT`. -/
def letterSlot (letter : UInt8) (cluster size : ℕ) : List UInt8 :=
  slotBytes (letter :: sampleName.tail) 0x20 cluster size

/-- A root directory with all of its 16 slots in use: `A.TXT` has `size` bytes from cluster `owner`
on, the files `B.TXT` to `P.TXT` are empty. The data of cluster 2 looks like an entry `X.TXT` at
cluster `first`. -/
def fullState (owner size first : ℕ) : State :=
  mounted fun address i =>
    if address = 17 then
      if i < 32 then (letterSlot 0x41 owner size).getD i 0
      else (letterSlot (0x41 + UInt8.ofNat (i / 32)) 0 0).getD (i % 32) 0
    else diskImage [(1, [0xF8, 0xFF, 0xFF, 0xFF, 0xF8, 0xFF, 0xF8, 0xFF]),
      (18, letterSlot 0x58 first 0)] address i

/-- The name `X.TXT`. -/
def fakePath : List UInt8 := 0x58 :: samplePath.tail

/-- A file of one cluster. -/
theorem smallVolume_fileChain {c : ℕ} (hlow : 2 ≤ c) (hhigh : c ≤ 4085)
    (hend : 0xFFF8 ≤ diskEntry (smallVolume 0) s c) : FileChain (smallVolume 0) s c [c] := by
  refine Or.inr ⟨⟨rfl, ?_, hend⟩, ?_⟩
  · change ¬ 0xFFF8 ≤ c
    omega
  · simp only [List.mem_singleton, forall_eq, IsCluster, smallVolume]
    omega

/-- A volume with empty files and files of one cluster that they do not share. -/
theorem smallVolume_sound (hlive : ∀ p ∈ liveSlots (smallVolume 0) s (rootPlaces (smallVolume 0)),
      isDirectory (slotOf (smallVolume 0) s p) = false ∧
        (getCluster (slotOf (smallVolume 0) s p) = 0 ∨
          2 ≤ getCluster (slotOf (smallVolume 0) s p) ∧ getCluster (slotOf (smallVolume 0) s p) ≤ 4085 ∧
            0xFFF8 ≤ diskEntry (smallVolume 0) s (getCluster (slotOf (smallVolume 0) s p))))
    (hown : ∀ p ∈ liveSlots (smallVolume 0) s (rootPlaces (smallVolume 0)),
      getCluster (slotOf (smallVolume 0) s p) ≠ 0 →
        ∀ q ∈ liveSlots (smallVolume 0) s (rootPlaces (smallVolume 0)),
          getCluster (slotOf (smallVolume 0) s p) = getCluster (slotOf (smallVolume 0) s q) → p = q) :
    Sound (smallVolume 0) s := by
  apply sound_of_files (by decide) (fun p hp => (hlive p hp).1) fun p =>
    if getCluster (slotOf (smallVolume 0) s p) = 0 then [] else [getCluster (slotOf (smallVolume 0) s p)]
  · intro p hp
    rcases (hlive p hp).2 with hfree | ⟨hlow, hhigh, hend⟩
    · rw [hfree]
      exact ⟨Or.inl ⟨rfl, rfl⟩, by simp⟩
    · rw [if_neg (by omega)]
      exact ⟨smallVolume_fileChain hlow hhigh hend, by simpa [smallVolume] using hhigh⟩
  · intro p hp q hq hne
    split
    · simp
    · next hfree =>
      split
      · simp
      · rw [List.disjoint_singleton, List.mem_singleton]
        exact fun heq => hne (hown p hp hfree q hq heq.symm)

/-- A sound sample volume is intact. -/
theorem smallVolume_intact (hstart : 2 ≤ s.startSearchCluster) (hsound : Sound (smallVolume 0) s) :
    Intact (smallVolume 0) s where
  wellFormed := smallVolume_wellFormed 0
  device := smallVolume_alwaysSucceeds 0
  type_ne := by decide
  sector_size := rfl
  start := hstart
  sound := hsound

/-- A lookup within a budget that finds a file. -/
theorem leadsTo_of_resolved (fuel : ℕ) {c : ℕ}
    (h : (resolved v s fuel path).map (fun e => (isDirectory e.entry, getCluster e.entry, e.place)) =
      some (false, c, p)) (hlow : 2 ≤ c) (hhigh : c ≤ v.totalClusters) :
    ∃ entry, LeadsTo v s path entry ∧ entry.place = p := by
  obtain ⟨entry, hentry, heq⟩ := Option.map_eq_some_iff.mp h
  simp only [Prod.mk.injEq] at heq
  obtain ⟨hfile, rfl, hplace⟩ := heq
  exact ⟨entry, ⟨returns_of_resolved v hentry, hfile, hlow, hhigh⟩, hplace⟩

/-- The volume with the one file `A.TXT` is intact. -/
theorem slice_intact : Intact (smallVolume 0) sliceState :=
  smallVolume_intact (by decide) (smallVolume_sound (by decide +kernel) (by decide +kernel))

/-- The path of `A.TXT` leads to its entry. -/
theorem slice_leadsTo :
    ∃ entry, LeadsTo (smallVolume 0) sliceState samplePath entry ∧ entry.place = ⟨17, 0⟩ :=
  leadsTo_of_resolved 18 (show _ = some (false, 2, _) by decide +kernel) (by decide) (by decide)

/-- There are clusters for 600 bytes. -/
theorem slice_findsClusters :
    FindsClusters (smallVolume 0) sliceState samplePath (fun _ => 7) 600 false :=
  findsClusters_of_answer (show answer ((writeFile _ 18 _ _ _ _).run _) = some 0 by decide +kernel)
    (by decide +kernel)

/-- The root of the sample ends. -/
theorem slice_rootEnds : RootEnds (smallVolume 0) sliceState :=
  Or.inr ⟨⟨17, 32⟩, by decide +kernel, by decide +kernel⟩

end Sample

/-- The volume is sound afterwards, and every file but the one at `p` has its size and its bytes. -/
structure Undisturbed (v : Volume) (s u : State) (p : Place) : Prop where
  sound : Sound v u
  files : ∀ q, Reach v s q → q ≠ p → isDirectory (slotOf v s q) = false →
    Reach v u q ∧ fileSize (slotOf v u q) = fileSize (slotOf v s q) ∧
      ∀ l, FileChain v s (getCluster (slotOf v s q)) l →
        FileChain v u (getCluster (slotOf v u q)) l ∧
          ∀ i < l.length * v.clusterSize, chainByte v u l i = chainByte v s l i

/-- Writing a file leaves the others alone. -/
theorem WritesFile.undisturbed {date time : ℕ} (h : WritesFile v s u p buffer len date time ns) :
    Undisturbed v s u p := by
  refine ⟨h.sound_kept, fun q hq hqp hqfile => ?_⟩
  obtain ⟨hslot, hchains⟩ := h.file_kept hq hqp hqfile
  refine ⟨h.reach_kept.mpr hq, by rw [hslot], fun l hl => ?_⟩
  obtain ⟨hchain, hbytes⟩ := hchains l hl
  exact ⟨by rwa [hslot], fun i _ => by rw [hbytes]⟩

/-- `WriteFile` does not disturb other files if the root directory ends or the path leads to an
entry of the tree anyway. -/
theorem writeFile_undisturbed (v : Volume) (s : State) (path : List UInt8) (entry : FATEntryInfo)
    (buffer : Bytes) (len : ℕ) (create : Bool) (hv : Intact v s) (hpath : LeadsTo v s path entry)
    (hlen : len < 2 ^ 31) (halloc : FindsClusters v s path buffer len create)
    (hends : RootEnds v s ∨ InTree v s entry) :
    ∃ u, Returns (fun n => writeFile v n path buffer len create) s 0 u ∧
      Undisturbed v s u entry.place := by
  have htree : InTree v s entry := hends.elim (hpath.inTree hv) id
  obtain ⟨u, ns, date, time, hret, -, hwrites⟩ := writeFile_writes hv hpath (by omega) halloc htree
  exact ⟨u, hret, hwrites.undisturbed⟩

/-- All slots of the root directory are in use, so the data of `A.TXT` is taken for an entry
`X.TXT`. Five bytes written to it change the bytes of `A.TXT`. -/
theorem writeFile_disturbs :
    ¬ ∀ (v : Volume) (s : State) (path : List UInt8) (entry : FATEntryInfo) (buffer : Bytes) (len : ℕ)
      (create : Bool), Intact v s → LeadsTo v s path entry → len < 2 ^ 31 →
      FindsClusters v s path buffer len create →
      ∃ u, Returns (fun n => writeFile v n path buffer len create) s 0 u ∧
        Undisturbed v s u entry.place := by
  intro h
  have hend : 0xFFF8 ≤ diskEntry (smallVolume 0) (fullState 2 32 3) 2 := by decide +kernel
  have hintact : Intact (smallVolume 0) (fullState 2 32 3) :=
    smallVolume_intact (by decide) (smallVolume_sound (by decide +kernel) (by decide +kernel))
  obtain ⟨entry, hpath, hplace⟩ : ∃ entry, LeadsTo (smallVolume 0) (fullState 2 32 3) fakePath entry ∧
      entry.place = ⟨18, 0⟩ :=
    leadsTo_of_resolved 18 (show _ = some (false, 3, _) by decide +kernel) (by decide) (by decide)
  have hrun : answer ((writeFile (smallVolume 0) 18 fakePath (fun _ => 0) 5 false).run (fullState 2 32 3)) =
      some 0 := by decide +kernel
  obtain ⟨u, hret, hund⟩ := h _ _ _ _ (fun _ => 0) 5 false hintact hpath (by decide)
    (findsClusters_of_answer hrun (by decide +kernel))
  have hu := (hret.unique ((writeFile_stable _ _ _ _ _).returns_of_answer hrun)).2
  have hreach : Reach (smallVolume 0) (fullState 2 32 3) ⟨17, 0⟩ :=
    reach_of_mem_rootPlaces (by decide) (by decide +kernel)
  obtain ⟨-, -, hbytes⟩ := hund.files ⟨17, 0⟩ hreach (by rw [hplace]; decide) (by decide +kernel)
  have hbyte := (hbytes [2] (by exact smallVolume_fileChain (by decide) (by decide) hend)).2 28 (by decide)
  rw [hu] at hbyte
  exact absurd hbyte (by decide +kernel)

/-- Two files of two bytes each, `A.TXT` in cluster 2 and `B.TXT` in cluster 3. -/
def pairState : State :=
  mounted (diskImage [(1, [0xF8, 0xFF, 0xFF, 0xFF, 0xF8, 0xFF, 0xF8, 0xFF]),
    (17, letterSlot 0x41 2 2 ++ letterSlot 0x42 3 2), (18, [1, 2]), (19, [3, 4])])

/-- Writing 600 bytes to `A.TXT` does not disturb `B.TXT`. -/
theorem writeFile_undisturbed_pair : ∃ u,
    Returns (fun n => writeFile (smallVolume 0) n samplePath (fun _ => 7) 600 false) pairState 0 u ∧
      Undisturbed (smallVolume 0) pairState u ⟨17, 0⟩ ∧ Reach (smallVolume 0) pairState ⟨17, 32⟩ := by
  obtain ⟨entry, hpath, hplace⟩ : ∃ entry, LeadsTo (smallVolume 0) pairState samplePath entry ∧
      entry.place = ⟨17, 0⟩ :=
    leadsTo_of_resolved 18 (show _ = some (false, 2, _) by decide +kernel) (by decide) (by decide)
  have hintact : Intact (smallVolume 0) pairState :=
    smallVolume_intact (by decide) (smallVolume_sound (by decide +kernel) (by decide +kernel))
  have hfinds : FindsClusters (smallVolume 0) pairState samplePath (fun _ => 7) 600 false :=
    findsClusters_of_answer (show answer ((writeFile _ 18 _ _ _ _).run _) = some 0 by decide +kernel)
      (by decide +kernel)
  have hends : RootEnds (smallVolume 0) pairState :=
    Or.inr ⟨⟨17, 64⟩, by decide +kernel, by decide +kernel⟩
  obtain ⟨u, hret, hund⟩ := writeFile_undisturbed _ _ _ _ _ _ _ hintact hpath (by decide) hfinds
    (Or.inl hends)
  rw [hplace] at hund
  exact ⟨u, hret, hund, reach_of_mem_rootPlaces (by decide) (by decide +kernel)⟩

/-- The file has its new size and reads back as what was written. -/
structure RoundTrips (v : Volume) (u : State) (path : List UInt8) (buffer : Bytes) (len : ℕ) :
    Prop where
  size : ∃ w, Returns (fun n => getFileSize v n path) u len w
  bytes : ∀ out, ∃ out' w, Returns (fun n => readFile v n path out 0 len) u (0, out') w ∧
    ∀ i < len, out' i = buffer i

/-- The clusters of the written file can be read, and they hold what was written. -/
theorem WritesFile.readable {date time : ℕ} (h : WritesFile v s u p buffer len date time ns) :
    ∃ l, FileChain v u (getCluster (slotOf v s p)) l ∧ ∀ i < len,
      i < (readableClusters v l).length * v.clusterSize ∧ chainByte v u l i = buffer i := by
  by_cases hnil : ns = []
  · obtain ⟨l, hl, -⟩ := h.sound.chain (.slot p) h.reach
    refine ⟨l, h.chain_of_nil hnil hl, fun i hi => ?_⟩
    have hle := le_reqClusters_mul v len
    rw [← h.rewrites.length, hnil, List.length_nil] at hle
    omega
  · refine ⟨_, h.chain_of_ne_nil hnil, fun i hi => ⟨?_, h.rewrites.bytes i hi⟩⟩
    have hreadable : readableClusters v (getCluster (slotOf v s p) :: ns) =
        getCluster (slotOf v s p) :: ns := by
      rcases readableClusters_cases v (getCluster (slotOf v s p) :: ns) with heq | ⟨k, hk, -⟩
      · exact heq
      · have := (h.touched_range (List.mem_of_getElem? hk)).2
        omega
    have hle := le_reqClusters_mul v len
    rw [hreadable, List.length_cons, h.rewrites.length, Nat.succ_mul]
    omega

/-- What `WriteFile` puts into an existing file can be read back if the root directory ends. -/
theorem writeFile_roundTrips (v : Volume) (s : State) (path : List UInt8) (entry : FATEntryInfo)
    (buffer : Bytes) (len : ℕ) (create : Bool) (hv : Intact v s) (hpath : LeadsTo v s path entry)
    (hlen : len < 2 ^ 31) (halloc : FindsClusters v s path buffer len create)
    (hends : RootEnds v s) :
    ∃ r u, Returns (fun n => writeFile v n path buffer len create) s r u ∧
      RoundTrips v u path buffer len := by
  obtain ⟨u, ns, date, time, hret, -, h⟩ := writeFile_writes hv hpath (by omega) halloc
    (hpath.inTree hv hends)
  obtain ⟨t, hres⟩ := hpath.lookup
  obtain ⟨t', hagain⟩ := getEntryByPath_amend (hv.searchable hpath.clusters_pos) hv.sound hends
    h.amended h.file hres
  rw [amend, if_pos rfl] at hagain
  have hsize : fileSize (rewritten (slotOf v s entry.place) len date time) = len :=
    fileSize_rewritten _ (by omega) date time
  have hfile : isDirectory (rewritten (slotOf v s entry.place) len date time) = false := by
    exact h.file
  refine ⟨0, u, hret, ⟨t', Returns.bind hagain (Returns.of_run ?_)⟩, fun out => ?_⟩
  · simp [hfile, hsize]
  · obtain ⟨l, hl, hbytes⟩ := h.readable
    have hintact : LinksIntact v u l := fun c _ hs => absurd hs.1 hv.type_ne
    obtain ⟨out', w, hread, hout⟩ := readFile_delivers_front hv.device.1 hv.wellFormed hagain hfile hl
      hintact hsize.ge out 0
    refine ⟨out', w, hread, fun i hi => ?_⟩
    obtain ⟨hin, hbyte⟩ := hbytes i hi
    rw [hout i hi, if_pos hin, hbyte]

/-- The entry `X.TXT` lies in its own first cluster, so writing the file destroys it. -/
theorem writeFile_destroys_entry :
    ¬ ∀ (v : Volume) (s : State) (path : List UInt8) (entry : FATEntryInfo) (buffer : Bytes) (len : ℕ)
      (create : Bool), Intact v s → LeadsTo v s path entry → len < 2 ^ 31 →
      FindsClusters v s path buffer len create →
      ∃ r u, Returns (fun n => writeFile v n path buffer len create) s r u ∧
        RoundTrips v u path buffer len := by
  intro h
  have hintact : Intact (smallVolume 0) (fullState 0 0 2) :=
    smallVolume_intact (by decide) (smallVolume_sound (by decide +kernel) (by decide +kernel))
  obtain ⟨entry, hpath, -⟩ : ∃ entry, LeadsTo (smallVolume 0) (fullState 0 0 2) fakePath entry ∧
      entry.place = ⟨18, 0⟩ :=
    leadsTo_of_resolved 18 (show _ = some (false, 2, _) by decide +kernel) (by decide) (by decide)
  have hrun : answer ((writeFile (smallVolume 0) 18 fakePath (fun _ => 0) 5 false).run (fullState 0 0 2)) =
      some (-1) := by decide +kernel
  obtain ⟨r, u, hret, htrip⟩ := h _ _ _ _ (fun _ => 0) 5 false hintact hpath (by decide)
    (findsClusters_of_answer hrun (by decide +kernel))
  have hu := (hret.unique ((writeFile_stable _ _ _ _ _).returns_of_answer hrun)).2
  obtain ⟨w, n, hn⟩ := htrip.size
  have hsize : answer ((getFileSize (smallVolume 0) 18 fakePath).run u) = some 0 := by
    rw [hu]
    decide +kernel
  have hstable : Stable fun n => getFileSize (smallVolume 0) n fakePath :=
    Stable.bind (getEntryByPath_stable _ _) fun _ => Stable.const _
  have heq := (Returns.unique ⟨n, hn⟩ (hstable.returns_of_answer hsize)).1
  cases heq

/-- 600 bytes written to `A.TXT` are read back. -/
theorem writeFile_roundTrips_slice : ∃ r u,
    Returns (fun n => writeFile (smallVolume 0) n samplePath (fun _ => 7) 600 false) sliceState r u ∧
      RoundTrips (smallVolume 0) u samplePath (fun _ => 7) 600 := by
  obtain ⟨entry, hpath, -⟩ := slice_leadsTo
  exact writeFile_roundTrips _ _ _ _ _ _ _ slice_intact hpath (by decide) slice_findsClusters
    slice_rootEnds

end Vsos.Fat
