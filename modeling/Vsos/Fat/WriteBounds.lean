import Vsos.Fat.History
import Vsos.Fat.ReadBounds

/-!
# What `WriteFile` takes from the caller's buffer

`WriteFile` writes whole clusters. For sector number `k` of the file it takes the bytes from
`k * bytesPerSector` on: those that are left, padded with zeros, when less than a sector is
left, and a whole sector otherwise. The number of bytes left comes from a 32-bit subtraction.
Once a sector of the last cluster starts past the end of the data the difference wraps, and
the bytes behind the buffer are written to the disk. Nothing is taken when the call finds no entry
to write to. The blocks of the disk are taken to have `bytesPerSector` bytes.
-/

namespace Vsos.Fat

open Vsos.Lib

/-- How many bytes are left for sector number `k` of the file, as the code computes it. -/
def bytesLeftAt (v : Volume) (len k : ℕ) : ℕ := sub32 len (wrap32 (k * v.bytesPerSector))

/-- The load that `WriteFile` makes for sector number `k` of the file. -/
def loadOf (v : Volume) (len k : ℕ) : Event :=
  .load (k * v.bytesPerSector)
    (if bytesLeftAt v len k < v.bytesPerSector then bytesLeftAt v len k else v.blockSize)

/-- The accesses of the write loop for the sectors from `j` up to `m`. -/
def WriteEvent (v : Volume) (len j m : ℕ) (e : Event) : Prop :=
  ¬ e.OnBuffer ∨ ∃ k, j ≤ k ∧ k < m ∧ e = loadOf v len k

/-- Every loaded byte has an index below `len`. -/
def LoadsWithin (len : ℕ) (events : List Event) : Prop :=
  ∀ index count k, Event.load index count ∈ events → k < count → index + k < len

/-- The number of sectors `WriteFile` writes for `len` bytes. -/
def sectorsWritten (v : Volume) (len : ℕ) : ℕ := reqClusters v len * v.sectorsPerCluster

/-- The last of these sectors starts no later than `len`. -/
def WriteFits (v : Volume) (len : ℕ) : Prop := (sectorsWritten v len - 1) * v.bytesPerSector ≤ len

/-- An event of some sectors is one of more sectors. -/
theorem WriteEvent.mono {v : Volume} {len j m j' m' : ℕ} {e : Event} (h : WriteEvent v len j m e)
    (hj : j' ≤ j) (hm : m ≤ m') : WriteEvent v len j' m' e := by
  rcases h with h | ⟨k, hjk, hkm, rfl⟩
  · exact Or.inl h
  · exact Or.inr ⟨k, hj.trans hjk, lt_of_lt_of_le hkm hm, rfl⟩

section

variable (v : Volume)
include v

/-- One sector further, as `bytesWritten` counts it. -/
theorem wrap32_next (k : ℕ) :
    wrap32 (wrap32 (k * v.bytesPerSector) + v.bytesPerSector) = wrap32 ((k + 1) * v.bytesPerSector) := by
  rw [wrap32, wrap32, wrap32, Nat.mod_add_mod, Nat.succ_mul]

/-- A data sector is written with a single load, whatever the driver answers. -/
theorem writeDataSector_run (buffer : Bytes) (address len k : ℕ) (s : State) :
    ∃ status t, (writeDataSector v buffer address (k * v.bytesPerSector) (bytesLeftAt v len k)).run s =
        .ok status t ∧
      eventsSince s t = [.writeSector address, loadOf v len k] ∧
      Traces (WriteEvent v len k (k + 1)) s t ∧
      (v.AlwaysSucceeds → status = 0) := by
  have hload : WriteEvent v len k (k + 1) (loadOf v len k) :=
    Or.inr ⟨k, le_refl k, by omega, rfl⟩
  have hwrite : WriteEvent v len k (k + 1) (.writeSector address) :=
    Or.inl (by simp [Event.OnBuffer])
  have htraces {t : State} (ht : t.trace = [.writeSector address, loadOf v len k] ++ s.trace) :
      Traces (WriteEvent v len k (k + 1)) s t := by
    refine ⟨_, ht, ?_⟩
    intro e he
    rcases List.mem_cons.mp he with rfl | he
    · exact hwrite
    · rw [List.mem_singleton.mp he]
      exact hload
  unfold writeDataSector
  by_cases hpart : bytesLeftAt v len k < v.bytesPerSector
  · have hev : loadOf v len k = .load (k * v.bytesPerSector) (bytesLeftAt v len k) := by
      simp only [loadOf, if_pos hpart]
    rw [if_pos hpart]
    refine ⟨_, _, rfl, eventsSince_eq ?_, htraces ?_, fun hdev => hdev.2 _ _⟩
    · rw [hev]; rfl
    · rw [hev]; rfl
  · have hev : loadOf v len k = .load (k * v.bytesPerSector) v.blockSize := by
      simp only [loadOf, if_neg hpart]
    rw [if_neg hpart]
    refine ⟨_, _, rfl, eventsSince_eq ?_, htraces ?_, fun hdev => hdev.2 _ _⟩
    · rw [hev]; rfl
    · rw [hev]; rfl

/-- The loads of one cluster. -/
theorem writeSectors_run (buffer : Bytes) (len sector base n i j : ℕ)
    (hbase : base + i * v.bytesPerSector = j * v.bytesPerSector) (s : State) :
    ∃ r t, (writeSectors v buffer len sector base n i (wrap32 (j * v.bytesPerSector))).run s =
        .ok r t ∧
      Traces (WriteEvent v len j (j + n)) s t ∧
      (∀ w, r = some w → w = wrap32 ((j + n) * v.bytesPerSector)) ∧
      (v.AlwaysSucceeds → r ≠ none ∧ ∀ k, j ≤ k → k < j + n → loadOf v len k ∈ eventsSince s t) := by
  induction n generalizing i j s with
  | zero =>
    refine ⟨some (wrap32 (j * v.bytesPerSector)), s, rfl, Traces.refl _ s, ?_, fun _ => ⟨by simp, ?_⟩⟩
    · intro w hw
      injection hw with hw
      exact hw.symm
    · intro k hjk hk
      omega
  | succ n ih =>
    obtain ⟨status, t, hrun, hevents, htr, hok⟩ :=
      writeDataSector_run v buffer (lba v sector i) len j s
    have htr' : Traces (WriteEvent v len j (j + (n + 1))) s t :=
      htr.mono fun e he => he.mono (le_refl j) (by omega)
    rw [writeSectors, hbase, show sub32 len (wrap32 (j * v.bytesPerSector)) = bytesLeftAt v len j from rfl,
      bind_of_ok hrun]
    by_cases hstatus : status ≠ 0
    · rw [if_pos hstatus]
      exact ⟨none, t, rfl, htr', fun w hw => by simp at hw, fun hdev => absurd (hok hdev) hstatus⟩
    · have hbase' : base + (i + 1) * v.bytesPerSector = (j + 1) * v.bytesPerSector := by
        rw [Nat.succ_mul, Nat.succ_mul]
        omega
      obtain ⟨r, u, hrun', htr'', hw, hall⟩ := ih (i + 1) (j + 1) hbase' t
      rw [if_neg hstatus, wrap32_next]
      rw [show j + 1 + n = j + (n + 1) by omega] at htr'' hw hall
      refine ⟨r, u, hrun', htr'.trans (htr''.mono fun e he => he.mono (by omega) (le_refl _)), hw, ?_⟩
      intro hdev
      refine ⟨(hall hdev).1, fun k hjk hk => ?_⟩
      rw [htr'.eventsSince_append htr'']
      by_cases hkj : k = j
      · rw [hevents, hkj]
        simp
      · exact List.mem_append_left _ ((hall hdev).2 k (by omega) hk)

/-- `AllocateCluster` and `WriteTable` return whatever the driver answers. -/
theorem total_writeTable (cluster value : ℕ) : Total (writeTable v cluster value) := by
  apply Total.ite (Total.pure ())
  apply Total.bind (fun s => ⟨_, _, rfl⟩)
  intro status
  apply Total.ite (Total.pure ())
  apply Total.bind (fun s => ⟨_, _, rfl⟩)
  intro _
  exact Total.bind (fun s => ⟨_, _, rfl⟩) fun _ => Total.pure ()

/-- `ReadTable` returns. -/
theorem total_readTable (cluster : ℕ) : Total (readTable v cluster) := by
  intro s
  obtain ⟨next, t, hrun, -⟩ := readTable_cases v cluster s
  exact ⟨next, t, hrun⟩

/-- The search for a free cluster returns. -/
theorem total_allocateLoop (n cluster : ℕ) : Total (allocateLoop v n cluster) := by
  induction n generalizing cluster with
  | zero => exact Total.pure 0
  | succ n ih =>
    apply Total.bind (total_readTable v cluster)
    intro value
    apply Total.ite _ (ih (cluster + 1))
    apply Total.bind (fun s => ⟨_, _, rfl⟩)
    intro _
    exact Total.bind (total_writeTable v _ _) fun _ => Total.pure _

/-- `AllocateCluster` returns. -/
theorem total_allocateCluster : Total (allocateCluster v) := by
  apply Total.bind (fun s => ⟨_, _, rfl⟩)
  intro start
  apply Total.bind (total_allocateLoop v _ _)
  intro cluster
  exact Total.bind (fun s => ⟨_, _, rfl⟩) fun _ => Total.pure _

end

/-- The first byte of cluster number `i` of the file. -/
theorem clusterBase_eq {v : Volume} {i : ℕ} (hi : i * v.clusterSize < 2 ^ 32) :
    wrap32 (i * v.clusterSize) + 0 * v.bytesPerSector =
      i * v.sectorsPerCluster * v.bytesPerSector := by
  rw [wrap32_of_lt hi, Geometry.clusterSize, Nat.zero_mul, Nat.add_zero,
    Nat.mul_comm v.bytesPerSector, Nat.mul_assoc]

/-- The loads of the clusters from number `i` on. -/
theorem writeClusters_run (v : Volume) (buffer : Bytes) (len n i cluster : ℕ)
    (hsmall : (i + n - 1) * v.clusterSize < 2 ^ 32) (s : State) :
    ∃ r t, (writeClusters v buffer len n i cluster
        (wrap32 (i * v.sectorsPerCluster * v.bytesPerSector))).run s = .ok r t ∧
      Traces (WriteEvent v len (i * v.sectorsPerCluster) ((i + n) * v.sectorsPerCluster)) s t ∧
      (v.AlwaysSucceeds → ∀ k, i * v.sectorsPerCluster ≤ k → k < (i + n) * v.sectorsPerCluster →
        loadOf v len k ∈ eventsSince s t) := by
  induction n generalizing i cluster s with
  | zero =>
    refine ⟨true, s, rfl, Traces.refl _ s, fun _ k hk hk' => ?_⟩
    rw [Nat.add_zero] at hk'
    omega
  | succ n ih =>
    have hbase := clusterBase_eq (show i * v.clusterSize < 2 ^ 32 from
      lt_of_le_of_lt (Nat.mul_le_mul_right _ (by omega)) hsmall)
    have hnext : i * v.sectorsPerCluster + v.sectorsPerCluster = (i + 1) * v.sectorsPerCluster :=
      (Nat.succ_mul _ _).symm
    have hend : (i + 1) * v.sectorsPerCluster ≤ (i + (n + 1)) * v.sectorsPerCluster :=
      Nat.mul_le_mul_right _ (by omega)
    obtain ⟨r, t, hrun, htr, hw, hall⟩ := writeSectors_run v buffer len (clusterToSector v cluster)
      (wrap32 (i * v.clusterSize)) v.sectorsPerCluster 0 (i * v.sectorsPerCluster) hbase s
    rw [hnext] at htr hw hall
    have htr' := htr.mono fun e (he : WriteEvent v len _ _ e) => he.mono (le_refl _) hend
    rw [writeClusters, bind_of_ok hrun]
    cases r with
    | none => exact ⟨false, t, rfl, htr', fun hdev => absurd rfl (hall hdev).1⟩
    | some w =>
      obtain ⟨newCluster, t₁, halloc⟩ := total_allocateCluster v t
      obtain ⟨_, t₂, htable⟩ := total_writeTable v cluster newCluster t₁
      have hquiet₁ := keepsQuiet_allocateCluster v t
      have hquiet₂ := keepsQuiet_writeTable v cluster newCluster t₁
      rw [halloc] at hquiet₁
      rw [htable] at hquiet₂
      have hquiet : Quiet t t₂ := hquiet₁.trans hquiet₂
      obtain ⟨r', u, hrun', htr'', hall'⟩ := ih (i + 1) newCluster (by
        rwa [show i + 1 + n - 1 = i + (n + 1) - 1 by omega]) t₂
      rw [show i + 1 + n = i + (n + 1) by omega] at htr'' hall'
      rw [bind_of_ok halloc, bind_of_ok htable, hw w rfl]
      have hfirst := htr'.trans (hquiet.mono fun e => Or.inl)
      refine ⟨r', u, hrun', hfirst.trans (htr''.mono fun e he => he.mono (by omega) (le_refl _)), ?_⟩
      intro hdev k hik hk
      rw [hfirst.eventsSince_append htr'', htr.eventsSince_append hquiet]
      by_cases hin : k < (i + 1) * v.sectorsPerCluster
      · exact List.mem_append_right _ (List.mem_append_right _ ((hall hdev).2 k hik hin))
      · exact List.mem_append_left _ (hall' hdev k (by omega) hk)

/-- The clusters a write needs start below its length. -/
theorem reqClusters_start_le (v : Volume) (len : ℕ) :
    (reqClusters v len - 1) * v.clusterSize ≤ len := by
  have hdiv := Nat.div_mul_le_self len v.clusterSize
  have hle : reqClusters v len - 1 ≤ len / v.clusterSize := by
    apply Nat.sub_le_of_le_add
    unfold reqClusters
    split <;> simp
  exact (Nat.mul_le_mul_right _ hle).trans hdiv

/-- A sector that starts by `len` is loaded from inside the data. -/
theorem loadOf_within {v : Volume} {len n k index count i : ℕ} (hlen : len < 2 ^ 32)
    (hblock : v.blockSize = v.bytesPerSector) (hfits : (n - 1) * v.bytesPerSector ≤ len) (hk : k < n)
    (hload : Event.load index count = loadOf v len k) (hi : i < count) : index + i < len := by
  injection hload with hindex hcount
  have hstart : k * v.bytesPerSector ≤ len :=
    (Nat.mul_le_mul_right _ (by omega : k ≤ n - 1)).trans hfits
  have hleft : bytesLeftAt v len k = len - k * v.bytesPerSector := by
    rw [bytesLeftAt, wrap32_of_lt (by omega), sub32_of_le hstart hlen]
  split at hcount <;> omega

/-- The accesses of a write to a known entry, and that none is left out when the disk accepts
every sector. -/
theorem writeEntry_traces (v : Volume) (entry : FATEntryInfo) (buffer : Bytes) {len : ℕ}
    (hlen : len < 2 ^ 32) (s : State) :
    Traces (WriteEvent v len 0 (sectorsWritten v len)) s
        (final ((writeEntry v entry buffer len).run s)) ∧
      (v.AlwaysSucceeds → ∀ k < sectorsWritten v len,
        loadOf v len k ∈ eventsSince s (final ((writeEntry v entry buffer len).run s))) := by
  obtain ⟨r, t, hrun, htr, hall⟩ := writeClusters_run v buffer len (reqClusters v len) 0
    (getCluster entry.entry) (by
      rw [Nat.zero_add]
      exact lt_of_le_of_lt (reqClusters_start_le v len) hlen) s
  simp only [Nat.zero_mul, Nat.zero_add, show wrap32 0 = 0 from rfl] at hrun htr hall
  have hquiet : Quiet t (final ((writeEntry v entry buffer len).run s)) := by
    rw [writeEntry, bind_of_ok hrun]
    apply Keeps.ite
    · exact fun _ => .pure _
    · exact fun _ => keepsQuiet_updateEntry v entry len
  refine ⟨htr.trans (hquiet.mono fun e => Or.inl), fun hdev k hk => ?_⟩
  rw [htr.eventsSince_append hquiet]
  exact List.mem_append_right _ (hall hdev k (Nat.zero_le k) hk)

/-- `WriteFile` up to the entry that it writes to. -/
def findForWrite (v : Volume) (fuel : ℕ) (path : List UInt8) (create : Bool) :
    FatM (Option FATEntryInfo) := do
  let isFile ← fileExists v fuel path
  if isFile = false ∧ create then do
    let created ← createFile v fuel path
    if created ≠ 0 then return none
    else getEntryByPath v fuel path
  else getEntryByPath v fuel path

/-- `WriteFile` finds its entry and then writes to it. -/
theorem writeFile_eq (v : Volume) (fuel : ℕ) (path : List UInt8) (buffer : Bytes) (len : ℕ)
    (create : Bool) :
    writeFile v fuel path buffer len create = (do
      match ← findForWrite v fuel path create with
      | none => return -1
      | some entry => writeEntry v entry buffer len) := by
  rw [writeFile, findForWrite, bind_assoc]
  refine bind_congr fun isFile => ?_
  split
  · rw [bind_assoc]
    refine bind_congr fun created => ?_
    split
    · rw [pure_bind]
    · rfl
  · rfl

/-- The search for the entry takes nothing from the caller's buffer. -/
theorem keepsQuiet_findForWrite (v : Volume) (fuel : ℕ) (path : List UInt8) (create : Bool) :
    Keeps Quiet (findForWrite v fuel path create) := by
  apply Keeps.bind (keepsQuiet_fileExists v fuel path)
  intro isFile
  apply Keeps.ite
  · intro _
    apply Keeps.bind (keepsQuiet_createNewDirFileEntry v fuel path 0)
    intro created
    exact .ite (fun _ => .pure _) fun _ => keepsQuiet_getEntryByPath v fuel path
  · exact fun _ => keepsQuiet_getEntryByPath v fuel path

section Traced

variable (v : Volume) (fuel : ℕ) (path : List UInt8) (buffer : Bytes) {len : ℕ} (hlen : len < 2 ^ 32)
include hlen

/-- The accesses of a write to a file that exists, with any driver. -/
theorem writeExisting_traces :
    Keeps (Traces (WriteEvent v len 0 (sectorsWritten v len))) (writeExisting v fuel path buffer len) := by
  refine .bind (fun s => (keepsQuiet_getEntryByPath v fuel path s).mono fun e => Or.inl) fun r => ?_
  split
  · exact .pure _
  · exact fun s => (writeEntry_traces v _ buffer hlen s).1

/-- The accesses of a whole call, with any driver. -/
theorem writeFile_traces (create : Bool) :
    Keeps (Traces (WriteEvent v len 0 (sectorsWritten v len)))
      (writeFile v fuel path buffer len create) := by
  rw [writeFile_eq]
  refine .bind (fun s => (keepsQuiet_findForWrite v fuel path create s).mono fun e => Or.inl) fun r => ?_
  split
  · exact .pure _
  · exact fun s => (writeEntry_traces v _ buffer hlen s).1

end Traced

section Independent

variable {v : Volume} {buffer buffer' : Bytes} {len : ℕ} (hlen : len < 2 ^ 32)
  (hfits : WriteFits v len)
include hlen hfits

/-- Sector number `k` starts inside the data, so that what is left of it is not wrapped. -/
theorem bytesLeftAt_eq {k : ℕ} (hk : k < sectorsWritten v len) :
    k * v.bytesPerSector ≤ len ∧ bytesLeftAt v len k = len - k * v.bytesPerSector := by
  have hstart : k * v.bytesPerSector ≤ len :=
    (Nat.mul_le_mul_right _ (by omega : k ≤ sectorsWritten v len - 1)).trans hfits
  refine ⟨hstart, ?_⟩
  rw [bytesLeftAt, wrap32_of_lt (by omega), sub32_of_le hstart hlen]

variable (hblock : v.blockSize = v.bytesPerSector)
include hblock

section

variable (heq : ∀ i < len, buffer' i = buffer i)
include heq

/-- A sector that fits does not depend on the bytes behind the data. -/
theorem writeDataSector_congr {k : ℕ} (hk : k < sectorsWritten v len) (address : ℕ) :
    writeDataSector v buffer' address (k * v.bytesPerSector) (bytesLeftAt v len k) =
      writeDataSector v buffer address (k * v.bytesPerSector) (bytesLeftAt v len k) := by
  obtain ⟨hstart, hleft⟩ := bytesLeftAt_eq hlen hfits hk
  have hshift : ∀ i, i < len - k * v.bytesPerSector →
      buffer'.shift (k * v.bytesPerSector) i = buffer.shift (k * v.bytesPerSector) i :=
    fun i hi => heq _ (by omega)
  unfold writeDataSector
  rw [hleft]
  by_cases hpart : len - k * v.bytesPerSector < v.bytesPerSector
  · rw [if_pos hpart, if_pos hpart]
    simp only [Bytes.blit_congr hshift]
  · rw [if_neg hpart, if_neg hpart]
    have hwrite : writeSector v address (buffer'.shift (k * v.bytesPerSector)) =
        writeSector v address (buffer.shift (k * v.bytesPerSector)) := by
      funext s
      unfold writeSector
      rw [Bytes.blit_congr fun i hi => hshift i (by omega)]
    rw [hwrite]

/-- The sectors that fit do not depend on the bytes behind the data. -/
theorem writeSectors_congr (sector base n i j : ℕ)
    (hbase : base + i * v.bytesPerSector = j * v.bytesPerSector) (hn : j + n ≤ sectorsWritten v len) :
    writeSectors v buffer' len sector base n i (wrap32 (j * v.bytesPerSector)) =
      writeSectors v buffer len sector base n i (wrap32 (j * v.bytesPerSector)) := by
  induction n generalizing i j with
  | zero => rfl
  | succ n ih =>
    have hbase' : base + (i + 1) * v.bytesPerSector = (j + 1) * v.bytesPerSector := by
      rw [Nat.succ_mul, Nat.succ_mul]
      omega
    have hsector := writeDataSector_congr hlen hfits hblock heq (show j < sectorsWritten v len by omega)
      (lba v sector i)
    have hrest := ih (i + 1) (j + 1) hbase' (by omega)
    rw [bytesLeftAt] at hsector
    simp only [writeSectors, hbase, hsector, wrap32_next, hrest]

/-- The clusters that fit do not depend on the bytes behind the data. -/
theorem writeClusters_congr (n i cluster : ℕ) (hn : i + n = reqClusters v len) :
    writeClusters v buffer' len n i cluster (wrap32 (i * v.sectorsPerCluster * v.bytesPerSector)) =
      writeClusters v buffer len n i cluster
        (wrap32 (i * v.sectorsPerCluster * v.bytesPerSector)) := by
  induction n generalizing i cluster with
  | zero => rfl
  | succ n ih =>
    have hbase := clusterBase_eq (show i * v.clusterSize < 2 ^ 32 from lt_of_le_of_lt
      ((Nat.mul_le_mul_right _ (by omega)).trans (reqClusters_start_le v len)) hlen)
    have hend : i * v.sectorsPerCluster + v.sectorsPerCluster ≤ sectorsWritten v len := by
      rw [← Nat.succ_mul]
      exact Nat.mul_le_mul_right _ (by omega)
    have hcluster := writeSectors_congr hlen hfits hblock heq (clusterToSector v cluster)
      (wrap32 (i * v.clusterSize)) v.sectorsPerCluster 0 (i * v.sectorsPerCluster) hbase hend
    simp only [writeClusters, hcluster]
    funext s
    obtain ⟨r, t, hrun, -, hw, -⟩ := writeSectors_run v buffer len (clusterToSector v cluster)
      (wrap32 (i * v.clusterSize)) v.sectorsPerCluster 0 (i * v.sectorsPerCluster) hbase s
    apply (bind_of_ok hrun).trans
    apply Eq.trans _ (bind_of_ok hrun).symm
    cases r with
    | none => rfl
    | some w =>
      rw [hw w rfl, ← Nat.succ_mul]
      simp only [ih (i + 1) _ (by omega)]

/-- What lies behind the data has no influence on a run. -/
theorem writeFile_congr (fuel : ℕ) (path : List UInt8) (create : Bool) :
    writeFile v fuel path buffer' len create = writeFile v fuel path buffer len create := by
  have hclusters := writeClusters_congr hlen hfits hblock heq (reqClusters v len) 0
  simp only [Nat.zero_mul, Nat.zero_add, show wrap32 0 = 0 from rfl, forall_const] at hclusters
  simp only [writeFile, writeExisting, writeEntry, hclusters]

end

end Independent

/-- Two successful lookups precede the rest of `WriteFile`, unless it goes on to create a file. -/
theorem writeFile_of_getEntry {v : Volume} (hread : ∀ h a, v.readStatus h a = 0) {fuel : ℕ}
    {path : List UInt8} {s t : State} {entry : FATEntryInfo}
    (hget : (getEntryByPath v fuel path).run s = .ok (some entry) t) :
    ∃ u, Reads v s u ∧ ∀ buffer len create, isDirectory entry.entry = false ∨ create = false →
      (writeFile v fuel path buffer len create).run s = (writeEntry v entry buffer len).run u := by
  have hst := (keepsReads_getEntryByPath v fuel path).of_ok hget
  obtain ⟨u, hget', -⟩ := ((readsOnly_getEntryByPath fuel path).twin hread).of_ok hst.sameView hget
  refine ⟨u, hst.trans ((keepsReads_getEntryByPath v fuel path).of_ok hget'), ?_⟩
  intro buffer len create hkept
  have hexists : (fileExists v fuel path).run s = .ok (!isDirectory entry.entry) t := by
    rw [fileExists, bind_of_ok hget]
    rfl
  rw [writeFile, bind_of_ok hexists, if_neg (by rcases hkept with h | h <;> simp [h]), writeExisting,
    bind_of_ok hget']

/-- The block of a file that starts at byte `index`, filled up with zeros. -/
def fileBlock (buffer : Bytes) (len index : ℕ) : Bytes := fun i =>
  if index + i < len then buffer (index + i) else 0

/-- `WriteFile` gets to an entry that it writes to. -/
def FindsEntry (v : Volume) (s : State) (path : List UInt8) (create : Bool) : Prop :=
  ∃ fuel entry t, (findForWrite v fuel path create).run s = .ok (some entry) t

/-- Without such an entry a call ends with the search. -/
theorem writeFile_of_not_findsEntry {v : Volume} {s : State} {path : List UInt8} {create : Bool}
    (h : ¬ FindsEntry v s path create) (fuel : ℕ) (buffer : Bytes) (len : ℕ) :
    (writeFile v fuel path buffer len create).run s =
      (findForWrite v fuel path create >>= fun _ => pure (-1)).run s := by
  rw [writeFile_eq]
  cases hrun : (findForWrite v fuel path create).run s with
  | error e t => rw [bind_of_error hrun, bind_of_error hrun]
  | ok r t =>
    cases r with
    | none => rw [bind_of_ok hrun, bind_of_ok hrun]
    | some entry => exact absurd ⟨fuel, entry, t, hrun⟩ h

/-- `WriteFile` takes nothing from behind the data: every load lies inside it, the bytes behind
it have no influence, and the sectors written end in zeros. -/
structure PublishesData (v : Volume) (s : State) (path : List UInt8) (buffer : Bytes) (len : ℕ)
    (create : Bool) : Prop where
  loads : ∀ fuel, LoadsWithin len
    (eventsSince s (final ((writeFile v fuel path buffer len create).run s)))
  independent : ∀ buffer' : Bytes, (∀ i < len, buffer' i = buffer i) → ∀ fuel,
    (writeFile v fuel path buffer' len create).run s = (writeFile v fuel path buffer len create).run s
  padded : FindsEntry v s path create → ∀ k < sectorsWritten v len, ∀ address t,
    (final ((writeDataSector v buffer address (k * v.bytesPerSector) (bytesLeftAt v len k)).run t)).data =
      (final ((writeSector v address (fileBlock buffer len (k * v.bytesPerSector))).run
        { t with trace := loadOf v len k :: t.trace })).data

/-- A data sector that starts inside the data is written with zeros behind it. -/
theorem writeDataSector_padded {v : Volume} {len : ℕ} (hlen : len < 2 ^ 32) (hfits : WriteFits v len)
    (hblock : v.blockSize = v.bytesPerSector) {k : ℕ} (hk : k < sectorsWritten v len)
    (buffer : Bytes) (address : ℕ) (t : State) :
    (final ((writeDataSector v buffer address (k * v.bytesPerSector) (bytesLeftAt v len k)).run t)).data =
      (final ((writeSector v address (fileBlock buffer len (k * v.bytesPerSector))).run
        { t with trace := loadOf v len k :: t.trace })).data := by
  obtain ⟨hstart, hleft⟩ := bytesLeftAt_eq hlen hfits hk
  have hblit {src : Bytes} (hsrc : ∀ i < v.bytesPerSector,
      src i = fileBlock buffer len (k * v.bytesPerSector) i) (trace : List Event) :
      (final ((writeSector v address src).run { t with trace := trace })).data =
        (final ((writeSector v address (fileBlock buffer len (k * v.bytesPerSector))).run
          { t with trace := trace })).data := by
    have hcongr : (t.data address).blit 0 src v.blockSize =
        (t.data address).blit 0 (fileBlock buffer len (k * v.bytesPerSector)) v.blockSize :=
      Bytes.blit_congr fun i hi => hsrc i (by omega)
    change (if _ then Function.update t.data address ((t.data address).blit 0 src v.blockSize)
      else t.data) = _
    rw [hcongr]
    rfl
  unfold writeDataSector loadOf
  rw [hleft]
  by_cases hpart : len - k * v.bytesPerSector < v.bytesPerSector
  · rw [if_pos hpart, if_pos hpart]
    apply hblit
    intro i hi
    change Bytes.blit (Bytes.fill _ 0 v.bytesPerSector) 0 _ (len - k * v.bytesPerSector) i = _
    by_cases hin : i < len - k * v.bytesPerSector
    · rw [Bytes.blit_of_mem (by omega) (by omega), fileBlock, if_pos (by omega)]
      rfl
    · rw [Bytes.blit_of_not_mem (by omega), fileBlock, if_neg (by omega)]
      exact if_pos hi
  · rw [if_neg hpart, if_neg hpart]
    apply hblit
    intro i hi
    rw [fileBlock, if_pos (by omega)]
    rfl

/-- A call that finds no entry takes nothing from the buffer. -/
theorem publishesData_of_not_findsEntry {v : Volume} {s : State} {path : List UInt8} {create : Bool}
    (h : ¬ FindsEntry v s path create) (buffer : Bytes) (len : ℕ) :
    PublishesData v s path buffer len create where
  loads fuel := by
    intro index count k hmem
    have hquiet : Keeps Quiet (findForWrite v fuel path create >>= fun _ => pure (-1 : ℤ)) :=
      .bind (keepsQuiet_findForWrite v fuel path create) fun _ => .pure _
    rw [writeFile_of_not_findsEntry h] at hmem
    exact absurd ((hquiet s).of_mem hmem) (by simp [Event.OnBuffer])
  independent buffer' _ fuel := by
    rw [writeFile_of_not_findsEntry h, writeFile_of_not_findsEntry h]
  padded hfinds := absurd hfinds h

/-- A call takes nothing from behind the data if the last sector it writes starts inside the
data. -/
theorem WriteFits.publishesData {v : Volume} {len : ℕ} (hfits : WriteFits v len) (hlen : len < 2 ^ 32)
    (hblock : v.blockSize = v.bytesPerSector) (s : State) (path : List UInt8) (buffer : Bytes)
    (create : Bool) : PublishesData v s path buffer len create where
  loads fuel := by
    intro index count k hmem hk
    rcases (writeFile_traces v fuel path buffer hlen create s).of_mem hmem with h | ⟨j, -, hj, h⟩
    · simp [Event.OnBuffer] at h
    · exact loadOf_within hlen hblock hfits hj h hk
  independent buffer' heq fuel := by rw [writeFile_congr hlen hfits hblock heq]
  padded _ k hk address t := writeDataSector_padded hlen hfits hblock hk buffer address t

/-- `WriteFile` takes nothing from behind the data if it finds no entry to write to or the last sector
it writes starts inside the data, whatever the driver answers; on a disk without failures it does so
only then. -/
theorem writeFile_publishes_data_iff (v : Volume) (s : State) (path : List UInt8) (buffer : Bytes)
    (len : ℕ) (create : Bool) (hlen : len < 2 ^ 32) (hblock : v.blockSize = v.bytesPerSector) :
    ((FindsEntry v s path create → WriteFits v len) → PublishesData v s path buffer len create) ∧
      (v.AlwaysSucceeds → (PublishesData v s path buffer len create ↔
        (FindsEntry v s path create → WriteFits v len))) := by
  have hsuff (hfits : FindsEntry v s path create → WriteFits v len) :
      PublishesData v s path buffer len create := by
    by_cases hfinds : FindsEntry v s path create
    · exact (hfits hfinds).publishesData hlen hblock s path buffer create
    · exact publishesData_of_not_findsEntry hfinds buffer len
  refine ⟨hsuff, fun hdev => ⟨fun hpub hfinds => ?_, hsuff⟩⟩
  obtain ⟨fuel, entry, t, hfind⟩ := hfinds
  by_contra hover
  obtain ⟨k, hk, houtside, hclose⟩ :=
    exists_sector_behind v.bytesPerSector_pos (Nat.lt_of_not_le hover)
  have hsmall := v.bytesPerSector_lt
  have hwithin := hpub.loads fuel
  rw [writeFile_eq, bind_of_ok hfind] at hwithin
  have hload : loadOf v len k ∈ eventsSince s (final ((writeEntry v entry buffer len).run t)) := by
    obtain ⟨htr, hall⟩ := writeEntry_traces v entry buffer hlen t
    rw [((keepsQuiet_findForWrite v fuel path create).of_ok hfind).eventsSince_append htr]
    exact List.mem_append_left _ (hall hdev k hk)
  have hleft : ¬ bytesLeftAt v len k < v.bytesPerSector := by
    unfold bytesLeftAt sub32 wrap32
    omega
  rw [loadOf, if_neg hleft] at hload
  have hinside := hwithin _ _ 0 hload (by omega)
  omega

/-- Writing 100 bytes to clusters of two sectors publishes the 512 bytes from index 512 on. -/
theorem writeFile_publishes_foreign_bytes :
    ¬ ∀ (v : Volume) (s : State) (path : List UInt8) (buffer : Bytes) (len : ℕ) (create : Bool),
      len < 2 ^ 32 → v.blockSize = v.bytesPerSector → PublishesData v s path buffer len create := by
  intro h
  have hpub := h (smallVolume 1) sampleState samplePath (fun _ => 0) 100 true (by decide) rfl
  have hload : Event.load 512 512 ∈ eventsSince sampleState
      (final ((writeFile (smallVolume 1) 18 samplePath (fun _ => 0) 100 true).run sampleState)) := by
    decide +kernel
  exact absurd (hpub.loads 18 512 512 0 hload (by decide)) (by decide)

/-- The second sector of a cluster still holds data when 600 bytes are written. -/
theorem writeFile_publishes_data_600 :
    PublishesData (smallVolume 1) sampleState samplePath (fun _ => 0) 600 true :=
  (writeFile_publishes_data_iff (smallVolume 1) sampleState samplePath (fun _ => 0) 600 true
    (by decide) rfl).1 fun _ => by unfold WriteFits; decide

end Vsos.Fat
