import Vsos.Fat.Layout
import Vsos.Fat.ReadBounds

/-!
# The bytes that `ReadFile` delivers

A file is the concatenation of the clusters of its chain. `ReadFile` copies from the start
of the file whatever offset it is given, and follows the chain as `ReadTable` reads it. That
accessor takes the last cluster number of a volume for an invalid one, so a chain ends there
for the driver. The slice a caller asks for arrives exactly when it equals the front of the
file and no cluster behind the last cluster number is needed for it.
-/

namespace Vsos.Fat

open Vsos.Lib

variable {v : Volume} {l : List ℕ} {i len : ℕ} {s t : State} {path : List UInt8}
  {entry : FATEntryInfo}

/-- The chain of clusters that starts at `cluster` on the disk. -/
def DiskChain (v : Volume) (s : State) (cluster : ℕ) (l : List ℕ) : Prop :=
  Walks (diskEntry v s) (fun c => v.clusterEnd ≤ c) cluster l ∧ ∀ c ∈ l, IsCluster v c

/-- The clusters of a file; an empty file may have none. -/
def FileChain (v : Volume) (s : State) (cluster : ℕ) (l : List ℕ) : Prop :=
  (cluster = clusterFree ∧ l = []) ∨ DiskChain v s cluster l

/-- Byte `i` of the concatenated clusters. -/
def chainByte (v : Volume) (s : State) (l : List ℕ) (i : ℕ) : UInt8 :=
  match l[i / v.clusterSize]? with
  | some c => s.data (clusterAddress v c (i % v.clusterSize / v.bytesPerSector)) (i % v.bytesPerSector)
  | none => 0

/-- No entry of the chain straddles two table sectors, or the byte behind `readBuffer` stands in
for the missing one. -/
def LinksIntact (v : Volume) (s : State) (l : List ℕ) : Prop :=
  ∀ c ∈ l, Straddles v c → s.readBuffer v.bytesPerSector = tableBytes v s (entryOffset v c + 1)

/-- The clusters that the driver reads: up to the last cluster number of the volume. -/
def readableClusters (v : Volume) : List ℕ → List ℕ
  | [] => []
  | c :: rest => if c = v.totalClusters + 1 then [c] else c :: readableClusters v rest

/-- The slice equals the front of the file, and it does not reach past the cluster with the last
number of the volume. -/
def SliceInFront (v : Volume) (s : State) (l : List ℕ) (offset len : ℕ) : Prop :=
  (∀ i < len, chainByte v s l i = chainByte v s l (offset + i)) ∧
    ∀ k, l[k]? = some (v.totalClusters + 1) → len ≤ (k + 1) * v.clusterSize

/-- `ReadFile` returns 0 with the slice in the buffer, whatever was there before. -/
def DeliversSlice (v : Volume) (s : State) (path : List UInt8) (l : List ℕ) (offset len : ℕ) : Prop :=
  ∀ buffer, ∃ out t, Returns (fun n => readFile v n path buffer offset len) s (0, out) t ∧
    ∀ i < len, out i = chainByte v s l (offset + i)

/-- The clusters that are read belong to the chain. -/
theorem readableClusters_subset {c : ℕ} (h : c ∈ readableClusters v l) :
    c ∈ l := by
  induction l with
  | nil => exact h
  | cons b l ih =>
    rw [readableClusters] at h
    split at h
    · simp_all
    · rcases List.mem_cons.mp h with rfl | h
      · exact List.mem_cons_self
      · exact List.mem_cons_of_mem _ (ih h)

/-- What is readable is the front of the chain. -/
theorem readableClusters_getElem? (v : Volume) (l : List ℕ) {k : ℕ}
    (h : k < (readableClusters v l).length) : (readableClusters v l)[k]? = l[k]? := by
  induction l generalizing k with
  | nil => simp [readableClusters] at h
  | cons b l ih =>
    rw [readableClusters] at h ⊢
    split at h
    · next hb =>
      have hk : k = 0 := by simpa using h
      simp [hb, hk]
    · next hb =>
      rw [if_neg hb]
      cases k with
      | zero => simp
      | succ k => simpa using ih (by simpa using h)

/-- Nothing is readable behind the last cluster number. -/
theorem readableClusters_length_le {k : ℕ} (h : l[k]? = some (v.totalClusters + 1)) :
    (readableClusters v l).length ≤ k + 1 := by
  induction l generalizing k with
  | nil => simp [readableClusters]
  | cons b l ih =>
    rw [readableClusters]
    split
    · simp
    · next hb =>
      cases k with
      | zero => exact absurd (by simpa using h) hb
      | succ k => simpa using ih (by simpa using h)

/-- The driver reads the whole chain or stops at the last cluster number. -/
theorem readableClusters_cases (v : Volume) (l : List ℕ) :
    readableClusters v l = l ∨
      ∃ k, l[k]? = some (v.totalClusters + 1) ∧ (readableClusters v l).length = k + 1 := by
  induction l with
  | nil => exact Or.inl rfl
  | cons b l ih =>
    rw [readableClusters]
    split
    · next hb => exact Or.inr ⟨0, by simp [hb], rfl⟩
    · rcases ih with ih | ⟨k, hk, hlen⟩
      · exact Or.inl (by rw [ih])
      · exact Or.inr ⟨k + 1, by simpa using hk, by simpa using hlen⟩

/-- A length within the chain is readable if it does not reach past the last cluster number. -/
theorem le_readableClusters_iff (hlen : len ≤ l.length * v.clusterSize) :
    len ≤ (readableClusters v l).length * v.clusterSize ↔
      ∀ k, l[k]? = some (v.totalClusters + 1) → len ≤ (k + 1) * v.clusterSize := by
  constructor
  · intro h k hk
    exact h.trans (Nat.mul_le_mul_right _ (readableClusters_length_le hk))
  · intro h
    rcases readableClusters_cases v l with heq | ⟨k, hk, hlength⟩
    · rw [heq]
      exact hlen
    · rw [hlength]
      exact h k hk

/-- The driver's walk over a chain of the disk. -/
theorem DiskChain.walks (hwf : v.WellFormed) {cluster : ℕ} (h : DiskChain v s cluster l)
    (hintact : LinksIntact v s l) :
    Walks (tableEntry v s) (ChainStops v) cluster (readableClusters v l) := by
  obtain ⟨hwalk, hrange⟩ := h
  induction l generalizing cluster with
  | nil => exact Or.inr hwalk
  | cons b l ih =>
    obtain ⟨rfl, hgo, hrest⟩ := hwalk
    obtain ⟨hlow, hhigh⟩ := hrange cluster List.mem_cons_self
    have hnot : ¬ ChainStops v cluster := by
      rintro (hfree | hend)
      · rw [hfree, clusterFree] at hlow
        omega
      · exact hgo hend
    rw [readableClusters]
    by_cases hlast : cluster = v.totalClusters + 1
    · rw [if_pos hlast]
      refine ⟨rfl, hnot, Or.inl ?_⟩
      rw [tableEntry, if_pos (by omega)]
      rfl
    · rw [if_neg hlast]
      refine ⟨rfl, hnot, ?_⟩
      rw [hwf.tableEntry_eq_diskEntry s hlow (by omega) (hintact cluster List.mem_cons_self)]
      exact ih (fun c hc => hintact c (List.mem_cons_of_mem _ hc)) hrest
        fun c hc => hrange c (List.mem_cons_of_mem _ hc)

/-- The sector that holds byte `i` is copied over it; other sectors leave it alone. -/
theorem copySector_buffer (hlen : len < 2 ^ 32) {st : Copy} {j : ℕ} (hst : st.At v j)
    (source : Bytes) (hi : i < len) :
    (copySector v len st source).buffer i =
      if i / v.bytesPerSector = j then source (i % v.bytesPerSector) else st.buffer i := by
  have hmod := Nat.mod_lt i v.bytesPerSector_pos
  have hsplit := Nat.div_add_mod i v.bytesPerSector
  change st.buffer.blit st.bufferPointer source (copyCount v len st.bytesRead) i = _
  rw [hst.bufferPointer, hst.bytesRead]
  by_cases hj : i / v.bytesPerSector = j
  · rw [hj, Nat.mul_comm] at hsplit
    have hcount : i % v.bytesPerSector < copyCount v len (wrap32 (j * v.bytesPerSector)) := by
      have hsub : sub32 len (wrap32 (j * v.bytesPerSector)) = len - j * v.bytesPerSector := by
        rw [wrap32_of_lt (by omega), sub32_of_le (by omega) hlen]
      simp only [copyCount, hsub]
      split <;> omega
    rw [if_pos hj, Bytes.blit_of_mem (by omega) (by omega)]
    congr 1
    omega
  · have hcount : copyCount v len (wrap32 (j * v.bytesPerSector)) ≤ v.bytesPerSector := by
      simp only [copyCount]
      split <;> omega
    rw [if_neg hj, Bytes.blit_of_not_mem]
    rcases Nat.lt_or_gt_of_ne hj with hlt | hgt
    · left
      exact (Nat.div_lt_iff_lt_mul v.bytesPerSector_pos).mp hlt
    · right
      have := (Nat.le_div_iff_mul_le v.bytesPerSector_pos).mp hgt
      rw [Nat.succ_mul] at this
      omega

/-- Byte `i` of the caller's buffer after some sectors were copied, the first of them number `j`. -/
theorem foldl_copySector_apply (hlen : len < 2 ^ 32) (blocks : List Bytes) {st : Copy} {j : ℕ}
    (hst : st.At v j) (hi : i < len) :
    (blocks.foldl (copySector v len) st).buffer i =
      if j ≤ i / v.bytesPerSector then
        (blocks[i / v.bytesPerSector - j]?).elim (st.buffer i) fun b => b (i % v.bytesPerSector)
      else st.buffer i := by
  induction blocks generalizing st j with
  | nil => simp
  | cons b blocks ih =>
    rw [List.foldl_cons, ih (hst.next len b), copySector_buffer hlen hst b hi]
    generalize i / v.bytesPerSector = q
    rcases Nat.lt_trichotomy q j with hlt | rfl | hgt
    · simp [show ¬ j + 1 ≤ q by omega, show ¬ j ≤ q by omega, show q ≠ j by omega]
    · simp
    · have hsucc : q - j = q - (j + 1) + 1 := by omega
      simp [show j + 1 ≤ q by omega, show j ≤ q by omega, show q ≠ j by omega, hsucc]

/-- Block number `k` of a chain. -/
theorem chainBlocks_getElem? (v : Volume) (s : State) (l : List ℕ) (k : ℕ) :
    (chainBlocks v s l)[k]? = (l[k / v.sectorsPerCluster]?).map fun c =>
      blockAt v s (lba v (clusterToSector v c) (k % v.sectorsPerCluster)) := by
  have hmod := Nat.mod_lt k v.sectorsPerCluster_pos
  rw [chainBlocks, getElem?_flatMap v.sectorsPerCluster_pos (by simp)]
  cases l[k / v.sectorsPerCluster]? with
  | none => rfl
  | some c => simp [hmod]

/-- The bytes of a chain, block by block. -/
theorem chainBlocks_byte (hwf : v.WellFormed) (s : State) (hrange : ∀ c ∈ l, IsCluster v c)
    (hi : i < l.length * v.clusterSize) (b₀ : UInt8) :
    ((chainBlocks v s l)[i / v.bytesPerSector]?).elim b₀ (fun b => b (i % v.bytesPerSector)) =
      chainByte v s l i := by
  have hsector : i / v.bytesPerSector % v.sectorsPerCluster = i % v.clusterSize / v.bytesPerSector :=
    (Nat.mod_mul_right_div_self i v.bytesPerSector v.sectorsPerCluster).symm
  have hcluster : i / v.clusterSize < l.length := by
    apply Nat.div_lt_of_lt_mul
    rwa [Nat.mul_comm]
  rw [chainBlocks_getElem?, v.div_clusterSize, chainByte, List.getElem?_eq_getElem hcluster]
  simp only [Option.map_some, Option.elim_some]
  rw [hwf.lba_cluster (hrange _ (List.getElem_mem hcluster)), hwf.blockAt_apply s _
    (Nat.mod_lt i v.bytesPerSector_pos)]
  rw [← hsector]
  exact Nat.mod_lt _ v.sectorsPerCluster_pos

/-- The readable part of a chain has the bytes of the chain. -/
theorem chainByte_readable (v : Volume) (s : State) (l : List ℕ)
    (hi : i < (readableClusters v l).length * v.clusterSize) :
    chainByte v s (readableClusters v l) i = chainByte v s l i := by
  have hcluster : i / v.clusterSize < (readableClusters v l).length := by
    apply Nat.div_lt_of_lt_mul
    rwa [Nat.mul_comm]
  rw [chainByte, chainByte, readableClusters_getElem? v l hcluster]

/-- More budget does not change what is read of a chain. -/
theorem readClusters_stable (v : Volume) (len cluster : ℕ) (st : Copy) :
    Stable fun fuel => readClusters v len fuel cluster st := by
  intro n m s a t hnm
  suffices h : Answers (readClusters v len n cluster st) (readClusters v len m cluster st) from @h s a t
  induction n generalizing m cluster st with
  | zero => exact nofun
  | succ n ih =>
    obtain ⟨m, rfl⟩ := Nat.exists_eq_succ_of_ne_zero (show m ≠ 0 by omega)
    refine .ite (.refl _) (.bind (.refl _) ?_)
    rintro ⟨_ | _, st'⟩
    · exact .refl _
    · exact .bind (.refl _) fun next => ih next st' m (by omega)

/-- More budget does not change what is read of a file. -/
theorem readEntry_stable (v : Volume) (path : List UInt8) (buffer : Bytes) (len : ℕ) :
    Stable fun fuel => readEntry v fuel path buffer len := by
  apply Stable.bind (getEntryByPath_stable v path)
  intro r
  cases r with
  | none => exact Stable.const _
  | some entry => exact Stable.ite (Stable.const _) (readClusters_stable v len _ _)

section

variable (hread : ∀ h a, v.readStatus h a = 0)
include hread

/-- Reading a file whose chain the driver walks over: it returns with the blocks copied. -/
theorem readEntry_returns (hres : Returns (fun n => getEntryByPath v n path) s (some entry) t)
    (hfile : isDirectory entry.entry = false)
    (hwalk : Walks (tableEntry v s) (ChainStops v) (getCluster entry.entry) l) (buffer : Bytes)
    (len : ℕ) :
    ∃ u, Returns (fun n => readEntry v n path buffer len) s
      (0, ((chainBlocks v s l).foldl (copySector v len) ⟨0, 0, buffer⟩).buffer) u := by
  obtain ⟨n, u, hget, hrun, -⟩ := exists_readClusters hread hres hwalk buffer len
  refine ⟨u, (readEntry_stable v path buffer len).returns (n := n) ?_⟩
  rw [readEntry, bind_of_ok hget]
  simp only [hfile, Bool.false_eq_true, if_false]
  exact hrun

/-- A path leads to the same entry in every state that looks the same. -/
theorem returns_of_sameView {s' : State} {r : Option FATEntryInfo} (hsame : SameView v s s')
    (hres : Returns (fun n => getEntryByPath v n path) s r t) :
    ∃ t', Returns (fun n => getEntryByPath v n path) s' r t' := by
  obtain ⟨n, hn⟩ := hres
  obtain ⟨t', hrun, -⟩ := ((readsOnly_getEntryByPath n path).twin hread).of_ok hsame (hn n (le_refl n))
  exact ⟨t', (getEntryByPath_stable v path).returns hrun⟩

/-- `ReadFile` of no more than the file holds, also when that is the length -1 stands for. -/
theorem readFile_returns (hres : Returns (fun n => getEntryByPath v n path) s (some entry) t)
    (hfile : isDirectory entry.entry = false)
    (hwalk : Walks (tableEntry v s) (ChainStops v) (getCluster entry.entry) l)
    (hlen : len ≤ fileSize entry.entry) (buffer : Bytes) (offset : ℕ) :
    ∃ u, Returns (fun n => readFile v n path buffer offset len) s
      (0, ((chainBlocks v s l).foldl (copySector v len) ⟨0, 0, buffer⟩).buffer) u := by
  by_cases hminus : len = 2 ^ 32 - 1
  · have hsize : fileSize entry.entry = len := by
      have := entry.entry.u32_lt 28
      unfold fileSize at hlen ⊢
      omega
    obtain ⟨n, hn⟩ := id hres
    have hlookup := (keepsReads_getEntryByPath v n path).of_ok (hn n (le_refl n))
    obtain ⟨t', hres'⟩ := returns_of_sameView hread hlookup.sameView hres
    obtain ⟨u, hu⟩ := readEntry_returns hread hres' hfile
      (hwalk.congr fun c _ => hlookup.tableEntry_eq c) buffer len
    rw [hlookup.chainBlocks_eq] at hu
    refine ⟨u, ?_⟩
    simp only [readFile, if_pos hminus]
    have hgetSize : Returns (fun n => getFileSize v n path) s len t := by
      refine Returns.bind hres (Returns.of_run ?_)
      simp [hfile, hsize]
    exact Returns.bind hgetSize hu
  · obtain ⟨u, hu⟩ := readEntry_returns hread hres hfile hwalk buffer len
    refine ⟨u, ?_⟩
    simp only [readFile, if_neg hminus]
    exact hu

/-- What arrives in the buffer: the front of the file as far as the driver can read it. -/
theorem readFile_delivers_front (hwf : v.WellFormed)
    (hres : Returns (fun n => getEntryByPath v n path) s (some entry) t)
    (hfile : isDirectory entry.entry = false) (hchain : FileChain v s (getCluster entry.entry) l)
    (hintact : LinksIntact v s l) (hlen : len ≤ fileSize entry.entry) (buffer : Bytes) (offset : ℕ) :
    ∃ out u, Returns (fun n => readFile v n path buffer offset len) s (0, out) u ∧
      ∀ i < len, out i =
        if i < (readableClusters v l).length * v.clusterSize then chainByte v s l i else buffer i := by
  have hwalk : Walks (tableEntry v s) (ChainStops v) (getCluster entry.entry) (readableClusters v l) := by
    rcases hchain with ⟨hfree, rfl⟩ | hchain
    · exact Or.inl hfree
    · exact hchain.walks hwf hintact
  have hrange : ∀ c ∈ readableClusters v l, IsCluster v c := by
    intro c hc
    rcases hchain with ⟨-, rfl⟩ | hchain
    · cases hc
    · exact hchain.2 c (readableClusters_subset hc)
  have hlen' : len < 2 ^ 32 := lt_of_le_of_lt hlen (entry.entry.u32_lt 28)
  obtain ⟨u, hu⟩ := readFile_returns hread hres hfile hwalk hlen buffer offset
  refine ⟨_, u, hu, fun i hi => ?_⟩
  rw [foldl_copySector_apply hlen' _ (copy_at_zero v buffer) hi, if_pos (Nat.zero_le _), Nat.sub_zero]
  by_cases hin : i < (readableClusters v l).length * v.clusterSize
  · rw [if_pos hin, chainBlocks_byte hwf s hrange hin, chainByte_readable v s l hin]
  · have hnone : (chainBlocks v s (readableClusters v l))[i / v.bytesPerSector]? = none := by
      have hdiv : (readableClusters v l).length ≤ i / v.clusterSize := by
        rw [Nat.le_div_iff_mul_le v.clusterSize_pos]
        exact Nat.le_of_not_lt hin
      rw [chainBlocks_getElem?, v.div_clusterSize, List.getElem?_eq_none hdiv]
      rfl
    rw [if_neg hin, hnone]
    rfl

end

/-- Nothing is delivered for a path under which nothing is found. -/
theorem not_deliversSlice_of_not_found (hlen : len ≠ 2 ^ 32 - 1)
    (hres : Returns (fun n => getEntryByPath v n path) s none t) (l : List ℕ) (offset : ℕ) :
    ¬ DeliversSlice v s path l offset len := by
  intro h
  obtain ⟨out, u, hu, -⟩ := h fun _ => 0
  have hfail : Returns (fun n => readFile v n path (fun _ => 0) offset len) s (-1, fun _ => 0) t := by
    simp only [readFile, if_neg hlen, readEntry]
    exact hres.bind (Returns.of_run rfl)
  exact absurd (congrArg Prod.fst (hu.unique hfail).1) (show ¬ (0 : ℤ) = -1 by decide)

/-- A slice of a file that is found arrives if and only if it equals the front of the file and no
cluster behind the last cluster number is needed for it. Nothing arrives for a path under which no
file is found. -/
theorem readFile_slice_iff (v : Volume) (s t : State) (path : List UInt8) (found : Option FATEntryInfo)
    (l : List ℕ) (offset len : ℕ) (hdev : v.AlwaysSucceeds) (hwf : v.WellFormed)
    (hres : Returns (fun n => getEntryByPath v n path) s found t) :
    (found = none → len ≠ 2 ^ 32 - 1 → ¬ DeliversSlice v s path l offset len) ∧
      ∀ entry, found = some entry → isDirectory entry.entry = false →
        FileChain v s (getCluster entry.entry) l → fileSize entry.entry ≤ l.length * v.clusterSize →
        offset + len ≤ fileSize entry.entry → LinksIntact v s l →
        (DeliversSlice v s path l offset len ↔ SliceInFront v s l offset len) := by
  refine ⟨?_, ?_⟩
  · rintro rfl hlen
    exact not_deliversSlice_of_not_found hlen hres l offset
  rintro entry rfl hfile hchain hsize hslice hintact
  have hlen : len ≤ fileSize entry.entry := by omega
  have hfront := readFile_delivers_front hdev.1 hwf hres hfile hchain hintact hlen
  rw [SliceInFront, ← le_readableClusters_iff (hlen.trans hsize)]
  constructor
  · intro h
    have hall : len ≤ (readableClusters v l).length * v.clusterSize := by
      by_contra hover
      -- the first byte that is not read keeps what the buffer held before
      obtain ⟨out, u, hu, hout⟩ := h fun i => chainByte v s l (offset + i) + 1
      obtain ⟨out', u', hu', hout'⟩ := hfront (fun i => chainByte v s l (offset + i) + 1) offset
      have heq : out = out' := congrArg Prod.snd (hu.unique hu').1
      have hbyte := hout _ (Nat.lt_of_not_le hover)
      rw [heq, hout' _ (Nat.lt_of_not_le hover)] at hbyte
      simp at hbyte
    refine ⟨fun i hi => ?_, hall⟩
    obtain ⟨out, u, hu, hout⟩ := h fun _ => 0
    obtain ⟨out', u', hu', hout'⟩ := hfront (fun _ => 0) offset
    have heq : out = out' := congrArg Prod.snd (hu.unique hu').1
    rw [← hout i hi, heq, hout' i hi, if_pos (lt_of_lt_of_le hi hall)]
  · rintro ⟨heq, hall⟩ buffer
    obtain ⟨out, u, hu, hout⟩ := hfront buffer offset
    refine ⟨out, u, hu, fun i hi => ?_⟩
    rw [hout i hi, if_pos (lt_of_lt_of_le hi hall), heq i hi]

section Sample

/-- The file `A.TXT` with the bytes 1 and 2. -/
def sliceState : State :=
  mounted (diskImage [(1, [0xF8, 0xFF, 0xFF, 0xFF, 0xF8, 0xFF]), (17, slotBytes sampleName 0x20 2 2),
    (18, [1, 2])])

/-- The sample volumes are well formed. -/
theorem smallVolume_wellFormed (k : Fin 8) : (smallVolume k).WellFormed where
  blockSize_eq := rfl
  slots_dvd := show 32 ∣ 512 by decide
  root_le := show 1 ≤ 18 by decide
  table_le := show 1 * 512 + 2 * (4085 + 2) ≤ 17 * 512 by decide
  data_le := by
    have hk : 2 ^ k.val ≤ 2 ^ 7 := Nat.pow_le_pow_right (by decide) (by omega)
    simp only [smallVolume]
    omega
  lba_le := by
    have hk : 2 ^ k.val ≤ 2 ^ 7 := Nat.pow_le_pow_right (by decide) (by omega)
    simp only [smallVolume]
    omega
  clusters_lt := show 4085 + 1 < 0xFFF8 by decide

/-- Their disk always succeeds. -/
theorem smallVolume_alwaysSucceeds (k : Fin 8) : (smallVolume k).AlwaysSucceeds :=
  ⟨fun _ _ => rfl, fun _ _ => rfl⟩

/-- Their entries do not straddle sectors. -/
theorem smallVolume_linksIntact (k : Fin 8) (s : State) (l : List ℕ) :
    LinksIntact (smallVolume k) s l := by
  rintro c - ⟨htype, -⟩
  cases htype

/-- What `A.TXT` leads to. -/
theorem slice_resolved : ∃ entry t,
    Returns (fun n => getEntryByPath (smallVolume 0) n samplePath) sliceState (some entry) t ∧
      isDirectory entry.entry = false ∧ getCluster entry.entry = 2 ∧ fileSize entry.entry = 2 := by
  have h : (resolved (smallVolume 0) sliceState 18 samplePath).map
      (fun e => (isDirectory e.entry, getCluster e.entry, fileSize e.entry)) = some (false, 2, 2) := by
    decide +kernel
  obtain ⟨entry, hentry, heq⟩ := Option.map_eq_some_iff.mp h
  obtain ⟨t, ht⟩ := returns_of_resolved _ hentry
  simp only [Prod.mk.injEq] at heq
  exact ⟨entry, t, ht, heq⟩

/-- The chain of `A.TXT`. -/
theorem slice_fileChain : FileChain (smallVolume 0) sliceState 2 [2] :=
  Or.inr ⟨⟨rfl, by decide, show 0xFFF8 ≤ diskEntry _ _ _ by decide +kernel⟩, by
    simp [IsCluster, smallVolume]⟩

/-- The second byte of a file of two bytes is asked for, and the first one arrives. -/
theorem readFile_ignores_offset :
    ¬ ∀ (v : Volume) (s t : State) (path : List UInt8) (entry : FATEntryInfo) (l : List ℕ)
      (offset len : ℕ), v.AlwaysSucceeds → v.WellFormed →
      Returns (fun n => getEntryByPath v n path) s (some entry) t →
      isDirectory entry.entry = false → FileChain v s (getCluster entry.entry) l →
      fileSize entry.entry ≤ l.length * v.clusterSize → offset + len ≤ fileSize entry.entry →
      DeliversSlice v s path l offset len := by
  intro h
  obtain ⟨entry, t, hres, hfile, hcluster, hsize⟩ := slice_resolved
  have hchain : FileChain (smallVolume 0) sliceState (getCluster entry.entry) [2] := by
    rw [hcluster]
    exact slice_fileChain
  obtain ⟨out, u, hu, hout⟩ := h _ _ _ _ _ _ 1 1 (smallVolume_alwaysSucceeds 0)
    (smallVolume_wellFormed 0) hres hfile hchain (by rw [hsize]; decide) (by rw [hsize]) fun _ => 0
  obtain ⟨out', u', hu', hout'⟩ := readFile_delivers_front (smallVolume_alwaysSucceeds 0).1
    (smallVolume_wellFormed 0) hres hfile hchain (smallVolume_linksIntact 0 _ _)
    (show 1 ≤ fileSize entry.entry by rw [hsize]; decide) (fun _ => 0) 1
  have heq : out = out' := congrArg Prod.snd (hu.unique hu').1
  have hbyte := hout 0 (by decide)
  rw [heq, hout' 0 (by decide)] at hbyte
  exact absurd hbyte (by decide +kernel)

/-- The file is read from its start. -/
theorem readFile_slice_front :
    DeliversSlice (smallVolume 0) sliceState samplePath [2] 0 2 := by
  obtain ⟨entry, t, hres, hfile, hcluster, hsize⟩ := slice_resolved
  refine ((readFile_slice_iff _ _ t _ (some entry) _ 0 2 (smallVolume_alwaysSucceeds 0)
    (smallVolume_wellFormed 0) hres).2 entry rfl hfile ?_ ?_ ?_ (smallVolume_linksIntact 0 _ _)).mpr ?_
  · rw [hcluster]
    exact slice_fileChain
  · rw [hsize]
    decide
  · rw [hsize]
  · refine ⟨fun i _ => by rw [Nat.zero_add], fun k hk => ?_⟩
    cases k with
    | zero => simp [smallVolume] at hk
    | succ k => simp at hk

end Sample

end Vsos.Fat
