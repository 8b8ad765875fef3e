import Mathlib.Data.List.GetD
import Vsos.Fat.WriteFile

/-!
# Lost clusters

`WriteFile` links a freshly allocated cluster behind every cluster it fills, also behind the
last one, and drops what was linked there before. A file that got any bytes therefore has one
cluster more than these need, and the old rest of its chain belongs to nobody. Only writes of
no bytes at all keep the chains, so a run of writes leaves every file with the clusters it
needs exactly when it writes nothing to files of one cluster.
-/

namespace Vsos.Fat

open Vsos.Lib

/-- Every cluster that is not free belongs to a chain. -/
def NoLostClusters (v : Volume) (s : State) : Prop :=
  ∀ c, IsCluster v c → links v s c ≠ 0 →
    ∃ (o : Owner) (l : List ℕ), o.Exists v s ∧ FileChain v s (o.first v s) l ∧ c ∈ l

/-- The chain of the file at `p` has `n` clusters. -/
def HasClusters (v : Volume) (s : State) (p : Place) (n : ℕ) : Prop :=
  ∃ l, FileChain v s (getCluster (slotOf v s p)) l ∧ l.length = n

/-- Calls of `WriteFile` on existing files, with the entry and the length of each. -/
inductive WriteRun (v : Volume) : State → List (Place × ℕ) → State → Prop
  | nil (s : State) : WriteRun v s [] s
  | cons {s t u : State} {path : List UInt8} {entry : FATEntryInfo} {buffer : Bytes} {len : ℕ}
    {create : Bool} {r : ℤ} {log : List (Place × ℕ)}
    (hlookup : ∃ w, Returns (fun n => getEntryByPath v n path) s (some entry) w)
    (hfile : isDirectory entry.entry = false) (hlen : len < 2 ^ 32)
    (halloc : FindsClusters v s path buffer len create)
    (hret : Returns (fun n => writeFile v n path buffer len create) s r t)
    (hrest : WriteRun v t log u) : WriteRun v s ((entry.place, len) :: log) u

/-- The lengths written to a file, oldest first. -/
def lengthsOf (p : Place) (log : List (Place × ℕ)) : List ℕ :=
  (log.filter fun w => w.1 = p).map Prod.snd

/-- Every written file has as many clusters as its last length needs. -/
def ExactChains (v : Volume) (u : State) (log : List (Place × ℕ)) : Prop :=
  ∀ p len, (lengthsOf p log).getLast? = some len →
    HasClusters v u p (max 1 ((len + v.clusterSize - 1) / v.clusterSize))

/-- Nothing is written, and to files of one cluster only. -/
def IdleWrites (v : Volume) (s : State) (log : List (Place × ℕ)) : Prop :=
  ∀ w ∈ log, w.2 = 0 ∧ HasClusters v s w.1 1

/-- The first cluster of the entry is one of the volume. -/
def HasFirst (v : Volume) (s : State) (p : Place) : Prop :=
  2 ≤ getCluster (slotOf v s p) ∧ getCluster (slotOf v s p) ≤ v.totalClusters

section Counting

variable (v : Volume)

/-- `reqClusters` rounds up. -/
theorem reqClusters_eq (len : ℕ) : reqClusters v len = (len + v.clusterSize - 1) / v.clusterSize := by
  have hpos := v.clusterSize_pos
  have hsplit := Nat.div_add_mod len v.clusterSize
  have hmod := Nat.mod_lt len hpos
  rw [reqClusters]
  generalize len / v.clusterSize = q at hsplit ⊢
  split
  · next hne =>
    symm
    apply Nat.div_eq_of_lt_le
    · rw [Nat.add_mul, Nat.mul_comm q]
      omega
    · rw [Nat.succ_mul, Nat.add_mul, Nat.mul_comm q]
      omega
  · next heq =>
    symm
    apply Nat.div_eq_of_lt_le
    · rw [Nat.add_zero, Nat.mul_comm q]
      omega
    · rw [Nat.succ_mul, Nat.mul_comm q]
      omega

/-- Only an empty write fills no cluster. -/
theorem reqClusters_eq_zero_iff (len : ℕ) : reqClusters v len = 0 ↔ len = 0 := by
  constructor
  · intro h
    have hle := le_reqClusters_mul v len
    rw [h] at hle
    omega
  · rintro rfl
    simp [reqClusters]

/-- The clusters of a file of `n` clusters after `len` bytes were written to it. -/
def clustersAfter (n len : ℕ) : ℕ := if len = 0 then n else reqClusters v len + 1

/-- Only an empty write to one cluster leaves one cluster. -/
theorem clustersAfter_eq_one_iff (n len : ℕ) : clustersAfter v n len = 1 ↔ len = 0 ∧ n = 1 := by
  have hzero := reqClusters_eq_zero_iff v len
  unfold clustersAfter
  split <;> omega

/-- One cluster is left over only if nothing was ever written. -/
theorem foldl_clustersAfter_eq_one_iff (lens : List ℕ) (n : ℕ) :
    lens.foldl (clustersAfter v) n = 1 ↔ (∀ len ∈ lens, len = 0) ∧ n = 1 := by
  induction lens generalizing n with
  | nil => simp
  | cons len lens ih => simp [ih, clustersAfter_eq_one_iff, and_assoc, and_left_comm]

/-- The clusters are those needed only if nothing was ever written. -/
theorem foldl_clustersAfter_eq_iff {lens : List ℕ} {len : ℕ} (hlast : lens.getLast? = some len)
    (n : ℕ) : lens.foldl (clustersAfter v) n = max 1 ((len + v.clusterSize - 1) / v.clusterSize) ↔
      (∀ len ∈ lens, len = 0) ∧ n = 1 := by
  rw [← reqClusters_eq]
  obtain ⟨front, rfl⟩ := List.getLast?_eq_some_iff.mp hlast
  have hzero := reqClusters_eq_zero_iff v len
  by_cases hlen : len = 0
  · rw [hzero.mpr hlen]
    exact foldl_clustersAfter_eq_one_iff v _ n
  · rw [List.foldl_append, List.foldl_cons, List.foldl_nil, clustersAfter, if_neg hlen]
    constructor
    · omega
    · rintro ⟨hall, -⟩
      exact absurd (hall len (by simp)) hlen

end Counting

section Step

variable {v : Volume} {s u : State} {p : Place} {buffer : Bytes} {len date time : ℕ} {ns : List ℕ}
  (h : WritesFile v s u p buffer len date time ns)
include h

/-- What one write does to the number of clusters of a file. -/
theorem WritesFile.hasClusters {q : Place} {n : ℕ} (hq : Reach v s q) (hn : HasClusters v s q n) :
    HasClusters v u q (if p = q then clustersAfter v n len else n) := by
  obtain ⟨l, hl, rfl⟩ := hn
  have hfirst : getCluster (slotOf v u q) = getCluster (slotOf v s q) :=
    h.first_kept (o := .slot q) hq
  have hlength := h.rewrites.length
  have hzero := reqClusters_eq_zero_iff v len
  rw [HasClusters, hfirst]
  split
  · next heq =>
    subst heq
    by_cases hlen : len = 0
    · rw [clustersAfter, if_pos hlen]
      have hnil : ns = [] := List.eq_nil_of_length_eq_zero (by omega)
      exact ⟨l, h.chain_of_nil hnil hl, rfl⟩
    · rw [clustersAfter, if_neg hlen, ← hlength]
      have hne : ns ≠ [] := by
        rintro rfl
        rw [List.length_nil] at hlength
        omega
      exact ⟨_, h.chain_of_ne_nil hne, rfl⟩
  · next hne =>
    have howner : Owner.slot q ≠ .slot p := by simpa using Ne.symm hne
    exact ⟨l, h.chain_kept (o := .slot q) hq howner hl, rfl⟩

/-- A write of no bytes loses no cluster. -/
theorem WritesFile.noLostClusters (hlen : len = 0) (hlost : NoLostClusters v s) :
    NoLostClusters v u := by
  have hnil : ns = [] := by
    apply List.eq_nil_of_length_eq_zero
    rw [h.rewrites.length, reqClusters_eq_zero_iff, hlen]
  intro c hc hused
  rw [h.rewrites.links_eq, hnil] at hused
  obtain ⟨o, l, ho, hl, hcl⟩ := hlost c hc hused
  refine ⟨o, l, h.exists_kept.mpr ho, ?_, hcl⟩
  rw [h.first_kept ho]
  exact h.chain_of_nil hnil hl

/-- An intact volume stays intact. -/
theorem WritesFile.intact (hv : Intact v s) (hstart : 2 ≤ u.startSearchCluster) : Intact v u :=
  ⟨hv.wellFormed, hv.device, hv.type_ne, hv.sector_size, hstart, h.sound_kept⟩

/-- The entries keep their first clusters. -/
theorem WritesFile.hasFirst {q : Place} (hq : Reach v s q) (hfirst : HasFirst v s q) :
    HasFirst v u q := by
  have hkept : getCluster (slotOf v u q) = getCluster (slotOf v s q) :=
    h.first_kept (o := .slot q) hq
  rwa [HasFirst, hkept]

end Step

/-- Files that are written one after the other. -/
inductive FileRun (v : Volume) : State → List (Place × ℕ) → State → Prop
  | nil (s : State) : FileRun v s [] s
  | cons {s t u : State} {p : Place} {buffer : Bytes} {len date time : ℕ} {ns : List ℕ}
    {log : List (Place × ℕ)} (h : WritesFile v s t p buffer len date time ns)
    (hrest : FileRun v t log u) : FileRun v s ((p, len) :: log) u

/-- Calls of `WriteFile` write files that have a first cluster. -/
theorem WriteRun.fileRun {v : Volume} {s u : State} {log : List (Place × ℕ)}
    (hrun : WriteRun v s log u) (hv : Intact v s) (hends : RootEnds v s) (hpos : 0 < v.totalClusters)
    (hfirst : ∀ w ∈ log, Reach v s w.1 → HasFirst v s w.1) : FileRun v s log u := by
  induction hrun with
  | nil s => exact .nil s
  | @cons s t u path entry buffer len create r log hlookup hfile hlen halloc hret hrest ih =>
    obtain ⟨w, hres⟩ := hlookup
    have htree : InTree v s entry := getEntryByPath_reach (hv.searchable hpos) hv.sound hends hres
    have hrange := hfirst _ List.mem_cons_self htree.1
    rw [HasFirst, ← htree.2] at hrange
    have hpath : LeadsTo v s path entry := ⟨⟨w, hres⟩, hfile, hrange.1, hrange.2⟩
    obtain ⟨t', ns, date, time, hret', hstart, h⟩ := writeFile_writes hv hpath hlen halloc htree
    obtain ⟨-, rfl⟩ := hret.unique hret'
    refine .cons h (ih (h.intact hv hstart) (h.rootEnds_kept hends) fun w hw hreach => ?_)
    have hreach := h.reach_kept.mp hreach
    exact h.hasFirst hreach (hfirst w (List.mem_cons_of_mem _ hw) hreach)

namespace FileRun

variable {v : Volume} {s u : State} {log : List (Place × ℕ)} (h : FileRun v s log u)
include h

/-- The written files can be reached from the start. -/
theorem reach : ∀ w ∈ log, Reach v s w.1 := by
  induction h with
  | nil s => simp
  | cons h hrest ih =>
    intro w hw
    rcases List.mem_cons.mp hw with rfl | hw
    · exact h.reach
    · exact h.reach_kept.mp (ih w hw)

/-- What a run does to the number of clusters of a file. -/
theorem hasClusters {q : Place} {n : ℕ} (hq : Reach v s q) (hn : HasClusters v s q n) :
    HasClusters v u q ((lengthsOf q log).foldl (clustersAfter v) n) := by
  induction h generalizing n with
  | nil s => exact hn
  | @cons s t u p buffer len date time ns log h hrest ih =>
    have hstep := ih (h.reach_kept.mpr hq) (h.hasClusters hq hn)
    by_cases heq : p = q
    · simpa [lengthsOf, heq] using hstep
    · simpa [lengthsOf, heq] using hstep

/-- A run that writes no bytes loses no cluster. -/
theorem noLostClusters (hzero : ∀ w ∈ log, w.2 = 0) (hlost : NoLostClusters v s) :
    NoLostClusters v u := by
  induction h with
  | nil s => exact hlost
  | cons h hrest ih =>
    apply ih fun w hw => hzero w (List.mem_cons_of_mem _ hw)
    exact h.noLostClusters (hzero _ List.mem_cons_self) hlost

/-- The chains are exact after a run if and only if it was idle. -/
theorem exactChains_iff (hsound : Sound v s) : ExactChains v u log ↔ IdleWrites v s log := by
  have hunique {p : Place} {n m : ℕ} (hn : HasClusters v u p n) (hm : HasClusters v u p m) : n = m := by
    obtain ⟨l, hl, rfl⟩ := hn
    obtain ⟨l', hl', rfl⟩ := hm
    rw [hl.unique hl']
  have hmem {p : Place} {len : ℕ} : len ∈ lengthsOf p log ↔ (p, len) ∈ log := by
    simp [lengthsOf]
  constructor
  · rintro hexact ⟨p, len⟩ hw
    have hreach := h.reach _ hw
    obtain ⟨l, hl, -⟩ := hsound.chain (.slot p) hreach
    obtain ⟨last, hlast⟩ := Option.ne_none_iff_exists'.mp
      (mt List.getLast?_eq_none_iff.mp (List.ne_nil_of_mem (hmem.mpr hw)))
    have hafter := hunique (h.hasClusters hreach ⟨l, hl, rfl⟩) (hexact p last hlast)
    obtain ⟨hzero, hone⟩ := (foldl_clustersAfter_eq_iff v hlast _).mp hafter
    exact ⟨hzero len (hmem.mpr hw), l, hl, hone⟩
  · intro hidle p len hlast
    have hw : (p, len) ∈ log := hmem.mp (List.mem_of_getLast? hlast)
    have hafter := h.hasClusters (h.reach _ hw) (hidle _ hw).2
    rwa [(foldl_clustersAfter_eq_iff v hlast 1).mpr
      ⟨fun len' hlen' => (hidle _ (hmem.mp hlen')).1, rfl⟩] at hafter

end FileRun

/-- A file of one cluster has a first cluster. -/
theorem HasClusters.hasFirst {v : Volume} {s : State} (hsound : Sound v s) {p : Place}
    (hp : Reach v s p) (h : HasClusters v s p 1) : HasFirst v s p := by
  obtain ⟨l, hl, hlength⟩ := h
  obtain ⟨c, rfl⟩ := List.length_eq_one_iff.mp hlength
  obtain ⟨l', hl', hle⟩ := hsound.chain (.slot p) hp
  have hle : c ≤ v.totalClusters := hle c (by rw [← hl.unique hl']; exact List.mem_cons_self)
  have hlow := (hl.isCluster c List.mem_cons_self).1
  rcases hl with ⟨-, hnil⟩ | ⟨hwalk, -⟩
  · cases hnil
  · rw [HasFirst, hwalk.head_eq]
    exact ⟨hlow, hle⟩

/-- No cluster is lost and all chains are exact after a run that writes nothing to files of one
cluster. When the files have a first cluster, they are so after no other run. -/
theorem writeRun_exact_iff (v : Volume) (s u : State) (log : List (Place × ℕ)) (hv : Intact v s)
    (hpos : 0 < v.totalClusters) (hends : RootEnds v s) (hlost : NoLostClusters v s)
    (hrun : WriteRun v s log u) :
    (IdleWrites v s log → NoLostClusters v u ∧ ExactChains v u log) ∧
      ((∀ w ∈ log, HasFirst v s w.1) →
        (NoLostClusters v u ∧ ExactChains v u log ↔ IdleWrites v s log)) := by
  have hidle (h : FileRun v s log u) (hw : IdleWrites v s log) :
      NoLostClusters v u ∧ ExactChains v u log :=
    ⟨h.noLostClusters (fun w hmem => (hw w hmem).1) hlost, (h.exactChains_iff hv.sound).mpr hw⟩
  constructor
  · intro hw
    apply hidle (hrun.fileRun hv hends hpos fun w hmem hreach => ?_) hw
    exact (hw w hmem).2.hasFirst hv.sound hreach
  · intro hfirst
    have h := hrun.fileRun hv hends hpos fun w hmem _ => hfirst w hmem
    exact ⟨fun hexact => (h.exactChains_iff hv.sound).mp hexact.2, hidle h⟩

section Sample

/-- The table of the volume with one file is empty behind the entry of cluster 2. -/
theorem slice_table {b : ℕ} (hlow : 6 ≤ b) (hhigh : b < 8192) :
    tableBytes (smallVolume 0) sliceState b = 0 := by
  change diskImage _ (0 + (1 + b / 512)) (b % 512) = 0
  by_cases hfirst : b < 512
  · rw [Nat.div_eq_of_lt hfirst, Nat.mod_eq_of_lt hfirst]
    exact List.getD_eq_default _ _ hlow
  · have hdiv : 1 ≤ b / 512 ∧ b / 512 ≤ 15 := by omega
    generalize b / 512 = q at hdiv
    have hlookup (blocks : List (ℕ × List UInt8)) (hkeys : ∀ x ∈ blocks, x.1 = 1 ∨ 17 ≤ x.1) :
        blocks.lookup (0 + (1 + q)) = none := by
      rw [List.lookup_eq_none_iff]
      intro x hx
      have := hkeys x hx
      simp only [bne_iff_ne]
      omega
    rw [diskImage, hlookup _ (by decide)]
    rfl

/-- Only cluster 2 is in use. -/
theorem slice_noLostClusters : NoLostClusters (smallVolume 0) sliceState := by
  rintro c ⟨hlow, hhigh⟩ hused
  have hhigh : c ≤ 4086 := hhigh
  refine ⟨.slot ⟨17, 0⟩, [2], ?_, ?_, ?_⟩
  · exact reach_of_mem_rootPlaces (by decide) (by decide +kernel)
  · exact slice_fileChain
  · by_contra hne
    have hne : c ≠ 2 := by simpa using hne
    apply hused
    rw [links_of_le _ hhigh]
    change (tableBytes (smallVolume 0) sliceState).u16 (2 * c) = 0
    rw [Bytes.u16, slice_table (by omega) (by omega), slice_table (by omega) (by omega)]
    rfl

/-- A run that writes `A.TXT` once. -/
theorem slice_writeRun {buffer : Bytes} {len : ℕ} (hlen : len < 2 ^ 32)
    (halloc : FindsClusters (smallVolume 0) sliceState samplePath buffer len false) :
    ∃ u, WriteRun (smallVolume 0) sliceState [(⟨17, 0⟩, len)] u := by
  obtain ⟨entry, hpath, hplace⟩ := slice_leadsTo
  obtain ⟨u, -, -, -, hret, -, -⟩ := writeFile_writes slice_intact hpath hlen halloc
    (hpath.inTree slice_intact slice_rootEnds)
  rw [← hplace]
  exact ⟨u, .cons hpath.lookup hpath.file hlen halloc hret (.nil u)⟩

/-- Writing 600 bytes to `A.TXT` gives it three clusters instead of two. -/
theorem writeRun_adds_cluster :
    ¬ ∀ (v : Volume) (s u : State) (log : List (Place × ℕ)), Intact v s → 0 < v.totalClusters →
      NoLostClusters v s → WriteRun v s log u → NoLostClusters v u ∧ ExactChains v u log := by
  intro h
  obtain ⟨u, hrun⟩ := slice_writeRun (by decide) slice_findsClusters
  have hexact := (h _ _ _ _ slice_intact (by decide) slice_noLostClusters hrun).2
  have hfirst : HasFirst (smallVolume 0) sliceState ⟨17, 0⟩ := by
    unfold HasFirst
    decide +kernel
  have hfiles := hrun.fileRun slice_intact slice_rootEnds (by decide) (by simpa using fun _ => hfirst)
  have hidle := (hfiles.exactChains_iff slice_intact.sound).mp hexact
  exact absurd (hidle _ List.mem_cons_self).1 (by decide)

/-- Writing no bytes to `A.TXT` keeps its cluster. -/
theorem writeRun_exact_slice : ∃ u, WriteRun (smallVolume 0) sliceState [(⟨17, 0⟩, 0)] u ∧
    NoLostClusters (smallVolume 0) u ∧ ExactChains (smallVolume 0) u [(⟨17, 0⟩, 0)] := by
  have halloc : FindsClusters (smallVolume 0) sliceState samplePath (fun _ => 0) 0 false :=
    findsClusters_of_answer (show answer ((writeFile _ 18 _ _ _ _).run _) = some 0 by decide +kernel)
      (by decide +kernel)
  obtain ⟨u, hrun⟩ := slice_writeRun (by decide) halloc
  refine ⟨u, hrun, (writeRun_exact_iff _ _ _ _ slice_intact (by decide) slice_rootEnds
    slice_noLostClusters hrun).1 ?_⟩
  have hone : HasClusters (smallVolume 0) sliceState ⟨17, 0⟩ 1 :=
    ⟨[2], by exact slice_fileChain, rfl⟩
  simpa [IdleWrites] using hone

end Sample

end Vsos.Fat
