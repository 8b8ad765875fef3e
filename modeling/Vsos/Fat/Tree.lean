import Vsos.Fat.Links
import Vsos.Fat.Listing
import Vsos.Fat.Slice

/-!
# The tree of files and directories

What can be reached from the root directory: its entries, and the entries of every directory
that can be reached. The root directory of a FAT32 volume and every entry own a chain of
clusters. On a sound volume these chains end, stay inside the volume and share no cluster.
Whatever path the driver resolves leads to an entry of this tree, as long as a fixed root
directory holds an end mark.
-/

namespace Vsos.Fat

open Vsos.Lib

/-- The slots of the root directory. -/
def IsRootSlots (v : Volume) (s : State) (ps : List Place) : Prop :=
  if v.fatType = .FAT32 then ∃ l, FileChain v s v.rootDirCluster l ∧ ps = chainPlaces v l
  else ps = rootPlaces v

/-- The entries that can be reached from the root directory. -/
inductive Reach (v : Volume) (s : State) : Place → Prop
  | root {ps : List Place} {p : Place} (hps : IsRootSlots v s ps) (hp : p ∈ liveSlots v s ps) :
    Reach v s p
  | child {d p : Place} {l : List ℕ} (hd : Reach v s d) (hdir : isDirectory (slotOf v s d) = true)
    (hl : FileChain v s (getCluster (slotOf v s d)) l) (hp : p ∈ liveSlots v s (chainPlaces v l)) :
    Reach v s p

/-- What a chain of clusters can belong to. -/
inductive Owner where
  | root
  | slot (p : Place)

/-- The root directory owns a chain on FAT32 volumes only. -/
def Owner.Exists (v : Volume) (s : State) : Owner → Prop
  | .root => v.fatType = .FAT32
  | .slot p => Reach v s p

/-- The first cluster of the chain. -/
def Owner.first (v : Volume) (s : State) : Owner → ℕ
  | .root => v.rootDirCluster
  | .slot p => getCluster (slotOf v s p)

/-- Does the chain hold a directory? -/
def Owner.IsDir (v : Volume) (s : State) : Owner → Prop
  | .root => True
  | .slot p => isDirectory (slotOf v s p) = true

/-- Every chain ends, stays inside the volume and shares no cluster with another one. -/
structure Sound (v : Volume) (s : State) : Prop where
  chain : ∀ o : Owner, o.Exists v s →
    ∃ l, FileChain v s (o.first v s) l ∧ ∀ c ∈ l, c ≤ v.totalClusters
  disjoint : ∀ (o o' : Owner) (l l' : List ℕ), o.Exists v s → o'.Exists v s → o ≠ o' →
    FileChain v s (o.first v s) l → FileChain v s (o'.first v s) l' → l.Disjoint l'

section Chain

variable {v : Volume} {s t : State} {first : ℕ} {l l' : List ℕ}

/-- The clusters of a file are in the volume. -/
theorem FileChain.isCluster (h : FileChain v s first l) : ∀ c ∈ l, IsCluster v c := by
  rcases h with ⟨-, rfl⟩ | h
  · simp
  · exact h.2

/-- A first cluster has one chain. -/
theorem FileChain.unique (h : FileChain v s first l) (h' : FileChain v s first l') : l = l' := by
  have hfree {l : List ℕ} (hchain : DiskChain v s clusterFree l) : False := by
    obtain ⟨hwalk, hrange⟩ := hchain
    cases l with
    | nil =>
      have hend : v.clusterEnd ≤ 0 := hwalk
      unfold Geometry.clusterEnd at hend
      split at hend <;> omega
    | cons b l =>
      have hb := (hrange b List.mem_cons_self).1
      rw [← hwalk.head_eq, clusterFree] at hb
      omega
  rcases h with ⟨rfl, rfl⟩ | h <;> rcases h' with ⟨hf, rfl⟩ | h'
  · rfl
  · exact (hfree h').elim
  · exact (hfree (hf ▸ h)).elim
  · exact h.1.unique h'.1

/-- A chain depends on the links of its clusters. -/
theorem FileChain.congr (h : FileChain v s first l)
    (heq : ∀ c ∈ l, links v t c = links v s c) : FileChain v t first l := by
  rcases h with h | h
  · exact Or.inl h
  · refine Or.inr ⟨h.1.congr fun c hc => ?_, h.2⟩
    have hle := (h.2 c hc).2
    rw [← links_of_le t hle, ← links_of_le s hle]
    exact heq c hc

/-- A chain that starts at a cluster of the volume. -/
theorem FileChain.mem_first (hwf : v.WellFormed) (h : FileChain v s first l) (hlow : 2 ≤ first)
    (hhigh : first ≤ v.totalClusters) : first ∈ l := by
  have hlt := hwf.clusters_lt
  rcases h with ⟨rfl, -⟩ | ⟨hwalk, -⟩
  · rw [clusterFree] at hlow
    omega
  · cases l with
    | nil =>
      have hend : v.clusterEnd ≤ first := hwalk
      omega
    | cons b l =>
      rw [hwalk.head_eq]
      exact List.mem_cons_self

/-- No cluster of a chain is free. -/
theorem FileChain.links_ne_zero (hwf : v.WellFormed) (h : FileChain v s first l) {c : ℕ}
    (hc : c ∈ l) : links v s c ≠ 0 := by
  have hlt := hwf.clusters_lt
  rcases h with ⟨-, rfl⟩ | ⟨hwalk, hrange⟩
  · cases hc
  · rw [links_of_le s (hrange c hc).2]
    induction l generalizing first with
    | nil => cases hc
    | cons b l ih =>
      obtain ⟨rfl, -, hrest⟩ := hwalk
      rcases List.mem_cons.mp hc with rfl | hc
      · cases l with
        | nil =>
          have hend : v.clusterEnd ≤ diskEntry v s c := hrest
          omega
        | cons b' l =>
          have hb' := (hrange b' (by simp)).1
          rw [hrest.head_eq]
          omega
      · exact ih hc hrest fun c hc => hrange c (List.mem_cons_of_mem _ hc)

/-- The driver's walk over a chain of whole table entries. -/
theorem FileChain.walks (hwf : v.WellFormed) (hwhole : WholeEntries v)
    (h : FileChain v s first l) (hle : ∀ c ∈ l, c ≤ v.totalClusters) :
    Walks (tableEntry v s) (ChainStops v) first l := by
  rcases h with ⟨hfree, rfl⟩ | h
  · exact Or.inl hfree
  · have hreadable : readableClusters v l = l := by
      rcases readableClusters_cases v l with heq | ⟨k, hk, -⟩
      · exact heq
      · have := hle _ (List.mem_of_getElem? hk)
        omega
    have hwalk := h.walks hwf fun c hc hs => absurd hs (hwhole c (hle c hc))
    rwa [hreadable] at hwalk

end Chain

section Region

variable {v : Volume} {s : State} {p : Place}

/-- A place at the start of a slot. -/
def Place.Aligned (v : Volume) (p : Place) : Prop := ∃ j < v.slotsPerSector, p.offset = 32 * j

/-- A slot ends in its sector. -/
theorem Place.Aligned.le (h : p.Aligned v) : p.offset + 32 ≤ v.bytesPerSector := by
  obtain ⟨j, hj, heq⟩ := h
  unfold Geometry.slotsPerSector at hj
  omega

/-- Different aligned slots of a sector do not overlap. -/
theorem Place.Aligned.apart {q : Place} (hp : p.Aligned v) (hq : q.Aligned v)
    (hsector : q.sector = p.sector) (hne : q ≠ p) :
    q.offset + 32 ≤ p.offset ∨ p.offset + 32 ≤ q.offset := by
  obtain ⟨j, -, hj⟩ := hp
  obtain ⟨k, -, hk⟩ := hq
  have hoffset : q.offset ≠ p.offset := by
    intro heq
    apply hne
    cases p
    cases q
    simp_all
  omega

/-- The slots after the one at `p` was replaced. -/
theorem slotOf_blit {u : State} {q : Place} (hp : p.Aligned v) (hq : q.Aligned v) {new : Bytes}
    (hnew : IsSlot new)
    (hsame : u.data (p.address v) = (s.data (p.address v)).blit p.offset new 32)
    (hother : q.address v ≠ p.address v → u.data (q.address v) = s.data (q.address v)) :
    slotOf v u q = if q = p then new else slotOf v s q := by
  by_cases hsector : q.sector = p.sector
  · have haddress : q.address v = p.address v := by rw [Place.address, Place.address, hsector]
    split
    · next hqp =>
      subst hqp
      funext i
      rw [slotOf, hsame, slotAt]
      split
      · rw [Bytes.blit_of_mem (by omega) (by omega), Nat.add_sub_cancel_left]
      · rw [hnew i (by omega)]
    · next hqp =>
      have hapart := hp.apart hq hsector hqp
      funext i
      rw [slotOf, slotOf, haddress, hsame, slotAt, slotAt]
      split
      · rw [Bytes.blit_of_not_mem (by omega)]
      · rfl
  · have hne : q ≠ p := fun heq => hsector (by rw [heq])
    rw [if_neg hne, slotOf, slotOf, hother]
    rw [Place.address, Place.address]
    omega

/-- A slot of some sectors in a row. -/
theorem of_mem_runPlaces {sector i n : ℕ} (h : p ∈ runPlaces v sector i n) :
    (∃ k, i ≤ k ∧ k < i + n ∧ p.sector = sector + k) ∧ p.Aligned v := by
  obtain ⟨k, hk, hp⟩ := List.mem_flatMap.mp h
  obtain ⟨hsector, j, hj, hoffset⟩ := of_mem_sectorPlaces hp
  obtain ⟨hlow, hhigh⟩ := List.mem_range'_1.mp hk
  exact ⟨⟨k, hlow, hhigh, hsector⟩, j, hj, hoffset⟩

/-- The slots of a chain lie in its clusters. -/
theorem of_mem_chainPlaces {l : List ℕ} (h : p ∈ chainPlaces v l) :
    (∃ c ∈ l, ClusterRegion v c (p.address v)) ∧ p.Aligned v := by
  obtain ⟨c, hc, hp⟩ := List.mem_flatMap.mp h
  obtain ⟨⟨k, -, hk, hsector⟩, haligned⟩ := of_mem_runPlaces hp
  refine ⟨⟨c, hc, k, by omega, ?_⟩, haligned⟩
  rw [Place.address, hsector, clusterAddress, clusterSector]
  omega

/-- The addresses of the root directory region. -/
def RootRegion (v : Volume) (a : ℕ) : Prop :=
  v.startLBA + v.rootStart ≤ a ∧ a < v.startLBA + v.firstDataSector

/-- A slot of the fixed root. -/
theorem of_mem_rootPlaces (hwf : v.WellFormed) (h : p ∈ rootPlaces v) :
    RootRegion v (p.address v) ∧ p.Aligned v := by
  obtain ⟨⟨k, -, hk, hsector⟩, haligned⟩ := of_mem_runPlaces h
  have hroot := hwf.rootStart_add
  refine ⟨?_, haligned⟩
  rw [Place.address]
  constructor <;> omega

/-- The addresses of the directories that can be reached. -/
def DirRegion (v : Volume) (s : State) (a : ℕ) : Prop :=
  RootRegion v a ∨ ∃ (o : Owner) (l : List ℕ) (c : ℕ), o.Exists v s ∧ o.IsDir v s ∧
    FileChain v s (o.first v s) l ∧ c ∈ l ∧ ClusterRegion v c a

/-- The slots of the root directory lie in a directory. -/
theorem IsRootSlots.dirRegion (hwf : v.WellFormed) {ps : List Place} (h : IsRootSlots v s ps)
    (hp : p ∈ ps) : DirRegion v s (p.address v) ∧ p.Aligned v := by
  unfold IsRootSlots at h
  split at h
  · next htype =>
    obtain ⟨l, hl, rfl⟩ := h
    obtain ⟨⟨c, hc, hregion⟩, haligned⟩ := of_mem_chainPlaces hp
    exact ⟨Or.inr ⟨.root, l, c, htype, trivial, hl, hc, hregion⟩, haligned⟩
  · subst h
    obtain ⟨hregion, haligned⟩ := of_mem_rootPlaces hwf hp
    exact ⟨Or.inl hregion, haligned⟩

/-- An entry that can be reached lies in a directory. -/
theorem Reach.dirRegion (hwf : v.WellFormed) (h : Reach v s p) :
    DirRegion v s (p.address v) ∧ p.Aligned v := by
  cases h with
  | root hps hp => exact hps.dirRegion hwf (mem_of_mem_liveSlots hp)
  | @child d _ l hd hdir hl hp =>
    obtain ⟨⟨c, hc, hregion⟩, haligned⟩ := of_mem_chainPlaces (mem_of_mem_liveSlots hp)
    exact ⟨Or.inr ⟨.slot d, l, c, hd, hdir, hl, hc, hregion⟩, haligned⟩

/-- An entry that can be reached is one that the driver lists. -/
theorem Reach.listed (h : Reach v s p) : slotOf v s p 0 ≠ entryEnd ∧ Listed (slotOf v s p) := by
  cases h with
  | root _ hp => exact listed_of_mem_liveSlots hp
  | child _ _ _ hp => exact listed_of_mem_liveSlots hp

end Region

/-- The entries of a fixed root directory can be reached. -/
theorem reach_of_mem_rootPlaces {v : Volume} {s : State} (htype : v.fatType ≠ .FAT32) {p : Place}
    (hp : p ∈ liveSlots v s (rootPlaces v)) : Reach v s p := by
  refine .root ?_ hp
  rw [IsRootSlots, if_neg htype]

section Files

variable {v : Volume} {s : State} (htype : v.fatType ≠ .FAT32)
  (hfiles : ∀ p ∈ liveSlots v s (rootPlaces v), isDirectory (slotOf v s p) = false)
include htype hfiles

/-- Without directories the entries of a fixed root are all that can be reached. -/
theorem reach_iff_of_files {p : Place} : Reach v s p ↔ p ∈ liveSlots v s (rootPlaces v) := by
  constructor
  · intro h
    induction h with
    | root hps hp =>
      rw [IsRootSlots, if_neg htype] at hps
      rwa [← hps]
    | child _ hdir _ _ ih =>
      rw [hfiles _ ih] at hdir
      cases hdir
  · exact reach_of_mem_rootPlaces htype

/-- A fixed root with files only is sound if these have their own clusters. -/
theorem sound_of_files (chain : Place → List ℕ)
    (hchain : ∀ p ∈ liveSlots v s (rootPlaces v),
      FileChain v s (getCluster (slotOf v s p)) (chain p) ∧ ∀ c ∈ chain p, c ≤ v.totalClusters)
    (hdisjoint : ∀ p ∈ liveSlots v s (rootPlaces v), ∀ q ∈ liveSlots v s (rootPlaces v), p ≠ q →
      (chain p).Disjoint (chain q)) : Sound v s := by
  constructor
  · intro o ho
    cases o with
    | root => exact absurd ho htype
    | slot p => exact ⟨chain p, hchain p ((reach_iff_of_files htype hfiles).mp ho)⟩
  · intro o o' l l' ho ho' hne hl hl'
    cases o with
    | root => exact absurd ho htype
    | slot p =>
      cases o' with
      | root => exact absurd ho' htype
      | slot q =>
        have hp := (reach_iff_of_files htype hfiles).mp ho
        have hq := (reach_iff_of_files htype hfiles).mp ho'
        rw [hl.unique (hchain p hp).1, hl'.unique (hchain q hq).1]
        exact hdisjoint p hp q hq fun heq => hne (by rw [heq])

end Files

/-- The directory that a path lookup is in: the root directory first, and then the directory of
some entry. -/
def IsDirAt (v : Volume) (s : State) (cluster : ℕ) (rootDirectory : Bool) : Prop :=
  (rootDirectory = true ∧ cluster = v.rootDirCluster) ∨
    (rootDirectory = false ∧ ∃ d, Reach v s d ∧ isDirectory (slotOf v s d) = true ∧
      cluster = getCluster (slotOf v s d))

/-- The root directory ends before the data region does. -/
def RootEnds (v : Volume) (s : State) : Prop :=
  v.fatType = .FAT32 ∨ ∃ p ∈ rootPlaces v, slotOf v s p 0 = entryEnd

/-- The slots that `GetDirectoryEntries` visits. -/
inductive Visits (v : Volume) (s : State) (cluster : ℕ) : Bool → List Place → Prop
  | fixed {e : ℕ} (htype : v.fatType ≠ .FAT32) (hgo : ¬ ChainStops v cluster)
    (he : RootEndsAt v s e) : Visits v s cluster true (rootVisits v e)
  | stopped (htype : v.fatType ≠ .FAT32) (hstop : ChainStops v cluster) : Visits v s cluster true []
  | chain {rootDirectory : Bool} {l : List ℕ} (hroot : fixedRoot v rootDirectory = false)
    (hl : FileChain v s cluster l) (hle : ∀ c ∈ l, c ≤ v.totalClusters) :
    Visits v s cluster rootDirectory (chainPlaces v l)

end Vsos.Fat
