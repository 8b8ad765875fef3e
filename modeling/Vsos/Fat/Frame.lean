import Vsos.Fat.Rewritten

/-!
# Writing one file leaves the others alone

On a sound volume the clusters that a write touches belong to the written file or were free,
so they belong to no other chain. The directories keep their links and all their slots but
one, and that slot keeps its name, its attributes and its first cluster. Hence the same
entries can be reached afterwards, and every other file has its size and its bytes.
-/

namespace Vsos.Fat

open Vsos.Lib

variable {a x : ℕ} {o : Owner} {l : List ℕ} {q : Place}

/-- Every address of a directory can be reached with 32-bit sector numbers. -/
theorem DirRegion.addressable {v : Volume} (hwf : v.WellFormed) {s : State} {sector : ℕ}
    (h : DirRegion v s (v.startLBA + sector)) : Addressable v sector := by
  have hdata := hwf.data_le
  have hlba := hwf.lba_le
  rcases h with ⟨-, hlt⟩ | ⟨o, l, c, -, -, hl, hc, i, hi, heq⟩
  · constructor <;> omega
  · have hsector : sector = clusterSector v c 0 + i := by
      rw [clusterAddress] at heq
      unfold clusterSector
      omega
    rw [hsector]
    exact hwf.addressable_cluster (hl.isCluster c hc) hi

/-- A directory does not lie in the table. -/
theorem DirRegion.not_table {v : Volume} {s : State} (h : DirRegion v s a) :
    ¬ TableRegion v a := by
  rcases h with h | ⟨o, l, c, -, -, -, -, h⟩
  · exact not_tableRegion_of_le h.1
  · exact not_tableRegion_cluster h

section Apart

variable {v : Volume} (hwf : v.WellFormed) {s : State} (hsound : Sound v s) {p : Place}
  (hp : Reach v s p) (hlow : 2 ≤ getCluster (slotOf v s p))
  (hhigh : getCluster (slotOf v s p) ≤ v.totalClusters)
include hwf hsound hp hlow hhigh

/-- The first cluster of a file and the free clusters belong to no other chain. -/
theorem not_mem_other_chain (ho : o.Exists v s) (hne : o ≠ .slot p)
    (hl : FileChain v s (o.first v s) l) (hx : x = getCluster (slotOf v s p) ∨ links v s x = 0) :
    x ∉ l := by
  intro hxl
  rcases hx with rfl | hfree
  · obtain ⟨l', hl', -⟩ := hsound.chain (.slot p) hp
    exact hsound.disjoint o (.slot p) l l' ho hp hne hl hl' hxl (hl'.mem_first hwf hlow hhigh)
  · exact hl.links_ne_zero hwf hxl hfree

/-- The directories lie outside of the clusters that a write to a file may touch. -/
theorem DirRegion.not_cluster (hfile : isDirectory (slotOf v s p) = false) (h : DirRegion v s a)
    (hx2 : 2 ≤ x) (hx : x = getCluster (slotOf v s p) ∨ links v s x = 0) :
    ¬ ClusterRegion v x a := by
  intro hxa
  rcases h with h | ⟨o, l, c, ho, hdir, hl, hc, hca⟩
  · have hge := clusterRegion_ge hxa
    have hlt := h.2
    omega
  · have hne : o ≠ .slot p := by
      rintro rfl
      have hdir : isDirectory (slotOf v s p) = true := hdir
      rw [hfile] at hdir
      cases hdir
    have hcx := clusterRegion_unique (hl.isCluster c hc).1 hx2 hca hxa
    exact not_mem_other_chain hwf hsound hp hlow hhigh ho hne hl hx (hcx ▸ hc)

end Apart

/-- A file of a sound volume was written: the entry at `p` leads to a file with a first cluster,
and from `s` to `u` it was rewritten. -/
structure WritesFile (v : Volume) (s u : State) (p : Place) (buffer : Bytes) (len date time : ℕ)
    (ns : List ℕ) : Prop where
  wellFormed : v.WellFormed
  sound : Sound v s
  reach : Reach v s p
  file : isDirectory (slotOf v s p) = false
  low : 2 ≤ getCluster (slotOf v s p)
  high : getCluster (slotOf v s p) ≤ v.totalClusters
  rewrites : Rewrites v s u p (rewritten (slotOf v s p) len date time) buffer len
    (getCluster (slotOf v s p)) ns

/-- The chain of a directory that can be reached has its slots in directories. -/
theorem dirRegion_of_chain {v : Volume} {s : State} (ho : o.Exists v s) (hdir : o.IsDir v s)
    (hl : FileChain v s (o.first v s) l) :
    ∀ q ∈ chainPlaces v l, DirRegion v s (q.address v) ∧ q.Aligned v := by
  intro q hq
  obtain ⟨⟨c, hc, hregion⟩, haligned⟩ := of_mem_chainPlaces hq
  exact ⟨Or.inr ⟨o, l, c, ho, hdir, hl, hc, hregion⟩, haligned⟩

namespace WritesFile

variable {v : Volume} {s u : State} {p : Place} {buffer : Bytes} {len date time : ℕ} {ns : List ℕ}
  (h : WritesFile v s u p buffer len date time ns)
include h

section

variable (ho : o.Exists v s) (hne : o ≠ .slot p) (hl : FileChain v s (o.first v s) l)
include ho hne hl

/-- A cluster that was touched belongs to no other chain. -/
theorem not_mem_other (hx : x ∈ getCluster (slotOf v s p) :: ns) :
    x ∉ l := by
  apply not_mem_other_chain h.wellFormed h.sound h.reach h.low h.high ho hne hl
  rcases List.mem_cons.mp hx with rfl | hx
  · exact Or.inl rfl
  · exact Or.inr (h.rewrites.fresh x hx).2.2

/-- Every other chain stays. -/
theorem chain_kept :
    FileChain v u (o.first v s) l := by
  apply hl.congr
  intro x hx
  rw [h.rewrites.links_eq, relink_of_not_mem]
  exact fun hin => h.not_mem_other ho hne hl hin hx

end

/-- The sectors of the directories stay, up to the slot of the file. -/
theorem data_kept (ha : DirRegion v s a) (hne : a ≠ p.address v) : u.data a = s.data a := by
  apply h.rewrites.alters.data
  rintro (htable | ⟨x, hx, hxa⟩ | heq)
  · exact ha.not_table htable
  · refine ha.not_cluster h.wellFormed h.sound h.reach h.low h.high h.file ?_ ?_ hxa
    · rcases List.mem_cons.mp hx with rfl | hx
      · exact h.low
      · exact (h.rewrites.fresh x hx).1
    · rcases List.mem_cons.mp hx with rfl | hx
      · exact Or.inl rfl
      · exact Or.inr (h.rewrites.fresh x hx).2.2
  · exact hne heq

section

variable (hq : DirRegion v s (q.address v)) (haligned : q.Aligned v)
include hq haligned

/-- The slots of the directories stay, up to the slot of the file. -/
theorem slot_kept :
    slotOf v u q = if q = p then rewritten (slotOf v s p) len date time else slotOf v s q := by
  have hslot : IsSlot (rewritten (slotOf v s p) len date time) := by
    intro i hi
    rw [rewritten_apply len date time (by omega), isSlot_slotOf v s p i hi]
  exact slotOf_blit (h.reach.dirRegion h.wellFormed).2 haligned hslot h.rewrites.entry (h.data_kept hq)

/-- The first byte and the attributes of every directory slot stay. -/
theorem slot_head_kept {i : ℕ} (hi : i < 22) : slotOf v u q i = slotOf v s q i := by
  rw [h.slot_kept hq haligned]
  split
  · next heq => rw [rewritten_apply len date time (by omega), heq]
  · rfl

/-- The entry stays a directory or a file. -/
theorem isDirectory_kept :
    isDirectory (slotOf v u q) = isDirectory (slotOf v s q) := by
  rw [isDirectory, isDirectory, attributes, attributes,
    h.slot_head_kept hq haligned (by decide)]

/-- The entry keeps its first cluster. -/
theorem getCluster_kept :
    getCluster (slotOf v u q) = getCluster (slotOf v s q) := by
  rw [h.slot_kept hq haligned]
  split
  · next heq => rw [getCluster_rewritten, heq]
  · rfl

end

/-- The entries of a directory stay the same slots. -/
theorem liveSlots_kept {ps : List Place}
    (hps : ∀ q ∈ ps, DirRegion v s (q.address v) ∧ q.Aligned v) :
    liveSlots v u ps = liveSlots v s ps := by
  have hhead {q : Place} (hq : q ∈ ps) {i : ℕ} (hi : i < 22) :=
    h.slot_head_kept (hps q hq).1 (hps q hq).2 hi
  induction ps with
  | nil => rfl
  | cons q ps ih =>
    have hfirst : slotOf v u q 0 = slotOf v s q 0 := hhead List.mem_cons_self (by decide)
    have hlisted : Listed (slotOf v u q) ↔ Listed (slotOf v s q) := by
      rw [Listed, Listed, hfirst, attributes, attributes, hhead List.mem_cons_self (by decide)]
    have ih := ih (fun q hq => hps q (List.mem_cons_of_mem _ hq))
      fun hq i hi => hhead (List.mem_cons_of_mem _ hq) hi
    by_cases hend : slotOf v s q 0 = entryEnd
    · rw [liveSlots_cons_end hend, liveSlots_cons_end (hfirst.trans hend)]
    · rw [liveSlots_cons hend, liveSlots_cons (by rwa [hfirst]), ih]
      simp only [hlisted]

/-- A directory is not the entry of the written file. -/
theorem ne_slot_of_isDir (hdir : o.IsDir v s) : o ≠ .slot p := by
  rintro rfl
  have hdir : isDirectory (slotOf v s p) = true := hdir
  rw [h.file] at hdir
  cases hdir

/-- The root directory has the same slots. -/
theorem isRootSlots_kept {ps : List Place} : IsRootSlots v u ps ↔ IsRootSlots v s ps := by
  unfold IsRootSlots
  split
  · next htype =>
    obtain ⟨l, hl, -⟩ := h.sound.chain .root htype
    have hl' := h.chain_kept (o := .root) htype (by simp) hl
    constructor
    · rintro ⟨l₁, hl₁, rfl⟩
      exact ⟨l, hl, by rw [hl₁.unique hl']⟩
    · rintro ⟨l₁, hl₁, rfl⟩
      exact ⟨l, hl', by rw [hl₁.unique hl]⟩
  · rfl

/-- The same entries can be reached. -/
theorem reach_kept : Reach v u q ↔ Reach v s q := by
  constructor
  · intro hq
    induction hq with
    | root hps hq =>
      have hps := h.isRootSlots_kept.mp hps
      rw [h.liveSlots_kept fun q hq => hps.dirRegion h.wellFormed hq] at hq
      exact .root hps hq
    | @child d q l hd hdir hl hq ih =>
      obtain ⟨hregion, haligned⟩ := ih.dirRegion h.wellFormed
      rw [h.isDirectory_kept hregion haligned] at hdir
      rw [h.getCluster_kept hregion haligned] at hl
      obtain ⟨l₁, hl₁, -⟩ := h.sound.chain (.slot d) ih
      have hne : Owner.slot d ≠ .slot p := h.ne_slot_of_isDir hdir
      have hkept := h.chain_kept (o := .slot d) ih hne hl₁
      obtain rfl := hl.unique hkept
      rw [h.liveSlots_kept
        (dirRegion_of_chain (o := .slot d) ih hdir hl₁)] at hq
      exact .child ih hdir hl₁ hq
  · intro hq
    induction hq with
    | root hps hq =>
      rw [← h.liveSlots_kept fun q hq => hps.dirRegion h.wellFormed hq] at hq
      exact .root (h.isRootSlots_kept.mpr hps) hq
    | @child d q l hd hdir hl hq ih =>
      obtain ⟨hregion, haligned⟩ := hd.dirRegion h.wellFormed
      have hne : Owner.slot d ≠ .slot p := h.ne_slot_of_isDir hdir
      have hkept := h.chain_kept (o := .slot d) hd hne hl
      rw [← h.liveSlots_kept
        (dirRegion_of_chain (o := .slot d) hd hdir hl)] at hq
      rw [← h.isDirectory_kept hregion haligned] at hdir
      rw [Owner.first, ← h.getCluster_kept hregion haligned] at hkept
      exact .child ih hdir hkept hq

/-- The same chains belong to something. -/
theorem exists_kept : o.Exists v u ↔ o.Exists v s := by
  cases o with
  | root => rfl
  | slot q => exact h.reach_kept

/-- Every chain starts where it did. -/
theorem first_kept (ho : o.Exists v s) : o.first v u = o.first v s := by
  cases o with
  | root => rfl
  | slot q =>
    obtain ⟨hregion, haligned⟩ := Reach.dirRegion h.wellFormed ho
    exact h.getCluster_kept hregion haligned

/-- A touched cluster lies inside the volume. -/
theorem touched_range (hx : x ∈ getCluster (slotOf v s p) :: ns) :
    2 ≤ x ∧ x ≤ v.totalClusters := by
  rcases List.mem_cons.mp hx with rfl | hx
  · exact ⟨h.low, h.high⟩
  · obtain ⟨hlow, hhigh, -⟩ := h.rewrites.fresh x hx
    exact ⟨hlow, hhigh.le⟩

/-- The written file has the new clusters as its chain, if there are any. -/
theorem chain_of_ne_nil (hne : ns ≠ []) :
    FileChain v u (getCluster (slotOf v s p)) (getCluster (slotOf v s p) :: ns) := by
  have hlt := h.wellFormed.clusters_lt
  have hwalk : Walks (links v u) (v.clusterEnd ≤ ·) (getCluster (slotOf v s p))
      (getCluster (slotOf v s p) :: ns) := by
    rw [h.rewrites.links_eq]
    apply walks_relink hne h.rewrites.nodup (le_refl _)
    intro x hx
    have := (h.touched_range hx).2
    omega
  have hrange : ∀ x ∈ getCluster (slotOf v s p) :: ns, IsCluster v x := by
    intro x hx
    obtain ⟨hlow, hhigh⟩ := h.touched_range hx
    exact ⟨hlow, by omega⟩
  refine Or.inr ⟨hwalk.congr fun x hx => ?_, hrange⟩
  exact (links_of_le u (hrange x hx).2).symm

/-- Without new clusters the written file keeps its chain. -/
theorem chain_of_nil (hnil : ns = []) {first : ℕ} (hl : FileChain v s first l) :
    FileChain v u first l := by
  apply hl.congr
  intro x _
  rw [h.rewrites.links_eq, hnil]
  rfl

/-- The chain of the written file stays inside the volume and apart from the other chains. -/
theorem own_chain : ∃ l, FileChain v u (getCluster (slotOf v s p)) l ∧
    (∀ c ∈ l, c ≤ v.totalClusters) ∧ ∀ (o : Owner) (l' : List ℕ), o.Exists v s → o ≠ .slot p →
      FileChain v s (o.first v s) l' → l.Disjoint l' := by
  by_cases hnil : ns = []
  · obtain ⟨l, hl, hle⟩ := h.sound.chain (.slot p) h.reach
    refine ⟨l, h.chain_of_nil hnil hl, hle, fun o l' ho hne hl' => ?_⟩
    exact (h.sound.disjoint o (.slot p) l' l ho h.reach hne hl' hl).symm
  · refine ⟨_, h.chain_of_ne_nil hnil, fun c hc => (h.touched_range hc).2, fun o l' ho hne hl' => ?_⟩
    exact fun x hx => h.not_mem_other ho hne hl' hx

/-- Every chain that belongs to something else is the one from before. -/
theorem chain_reflected (ho : o.Exists v s) (hne : o ≠ .slot p)
    (hl : FileChain v u (o.first v u) l) : FileChain v s (o.first v s) l := by
  obtain ⟨l', hl', -⟩ := h.sound.chain o ho
  rw [h.first_kept ho] at hl
  rwa [hl.unique (h.chain_kept ho hne hl')]

/-- The chain of the written file shares no cluster with another one. -/
theorem own_disjoint (ho : o.Exists v s) (hne : o ≠ .slot p) {l' : List ℕ}
    (hl : FileChain v u (getCluster (slotOf v s p)) l) (hl' : FileChain v u (o.first v u) l') :
    l.Disjoint l' := by
  obtain ⟨l₁, hl₁, -, hapart⟩ := h.own_chain
  rw [hl.unique hl₁]
  exact hapart o l' ho hne (h.chain_reflected ho hne hl')

/-- The volume stays sound. -/
theorem sound_kept : Sound v u := by
  have hown : (Owner.slot p).first v u = getCluster (slotOf v s p) := h.first_kept h.reach
  constructor
  · intro o ho
    have ho := h.exists_kept.mp ho
    by_cases hop : o = .slot p
    · obtain ⟨l, hl, hle, -⟩ := h.own_chain
      exact ⟨l, by rwa [hop, hown], hle⟩
    · obtain ⟨l, hl, hle⟩ := h.sound.chain o ho
      exact ⟨l, by rw [h.first_kept ho]; exact h.chain_kept ho hop hl, hle⟩
  · intro o o' l l' ho ho' hne hl hl'
    have ho := h.exists_kept.mp ho
    have ho' := h.exists_kept.mp ho'
    by_cases hop : o = .slot p
    · rw [hop, hown] at hl
      exact h.own_disjoint ho' (fun heq => hne (hop.trans heq.symm)) hl hl'
    · by_cases hop' : o' = .slot p
      · rw [hop', hown] at hl'
        exact (h.own_disjoint ho hop hl' hl).symm
      · exact h.sound.disjoint o o' l l' ho ho' hne (h.chain_reflected ho hop hl)
          (h.chain_reflected ho' hop' hl')

/-- The written file's directory lies outside of every other file. -/
theorem place_not_cluster (hq : Reach v s q) (hqfile : isDirectory (slotOf v s q) = false)
    (hl : FileChain v s (getCluster (slotOf v s q)) l) {c : ℕ} (hc : c ∈ l) :
    ¬ ClusterRegion v c (p.address v) := by
  intro hregion
  rcases (h.reach.dirRegion h.wellFormed).1 with hroot | ⟨o, l', c', ho, hdir, hl', hc', hregion'⟩
  · have hge := clusterRegion_ge hregion
    have hlt := hroot.2
    omega
  · have hne : o ≠ .slot q := by
      rintro rfl
      have hdir : isDirectory (slotOf v s q) = true := hdir
      rw [hqfile] at hdir
      cases hdir
    have heq := clusterRegion_unique (hl.isCluster c hc).1 (hl'.isCluster c' hc').1 hregion hregion'
    exact h.sound.disjoint o (.slot q) l' l ho hq hne hl' hl hc' (heq ▸ hc)

/-- Every other file keeps its size, its chain and its bytes. -/
theorem file_kept (hq : Reach v s q) (hqp : q ≠ p) (hqfile : isDirectory (slotOf v s q) = false) :
    slotOf v u q = slotOf v s q ∧ ∀ l, FileChain v s (getCluster (slotOf v s q)) l →
      FileChain v u (getCluster (slotOf v s q)) l ∧ chainByte v u l = chainByte v s l := by
  obtain ⟨hregion, haligned⟩ := hq.dirRegion h.wellFormed
  have hne : Owner.slot q ≠ .slot p := by simpa using hqp
  refine ⟨by rw [h.slot_kept hregion haligned, if_neg hqp], fun l hl => ?_⟩
  refine ⟨h.chain_kept (o := .slot q) hq hne hl, funext (chainByte_congr fun c hc a ha => ?_)⟩
  apply h.rewrites.alters.data
  rintro (htable | ⟨x, hx, hxa⟩ | rfl)
  · exact not_tableRegion_cluster ha htable
  · have hcx := clusterRegion_unique (hl.isCluster c hc).1 (h.touched_range hx).1 ha hxa
    exact h.not_mem_other (o := .slot q) hq hne hl hx (hcx ▸ hc)
  · exact h.place_not_cluster hq hqfile hl hc ha

/-- The root directory still ends. -/
theorem rootEnds_kept (hends : RootEnds v s) : RootEnds v u := by
  rcases hends with htype | ⟨q, hq, hmark⟩
  · exact Or.inl htype
  · obtain ⟨hregion, haligned⟩ := of_mem_rootPlaces h.wellFormed hq
    exact Or.inr ⟨q, hq, by rwa [h.slot_head_kept (Or.inl hregion) haligned (by decide)]⟩

/-- The fixed root directory ends at the same slot. -/
theorem rootEndsAt_kept {e : ℕ} (he : RootEndsAt v s e) : RootEndsAt v u e := by
  have hpos := h.wellFormed.slotsPerSector_pos
  have hkept {m : ℕ} (hm : m < v.rootDirSectors * v.slotsPerSector) :
      slotOf v u (slotPlace v v.rootStart m) 0 = slotOf v s (slotPlace v v.rootStart m) 0 := by
    have hmem : slotPlace v v.rootStart m ∈ rootPlaces v := by
      rw [rootPlaces_eq_map hpos]
      exact List.mem_map_of_mem (List.mem_range'_1.mpr ⟨Nat.zero_le m, by omega⟩)
    obtain ⟨hregion, haligned⟩ := of_mem_rootPlaces h.wellFormed hmem
    exact h.slot_head_kept (Or.inl hregion) haligned (by decide)
  have hinside := he.inside
  refine ⟨hinside, fun m hm => ?_, ?_⟩
  · rw [hkept (by omega)]
    exact he.before m hm
  · rw [hkept hinside]
    exact he.mark

/-- The slots of a directory that was scanned are its own. -/
theorem visits_dirRegion {cluster : ℕ} {rootDirectory : Bool} {vs : List Place}
    (hdir : IsDirAt v s cluster rootDirectory) (hvs : Visits v s cluster rootDirectory vs) :
    ∀ q ∈ vs, DirRegion v s (q.address v) ∧ q.Aligned v := by
  cases hvs with
  | @fixed e htype hgo he =>
    intro q hq
    obtain ⟨m, hm, rfl⟩ := List.mem_map.mp hq
    have hlt := windows_lt hm
    have hinside := he.inside
    have hmem : slotPlace v v.rootStart m ∈ rootPlaces v := by
      rw [rootPlaces_eq_map h.wellFormed.slotsPerSector_pos]
      exact List.mem_map_of_mem (List.mem_range'_1.mpr ⟨Nat.zero_le m, by omega⟩)
    obtain ⟨hregion, haligned⟩ := of_mem_rootPlaces h.wellFormed hmem
    exact ⟨Or.inl hregion, haligned⟩
  | stopped htype hstop => simp
  | @chain _ l hroot hl hle =>
    rcases hdir with ⟨rfl, rfl⟩ | ⟨rfl, d, hd, hdir, rfl⟩
    · have htype : v.fatType = .FAT32 := by simpa [fixedRoot] using hroot
      exact dirRegion_of_chain (o := .root) htype trivial hl
    · exact dirRegion_of_chain (o := .slot d) hd hdir hl

/-- Every directory is scanned as before, up to the entry of the file. -/
theorem amended : Amended v s u p (rewritten (slotOf v s p) len date time) := by
  intro cluster rootDirectory vs hdir hvs
  have hregions := h.visits_dirRegion hdir hvs
  refine ⟨?_, listing_amend (fun q hq => h.slot_kept (hregions q hq).1 (hregions q hq).2)
    (fun i hi => rewritten_apply len date time (by omega)) h.reach.listed.2⟩
  cases hvs with
  | fixed htype hgo he => exact .fixed htype hgo (h.rootEndsAt_kept he)
  | stopped htype hstop => exact .stopped htype hstop
  | @chain _ l hroot hl hle =>
    refine .chain hroot ?_ hle
    rcases hdir with ⟨rfl, rfl⟩ | ⟨rfl, d, hd, hdir, rfl⟩
    · have htype : v.fatType = .FAT32 := by simpa [fixedRoot] using hroot
      exact h.chain_kept (o := .root) htype (by simp) hl
    · exact h.chain_kept (o := .slot d) hd (h.ne_slot_of_isDir hdir) hl

end WritesFile

end Vsos.Fat
