import Vsos.Fat.Tree

/-!
# Paths lead to entries of the tree

`GetEntryByPath` searches one directory after the other. On a sound volume every search
returns the listing of a directory that can be reached, so the entry found is one that can be
reached, and its copy in memory holds the bytes of the disk. A rewritten entry is found again
under the same path.
-/

namespace Vsos.Fat

open Vsos.Lib

variable {t t' : State} {fuel : ℕ} {entry : FATEntryInfo}

/-- What the lookups rely on: sectors that the 8-bit counter can scan, reads that succeed and
table entries of whole bytes. -/
structure Searchable (v : Volume) : Prop where
  wellFormed : v.WellFormed
  slots_lt : v.slotsPerSector < 256
  read : ∀ h a, v.readStatus h a = 0
  type_ne : v.fatType ≠ .FAT12
  clusters_pos : 0 < v.totalClusters

section Visits

variable {v : Volume} {s : State} {cluster : ℕ} {rootDirectory : Bool} {vs : List Place}

/-- Every directory of a sound volume can be scanned. -/
theorem IsDirAt.visits (hv : Searchable v) (hsound : Sound v s) (hends : RootEnds v s)
    (h : IsDirAt v s cluster rootDirectory) : ∃ vs, Visits v s cluster rootDirectory vs := by
  rcases h with ⟨rfl, rfl⟩ | ⟨rfl, d, hd, hdir, rfl⟩
  · by_cases htype : v.fatType = .FAT32
    · obtain ⟨l, hl, hle⟩ := hsound.chain .root htype
      exact ⟨_, .chain (by simp [fixedRoot, htype]) hl hle⟩
    · by_cases hstop : ChainStops v v.rootDirCluster
      · exact ⟨_, .stopped htype hstop⟩
      · obtain ⟨e, he⟩ := exists_rootEndsAt hv.wellFormed.slotsPerSector_pos
          (hends.resolve_left htype)
        exact ⟨_, .fixed htype hstop he⟩
  · obtain ⟨l, hl, hle⟩ := hsound.chain (.slot d) hd
    exact ⟨_, .chain (by simp [fixedRoot]) hl hle⟩

/-- What is found in a directory can be reached. -/
theorem Visits.reach (hv : Searchable v) (h : Visits v s cluster rootDirectory vs)
    (hdir : IsDirAt v s cluster rootDirectory) {p : Place} (hp : p ∈ liveSlots v s vs) :
    Reach v s p := by
  cases h with
  | fixed htype hgo he =>
    refine .root ?_ (he.mem_liveSlots hv.wellFormed.slotsPerSector_pos hp)
    rw [IsRootSlots, if_neg htype]
  | stopped htype hstop => simp [liveSlots, slotsInUse] at hp
  | @chain _ l hroot hl hle =>
    rcases hdir with ⟨rfl, rfl⟩ | ⟨rfl, d, hd, hdir, rfl⟩
    · have htype : v.fatType = .FAT32 := by simpa [fixedRoot] using hroot
      refine .root ?_ hp
      rw [IsRootSlots, if_pos htype]
      exact ⟨l, hl, rfl⟩
    · exact .child hd hdir hl hp

/-- The listing depends on the disk. -/
theorem listing_of_data (h : t.data = s.data) : listing v t = listing v s := by
  have hslot : slotOf v t = slotOf v s := by
    funext p
    rw [slotOf, slotOf, h]
  funext ps
  rw [listing, listing, scanPlaces, scanPlaces, hslot]

section

variable (hv : Searchable v) (h : Visits v s cluster rootDirectory vs) (ht : t.data = s.data)
include hv h ht

/-- The scan of a directory returns its listing. -/
theorem Visits.returns :
    ∃ t', Returns (fun n => getDirectoryEntries v n cluster rootDirectory) t (listing v s vs) t' ∧
      t'.data = s.data := by
  rw [← listing_of_data ht]
  cases h with
  | @fixed e htype hgo he =>
    have he' : RootEndsAt v t e := by
      refine ⟨he.inside, fun m hm => ?_, ?_⟩
      · rw [slotOf, ht]
        exact he.before m hm
      · rw [slotOf, ht]
        exact he.mark
    obtain ⟨t', hret, hreads⟩ := he'.getDirectoryEntries_root hv.wellFormed hv.slots_lt hv.read
      hv.clusters_pos htype hgo
    exact ⟨t', hret, hreads.data.trans ht⟩
  | stopped htype hstop =>
    refine ⟨t, ⟨1, fun n hn => ?_⟩, ht⟩
    obtain ⟨n, rfl⟩ := Nat.exists_eq_succ_of_ne_zero (show n ≠ 0 by omega)
    simp only [getDirectoryEntries, getDirectoryLoop]
    rw [if_pos hstop]
    rfl
  | @chain _ l hroot hl hle =>
    have hlinks : links v t = links v s := hv.wellFormed.links_eq fun a _ => by rw [ht]
    have hl' : FileChain v t cluster l := hl.congr fun c _ => by rw [hlinks]
    obtain ⟨t', hret, hreads⟩ := getDirectoryEntries_chain hv.wellFormed.blockSize_eq hv.slots_lt
      hv.read hv.wellFormed hroot
      (hl'.walks hv.wellFormed (wholeEntries_of_type hv.type_ne) hle) hl'.isCluster
    exact ⟨t', hret, hreads.data.trans ht⟩

/-- A search in a directory that returns has searched the listing. -/
theorem Visits.search {name : List UInt8} {found : Option FATEntryInfo}
    (hrun : (seachInDirectory v fuel name cluster rootDirectory).run t = .ok found t') :
    found = (listing v s vs).find? (fun item => item.filename = name) ∧ t'.data = s.data := by
  obtain ⟨u, ⟨n, hn⟩, hu⟩ := h.returns hv ht
  obtain ⟨items, t'', hget, hend⟩ := bind_eq_ok.mp hrun
  have hlarge := getDirectoryLoop_stable v rootDirectory (le_max_left fuel n) (le_max_left fuel n) hget
  have heq := hlarge.symm.trans (hn _ (le_max_right fuel n))
  injection heq with hitems hstate
  injection hend with hfound hstate'
  subst hitems hstate hstate'
  exact ⟨hfound.symm, hu⟩

/-- A search in a directory returns. -/
theorem Visits.search_returns (name : List UInt8) :
    ∃ t', Returns (fun n => seachInDirectory v n name cluster rootDirectory) t
      ((listing v s vs).find? fun item => item.filename = name) t' ∧ t'.data = s.data := by
  obtain ⟨u, hret, hu⟩ := h.returns hv ht
  exact ⟨u, Returns.bind hret (Returns.of_run rfl), hu⟩

end

end Visits

section Path

variable {v : Volume} {s : State}

/-- The parts of a path lead to an entry that can be reached. -/
theorem walkPath_reach (hv : Searchable v) (hsound : Sound v s) (hends : RootEnds v s)
    {parts : List (List UInt8)} {cluster : ℕ} {rootDirectory : Bool}
    (hdir : IsDirAt v s cluster rootDirectory) (ht : t.data = s.data)
    (hrun : (walkPath v fuel parts cluster rootDirectory).run t = .ok (some entry) t') :
    Reach v s entry.place ∧ entry.entry = slotOf v s entry.place := by
  induction parts generalizing cluster rootDirectory t with
  | nil => cases hrun
  | cons part rest ih =>
    obtain ⟨vs, hvs⟩ := hdir.visits hv hsound hends
    obtain ⟨found, t₁, hsearch, hrest⟩ := bind_eq_ok.mp hrun
    obtain ⟨hfound, ht₁⟩ := hvs.search hv ht hsearch
    cases found with
    | none => cases hrest
    | some item =>
      obtain ⟨hlive, hentry⟩ := of_mem_listing (List.mem_of_find?_eq_some hfound.symm)
      have hreach := hvs.reach hv hdir hlive
      dsimp only at hrest
      split at hrest
      · cases hrest
        exact ⟨hreach, hentry⟩
      · split at hrest
        · next hisdir =>
          rw [hentry] at hisdir
          exact ih (Or.inr ⟨rfl, item.place, hreach, hisdir, by rw [hentry]⟩) ht₁ hrest
        · cases hrest

/-- A path leads to an entry that can be reached. -/
theorem getEntryByPath_reach (hv : Searchable v) (hsound : Sound v s) (hends : RootEnds v s)
    {path : List UInt8} (hres : Returns (fun n => getEntryByPath v n path) s (some entry) t) :
    Reach v s entry.place ∧ entry.entry = slotOf v s entry.place := by
  obtain ⟨n, hn⟩ := hres
  have hrun := hn n (le_refl n)
  have hdir : IsDirAt v s v.rootDirCluster true := Or.inl ⟨rfl, rfl⟩
  simp only [getEntryByPath] at hrun
  split at hrun
  · obtain ⟨vs, hvs⟩ := hdir.visits hv hsound hends
    obtain ⟨hfound, -⟩ := hvs.search hv rfl hrun
    obtain ⟨hlive, hentry⟩ := of_mem_listing (List.mem_of_find?_eq_some hfound.symm)
    exact ⟨hvs.reach hv hdir hlive, hentry⟩
  · exact walkPath_reach hv hsound hends hdir rfl hrun

/-- What stays of the directories when the entry at `p` is rewritten to `new`: each is scanned as
before, and its listing is amended. -/
def Amended (v : Volume) (s u : State) (p : Place) (new : Bytes) : Prop :=
  ∀ cluster rootDirectory vs, IsDirAt v s cluster rootDirectory →
    Visits v s cluster rootDirectory vs → Visits v u cluster rootDirectory vs ∧
      listing v u vs = (listing v s vs).map (amend p new)

/-- Names are looked up alike in an amended listing. -/
theorem find?_amend (p : Place) (new : Bytes) (items : List FATEntryInfo) (name : List UInt8) :
    (items.map (amend p new)).find? (fun item => item.filename = name) =
      (items.find? fun item => item.filename = name).map (amend p new) := by
  rw [List.find?_map]
  congr 2
  funext item
  simp [amend_filename]

variable {u : State} {p : Place} {new : Bytes}

section

variable (hv : Searchable v) (hsound : Sound v s) (hends : RootEnds v s)
  (hamended : Amended v s u p new) (hfile : isDirectory (slotOf v s p) = false)
include hv hsound hends hamended hfile

/-- The parts of a path lead to the amended entry. -/
theorem walkPath_amend {parts : List (List UInt8)} {cluster : ℕ} {rootDirectory : Bool}
    (hdir : IsDirAt v s cluster rootDirectory) {t₂ : State} (ht : t.data = s.data)
    (ht₂ : t₂.data = u.data)
    (hrun : (walkPath v fuel parts cluster rootDirectory).run t = .ok (some entry) t') :
    ∃ t₃, Returns (fun n => walkPath v n parts cluster rootDirectory) t₂
      (some (amend p new entry)) t₃ := by
  induction parts generalizing cluster rootDirectory t t₂ with
  | nil => cases hrun
  | cons part rest ih =>
    obtain ⟨vs, hvs⟩ := hdir.visits hv hsound hends
    obtain ⟨hvs', hlisting⟩ := hamended _ _ _ hdir hvs
    obtain ⟨found, t₁, hsearch, hrest⟩ := bind_eq_ok.mp hrun
    obtain ⟨hfound, ht₁⟩ := hvs.search hv ht hsearch
    obtain ⟨w, hret, hw⟩ := hvs'.search_returns hv ht₂ part
    rw [hlisting, find?_amend, ← hfound] at hret
    cases found with
    | none => cases hrest
    | some item =>
      obtain ⟨hlive, hentry⟩ := of_mem_listing (List.mem_of_find?_eq_some hfound.symm)
      have hreach := hvs.reach hv hdir hlive
      dsimp only at hrest
      split at hrest
      · next hlast =>
        cases hrest
        refine ⟨w, Returns.bind hret ⟨0, fun n _ => ?_⟩⟩
        simp [hlast]
      · next hmore =>
        split at hrest
        · next hisdir =>
          have hother : amend p new item = item := by
            apply if_neg
            rintro rfl
            rw [hentry, hfile] at hisdir
            cases hisdir
          have hisdir' := hisdir
          rw [hentry] at hisdir'
          obtain ⟨t₃, hret'⟩ := ih (Or.inr ⟨rfl, item.place, hreach, hisdir', by rw [hentry]⟩) ht₁ hw hrest
          refine ⟨t₃, Returns.bind hret ?_⟩
          simp only [Option.map_some, hother, hmore, if_false, hisdir, if_true]
          exact hret'
        · cases hrest

/-- A path leads to the amended entry. -/
theorem getEntryByPath_amend {path : List UInt8}
    (hres : Returns (fun n => getEntryByPath v n path) s (some entry) t) :
    ∃ t', Returns (fun n => getEntryByPath v n path) u (some (amend p new entry)) t' := by
  obtain ⟨n, hn⟩ := hres
  have hrun := hn n (le_refl n)
  have hdir : IsDirAt v s v.rootDirCluster true := Or.inl ⟨rfl, rfl⟩
  simp only [getEntryByPath] at hrun ⊢
  split at hrun
  · next hparts =>
    obtain ⟨vs, hvs⟩ := hdir.visits hv hsound hends
    obtain ⟨hvs', hlisting⟩ := hamended _ _ _ hdir hvs
    obtain ⟨hfound, -⟩ := hvs.search hv rfl hrun
    obtain ⟨w, hret, -⟩ := hvs'.search_returns hv rfl path
    rw [hlisting, find?_amend, ← hfound] at hret
    simp only [hparts, if_true]
    exact ⟨w, hret⟩
  · next hparts =>
    simp only [hparts, if_false]
    exact walkPath_amend hv hsound hends hamended hfile hdir rfl rfl hrun

end

end Path

end Vsos.Fat
