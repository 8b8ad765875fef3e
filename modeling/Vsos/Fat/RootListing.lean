import Vsos.Fat.Tree

/-!
# The listing of a fixed root directory

`GetDirectoryEntries` scans a fixed root directory through a window of as many sectors as a
cluster has, and moves the window on by one sector. Sectors that lie in two windows are scanned
twice, and only a slot that starts with 0 ends the scan. The listing is the one of the root
directory if the region holds an end mark and no entry lies in a sector that is scanned twice.
-/

namespace Vsos.Fat

open Vsos.Lib

variable {v : Volume} {s t : State} {fuel k n sector : ℕ} {sc : Scan} {result : List FATEntryInfo}

/-! ## Which slots are visited twice -/

section Windows

variable {perSector count e : ℕ}

/-- The slots in front of the end mark that a window contains are visited. -/
theorem mem_windows {width m : ℕ} (hlow : k * perSector ≤ m) (hhigh : m < k * perSector + width)
    (he : m < e) : m ∈ windows perSector width e (n + 1) k := by
  rw [windows]
  split
  · exact List.mem_range'_1.mpr ⟨hlow, by omega⟩
  · exact List.mem_append_left _ (List.mem_range'_1.mpr ⟨hlow, hhigh⟩)

/-- Through windows without entries in the sectors that are scanned twice, the entries are met in
order and once. -/
theorem windows_filter {p : ℕ → Bool} (hpos : 0 < perSector) (hcount : 0 < count)
    (hp : count = 1 ∨ ∀ m < e, p m = true → m < perSector ∨ e / perSector * perSector ≤ m)
    (hk : k * perSector ≤ e) (hn : e / perSector < n + k) :
    (windows perSector (count * perSector) e n k).filter p =
      (List.range' (k * perSector) (e - k * perSector)).filter p := by
  induction n generalizing k with
  | zero =>
    have := (Nat.le_div_iff_mul_le hpos).mpr hk
    omega
  | succ n ih =>
    rw [windows]
    split
    · rfl
    · next hlast =>
      have hwidth : perSector ≤ count * perSector := Nat.le_mul_of_pos_left _ hcount
      -- the window ends in front of the sector of the end mark
      have hend : k * perSector + count * perSector ≤ e / perSector * perSector := by
        rw [← Nat.add_mul]
        apply Nat.mul_le_mul_right
        rw [Nat.le_div_iff_mul_le hpos, Nat.add_mul]
        omega
      have hwindow : (List.range' (k * perSector) (count * perSector)).filter p =
          (List.range' (k * perSector) perSector).filter p := by
        obtain ⟨d, hd⟩ := Nat.exists_eq_add_of_le hwidth
        have hrest : (List.range' (k * perSector + perSector) d).filter p = [] := by
          rw [List.filter_eq_nil_iff]
          intro m hm hpm
          have hm := List.mem_range'_1.mp hm
          rcases hp with hone | hp
          · rw [hone] at hd
            omega
          · rcases hp m (by omega) hpm with hlt | hge <;> omega
        rw [hd, ← List.range'_append_1, List.filter_append, hrest, List.append_nil]
      have hsplit : e - k * perSector = perSector + (e - (k + 1) * perSector) := by
        rw [Nat.succ_mul]
        omega
      rw [List.filter_append, hwindow, ih (by rw [Nat.succ_mul]; omega) (by omega), hsplit,
        ← List.range'_append_1, List.filter_append, Nat.succ_mul]

/-- A slot of a sector that lies in two windows is visited twice. -/
theorem two_le_count_windows {m : ℕ} (hpos : 0 < perSector) (hcount : 2 ≤ count)
    (hlow : perSector ≤ m) (hhigh : m < e / perSector * perSector) (hfar : count ≤ e / perSector)
    (hk : k + count ≤ m / perSector + 1 ∨ k = 0) (hn : e / perSector < n + k) :
    2 ≤ (windows perSector (count * perSector) e n k).count m := by
  have he : e / perSector * perSector ≤ e := Nat.div_mul_le_self e perSector
  have hm : m / perSector < e / perSector := (Nat.div_lt_iff_lt_mul hpos).mpr hhigh
  have hm' : 1 ≤ m / perSector := (Nat.le_div_iff_mul_le hpos).mpr (by omega)
  induction n generalizing k with
  | zero => omega
  | succ n ih =>
    have hstep : (k + count) * perSector ≤ e / perSector * perSector :=
      Nat.mul_le_mul_right _ (by omega)
    rw [Nat.add_mul] at hstep
    rw [windows, if_neg (by omega), List.count_append]
    by_cases hnext : k + 1 + count ≤ m / perSector + 1
    · have := ih (Or.inl hnext) (by omega)
      omega
    · -- the slot lies in this window and in the next one
      have hhere : m ∈ List.range' (k * perSector) (count * perSector) := by
        rw [List.mem_range'_1, ← Nat.add_mul]
        refine ⟨(Nat.le_div_iff_mul_le hpos).mp ?_, (Nat.div_lt_iff_lt_mul hpos).mp ?_⟩ <;> omega
      have hthere : m ∈ windows perSector (count * perSector) e n (k + 1) := by
        obtain ⟨n, rfl⟩ := Nat.exists_eq_succ_of_ne_zero (show n ≠ 0 by omega)
        refine mem_windows ((Nat.le_div_iff_mul_le hpos).mp ?_) ?_ (by omega)
        · omega
        · rw [← Nat.add_mul]
          exact (Nat.div_lt_iff_lt_mul hpos).mp (by omega)
      have := List.count_pos_iff.mpr hhere
      have := List.count_pos_iff.mpr hthere
      omega

end Windows

/-! ## Which sectors are read -/

/-- A sector without an end mark. -/
def Unmarked (v : Volume) (s : State) (sector : ℕ) : Prop :=
  ∀ p ∈ sectorPlaces v sector, slotOf v s p 0 ≠ entryEnd

section Reads

variable (hblock : v.blockSize = v.bytesPerSector) (hslots : v.slotsPerSector < 256)
  (hread : ∀ h a, v.readStatus h a = 0)
include hblock hslots hread

/-- The scan of consecutive sectors reads them up to the first one with an end mark. -/
theorem mem_events_scanSectors {i budget : ℕ}
    (haddress : ∀ k, i ≤ k → k < i + n → Addressable v (sector + k))
    (hbudget : v.slotsPerSector < budget) (sc : Scan) (s : State) (a : ℕ) :
    Event.readSector a ∈ eventsSince s (final ((scanSectors v budget sector n i sc).run s)) ↔
      ∃ k, i ≤ k ∧ k < i + n ∧ a = v.startLBA + (sector + k) ∧
        ∀ j, i ≤ j → j < k → Unmarked v s (sector + j) := by
  induction n generalizing i sc s with
  | zero =>
    constructor
    · intro h
      simp [scanSectors, eventsSince] at h
    · rintro ⟨k, hlow, hhigh, -⟩
      omega
  | succ n ih =>
    have hi := haddress i (le_refl i) (by omega)
    have hfirst : eventsSince s (s.afterRead v (v.startLBA + (sector + i))) =
        [.readSector (v.startLBA + (sector + i))] := eventsSince_eq rfl
    -- the sector is read, and those behind it unless it holds an end mark
    have hhere : a = v.startLBA + (sector + i) → ∃ k, i ≤ k ∧ k < i + (n + 1) ∧
        a = v.startLBA + (sector + k) ∧ ∀ j, i ≤ j → j < k → Unmarked v s (sector + j) :=
      fun ha => ⟨i, le_refl i, by omega, ha, fun j hj hj' => absurd hj' (by omega)⟩
    rw [scanSectors_succ_run hblock hslots hread hi hbudget]
    cases hscan : scanPlaces v s (sectorPlaces v (sector + i)) sc with
    | inr sc' =>
      have hmarked : ¬ Unmarked v s (sector + i) := by
        rw [Unmarked, ← scanPlaces_isLeft_iff sc, hscan]
        simp
      simp only [final_ok, hfirst, List.mem_singleton, Event.readSector.injEq]
      refine ⟨hhere, ?_⟩
      rintro ⟨k, hlow, -, ha, hbefore⟩
      by_cases hk : k = i
      · rw [ha, hk]
      · exact absurd (hbefore i (le_refl i) (by omega)) hmarked
    | inl sc' =>
      have hunmarked : Unmarked v s (sector + i) := by
        rw [Unmarked, ← scanPlaces_isLeft_iff sc, hscan]
        rfl
      have hreads := reads_afterRead v s (v.startLBA + (sector + i))
      have hslot : Unmarked v (s.afterRead v (v.startLBA + (sector + i))) = Unmarked v s := by
        funext k
        rw [Unmarked, Unmarked, slotOf_of_reads hreads]
      obtain ⟨t, hrun, hreads'⟩ := scanSectors_run hblock hslots hread (n := n) (i := i + 1)
        (fun k hk hk' => haddress k (by omega) (by omega)) hbudget sc'
        (s.afterRead v (v.startLBA + (sector + i)))
      have ih := ih (i := i + 1) (fun k hk hk' => haddress k (by omega) (by omega)) sc'
        (s.afterRead v (v.startLBA + (sector + i)))
      simp only [hrun, final_ok, hslot] at ih ⊢
      rw [hreads.eventsSince_append hreads', List.mem_append, ih, hfirst, List.mem_singleton,
        Event.readSector.injEq]
      constructor
      · rintro (⟨k, hlow, hhigh, ha, hbefore⟩ | ha)
        · refine ⟨k, by omega, by omega, ha, fun j hj hj' => ?_⟩
          rcases Nat.lt_or_ge i j with hlt | hge
          · exact hbefore j hlt hj'
          · rwa [show j = i by omega]
        · exact hhere ha
      · rintro ⟨k, hlow, hhigh, ha, hbefore⟩
        rcases Nat.lt_or_ge i k with hlt | hge
        · exact Or.inl ⟨k, hlt, by omega, ha, fun j hj hj' => hbefore j (by omega) hj'⟩
        · exact Or.inr (by rw [ha, show k = i by omega])

end Reads

/-- The sector of an end mark. -/
theorem RootEndsAt.not_unmarked (hpos : 0 < v.slotsPerSector) {e : ℕ} (h : RootEndsAt v s e) :
    ¬ Unmarked v s (v.rootStart + e / v.slotsPerSector) := by
  intro hunmarked
  refine hunmarked (slotPlace v v.rootStart e) ?_ h.mark
  exact List.mem_map.mpr ⟨e % v.slotsPerSector, List.mem_range.mpr (Nat.mod_lt e hpos), rfl⟩

section Root

variable (hwf : v.WellFormed) (hslots : v.slotsPerSector < 256) (hread : ∀ h a, v.readStatus h a = 0)
  (hclusters : 0 < v.totalClusters) {rootDirectory : Bool} (hroot : fixedRoot v rootDirectory = true)
  {budget cluster : ℕ} (hbudget : v.slotsPerSector < budget)
include hwf hslots hread hclusters hroot hbudget

section

variable (hgo : ¬ ChainStops v cluster)
include hgo

/-- One window of the scan: the rest of the run, and the sectors it has read. -/
theorem getDirectoryLoop_window (hk : k ≤ v.rootDirSectors)
    (hstart : scanStart v rootDirectory sector cluster = v.rootStart + k)
    (hrun : (getDirectoryLoop v rootDirectory budget (fuel + 1) sector cluster sc).run s =
      .ok result t) :
    ∃ u, Reads v s u ∧ Reads v u t ∧
      (∀ a, Event.readSector a ∈ eventsSince s u ↔ ∃ j < v.sectorsPerCluster,
        a = v.startLBA + (v.rootStart + k + j) ∧ ∀ i < j, Unmarked v s (v.rootStart + k + i)) ∧
      (u = t ∧ (∃ j < v.sectorsPerCluster, ¬ Unmarked v s (v.rootStart + k + j)) ∨
        (∀ j < v.sectorsPerCluster, Unmarked v s (v.rootStart + k + j)) ∧
          ∃ sc', (getDirectoryLoop v rootDirectory budget fuel (wrap32 (v.rootStart + k + 1)) cluster
            sc').run u = .ok result t) := by
  have haddress := fun j (_ : 0 ≤ j) (hj : j < 0 + v.sectorsPerCluster) =>
    addressable_window hwf hclusters hk j (by omega)
  obtain ⟨u, hscan, hreads⟩ := scanSectors_run hwf.blockSize_eq hslots hread haddress hbudget sc s
  have hevents := mem_events_scanSectors hwf.blockSize_eq hslots hread haddress hbudget sc s
  have hunmarked : (∀ p ∈ runPlaces v (v.rootStart + k) 0 v.sectorsPerCluster,
      slotOf v s p 0 ≠ entryEnd) ↔ ∀ j < v.sectorsPerCluster, Unmarked v s (v.rootStart + k + j) := by
    simp only [runPlaces, List.forall_mem_flatMap, List.mem_range'_1, Nat.zero_le, true_and, Nat.zero_add]
    rfl
  have hreadSet : ∀ a, Event.readSector a ∈ eventsSince s u ↔ ∃ j < v.sectorsPerCluster,
      a = v.startLBA + (v.rootStart + k + j) ∧ ∀ i < j, Unmarked v s (v.rootStart + k + i) := by
    intro a
    have h := hevents a
    rw [hscan, final_ok] at h
    simpa only [Nat.zero_le, true_and, Nat.zero_add, forall_const] using h
  rw [getDirectoryLoop, if_neg hgo] at hrun
  simp only [hstart, hroot, if_true] at hrun
  rw [bind_of_ok hscan] at hrun
  cases hsc : scanPlaces v s (runPlaces v (v.rootStart + k) 0 v.sectorsPerCluster) sc with
  | inr sc' =>
    rw [hsc] at hrun
    cases hrun
    refine ⟨_, hreads, Observes.refl v _ _, hreadSet, Or.inl ⟨rfl, ?_⟩⟩
    by_contra hnone
    push Not at hnone
    rw [← hunmarked, ← scanPlaces_isLeft_iff sc, hsc] at hnone
    cases hnone
  | inl sc' =>
    rw [hsc] at hrun
    have hrest := (readsOnly_getDirectoryLoop (v := v) rootDirectory budget fuel
      (wrap32 (v.rootStart + k + 1)) cluster sc').keeps u
    rw [hrun] at hrest
    refine ⟨u, hreads, hrest, hreadSet, Or.inr ⟨?_, sc', hrun⟩⟩
    rw [← hunmarked, ← scanPlaces_isLeft_iff sc, hsc]
    rfl

/-- Up to its end mark the scan stays in the sectors in front of it. -/
theorem getDirectoryLoop_reads_before {e : ℕ} (he : RootEndsAt v s e)
    (hk : k ≤ e / v.slotsPerSector)
    (hstart : scanStart v rootDirectory sector cluster = v.rootStart + k)
    (hrun : (getDirectoryLoop v rootDirectory budget fuel sector cluster sc).run s = .ok result t)
    {a : ℕ} (ha : Event.readSector a ∈ eventsSince s t) :
    ∃ m ≤ e / v.slotsPerSector, a = v.startLBA + (v.rootStart + m) := by
  have hpos := hwf.slotsPerSector_pos
  have hmarked := he.not_unmarked hpos
  have hlast : e / v.slotsPerSector < v.rootDirSectors := (Nat.div_lt_iff_lt_mul hpos).mpr he.inside
  induction fuel generalizing sector k s sc with
  | zero => cases hrun
  | succ fuel ih =>
    obtain ⟨u, hreads, hreads', hset, hnext⟩ := getDirectoryLoop_window hwf hslots hread hclusters hroot
      hbudget hgo (by omega) hstart hrun
    rw [hreads.eventsSince_append hreads', List.mem_append] at ha
    rcases ha with ha | ha
    · rcases hnext with ⟨rfl, -⟩ | ⟨hall, sc', hrun'⟩
      · simp [eventsSince] at ha
      · have hslot : slotOf v u = slotOf v s := slotOf_of_reads hreads
        have hsector : k + v.sectorsPerCluster ≤ e / v.slotsPerSector := by
          by_contra hlt
          apply hmarked
          have hj := hall (e / v.slotsPerSector - k) (by omega)
          rwa [Nat.add_assoc, Nat.add_sub_cancel' hk] at hj
        have hspc := v.sectorsPerCluster_pos
        refine ih ⟨he.inside, ?_, ?_⟩ (by omega)
          (scanStart_next hwf hroot (by omega) cluster) hrun' ha ?_
        · rw [hslot]
          exact he.before
        · rw [hslot]
          exact he.mark
        · rwa [Unmarked, hslot]
    · obtain ⟨j, -, rfl, hbefore⟩ := (hset a).mp ha
      refine ⟨k + j, ?_, by rw [Nat.add_assoc]⟩
      by_contra hlt
      apply hmarked
      have hj := hbefore (e / v.slotsPerSector - k) (by omega)
      rwa [Nat.add_assoc, Nat.add_sub_cancel' hk] at hj

/-- Without an end mark the scan reads the sector behind the root directory. -/
theorem getDirectoryLoop_reads_behind
    (hall : ∀ j < v.rootDirSectors, Unmarked v s (v.rootStart + j)) (hk : k ≤ v.rootDirSectors)
    (hstart : scanStart v rootDirectory sector cluster = v.rootStart + k)
    (hrun : (getDirectoryLoop v rootDirectory budget fuel sector cluster sc).run s = .ok result t) :
    Event.readSector (v.startLBA + v.firstDataSector) ∈ eventsSince s t := by
  induction fuel generalizing sector k s sc with
  | zero => cases hrun
  | succ fuel ih =>
    obtain ⟨u, hreads, hreads', hset, hnext⟩ := getDirectoryLoop_window hwf hslots hread hclusters hroot
      hbudget hgo hk hstart hrun
    rw [hreads.eventsSince_append hreads', List.mem_append]
    by_cases hwindow : v.rootDirSectors < k + v.sectorsPerCluster
    · -- the window reaches over the end of the region
      refine Or.inr ((hset _).mpr ⟨v.rootDirSectors - k, by omega, ?_, fun i hi => ?_⟩)
      · rw [Nat.add_assoc, Nat.add_sub_cancel' hk, hwf.rootStart_add]
      · rw [Nat.add_assoc]
        exact hall (k + i) (by omega)
    · rcases hnext with ⟨-, j, hj, hmarked⟩ | ⟨-, sc', hrun'⟩
      · rw [Nat.add_assoc] at hmarked
        exact absurd (hall (k + j) (by omega)) hmarked
      · have hslot : slotOf v u = slotOf v s := slotOf_of_reads hreads
        have hspc := v.sectorsPerCluster_pos
        refine Or.inl (ih (fun j hj => ?_) (by omega)
          (scanStart_next hwf hroot (by omega) cluster) hrun')
        rw [Unmarked, hslot]
        exact hall j hj

end

end Root

/-! ## The listing -/

/-- The live entries of the root directory are returned in order and once each, with their bytes, and
no sector outside of the root directory is read. -/
structure ListsRoot (v : Volume) (s : State) (result : List FATEntryInfo) (t : State) : Prop where
  entries : result.map (fun item => (item.place, item.entry)) =
    (liveSlots v s (rootPlaces v)).map fun p => (p, slotOf v s p)
  reads : ∀ a, Event.readSector a ∈ eventsSince s t → RootRegion v a

/-- No entry lies in a sector that is scanned twice: the sectors between the first one and the one
with the end mark, unless a window has a single sector or the first window reaches the end mark. -/
def ScannedOnce (v : Volume) (s : State) (e : ℕ) : Prop :=
  v.sectorsPerCluster = 1 ∨ e / v.slotsPerSector < v.sectorsPerCluster ∨
    ∀ m, v.slotsPerSector ≤ m → m < e / v.slotsPerSector * v.slotsPerSector →
      ¬ Listed (slotOf v s (slotPlace v v.rootStart m))

/-- Slots with different numbers are different places. -/
theorem slotPlace_injective (sector : ℕ) : Function.Injective (slotPlace v sector) := by
  intro m m' heq
  simp only [slotPlace, Place.mk.injEq] at heq
  rw [← Nat.div_add_mod m v.slotsPerSector, ← Nat.div_add_mod m' v.slotsPerSector]
  have hdiv : m / v.slotsPerSector = m' / v.slotsPerSector := by omega
  have hmod : m % v.slotsPerSector = m' % v.slotsPerSector := by omega
  rw [hdiv, hmod]

/-- The entries that the scan visits, by their numbers. -/
theorem RootEndsAt.liveSlots_rootVisits {e : ℕ} (h : RootEndsAt v s e) :
    liveSlots v s (rootVisits v e) =
      ((windows v.slotsPerSector (v.sectorsPerCluster * v.slotsPerSector) e
        (e + v.slotsPerSector + 1) 0).filter fun m =>
          Listed (slotOf v s (slotPlace v v.rootStart m))).map (slotPlace v v.rootStart) := by
  have huse : slotsInUse v s (rootVisits v e) = rootVisits v e := by
    rw [slotsInUse, List.takeWhile_eq_self_iff]
    intro p hp
    obtain ⟨m, hm, rfl⟩ := List.mem_map.mp hp
    simpa using h.before m (windows_lt hm)
  rw [liveSlots, huse, rootVisits, List.filter_map]
  rfl

section Entries

variable {e : ℕ} (h : RootEndsAt v s e) (hpos : 0 < v.slotsPerSector)
include h hpos

/-- The entries of the root directory, by their numbers. -/
theorem RootEndsAt.liveSlots_rootPlaces :
    liveSlots v s (rootPlaces v) =
      ((List.range' 0 e).filter fun m =>
        Listed (slotOf v s (slotPlace v v.rootStart m))).map (slotPlace v v.rootStart) := by
  rw [liveSlots, h.slotsInUse_eq hpos, List.filter_map]
  rfl

/-- The scan visits the entries in order and once each exactly if none is scanned twice. -/
theorem RootEndsAt.liveSlots_eq_iff :
    liveSlots v s (rootVisits v e) = liveSlots v s (rootPlaces v) ↔ ScannedOnce v s e := by
  have hspc := v.sectorsPerCluster_pos
  have hfuel : e / v.slotsPerSector < e + v.slotsPerSector + 1 + 0 :=
    lt_of_le_of_lt (Nat.div_le_self e _) (by omega)
  rw [h.liveSlots_rootVisits, h.liveSlots_rootPlaces hpos]
  constructor
  · intro heq
    rw [(List.map_injective_iff.mpr (slotPlace_injective v.rootStart)).eq_iff] at heq
    by_contra hnot
    simp only [ScannedOnce, not_or, not_forall, not_not] at hnot
    obtain ⟨hone, hfar, m, hlow, hhigh, hlisted⟩ := hnot
    have htwo := two_le_count_windows hpos (show 2 ≤ v.sectorsPerCluster by omega) hlow hhigh
      (by omega) (Or.inr rfl) hfuel
    have hcount := congrArg (List.count m) heq
    rw [List.count_filter (by simpa using hlisted), List.count_filter (by simpa using hlisted)] at hcount
    have hle : (List.range' 0 e).count m ≤ 1 := List.nodup_iff_count_le_one.mp List.nodup_range' m
    omega
  · intro honce
    congr 1
    by_cases hnear : e / v.slotsPerSector < v.sectorsPerCluster
    · have hlt : e < 0 * v.slotsPerSector + v.sectorsPerCluster * v.slotsPerSector := by
        rw [Nat.zero_mul, Nat.zero_add]
        exact (Nat.div_lt_iff_lt_mul hpos).mp hnear
      rw [windows, if_pos hlt, Nat.zero_mul, Nat.sub_zero]
    · have hfilter := windows_filter
        (p := fun m => Listed (slotOf v s (slotPlace v v.rootStart m))) hpos hspc ?_ (by omega) hfuel
      · rwa [Nat.zero_mul] at hfilter
      · rcases honce with hone | hlt | hnone
        · exact Or.inl hone
        · exact absurd hlt hnear
        · refine Or.inr fun m hm hlisted => ?_
          by_contra hout
          push Not at hout
          exact hnone m hout.1 hout.2 (by simpa using hlisted)

end Entries

/-- The content of a root directory that `GetDirectoryEntries` lists right. -/
def RootListable (v : Volume) (s : State) : Prop :=
  if ChainStops v v.rootDirCluster then liveSlots v s (rootPlaces v) = []
  else ∃ e, RootEndsAt v s e ∧ ScannedOnce v s e

section Listing

variable (hwf : v.WellFormed) (hslots : v.slotsPerSector < 256) (hread : ∀ h a, v.readStatus h a = 0)
  (hclusters : 0 < v.totalClusters) (htype : v.fatType ≠ .FAT32)
include hwf hslots hread hclusters htype

/-- A root directory without an end mark is read beyond its end, if the call returns at all. -/
theorem exists_rootEndsAt_of_returns (hgo : ¬ ChainStops v v.rootDirCluster)
    (hrun : Returns (fun n => getDirectoryEntries v n v.rootDirCluster true) s result t)
    (hreads : ∀ a, Event.readSector a ∈ eventsSince s t → RootRegion v a) :
    ∃ e, RootEndsAt v s e := by
  have hpos := hwf.slotsPerSector_pos
  have hroot : fixedRoot v true = true := by simp [fixedRoot, htype]
  by_contra hnone
  have hall : ∀ j < v.rootDirSectors, Unmarked v s (v.rootStart + j) := by
    intro j hj p hp hmark
    refine hnone (exists_rootEndsAt hpos ⟨p, ?_, hmark⟩)
    exact List.mem_flatMap.mpr ⟨j, List.mem_range'_1.mpr ⟨Nat.zero_le j, by omega⟩, hp⟩
  obtain ⟨n, hn⟩ := hrun
  have hbehind := getDirectoryLoop_reads_behind hwf hslots hread hclusters hroot
    (show v.slotsPerSector < max n 256 by omega) hgo hall (Nat.zero_le _)
    (scanStart_root hwf hroot _) (hn (max n 256) (le_max_left _ _))
  have := (hreads _ hbehind).2
  omega

end Listing

/-- The root cluster of the sample is no end mark. -/
theorem smallVolume_root_continues :
    ¬ ChainStops (smallVolume 0) (smallVolume 0).rootDirCluster := by
  decide

end Vsos.Fat
