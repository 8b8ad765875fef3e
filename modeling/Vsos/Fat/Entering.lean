import Vsos.Fat.LongNames
import Vsos.Fat.Refusals
import Vsos.Fat.SlotWrites

/-!
# Entering a name into a directory

`CreateNewDirFileEntry` allocates a cluster, looks for free slots, fills them with the long name and
the 8.3 entry, and clears the cluster. On a disk that never fails the effect of the whole call is
that of these steps: the directory may grow, the slots are overwritten one after the other, and the
new cluster is blank up to the two dot entries of a directory.
-/

namespace Vsos.Fat

open Vsos.Lib

variable {v : Volume} {s t u : State} {i : ℕ} {A : ℕ → Prop} {name : List UInt8} {shortName : Bytes}

/-- Where slot number `j` of a name goes that is entered from slot number `r` of a chain on. -/
def chainPlace (v : Volume) (l : List ℕ) (r j : ℕ) : Option Place :=
  if r % v.slotsPerSector + j < v.slotsPerSector then (chainPlaces v l)[r + j]? else none

/-- The slots of the long name. -/
def nameSlots (name : List UInt8) (shortName : Bytes) : List Bytes :=
  createLFNEntriesFromName name (requiredLFNEntries (name.length % 256)) (checksum shortName)

/-- The first byte of a slot. -/
theorem slotOf_zero (v : Volume) (s : State) (p : Place) :
    slotOf v s p 0 = s.data (p.address v) p.offset := by
  rw [slotOf, slotAt, if_pos (by decide), Nat.add_zero]

/-- The number of long-name slots of a name. -/
theorem length_nameSlots (name : List UInt8) (shortName : Bytes) :
    (nameSlots name shortName).length = requiredLFNEntries (name.length % 256) :=
  length_createLFNEntriesFromName _ _ _

/-- What is written for a name lies in the chain. -/
theorem mem_chainPlaces_of_writes {l : List ℕ} {r : ℕ} {slots : List Bytes} {q : Place}
    {entry : Bytes} (hq : q ∈ chainPlaces v l) {w : Place × Bytes}
    (hw : w ∈ longWrites (chainPlace v l r) slots i ++ [(q, entry)]) : w.1 ∈ chainPlaces v l := by
  rcases List.mem_append.mp hw with hw | hw
  · obtain ⟨j, -, hj⟩ := mem_longWrites.mp hw
    rw [chainPlace] at hj
    split at hj
    · exact List.mem_of_getElem? hj
    · cases hj
  · rw [List.mem_singleton] at hw
    cases hw
    exact hq

section Filling

variable (hdev : v.AlwaysSucceeds) (hwf : v.WellFormed)
include hdev hwf

/-- The 8.3 entry is stored at its place, and the buffer still holds it afterwards. -/
theorem placeEntry_run {rootDirectory : Bool} {target : Target} {count : ℕ} {place : ℕ × ℕ}
    (hplace : (entryPlace v target count rootDirectory).run s = .ok place t) (hreads : Reads v s t)
    (haddress : Addressable v place.1) (haligned : Place.Aligned v ⟨place.1, place.2⟩)
    (hA : A (v.startLBA + place.1)) (shortName : Bytes) (attr new : ℕ) :
    ∃ u date time, (placeEntry v shortName attr rootDirectory new count target).run s =
        .ok (some place.2) u ∧
      Puts v A [(⟨place.1, place.2⟩, newDirectoryEntry shortName attr new date time)] s u ∧
      slotAt u.readBuffer place.2 = newDirectoryEntry shortName attr new date time := by
  obtain ⟨date, hdate⟩ : ∃ date, (fatDate v).run t = .ok date t := ⟨_, rfl⟩
  obtain ⟨time, htime⟩ : ∃ time, (fatTime v).run t = .ok time t := ⟨_, rfl⟩
  have hslot := isSlot_newDirectoryEntry shortName attr new date time
  have hputs := puts_afterUpdate hwf haligned hslot hA t
  refine ⟨t.afterUpdate v (v.startLBA + place.1)
    fun b => b.blit place.2 (newDirectoryEntry shortName attr new date time) 32, date, time, ?_, ?_, ?_⟩
  · have hlba : lba v place.1 0 = v.startLBA + place.1 := lba_of_addressable haddress
    have hwrite : (writeDirectoryEntry v (newDirectoryEntry shortName attr new date time) place.1
        place.2).run t = .ok true (t.afterUpdate v (v.startLBA + place.1)
          fun b => b.blit place.2 (newDirectoryEntry shortName attr new date time) 32) := by
      rw [writeDirectoryEntry, hlba, update_run hdev]
      rfl
    rw [placeEntry, bind_of_ok hplace, bind_of_ok hdate, bind_of_ok htime, bind_of_ok hwrite]
    rfl
  · exact (Puts.of_reads hreads).trans hputs
  · funext i
    simp only [slotAt, State.afterUpdate]
    split
    · rw [Bytes.blit_of_mem (by omega) (by omega), Nat.add_sub_cancel_left]
    · rw [hslot i (by omega)]

/-- In a chain the slots of a name are filled as far as they lie in the first sector. -/
theorem fillSlots_chain (hwhole : WholeEntries v) {rootDirectory : Bool}
    (hroot : fixedRoot v rootDirectory = false) {c r : ℕ} {l : List ℕ} {target : Target}
    {p : ℕ → Prop} (hshort : createShortFilename name = some shortName) (hl : FileChain v s c l)
    (hfound : FoundIn v p (requiredLFNEntries (name.length % 256) + 1) l target r)
    (hA : ∀ x ∈ l, ∀ a, ClusterRegion v x a → A a)
    (hall : v.slotsPerSector < r % v.slotsPerSector + requiredLFNEntries (name.length % 256) →
      ∀ a, A a) (attr new : ℕ) :
    ∃ q u date time, (fillSlots v name attr rootDirectory new target).run s = .ok (some q.offset) u ∧
      (chainPlaces v l)[entrySlot v r (requiredLFNEntries (name.length % 256))]? = some q ∧
      Puts v A (longWrites (chainPlace v l r) (nameSlots name shortName) 0 ++
        [(q, newDirectoryEntry shortName attr new date time)]) s u ∧
      slotAt u.readBuffer q.offset = newDirectoryEntry shortName attr new date time := by
  have hpos := hwf.slotsPerSector_pos
  have hcount := requiredLFNEntries_lt name.length
  have hmod := Nat.mod_lt r hpos
  have hsplit := Nat.div_add_mod' r v.slotsPerSector
  have hinside := hfound.inside
  have hsectors : r / v.slotsPerSector < l.length * v.sectorsPerCluster := by
    rw [Geometry.slotsPerCluster, ← Nat.mul_assoc] at hinside
    exact Nat.lt_of_mul_lt_mul_right (a := v.slotsPerSector) (by omega)
  have hindex : r / v.slotsPerSector / v.sectorsPerCluster < l.length :=
    Nat.div_lt_of_lt_mul (by rwa [Nat.mul_comm])
  obtain ⟨x, hx⟩ : ∃ x, l[r / v.slotsPerSector / v.sectorsPerCluster]? = some x :=
    ⟨_, List.getElem?_eq_getElem hindex⟩
  have hmem := List.mem_of_getElem? hx
  have hcluster := hl.isCluster x hmem
  have hi := Nat.mod_lt (r / v.slotsPerSector) v.sectorsPerCluster_pos
  have htarget : target = ⟨x, r / v.slotsPerSector % v.sectorsPerCluster, 32 * (r % v.slotsPerSector)⟩ := by
    rw [hfound.target_eq, chainTarget_eq, List.getD_eq_getElem?_getD, hx]
    rfl
  have hscan (sector : ℕ) : scanStart v rootDirectory sector x = clusterSector v x 0 := by
    simp only [scanStart, hroot, Bool.false_eq_true, if_false]
    exact hwf.clusterToSector_eq hcluster
  have hplaces : longPlace v false (clusterSector v x 0 + r / v.slotsPerSector % v.sectorsPerCluster)
      (r % v.slotsPerSector) = chainPlace v l r := by
    funext j
    rw [longPlace, chainPlace]
    split
    · next hj =>
      have hslot := chainPlaces_sector hpos l (r / v.slotsPerSector) hj
      rw [← Nat.add_assoc, hsplit, hx] at hslot
      exact hslot.symm
    · simp
  obtain ⟨s₁, hlong, hputs⟩ := writeLongLoop_sector hdev hwf (hscan _)
    (hwf.addressable_cluster hcluster hi) (o := r % v.slotsPerSector) (Or.inl hroot)
    (show ∀ slot ∈ nameSlots name shortName, IsSlot slot from fun slot => isSlot_of_mem_createLFNEntries)
    (i := 0) (by rw [length_nameSlots]; have := v.bytesPerSector_lt; have := hwf.bytesPerSector_eq; omega)
    (hA x hmem _ ⟨_, hi, rfl⟩) (by rwa [length_nameSlots]) (hscan 0) s
  rw [hplaces] at hputs
  have hchain : FileChain v s₁ c l := by
    have hlinks : links v s₁ = links v s := by
      refine hwf.links_eq fun a ha => hputs.data a ?_
      rintro ⟨w, slot⟩ hw rfl
      obtain ⟨j, -, hj⟩ := mem_longWrites.mp hw
      rw [chainPlace] at hj
      split at hj
      · obtain ⟨⟨y, -, hregion⟩, -⟩ := of_mem_chainPlaces (List.mem_of_getElem? hj)
        exact not_tableRegion_cluster hregion ha
      · cases hj
    exact hl.congr fun x _ => by rw [hlinks]
  obtain ⟨place, s₂, hplace, hreads, haddress, hq⟩ := entryPlace_chain hdev hwf hwhole hroot hchain hfound
    (by omega)
  obtain ⟨⟨y, hy, hregion⟩, haligned⟩ := of_mem_chainPlaces (List.mem_of_getElem? hq)
  obtain ⟨u, date, time, hentry, hputs', hbuffer⟩ := placeEntry_run hdev hwf hplace hreads haddress haligned
    (hA y hy _ hregion) shortName attr new
  refine ⟨⟨place.1, place.2⟩, u, date, time, ?_, hq, hputs.trans hputs', hbuffer⟩
  rw [fillSlots]
  simp only [hshort]
  rw [htarget] at hentry ⊢
  change ((writeLongLoop v _ rootDirectory (nameSlots name shortName) 0 0 x _) >>= _).run s = _
  rw [bind_of_ok hlong]
  exact hentry

/-- `CreateEntry` in a directory that is a chain of clusters: the directory grows by what the search
needs, and the slots that were found are filled. -/
theorem createEntry_chain (hwhole : WholeEntries v) (hslots : v.slotsPerSector < 256)
    {rootDirectory : Bool} (hroot : fixedRoot v rootDirectory = false) {c last : ℕ} {xs : List ℕ}
    (hzero : name.length % 256 ≠ 0) (hshort : createShortFilename name = some shortName)
    (hl : FileChain v s c (xs ++ [last])) (hstart : 2 ≤ s.startSearchCluster) (attr new : ℕ) :
    ∃ result u, Returns (fun fuel => createEntry v fuel c name attr rootDirectory new) s result u ∧
      ((∃ ns r q t date time, result = some q.offset ∧ 2 ≤ t.startSearchCluster ∧ Extends v last ns s t ∧
        FirstRun (FreeAt v s (chainPlaces v (xs ++ [last]))) (requiredLFNEntries (name.length % 256) + 1) r ∧
        r + (requiredLFNEntries (name.length % 256) + 1) ≤ (xs ++ [last] ++ ns).length * v.slotsPerCluster ∧
        (chainPlaces v (xs ++ [last] ++ ns))[entrySlot v r (requiredLFNEntries (name.length % 256))]? =
          some q ∧
        Puts v (fun a => v.slotsPerSector < r % v.slotsPerSector + requiredLFNEntries (name.length % 256) ∨
            ∃ x ∈ xs ++ [last] ++ ns, ClusterRegion v x a)
          (longWrites (chainPlace v (xs ++ [last] ++ ns) r) (nameSlots name shortName) 0 ++
            [(q, newDirectoryEntry shortName attr new date time)]) t u ∧
        slotAt u.readBuffer q.offset = newDirectoryEntry shortName attr new date time) ∨
      result = none ∧ (v.totalClusters + 1 ∈ xs ++ [last] ∨ Event.allocated 0 ∈ eventsSince s u)) := by
  have hlt := requiredLFNEntries_lt name.length
  have hstable := createEntry_stable v c name attr rootDirectory new
  let fuel := (xs.length + 1) * v.slotsPerCluster + v.slotsPerSector +
    (requiredLFNEntries (name.length % 256) + 1) + 2
  obtain ⟨result, t, hsearch, hcase⟩ := findEntryStartpoint_chain hdev hwf hwhole hslots hroot
    (Nat.succ_pos (requiredLFNEntries (name.length % 256))) (by omega) hl hstart
    (show _ < fuel by omega)
  cases result with
  | none =>
    refine ⟨none, t, hstable.returns (n := fuel) ?_, Or.inr ⟨rfl, ?_⟩⟩
    · rw [createEntry_eq, if_neg hzero, bind_of_ok hsearch]
      rfl
    · rcases hcase with ⟨ns, -, -, hnone, -⟩ | ⟨-, hbreaks⟩
      · exact Or.inl (hnone rfl)
      · exact Or.inr hbreaks.event
  | some target =>
    obtain ⟨ns, hstart', hextends, -, hsome⟩ := hcase.resolve_right fun h => by cases h.1
    obtain ⟨r, hfound⟩ := hsome target rfl
    have hchain : FileChain v t c (xs ++ [last] ++ ns) := by
      rw [List.append_assoc]
      exact hextends.relinks.fileChain hwf hl
    obtain ⟨q, u, date, time, hfill, hq, hputs, hbuffer⟩ := fillSlots_chain hdev hwf hwhole hroot hshort
      hchain hfound (A := fun a => v.slotsPerSector < r % v.slotsPerSector +
        requiredLFNEntries (name.length % 256) ∨ ∃ x ∈ xs ++ [last] ++ ns, ClusterRegion v x a)
      (fun x hx a ha => Or.inr ⟨x, hx, ha⟩) (fun h a => Or.inl h) attr new
    refine ⟨some q.offset, u, hstable.returns (n := fuel) ?_, Or.inl ⟨ns, r, q, t, date, time, rfl,
      hstart', hextends, hfound.first, hfound.inside, hq, hputs, hbuffer⟩⟩
    rw [createEntry_eq, if_neg hzero, bind_of_ok hsearch]
    exact hfill

omit hdev hwf in
/-- The two dot entries start with a dot. -/
theorem dotEntry_first (createdEntry : Bytes) {dots : ℕ} (hdots : 0 < dots) (cluster : ℕ) :
    dotEntry createdEntry dots cluster 0 = 0x2E := by
  simp (disch := omega) only [dotEntry, Bytes.setU16_of_not_mem, Bytes.setU8_ne]
  exact if_pos hdots

/-- The new cluster is cleared, and a directory gets its dot entries in the first slots of it. -/
theorem finishNewEntry_run (isDir : Bool) (parent : ℕ) {offset new : ℕ} (hnew : IsCluster v new)
    (hentry : getCluster (slotAt s.readBuffer offset) = new) :
    ∃ t, (finishNewEntry v isDir parent offset).run s = .ok 0 t ∧ Alters (ClusterRegion v new) s t ∧
      t.startSearchCluster = s.startSearchCluster ∧
      ∃ dots, ∀ p : Place, p.Aligned v → ClusterRegion v new (p.address v) →
        slotOf v t p 0 = if p.address v = clusterAddress v new 0 ∧ p.offset < 32 * dots then 0x2E
          else entryEnd := by
  obtain ⟨t, hclear, halters, hstart, hcleared⟩ := clearCluster_run hwf hdev.2 hnew s
  have hzero (p : Place) (hp : p.Aligned v) (ha : ClusterRegion v new (p.address v)) :
      t.data (p.address v) p.offset = 0 := hcleared _ ha _ (by have := hp.le; omega)
  rw [finishNewEntry, bind_of_ok (getReadBuffer_run _)]
  dsimp only
  rw [hentry, bind_of_ok hclear]
  cases isDir with
  | false =>
    refine ⟨t, rfl, halters, hstart, 0, fun p hp ha => ?_⟩
    rw [if_neg (by omega)]
    exact hzero p hp ha
  | true =>
    have hlba : lba v (clusterToSector v new) 0 = clusterAddress v new 0 :=
      hwf.lba_cluster hnew v.sectorsPerCluster_pos
    simp only [if_true]
    rw [hlba, update_run hdev]
    refine ⟨_, rfl, halters.trans ((alters_afterUpdate v t _ _).mono ?_), hstart, 2, fun p hp ha => ?_⟩
    · rintro a rfl
      exact ⟨0, v.sectorsPerCluster_pos, rfl⟩
    · rw [slotOf_zero]
      by_cases hfirst : p.address v = clusterAddress v new 0
      · have hle := hp.le
        obtain ⟨j, -, hj⟩ := hp
        simp only [State.afterUpdate, hfirst, Function.update_self]
        rw [Bytes.blit_of_mem (Nat.zero_le _) (by rw [hwf.blockSize_eq]; omega)]
        rcases Nat.lt_or_ge j 2 with hlt | hge
        · obtain rfl | rfl : j = 0 ∨ j = 1 := by omega
          · rw [Bytes.blit_of_not_mem (by omega), Bytes.blit_of_mem (by omega) (by omega), hj]
            exact dotEntry_first _ (by decide) _
          · rw [Bytes.blit_of_mem (by omega) (by omega), hj]
            exact dotEntry_first _ (by decide) _
        · rw [if_neg (by omega), Bytes.blit_of_not_mem (by omega), Bytes.blit_of_not_mem (by omega),
            hwf.blockAt_apply _ _ (by omega), ← hfirst]
          exact hzero p ⟨j, by rw [Geometry.slotsPerSector]; omega, hj⟩ ha
      · rw [if_neg fun h => hfirst h.1]
        simp only [State.afterUpdate, Function.update_of_ne hfirst]
        exact hzero p hp ha

end Filling

/-! ## The whole call -/

/-- The slots of a directory that was extended by cleared clusters. -/
def grownSlot (v : Volume) (s : State) (l : List ℕ) (p : Place) : Bytes :=
  if p ∈ chainPlaces v l then slotOf v s p else fun _ => 0

/-- From `s` to `u` a name was entered into the directory with first cluster `c` and the clusters
`l`: `count` slots of a long name and an 8.3 entry, from slot number `r` on. The directory grew by
the clusters `ns`, and the entry got the cluster `new`. -/
structure Enters (v : Volume) (s u : State) (c : ℕ) (l ns : List ℕ) (new r count : ℕ)
    (ws : List (Place × Bytes)) : Prop where
  first : FirstRun (FreeAt v s (chainPlaces v l)) (count + 1) r
  inside : r + (count + 1) ≤ (l ++ ns).length * v.slotsPerCluster
  fresh : ∀ x ∈ new :: ns, 2 ≤ x ∧ x < v.totalClusters ∧ links v s x = 0
  nodup : (new :: ns).Nodup
  chain : FileChain v u c (l ++ ns)
  own : FileChain v u new [new]
  links_kept : ∀ x, x ∉ l → x ∉ new :: ns → links v u x = links v s x
  slots : ∀ p ∈ chainPlaces v (l ++ ns), slotOf v u p = overlay (grownSlot v s l) ws p
  blank : ∃ dots, ∀ p ∈ chainPlaces v [new], slotOf v u p 0 =
    if p.address v = clusterAddress v new 0 ∧ p.offset < 32 * dots then 0x2E else entryEnd
  data : ∀ a, ¬ TableRegion v a → (∀ x ∈ new :: (l ++ ns), ¬ ClusterRegion v x a) → u.data a = s.data a
  trace : Traces (Event.Confined fun a => v.slotsPerSector < r % v.slotsPerSector + count ∨
    TableRegion v a ∨ ∃ x ∈ new :: (l ++ ns), ClusterRegion v x a) s u
  start : 2 ≤ u.startSearchCluster

/-- The free slots of a directory are those of its sectors. -/
theorem freeAt_congr {ps : List Place} (h : ∀ p ∈ ps, slotOf v t p = slotOf v s p) :
    FreeAt v t ps = FreeAt v s ps := by
  funext m
  refine propext (forall_congr' fun p => imp_congr_right fun hp => ?_)
  rw [h p (List.mem_of_getElem? hp)]

section Steps

variable {t₁ t₂ t₃ : State} {c last new r count : ℕ} {xs ns : List ℕ} {ws : List (Place × Bytes)}
  (hwf : v.WellFormed) (hnew : 2 ≤ new ∧ new < v.totalClusters ∧ links v s new = 0)
  (hlinks₁ : links v t₁ = Function.update (links v s) new v.clusterEnd)
  (hextends : Extends v last ns t₁ t₂)
include hwf hlinks₁ hextends

/-- The clusters that a directory grows by were free before the call and are not the new one. -/
theorem grown_fresh {x : ℕ} (hx : x ∈ ns) : 2 ≤ x ∧ x < v.totalClusters ∧ links v s x = 0 ∧ x ≠ new := by
  have hlt := hwf.clusters_lt
  obtain ⟨hlow, hhigh, hfree⟩ := hextends.relinks.fresh x hx
  have hne : x ≠ new := by
    rintro rfl
    rw [hlinks₁, Function.update_self] at hfree
    omega
  rw [hlinks₁, Function.update_of_ne hne] at hfree
  exact ⟨hlow, hhigh, hfree, hne⟩

variable (hl : FileChain v s c (xs ++ [last]))
include hl

/-- The slots of a directory after it was extended. -/
theorem slotOf_extended (halters₁ : Alters (TableRegion v) s t₁) {p : Place}
    (hp : p ∈ chainPlaces v (xs ++ [last] ++ ns)) :
    slotOf v t₂ p = grownSlot v s (xs ++ [last]) p := by
  unfold grownSlot
  split
  · next hold =>
    obtain ⟨⟨y, -, hregion⟩, -⟩ := of_mem_chainPlaces hold
    rw [hextends.slotOf_old (fun x hx => ⟨(hl.isCluster x hx).1, fun hnew => ?_⟩) hold,
      slotOf_of_alters halters₁ (not_tableRegion_cluster hregion)]
    exact hl.links_ne_zero hwf hx (grown_fresh hwf hlinks₁ hextends hnew).2.2.1
  · next hold =>
    rw [chainPlaces_append, List.mem_append] at hp
    exact hextends.slotOf_new (hp.resolve_left hold)

include hnew

/-- The clusters of the directory are not the new one. -/
theorem grown_ne {x : ℕ} (hx : x ∈ xs ++ [last] ++ ns) : IsCluster v x ∧ x ≠ new := by
  rcases List.mem_append.mp hx with hx | hx
  · refine ⟨hl.isCluster x hx, ?_⟩
    rintro rfl
    exact hl.links_ne_zero hwf hx hnew.2.2
  · obtain ⟨hlow, hhigh, -, hne⟩ := grown_fresh hwf hlinks₁ hextends hx
    exact ⟨⟨hlow, by omega⟩, hne⟩

/-- The steps of a call that enters a name: the allocation, the search, the slots and the clearing of
the new cluster. -/
theorem enters_of_steps (halters₁ : Alters (TableRegion v) s t₁)
    (hfirst : FirstRun (FreeAt v t₁ (chainPlaces v (xs ++ [last]))) (count + 1) r)
    (hinside : r + (count + 1) ≤ (xs ++ [last] ++ ns).length * v.slotsPerCluster)
    (hputs : Puts v (fun a => v.slotsPerSector < r % v.slotsPerSector + count ∨
      ∃ x ∈ xs ++ [last] ++ ns, ClusterRegion v x a) ws t₂ t₃)
    (hws : ∀ w ∈ ws, w.1 ∈ chainPlaces v (xs ++ [last] ++ ns))
    (halters₄ : Alters (ClusterRegion v new) t₃ u) (hstart : 2 ≤ u.startSearchCluster)
    (hblank : ∃ dots, ∀ p : Place, p.Aligned v → ClusterRegion v new (p.address v) → slotOf v u p 0 =
      if p.address v = clusterAddress v new 0 ∧ p.offset < 32 * dots then 0x2E else entryEnd) :
    Enters v s u c (xs ++ [last]) ns new r count ws := by
  have hlt := hwf.clusters_lt
  have hother {x : ℕ} (hx : x ∈ xs ++ [last] ++ ns) := grown_ne hwf hnew hlinks₁ hextends hl hx
  have hfresh {x : ℕ} (hx : x ∈ ns) := grown_fresh hwf hlinks₁ hextends hx
  have hlinks : links v u = links v t₂ := by
    refine hwf.links_eq fun a ha => ?_
    rw [halters₄.data a fun hown => not_tableRegion_cluster hown ha, hputs.data a]
    rintro w hw rfl
    obtain ⟨⟨x, -, hregion⟩, -⟩ := of_mem_chainPlaces (hws w hw)
    exact not_tableRegion_cluster hregion ha
  have hl₁ : FileChain v t₁ c (xs ++ [last]) := by
    refine hl.congr fun x hx => ?_
    rw [hlinks₁, Function.update_of_ne (hother (List.mem_append_left _ hx)).2]
  have hlast : new ∉ last :: ns := by
    intro hmem
    refine (hother ?_).2 rfl
    rw [List.append_assoc]
    exact List.mem_append_right _ hmem
  constructor
  case first =>
    rwa [freeAt_congr fun p hp => ?_] at hfirst
    obtain ⟨⟨x, -, hregion⟩, -⟩ := of_mem_chainPlaces hp
    exact slotOf_of_alters halters₁ (not_tableRegion_cluster hregion)
  case inside => exact hinside
  case fresh =>
    intro x hx
    rcases List.mem_cons.mp hx with rfl | hx
    · exact hnew
    · obtain ⟨hlow, hhigh, hfree, -⟩ := hfresh hx
      exact ⟨hlow, hhigh, hfree⟩
  case nodup =>
    exact List.nodup_cons.mpr ⟨fun hmem => hlast (List.mem_cons_of_mem _ hmem),
      (List.nodup_cons.mp hextends.relinks.nodup).2⟩
  case chain =>
    have hgrown := hextends.relinks.fileChain hwf hl₁
    rw [List.append_assoc]
    exact hgrown.congr fun x _ => by rw [hlinks]
  case own =>
    have hend : links v u new = v.clusterEnd := by
      rw [hlinks, hextends.relinks.links_eq, relink_of_not_mem hlast, hlinks₁, Function.update_self]
    rw [links_of_le u (by omega)] at hend
    refine Or.inr ⟨⟨rfl, by omega, hend.ge⟩, fun x hx => ?_⟩
    rw [List.mem_singleton.mp hx]
    exact ⟨hnew.1, by omega⟩
  case links_kept =>
    intro x hx hx'
    obtain ⟨hne, hns⟩ := not_or.mp (fun h => hx' (List.mem_cons.mpr h))
    rw [hlinks, hextends.relinks.links_eq, relink_of_not_mem, hlinks₁, Function.update_of_ne hne]
    intro hmem
    rcases List.mem_cons.mp hmem with rfl | hmem
    · exact hx (by simp)
    · exact hns hmem
  case slots =>
    intro p hp
    obtain ⟨⟨x, hx, hregion⟩, haligned⟩ := of_mem_chainPlaces hp
    rw [slotOf_of_alters halters₄ fun hown => (hother hx).2
      (clusterRegion_unique (hother hx).1.1 hnew.1 hregion hown), hputs.slots p haligned]
    exact overlay_congr (slotOf_extended hwf hlinks₁ hextends hl halters₁ hp) ws
  case blank =>
    obtain ⟨dots, hblank⟩ := hblank
    refine ⟨dots, fun p hp => ?_⟩
    obtain ⟨⟨x, hx, hregion⟩, haligned⟩ := of_mem_chainPlaces hp
    rw [List.mem_singleton.mp hx] at hregion
    exact hblank p haligned hregion
  case data =>
    intro a htable houtside
    rw [halters₄.data a (houtside new List.mem_cons_self), hputs.data a, hextends.alters.data a,
      halters₁.data a htable]
    · rintro (h | ⟨x, hx, hregion⟩)
      · exact htable h
      · exact houtside x (List.mem_cons_of_mem _ (List.mem_append_right _ hx)) hregion
    · rintro w hw rfl
      obtain ⟨⟨x, hx, hregion⟩, -⟩ := of_mem_chainPlaces (hws w hw)
      exact houtside x (List.mem_cons_of_mem _ hx) hregion
  case trace =>
    refine (halters₁.mono ?_).trace.trans ((hextends.alters.mono ?_).trace.trans
      ((hputs.trace.mono fun e he => he.mono ?_).trans (halters₄.mono ?_).trace))
    · exact fun a ha => Or.inr (Or.inl ha)
    · rintro a (ha | ⟨x, hx, ha⟩)
      · exact Or.inr (Or.inl ha)
      · exact Or.inr (Or.inr ⟨x, List.mem_cons_of_mem _ (List.mem_append_right _ hx), ha⟩)
    · rintro a (hover | ⟨x, hx, ha⟩)
      · exact Or.inl hover
      · exact Or.inr (Or.inr ⟨x, List.mem_cons_of_mem _ hx, ha⟩)
    · exact fun a ha => Or.inr (Or.inr ⟨new, List.mem_cons_self, ha⟩)
  case start => exact hstart

end Steps

section Allocating

variable (hwf : v.WellFormed)
include hwf

/-- `WriteTable` writes to the table. -/
theorem keepsAlters_writeTable (cluster value : ℕ) :
    Keeps (Alters (TableRegion v)) (writeTable v cluster value) := by
  refine .ite (fun _ => .pure _) fun hinside => ?_
  have hle : cluster ≤ v.totalClusters + 1 := by omega
  have hregion : TableRegion v (lba v (fatSector v cluster) 0) := by
    rw [hwf.lba_fatSector hle]
    exact hwf.tableRegion (Nat.lt_of_succ_lt (entryOffset_lt hle))
  apply Keeps.bind (keepsAlters_readSector v _ _)
  intro status
  refine .ite (fun _ => .pure _) fun _ => ?_
  apply Keeps.bind (keepsAlters_modifyReadBuffer _ _)
  intro _
  exact .bind (keepsAlters_writeReadBuffer v _ hregion) fun _ => .pure _

/-- `AllocateCluster` writes to the table. -/
theorem keepsAlters_allocateCluster : Keeps (Alters (TableRegion v)) (allocateCluster v) := by
  have hloop (n c : ℕ) : Keeps (Alters (TableRegion v)) (allocateLoop v n c) := by
    induction n generalizing c with
    | zero => exact .pure _
    | succ n ih =>
      apply Keeps.bind (keepsAlters_of_reads v _ (readsOnly_readTable c).keeps)
      intro value
      apply Keeps.ite
      · intro _
        refine .bind (fun s => ⟨fun _ _ => rfl, Traces.refl _ s⟩) fun _ => ?_
        exact .bind (keepsAlters_writeTable hwf _ _) fun _ => .pure _
      · exact fun _ => ih _
  refine .bind (fun s => Alters.refl _ s) fun start => ?_
  apply Keeps.bind (hloop _ _)
  intro cluster
  exact .bind (keepsAlters_emit _ (by simp)) fun _ => .pure _

variable (hdev : v.AlwaysSucceeds) (hfree : ¬ AllocatesNone v s)
include hdev hfree

/-- Unless there is nothing to allocate, `AllocateCluster` returns a cluster. -/
theorem allocateCluster_found :
    ∃ new t, (allocateCluster v).run s = .ok new t ∧ Alters (TableRegion v) s t ∧
      2 ≤ new ∧ new < v.totalClusters := by
  obtain ⟨hstart, hsome⟩ := not_or.mp hfree
  push Not at hsome
  obtain ⟨k, hk, hk', hentry⟩ := hsome
  obtain ⟨new, t, hrun, hiff⟩ := allocateCluster_zero_iff hdev s
  have hne : new ≠ 0 := hiff.mpr ⟨by omega, k, hk, hk', hentry⟩
  obtain ⟨new', t', hrun', hcase⟩ := allocateCluster_search (Nat.not_lt.mp hstart)
  rw [hrun] at hrun'
  cases hrun'
  obtain ⟨n, rfl, htakes⟩ := hcase.resolve_left fun h => hne h.1
  have hlt := htakes.stops.lt
  exact ⟨_, t, hrun, (keepsAlters_allocateCluster hwf).of_ok hrun, by omega, hlt⟩

/-- On a table of whole entries the cluster was free and is marked. -/
theorem allocateCluster_some (hwhole : WholeEntries v) :
    ∃ new t, (allocateCluster v).run s = .ok new t ∧ Alters (TableRegion v) s t ∧
      2 ≤ new ∧ new < v.totalClusters ∧ links v s new = 0 ∧ t.startSearchCluster = new ∧
      links v t = Function.update (links v s) new v.clusterEnd := by
  obtain ⟨new, t, hrun, halters, hlow, hhigh⟩ := allocateCluster_found hwf hdev hfree
  obtain ⟨new', t', hrun', -, -, hnew⟩ := allocateCluster_run hwf hwhole hdev
    (Nat.not_lt.mp (not_or.mp hfree).1)
  rw [hrun] at hrun'
  cases hrun'
  exact ⟨new, t, hrun, halters, hnew (by omega)⟩

end Allocating

section Whole

variable (hdev : v.AlwaysSucceeds) (hwf : v.WellFormed) (hwhole : WholeEntries v)
include hdev hwf hwhole

/-- A name is entered into a directory that is a chain of clusters. The call fails only if the last
cluster number, whose entry the driver does not read, is in the chain or an allocation fails. -/
theorem enterName_chain (hslots : v.slotsPerSector < 256) {rootDirectory : Bool}
    (hroot : fixedRoot v rootDirectory = false) {c last : ℕ} {xs : List ℕ}
    (hzero : name.length % 256 ≠ 0) (hshort : createShortFilename name = some shortName)
    (hl : FileChain v s c (xs ++ [last])) (hfree : ¬ AllocatesNone v s) (attr : ℕ) :
    ∃ result u, Returns (fun fuel => enterName v fuel c name attr rootDirectory) s result u ∧
      ((result = 0 ∧ ∃ ns new r q date time,
        (chainPlaces v (xs ++ [last] ++ ns))[entrySlot v r (requiredLFNEntries (name.length % 256))]? =
          some q ∧
        Enters v s u c (xs ++ [last]) ns new r (requiredLFNEntries (name.length % 256))
          (longWrites (chainPlace v (xs ++ [last] ++ ns) r) (nameSlots name shortName) 0 ++
            [(q, newDirectoryEntry shortName attr new date time)])) ∨
      result = -1 ∧ (v.totalClusters + 1 ∈ xs ++ [last] ∨ Event.allocated 0 ∈ eventsSince s u)) := by
  obtain ⟨new, t₁, halloc, halters₁, hlow, hhigh, hlink, hstart₁, hlinks₁⟩ :=
    allocateCluster_some hwf hdev hfree hwhole
  have hunused : ∀ x ∈ xs ++ [last], x ≠ new := by
    rintro x hx rfl
    exact hl.links_ne_zero hwf hx hlink
  have hl₁ : FileChain v t₁ c (xs ++ [last]) := by
    refine hl.congr fun x hx => ?_
    rw [hlinks₁, Function.update_of_ne (hunused x hx)]
  obtain ⟨result, t₃, hreturns, hcase⟩ := createEntry_chain hdev hwf hwhole hslots hroot hzero hshort hl₁
    (by omega) attr new
  rcases hcase with ⟨ns, r, q, t₂, date, time, rfl, hstart₂, hextends, hfirst, hinside, hq, hputs, hbuffer⟩ |
    ⟨rfl, hwhy⟩
  · obtain ⟨u, hfinish, halters₄, hstart₄, hblank⟩ := finishNewEntry_run hdev hwf
      (attr &&& attrDirectory.toNat != 0) (if rootDirectory then 0 else c)
      (show IsCluster v new from ⟨hlow, by omega⟩)
      (show getCluster (slotAt t₃.readBuffer q.offset) = new by
        rw [hbuffer]
        exact getCluster_newDirectoryEntry _ _ _ _ _ (by have := v.totalClusters_lt; omega))
    refine ⟨0, u, (Returns.of_run halloc).bind (hreturns.bind (Returns.of_run hfinish)),
      Or.inl ⟨rfl, ns, new, r, q, date, time, hq, ?_⟩⟩
    refine enters_of_steps hwf ⟨hlow, hhigh, hlink⟩ hlinks₁ hextends hl halters₁ hfirst hinside hputs ?_
      halters₄ (by rw [hstart₄, hputs.start]; exact hstart₂) hblank
    exact fun w => mem_chainPlaces_of_writes (List.mem_of_getElem? hq)
  · refine ⟨-1, t₃, (Returns.of_run halloc).bind (hreturns.bind (Returns.of_run rfl)), Or.inr ⟨rfl, ?_⟩⟩
    refine hwhy.imp_right fun hevent => ?_
    obtain ⟨n, hn⟩ := hreturns
    exact mem_eventsSince_of_traces halters₁.trace
      ((keepsQuiet_createEntry v _ _ _ _ _ _).of_ok (hn n (le_refl n))) hevent

end Whole

/-! ## The fixed root directory -/

/-- The place of the 8.3 entry in a fixed root directory, whatever sector the slots were found in. -/
def rootEntryPlace (v : Volume) (o count : ℕ) : Place :=
  if o + count < v.slotsPerSector then ⟨v.rootStart, 32 * (o + count)⟩
  else ⟨v.rootStart + 1, 32 * ((o + count) % v.slotsPerSector)⟩

/-- From `s` to `u` a name was entered into the fixed root directory: its slots were found from slot
`o` of sector `i` of a window on. A run in the first sector is found where it is. -/
structure EntersRoot (v : Volume) (s u : State) (count i o : ℕ) (ws : List (Place × Bytes)) : Prop where
  sector_lt : i < v.sectorsPerCluster
  slot_lt : o < v.slotsPerSector
  found : ∀ q, q + count ≤ v.slotsPerSector → RunAt (RootFree v s) (count + 1) q →
    ∃ r ≤ q, RunAt (RootFree v s) (count + 1) r ∧ i = r / v.slotsPerSector ∧ o = r % v.slotsPerSector
  slots : ∀ p : Place, p.Aligned v → RootRegion v (p.address v) →
    slotOf v u p = overlay (slotOf v s) ws p

/-- Writes to the table do not touch the slots that a search in the fixed root looks at. -/
theorem rootFree_of_alters (h : Alters (TableRegion v) s t) : RootFree v t = RootFree v s := by
  funext m
  rw [RootFree, RootFree, slotOf_of_alters h (not_tableRegion_of_le ?_)]
  exact Nat.add_le_add_left (Nat.le_add_right _ _) _

section Root

variable (hdev : v.AlwaysSucceeds) (hwf : v.WellFormed) {rootDirectory : Bool}
  (hroot : fixedRoot v rootDirectory = true) (hclusters : 3 ≤ v.totalClusters)
include hdev hwf hroot hclusters

/-- The slots of a name in a fixed root directory: the long name starts in the sector of the window,
the entry goes to the first or the second sector of the directory. -/
theorem fillSlots_root {c o : ℕ} (hi : i < v.sectorsPerCluster) (ho : o < v.slotsPerSector)
    (hshort : createShortFilename name = some shortName) (hA : A (v.startLBA + (v.rootStart + i)))
    (hall : v.slotsPerSector < o + requiredLFNEntries (name.length % 256) → ∀ a, A a)
    (hentry : A ((rootEntryPlace v o (requiredLFNEntries (name.length % 256))).address v))
    (attr new : ℕ) (s : State) :
    ∃ u date time, (fillSlots v name attr rootDirectory new ⟨c, i, 32 * o⟩).run s =
        .ok (some (rootEntryPlace v o (requiredLFNEntries (name.length % 256))).offset) u ∧
      Puts v A (longWrites (longPlace v true (v.rootStart + i) o) (nameSlots name shortName) 0 ++
        [(rootEntryPlace v o (requiredLFNEntries (name.length % 256)),
          newDirectoryEntry shortName attr new date time)]) s u ∧
      slotAt u.readBuffer (rootEntryPlace v o (requiredLFNEntries (name.length % 256))).offset =
        newDirectoryEntry shortName attr new date time := by
  have hpos := hwf.slotsPerSector_pos
  have hbytes := hwf.bytesPerSector_eq
  have hbytes' := v.bytesPerSector_lt
  have hcount := requiredLFNEntries_lt name.length
  have hfirst : sub32 v.firstDataSector v.rootDirSectors = v.rootStart :=
    sub32_of_le hwf.root_le v.firstDataSector_lt
  have hstay : scanStart v rootDirectory v.rootStart c = v.rootStart := by
    simp only [scanStart, hroot, if_true, hfirst, ite_self]
  have hscan := scanStart_root hwf hroot c
  have haddress' : Addressable v (v.rootStart + 1 + i) := by
    rw [Nat.add_assoc]
    exact addressable_root hwf hclusters (by omega)
  obtain ⟨s₁, hlong, hputs⟩ := writeLongLoop_root hdev hwf hstay
    (addressable_root hwf hclusters (show i ≤ _ by omega)) hroot haddress'
    (show ∀ slot ∈ nameSlots name shortName, IsSlot slot from
      fun slot => isSlot_of_mem_createLFNEntries) (i := 0) (by rw [length_nameSlots]; omega)
    hA (by rwa [length_nameSlots]) ho hscan s
  have hplace : (entryPlace v ⟨c, i, 32 * o⟩ (requiredLFNEntries (name.length % 256)) rootDirectory).run s₁ =
      .ok ((rootEntryPlace v o (requiredLFNEntries (name.length % 256))).sector,
        (rootEntryPlace v o (requiredLFNEntries (name.length % 256))).offset) s₁ := by
    have hoffset : wrap32 (32 * o + requiredLFNEntries (name.length % 256) * 32) =
        32 * (o + requiredLFNEntries (name.length % 256)) := by
      rw [wrap32_of_lt (by omega)]
      omega
    have hwrap : wrap32 (v.rootStart + 1) = v.rootStart + 1 :=
      wrap32_of_lt (addressable_root hwf hclusters (show 1 ≤ _ by omega)).1
    rw [entryPlace]
    dsimp only
    rw [hoffset, if_pos hroot, hfirst, hwrap, rootEntryPlace, hbytes]
    by_cases hhere : o + requiredLFNEntries (name.length % 256) < v.slotsPerSector
    · rw [if_pos hhere, if_neg (by omega)]
      rfl
    · rw [if_neg hhere, if_pos (by omega), Nat.mul_mod_mul_left]
      rfl
  have haligned : (rootEntryPlace v o (requiredLFNEntries (name.length % 256))).Aligned v := by
    unfold rootEntryPlace
    split
    · next hhere => exact ⟨_, hhere, rfl⟩
    · exact ⟨_, Nat.mod_lt _ hpos, rfl⟩
  have haddress : Addressable v (rootEntryPlace v o (requiredLFNEntries (name.length % 256))).sector := by
    unfold rootEntryPlace
    split
    · exact addressable_root hwf hclusters (Nat.zero_le _)
    · exact addressable_root hwf hclusters (by omega)
  obtain ⟨u, date, time, hentry, hputs', hbuffer⟩ := placeEntry_run hdev hwf hplace (Observes.refl v _ s₁)
    haddress haligned hentry shortName attr new
  refine ⟨u, date, time, ?_, hputs.trans hputs', hbuffer⟩
  rw [fillSlots]
  simp only [hshort]
  change ((writeLongLoop v _ rootDirectory (nameSlots name shortName) 0 0 c _) >>= _).run s = _
  rw [bind_of_ok hlong]
  exact hentry

/-- A name is entered into a fixed root directory. -/
theorem enterName_root (hslots : v.slotsPerSector < 256) {c : ℕ} (hzero : name.length % 256 ≠ 0)
    (hshort : createShortFilename name = some shortName) (hfree : ¬ AllocatesNone v s) {attr : ℕ}
    (hreturns : Returns (fun fuel => enterName v fuel c name attr rootDirectory) s 0 u) :
    ∃ i o new date time, EntersRoot v s u (requiredLFNEntries (name.length % 256)) i o
      (longWrites (longPlace v true (v.rootStart + i) o) (nameSlots name shortName) 0 ++
        [(rootEntryPlace v o (requiredLFNEntries (name.length % 256)),
          newDirectoryEntry shortName attr new date time)]) := by
  have hone := requiredLFNEntries_pos hzero
  obtain ⟨n, hn⟩ := hreturns
  have hrun := hn (n + v.slotsPerSector + 1) (by omega)
  dsimp only at hrun
  obtain ⟨new, t₁, halloc, halters₁, hlow, hhigh⟩ := allocateCluster_found hwf hdev hfree
  rw [enterName, bind_of_ok halloc] at hrun
  obtain ⟨result, t₃, hentry, hrun⟩ := bind_eq_ok.mp hrun
  cases result with
  | none => cases hrun
  | some offset =>
    rw [createEntry_eq, if_neg hzero] at hentry
    obtain ⟨found, t₂, hsearch, hentry⟩ := bind_eq_ok.mp hentry
    cases found with
    | none => cases hentry
    | some target =>
      have hreads := (readsOnly_findEntryLoop hroot _ _ _ _ _ _).keeps.of_ok hsearch
      obtain ⟨i, hi, o, ho, rfl⟩ := findEntryLoop_inWindow hroot (fun h => absurd rfl h) hsearch
      obtain ⟨u', date, time, hfill, hputs, hbuffer⟩ := fillSlots_root hdev hwf hroot hclusters hi ho hshort
        trivial (fun _ _ => trivial) trivial attr new t₂
      rw [hfill] at hentry
      cases hentry
      obtain ⟨u₁, hfinish, halters₄, -, -⟩ := finishNewEntry_run hdev hwf
        (attr &&& attrDirectory.toNat != 0) (if rootDirectory then 0 else c)
        (show IsCluster v new from ⟨hlow, by omega⟩)
        (show getCluster (slotAt t₃.readBuffer _) = new by
          rw [hbuffer]
          exact getCluster_newDirectoryEntry _ _ _ _ _ (by have := v.totalClusters_lt; omega))
      rw [hfinish] at hrun
      cases hrun
      have hkept {p : Place} (hp : RootRegion v (p.address v)) : slotOf v t₂ p = slotOf v s p := by
        rw [slotOf_of_reads hreads]
        exact slotOf_of_alters halters₁ (not_tableRegion_of_le hp.1)
      refine ⟨i, o, new, date, time, hi, ho, fun q hq hfree => ?_, fun p hp hregion => ?_⟩
      · rw [← rootFree_of_alters halters₁] at hfree ⊢
        obtain ⟨r, hr, hrun, heq⟩ := findEntryLoop_root hroot hdev hwf hslots hclusters (by omega) (by omega)
          (by omega) (show q + (_ + 1) ≤ _ by omega) hfree hsearch
        simp only [slotTarget, Target.mk.injEq, true_and] at heq
        exact ⟨r, hr, hrun, heq.1, by omega⟩
      · rw [slotOf_of_alters halters₄ fun hown => ?_, hputs.slots p hp]
        · exact overlay_congr (hkept hregion) _
        · have hge := clusterRegion_ge hown
          have hlt := hregion.2
          omega

end Root

end Vsos.Fat
