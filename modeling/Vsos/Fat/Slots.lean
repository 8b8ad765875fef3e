import Mathlib.Data.List.TakeWhile
import Vsos.Fat.Layout

/-!
# Directories as lists of slots

A directory occupies a list of slots, each a place of 32 bytes on the disk. Its entries are
the slots in front of the first one that starts with 0, without those that are unused or
belong to a long name. The driver's scan visits the slots in order, and what it returns
describes exactly these entries.
-/

namespace Vsos.Fat

open Vsos.Lib

variable {a b entry : Bytes}

/-- Where a slot lies: a sector of the volume and an offset in it. -/
structure Place where
  sector : ℕ
  offset : ℕ
  deriving DecidableEq, Repr

/-- The disk address of the sector. -/
def Place.address (v : Volume) (p : Place) : ℕ := v.startLBA + p.sector

/-- The 32 bytes at a place. -/
def slotOf (v : Volume) (s : State) (p : Place) : Bytes := slotAt (s.data (p.address v)) p.offset

/-- The bytes of a slot, with nothing behind them. -/
def IsSlot (new : Bytes) : Prop := ∀ i, 32 ≤ i → new i = 0

/-- A slot of the disk has 32 bytes. -/
theorem isSlot_slotOf (v : Volume) (s : State) (p : Place) : IsSlot (slotOf v s p) :=
  fun _ hi => if_neg (by omega)

/-- Where an entry was found. -/
def FATEntryInfo.place (item : FATEntryInfo) : Place := ⟨item.sector, item.offsetInSector⟩

/-- The slots of a sector. -/
def sectorPlaces (v : Volume) (sector : ℕ) : List Place :=
  (List.range (v.bytesPerSector / 32)).map fun j => ⟨sector, 32 * j⟩

/-- Sector `i` of a cluster. -/
def clusterSector (v : Volume) (cluster i : ℕ) : ℕ :=
  v.firstDataSector + (cluster - 2) * v.sectorsPerCluster + i

/-- The slots of a run of sectors. -/
def runPlaces (v : Volume) (sector i n : ℕ) : List Place :=
  (List.range' i n).flatMap fun k => sectorPlaces v (sector + k)

/-- The slots of a chain of clusters. -/
def chainPlaces (v : Volume) (l : List ℕ) : List Place :=
  l.flatMap fun c => runPlaces v (clusterSector v c 0) 0 v.sectorsPerCluster

/-- The slots of the root directory region. -/
def rootPlaces (v : Volume) : List Place := runPlaces v v.rootStart 0 v.rootDirSectors

/-- A slot that the driver takes for an entry. -/
def Listed (slot : Bytes) : Prop :=
  slot 0 ≠ entryUnused ∧ slot 0 ≠ 0x2E ∧ slot 0 ≠ 0x05 ∧ attributes slot ≠ attrVolumeId ∧
    attributes slot ≠ attrLongName

instance (slot : Bytes) : Decidable (Listed slot) := inferInstanceAs (Decidable (_ ∧ _))

/-- The slots in front of the end mark. -/
def slotsInUse (v : Volume) (s : State) (ps : List Place) : List Place :=
  ps.takeWhile fun p => slotOf v s p 0 ≠ entryEnd

/-- The entries of a directory. -/
def liveSlots (v : Volume) (s : State) (ps : List Place) : List Place :=
  (slotsInUse v s ps).filter fun p => Listed (slotOf v s p)

/-- The scan of `GetDirectoryEntries` over some slots. -/
def scanPlaces (v : Volume) (s : State) (ps : List Place) (sc : Scan) : Scan ⊕ Scan :=
  foldStop (fun p => scanSlot (slotOf v s p) p.sector p.offset) ps sc

/-- What a scan has found, whether it met the end mark or not. -/
def scanResults : Scan ⊕ Scan → List FATEntryInfo
  | .inl sc => sc.results
  | .inr sc => sc.results

/-- What the scan of a directory finds. -/
def listing (v : Volume) (s : State) (ps : List Place) : List FATEntryInfo :=
  scanResults (scanPlaces v s ps ⟨[], []⟩)

/-- The name a scan gives to an entry. -/
def scanName (sc : Scan) (entry : Bytes) : List UInt8 :=
  if sc.lfnEntries ≠ [] then parseLFNEntries sc.lfnEntries entry else parseShortFilename entry

/-- A slot that the driver takes for a part of a long name. -/
def IsLongName (slot : Bytes) : Prop :=
  slot 0 ≠ entryUnused ∧ slot 0 ≠ 0x2E ∧ slot 0 ≠ 0x05 ∧ attributes slot = attrLongName

instance (slot : Bytes) : Decidable (IsLongName slot) := inferInstanceAs (Decidable (_ ∧ _))

/-- The long-name slots that wait for their entry after a slot that is no entry. -/
def pending (slot : Bytes) (lfnEntries : List Bytes) : List Bytes :=
  if IsLongName slot then lfnEntries ++ [slot] else lfnEntries

/-- A slot that is no entry adds nothing to the results. -/
theorem scanSlot_of_not_listed (hend : entry 0 ≠ entryEnd) (h : ¬ Listed entry) (sector offset : ℕ)
    (sc : Scan) :
    scanSlot entry sector offset sc = .inl ⟨sc.results, pending entry sc.lfnEntries⟩ := by
  rw [scanSlot, if_neg hend, pending]
  by_cases h₁ : entry 0 = entryUnused
  · rw [if_pos h₁, if_neg fun hl => hl.1 h₁]
  by_cases h₂ : entry 0 = 0x2E
  · rw [if_neg h₁, if_pos h₂, if_neg fun hl => hl.2.1 h₂]
  by_cases h₃ : entry 0 = 0x05
  · rw [if_neg h₁, if_neg h₂, if_pos h₃, if_neg fun hl => hl.2.2.1 h₃]
  by_cases h₄ : attributes entry = attrVolumeId
  · rw [if_neg h₁, if_neg h₂, if_neg h₃, if_pos h₄, if_neg]
    intro hl
    rw [hl.2.2.2] at h₄
    cases h₄
  by_cases h₅ : attributes entry = attrLongName
  · rw [if_neg h₁, if_neg h₂, if_neg h₃, if_neg h₄, if_pos h₅, if_pos ⟨h₁, h₂, h₃, h₅⟩]
  · exact absurd ⟨h₁, h₂, h₃, h₄, h₅⟩ h

/-- An entry is added to the results. -/
theorem scanSlot_of_listed (hend : entry 0 ≠ entryEnd) (h : Listed entry) (sector offset : ℕ)
    (sc : Scan) :
    scanSlot entry sector offset sc =
      .inl ⟨sc.results ++ [⟨entry, scanName sc entry, sector, offset⟩], []⟩ := by
  obtain ⟨h₁, h₂, h₃, h₄, h₅⟩ := h
  rw [scanSlot, if_neg hend, if_neg h₁, if_neg h₂, if_neg h₃, if_neg h₄, if_neg h₅]
  rfl

/-- The end mark ends the scan. -/
theorem scanSlot_of_end (h : entry 0 = entryEnd) (sector offset : ℕ) (sc : Scan) :
    scanSlot entry sector offset sc = .inr sc := if_pos h

variable {q : Place}

section Cons

variable {v : Volume} {s : State} {p : Place} {ps : List Place}

/-- No slot is in use from the end mark on. -/
theorem slotsInUse_cons_end (h : slotOf v s p 0 = entryEnd) : slotsInUse v s (p :: ps) = [] := by
  simp [slotsInUse, h]

/-- A slot in front of the end mark is in use. -/
theorem slotsInUse_cons (h : slotOf v s p 0 ≠ entryEnd) :
    slotsInUse v s (p :: ps) = p :: slotsInUse v s ps := by
  simp [slotsInUse, h]

/-- No entry is live from the end mark on. -/
theorem liveSlots_cons_end (h : slotOf v s p 0 = entryEnd) : liveSlots v s (p :: ps) = [] := by
  simp [liveSlots, slotsInUse_cons_end h]

/-- A slot in front of the end mark is live if it is listed. -/
theorem liveSlots_cons (h : slotOf v s p 0 ≠ entryEnd) :
    liveSlots v s (p :: ps) =
      if Listed (slotOf v s p) then p :: liveSlots v s ps else liveSlots v s ps := by
  simp [liveSlots, slotsInUse_cons h, List.filter_cons]

/-- A live slot is one of the directory. -/
theorem mem_of_mem_liveSlots (h : q ∈ liveSlots v s ps) : q ∈ ps :=
  (List.takeWhile_subset _) (List.mem_of_mem_filter h)

/-- An entry is neither an end mark nor a skipped slot. -/
theorem listed_of_mem_liveSlots (h : q ∈ liveSlots v s ps) :
    slotOf v s q 0 ≠ entryEnd ∧ Listed (slotOf v s q) := by
  obtain ⟨huse, hlisted⟩ := List.mem_filter.mp h
  exact ⟨by simpa using List.mem_takeWhile_imp huse, by simpa using hlisted⟩

end Cons

/-- The scan finds the entries of a directory, in order and with their bytes. -/
theorem map_scanResults (v : Volume) (s : State) (ps : List Place) (sc : Scan) :
    (scanResults (scanPlaces v s ps sc)).map (fun item => (item.place, item.entry)) =
      sc.results.map (fun item => (item.place, item.entry)) ++
        (liveSlots v s ps).map fun p => (p, slotOf v s p) := by
  induction ps generalizing sc with
  | nil => simp [scanPlaces, foldStop, scanResults, liveSlots, slotsInUse]
  | cons p ps ih =>
    rw [scanPlaces, foldStop]
    by_cases hend : slotOf v s p 0 = entryEnd
    · rw [scanSlot_of_end hend, liveSlots_cons_end hend]
      simp [scanResults]
    · rw [liveSlots_cons hend]
      by_cases hlisted : Listed (slotOf v s p)
      · rw [scanSlot_of_listed hend hlisted, if_pos hlisted]
        apply (ih _).trans
        simp [FATEntryInfo.place]
      · rw [scanSlot_of_not_listed hend hlisted, if_neg hlisted]
        exact ih _

/-- A scanned entry is an entry of the directory. -/
theorem of_mem_listing {v : Volume} {s : State} {ps : List Place} {item : FATEntryInfo}
    (h : item ∈ listing v s ps) :
    item.place ∈ liveSlots v s ps ∧ item.entry = slotOf v s item.place := by
  have hmap := map_scanResults v s ps ⟨[], []⟩
  have hmem : (item.place, item.entry) ∈ (liveSlots v s ps).map fun p => (p, slotOf v s p) := by
    rw [List.map_nil, List.nil_append] at hmap
    rw [← hmap]
    exact List.mem_map_of_mem h
  obtain ⟨p, hp, heq⟩ := List.mem_map.mp hmem
  injection heq with hplace hentry
  rw [← hplace, ← hentry]
  exact ⟨hp, rfl⟩

section Amend

/-- The checksum depends on the name bytes. -/
theorem checksum_congr (h : ∀ i < 11, a i = b i) : checksum a = checksum b := by
  apply List.foldl_ext
  intro sum i hi
  rw [h i (List.mem_range.mp hi)]

/-- The length depends on the characters of the field. -/
theorem trimmedLength_congr {n : ℕ} (h : ∀ i < n, a i = b i) :
    trimmedLength a n = trimmedLength b n := by
  induction n with
  | zero => rfl
  | succ n ih => rw [trimmedLength, trimmedLength, h n (by omega), ih fun i hi => h i (by omega)]

/-- The length is that of the field at most. -/
theorem trimmedLength_le (a : Bytes) (n : ℕ) : trimmedLength a n ≤ n := by
  induction n with
  | zero => exact le_refl _
  | succ n ih =>
    rw [trimmedLength]
    split <;> omega

/-- The short name depends on the name bytes. -/
theorem parseShortFilename_congr (h : ∀ i < 11, a i = b i) :
    parseShortFilename a = parseShortFilename b := by
  have hmain := trimmedLength_le a 8
  have hext := trimmedLength_le (a.shift 8) 3
  have hblit : nameBuffer.blit 0 a (trimmedLength a 8) = nameBuffer.blit 0 b (trimmedLength a 8) :=
    Bytes.blit_congr fun i hi => h i (by omega)
  have hblit' (dst : Bytes) (offset : ℕ) : dst.blit offset (a.shift 8) (trimmedLength (a.shift 8) 3) =
      dst.blit offset (b.shift 8) (trimmedLength (a.shift 8) 3) :=
    Bytes.blit_congr fun i hi => h (8 + i) (by omega)
  unfold parseShortFilename shortBlock
  dsimp only
  rw [hblit, hblit', trimmedLength_congr fun i (hi : i < 8) => h i (by omega),
    trimmedLength_congr (a := a.shift 8) (b := b.shift 8) fun i (hi : i < 3) => h (8 + i) (by omega)]

/-- The name of an entry depends on its name bytes. -/
theorem scanName_congr (h : ∀ i < 11, a i = b i) (sc : Scan) :
    scanName sc a = scanName sc b := by
  unfold scanName parseLFNEntries
  rw [checksum_congr h, parseShortFilename_congr h]

variable {v : Volume} {s u : State} {p : Place} {new : Bytes}

/-- An entry of a listing after the slot at `p` was rewritten. -/
def amend (p : Place) (new : Bytes) (item : FATEntryInfo) : FATEntryInfo :=
  if item.place = p then { item with entry := new } else item

/-- The name is kept. -/
theorem amend_filename (p : Place) (new : Bytes) (item : FATEntryInfo) :
    (amend p new item).filename = item.filename := by
  unfold amend
  split <;> rfl

/-- A scan with amended results. -/
def Scan.amend (p : Place) (new : Bytes) (sc : Scan) : Scan :=
  ⟨sc.results.map (Fat.amend p new), sc.lfnEntries⟩

/-- One slot of a directory in which the entry at `p` was rewritten without its name and
attributes. -/
theorem scanSlot_amend (hslot : slotOf v u q = if q = p then new else slotOf v s q)
    (hkeep : ∀ i < 12, new i = slotOf v s p i) (hlisted : Listed (slotOf v s p)) (sc : Scan) :
    scanSlot (slotOf v u q) q.sector q.offset (sc.amend p new) =
      Sum.map (Scan.amend p new) (Scan.amend p new) (scanSlot (slotOf v s q) q.sector q.offset sc) := by
  by_cases hqp : q = p
  · rw [if_pos hqp] at hslot
    subst hqp
    have hfirst : new 0 = slotOf v s q 0 := hkeep 0 (by decide)
    by_cases hend : slotOf v s q 0 = entryEnd
    · rw [scanSlot_of_end hend, scanSlot_of_end (by rw [hslot, hfirst, hend])]
      rfl
    · have hlisted' : Listed new := by
        rw [Listed, hfirst, attributes, hkeep 11 (by decide)]
        exact hlisted
      have hname : scanName (sc.amend q new) new = scanName sc (slotOf v s q) :=
        scanName_congr (fun i hi => hkeep i (by omega)) sc
      rw [hslot, scanSlot_of_listed hend hlisted,
        scanSlot_of_listed (by rw [hfirst]; exact hend) hlisted', hname]
      simp [Scan.amend, Fat.amend, FATEntryInfo.place]
  · rw [if_neg hqp] at hslot
    have hplace {name : List UInt8} : Fat.amend p new ⟨slotOf v s q, name, q.sector, q.offset⟩ =
        ⟨slotOf v s q, name, q.sector, q.offset⟩ := if_neg hqp
    rw [hslot]
    by_cases hend : slotOf v s q 0 = entryEnd
    · rw [scanSlot_of_end hend, scanSlot_of_end hend]
      rfl
    · by_cases hl : Listed (slotOf v s q)
      · have hname : scanName (sc.amend p new) (slotOf v s q) = scanName sc (slotOf v s q) := rfl
        rw [scanSlot_of_listed hend hl, scanSlot_of_listed hend hl, hname]
        simp [Scan.amend, hplace]
      · rw [scanSlot_of_not_listed hend hl, scanSlot_of_not_listed hend hl]
        rfl

/-- The listing of a directory in which one entry was rewritten. -/
theorem listing_amend {ps : List Place}
    (hslot : ∀ q ∈ ps, slotOf v u q = if q = p then new else slotOf v s q)
    (hkeep : ∀ i < 12, new i = slotOf v s p i) (hlisted : Listed (slotOf v s p)) :
    listing v u ps = (listing v s ps).map (amend p new) := by
  have hscan := foldStop_hom (Scan.amend p new) (Scan.amend p new)
    (fun q hq => scanSlot_amend (hslot q hq) hkeep hlisted) ⟨[], []⟩
  change scanPlaces v u ps ⟨[], []⟩ = Sum.map _ _ (scanPlaces v s ps ⟨[], []⟩) at hscan
  rw [listing, listing, hscan]
  cases scanPlaces v s ps ⟨[], []⟩ <;> rfl

end Amend

end Vsos.Fat
