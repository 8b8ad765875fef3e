import Vsos.Fat.SlotSearch
import Vsos.Lib.Overlay

/-!
# Where the slots of a new entry are written

The slots of a long name and the 8.3 entry are written one after the other. In a chain
`WriteLongFilenameEntries` never leaves the sector it starts in: a slot that belongs to the next
sector is stored behind the buffer and never reaches the disk. In the fixed root it moves on to
the next sector, but there it counts the offset from the start of the name, not from the start of
the sector.
-/

namespace Vsos.Fat

open Vsos.Lib

variable {v : Volume} {s t u : State} {place : ℕ → Option Place} {slots : List Bytes}
  {i o sector : ℕ}

/-- From `s` to `t` the listed slots were written, and nothing else was changed by the writes to the
sectors in `A`. -/
structure Puts (v : Volume) (A : ℕ → Prop) (ws : List (Place × Bytes)) (s t : State) : Prop where
  slots : ∀ q, q.Aligned v → slotOf v t q = overlay (slotOf v s) ws q
  data : ∀ a, (∀ w ∈ ws, a ≠ w.1.address v) → t.data a = s.data a
  start : t.startSearchCluster = s.startSearchCluster
  trace : Traces (Event.Confined A) s t

namespace Puts

variable {A : ℕ → Prop} {ws ws' : List (Place × Bytes)}

/-- No slot is written. -/
theorem nil (hdata : t.data = s.data) (hstart : t.startSearchCluster = s.startSearchCluster)
    (htrace : Traces (Event.Confined A) s t) : Puts v A [] s t where
  slots := fun q _ => by
    rw [slotOf, hdata]
    rfl
  data := fun a _ => by rw [hdata]
  start := hstart
  trace := htrace

/-- A call that only reads puts nothing. -/
theorem of_reads (h : Reads v s t) : Puts v A [] s t :=
  .nil h.data h.start (h.alters_of_reads A).trace

/-- Some slots are written, and then others. -/
theorem trans (h : Puts v A ws s t) (h' : Puts v A ws' t u) : Puts v A (ws ++ ws') s u where
  slots := fun q hq => by
    rw [h'.slots q hq, overlay_append]
    exact overlay_congr (h.slots q hq) ws'
  data := fun a ha => by
    rw [h'.data a fun w hw => ha w (List.mem_append_right _ hw),
      h.data a fun w hw => ha w (List.mem_append_left _ hw)]
  start := h'.start.trans h.start
  trace := h.trace.trans h'.trace

/-- Reading after the slots were written. -/
theorem reads (h : Puts v A ws s t) (hreads : Reads v t u) : Puts v A ws s u := by
  have hboth := h.trans (.of_reads hreads)
  rwa [List.append_nil] at hboth

end Puts

section Stores

variable (hwf : v.WellFormed)
include hwf

/-- The bytes of a sector are those of its slots. -/
theorem Volume.WellFormed.bytesPerSector_eq : v.bytesPerSector = 32 * v.slotsPerSector :=
  (Nat.mul_div_cancel' hwf.slots_dvd).symm

/-- A slot is stored in its sector. -/
theorem puts_afterUpdate {p : Place} (hp : p.Aligned v) {new : Bytes} (hnew : IsSlot new)
    {A : ℕ → Prop} (hA : A (p.address v)) (s : State) :
    Puts v A [(p, new)] s (s.afterUpdate v (p.address v) fun b => b.blit p.offset new 32) where
  slots := fun q hq => by
    have hsame : (s.afterUpdate v (p.address v) fun b => b.blit p.offset new 32).data (p.address v) =
        (s.data (p.address v)).blit p.offset new 32 := by
      simp only [State.afterUpdate, Function.update_self]
      exact hwf.blit_blockAt s _ hp.le new
    rw [slotOf_blit hp hq hnew hsame fun hne => Function.update_of_ne hne _ _]
    exact (Function.update_apply ..).symm
  data := fun a ha => Function.update_of_ne (ha _ (List.mem_singleton_self _)) _ _
  start := rfl
  trace := ((alters_afterUpdate v s _ _).mono fun a ha => ha ▸ hA).trace

/-- A slot behind the buffer is lost. -/
theorem puts_behind {offset : ℕ} (h : v.bytesPerSector ≤ offset) {A : ℕ → Prop} {address : ℕ}
    (hA : A address) (new : Bytes) (s : State) :
    Puts v A [] s (s.afterUpdate v address fun b => b.blit offset new 32) := by
  have hblock := hwf.blockSize_eq
  have hsame : (s.data address).blit 0 ((blockAt v s address).blit offset new 32) v.blockSize =
      s.data address := by
    funext i
    by_cases hi : i < v.blockSize
    · rw [Bytes.blit_of_mem (Nat.zero_le _) (by omega), Bytes.blit_of_not_mem (by omega), Nat.sub_zero,
        hwf.blockAt_apply s address (by omega)]
    · rw [Bytes.blit_of_not_mem (by omega)]
  refine Puts.nil ?_ rfl ((alters_afterUpdate v s _ _).mono fun a ha => ha ▸ hA).trace
  simp only [State.afterUpdate, hsame, Function.update_eq_self]

end Stores

/-! ## The slots of a long name -/

/-- The writes of a list of slots, numbered from `i` on, of which some reach the disk. -/
def longWrites (place : ℕ → Option Place) : List Bytes → ℕ → List (Place × Bytes)
  | [], _ => []
  | slot :: rest, i =>
    match place i with
    | some p => (p, slot) :: longWrites place rest (i + 1)
    | none => longWrites place rest (i + 1)

/-- The slots that are written, and where. -/
theorem mem_longWrites {p : Place} {slot : Bytes} :
    (p, slot) ∈ longWrites place slots i ↔ ∃ j, slots[j]? = some slot ∧ place (i + j) = some p := by
  induction slots generalizing i with
  | nil => simp [longWrites]
  | cons first rest ih =>
    have hsplit : (∃ j, (first :: rest)[j]? = some slot ∧ place (i + j) = some p) ↔
        (first = slot ∧ place i = some p) ∨
          ∃ j, rest[j]? = some slot ∧ place (i + 1 + j) = some p := by
      constructor
      · rintro ⟨j, hj, hp⟩
        cases j with
        | zero => exact Or.inl ⟨by simpa using hj, hp⟩
        | succ j => exact Or.inr ⟨j, by simpa using hj, by rwa [Nat.add_assoc, Nat.add_comm 1]⟩
      · rintro (⟨hfirst, hp⟩ | ⟨j, hj, hp⟩)
        · exact ⟨0, by simpa using hfirst, hp⟩
        · exact ⟨j + 1, by simpa using hj, by rwa [Nat.add_assoc, Nat.add_comm 1] at hp⟩
    rw [hsplit, ← ih, longWrites]
    cases place i with
    | none => simp
    | some q => simp [eq_comm, and_comm]

/-- The writes depend on the places from the first one on. -/
theorem longWrites_congr {place' : ℕ → Option Place} (slots : List Bytes)
    (h : ∀ j, i ≤ j → place j = place' j) :
    longWrites place slots i = longWrites place' slots i := by
  induction slots generalizing i with
  | nil => rfl
  | cons slot rest ih => rw [longWrites, longWrites, h i (le_refl i), ih fun j hj => h j (by omega)]

/-- Slots without a place are not written. -/
theorem longWrites_eq_nil (slots : List Bytes) (h : ∀ j, i ≤ j → place j = none) :
    longWrites place slots i = [] := by
  induction slots generalizing i with
  | nil => rfl
  | cons slot rest ih =>
    rw [longWrites, h i (le_refl i)]
    exact ih fun j hj => h j (by omega)

/-- Where slot number `j` of a name goes whose first slot is number `o` of a sector. -/
def longPlace (v : Volume) (fixed : Bool) (sector o j : ℕ) : Option Place :=
  if o + j < v.slotsPerSector then some ⟨sector, 32 * (o + j)⟩
  else if fixed ∧ j < v.slotsPerSector then some ⟨sector + 1, 32 * j⟩
  else none

/-- A slot in the first sector. -/
theorem longPlace_of_lt {fixed : Bool} {j : ℕ} (h : o + j < v.slotsPerSector) :
    longPlace v fixed sector o j = some ⟨sector, 32 * (o + j)⟩ := if_pos h

section WriteLong

variable (hdev : v.AlwaysSucceeds) (hwf : v.WellFormed)
include hdev hwf

/-- Once the offset has left the buffer, no slot reaches the disk. -/
theorem writeLongLoop_behind (targetSector : ℕ) (rootDirectory : Bool) (slots : List Bytes)
    (sector cluster offset : ℕ) (hsmall : offset + (i + slots.length) * 32 < 2 ^ 32)
    (hbehind : v.bytesPerSector ≤ i * 32 ∨
      fixedRoot v rootDirectory = false ∧ v.bytesPerSector ≤ offset + i * 32) {A : ℕ → Prop}
    (hA : slots ≠ [] → ∀ a, A a) (s : State) :
    ∃ t, (writeLongLoop v targetSector rootDirectory slots i sector cluster offset).run s = .ok true t ∧
      Puts v A [] s t := by
  induction slots generalizing i sector cluster offset s with
  | nil => exact ⟨s, rfl, .nil rfl rfl (Traces.refl _ s)⟩
  | cons slot rest ih =>
    rw [List.length_cons] at hsmall
    have hall := hA (by simp)
    have hoffset : wrap32 (offset + i * 32) = offset + i * 32 := wrap32_of_lt (by omega)
    have hle : v.bytesPerSector ≤ offset + i * 32 := by omega
    have hputs := puts_behind hwf hle
      (hall (lba v (scanStart v rootDirectory sector cluster) targetSector)) slot s
    rw [writeLongLoop, hoffset, update_run hdev, if_neg (by simp), if_pos (by omega)]
    generalize s.afterUpdate v _ _ = s' at hputs ⊢
    by_cases hroot : fixedRoot v rootDirectory = true
    · rw [if_pos hroot]
      obtain ⟨t, hrun, hrest⟩ := ih _ _ 0 (i := i + 1) (by omega)
        (Or.inl (by rw [hroot] at hbehind; simp at hbehind; omega)) (fun _ => hall) s'
      exact ⟨t, hrun, hputs.trans hrest⟩
    · have hroot : fixedRoot v rootDirectory = false := by simpa using hroot
      rw [if_neg (by simp [hroot])]
      have hnext : v.bytesPerSector ≤ (i + 1) * 32 ∨
          fixedRoot v rootDirectory = false ∧ v.bytesPerSector ≤ offset + (i + 1) * 32 :=
        Or.inr ⟨hroot, by omega⟩
      split
      · obtain ⟨s'', hread, hreads⟩ := readTable_run hdev.1 cluster s'
        obtain ⟨t, hrun, hrest⟩ := ih _ _ _ (by omega) hnext (fun _ => hall) s''
        rw [bind_of_ok hread]
        exact ⟨t, hrun, (hputs.reads hreads).trans hrest⟩
      · obtain ⟨t, hrun, hrest⟩ := ih _ _ _ (by omega) hnext (fun _ => hall) s'
        exact ⟨t, hrun, hputs.trans hrest⟩

section Sector

variable {rootDirectory : Bool} {targetSector cluster first : ℕ}
  (hstay : scanStart v rootDirectory first cluster = first)
  (haddress : Addressable v (first + targetSector))
include hstay haddress

/-- The slots of a name go to the sector they start in, as far as they belong there. Those that do
not are lost in a chain, and in the fixed root if the name starts with the sector. -/
theorem writeLongLoop_sector (hfixed : fixedRoot v rootDirectory = false ∨ o = 0)
    (hslots : ∀ slot ∈ slots, IsSlot slot) (hsmall : (o + i + slots.length) * 32 < 2 ^ 32)
    {A : ℕ → Prop} (hA : A (v.startLBA + (first + targetSector)))
    (hall : v.slotsPerSector < o + i + slots.length → ∀ a, A a)
    (hscan : scanStart v rootDirectory sector cluster = first) (s : State) :
    ∃ t, (writeLongLoop v targetSector rootDirectory slots i sector cluster (32 * o)).run s =
        .ok true t ∧
      Puts v A (longWrites (longPlace v false (first + targetSector) o) slots i) s t := by
  have hbytes := hwf.bytesPerSector_eq
  have hlost (rest : List Bytes) {j : ℕ} (hj : v.slotsPerSector ≤ o + j) :
      longWrites (longPlace v false (first + targetSector) o) rest j = [] :=
    longWrites_eq_nil rest fun k hk => by
      rw [longPlace, if_neg (by omega), if_neg (by simp)]
  have hbehind {j : ℕ} (hj : v.slotsPerSector ≤ o + j) : v.bytesPerSector ≤ j * 32 ∨
      fixedRoot v rootDirectory = false ∧ v.bytesPerSector ≤ 32 * o + j * 32 := by
    rcases hfixed with hfixed | rfl
    · exact Or.inr ⟨hfixed, by omega⟩
    · exact Or.inl (by omega)
  induction slots generalizing i sector s with
  | nil => exact ⟨s, rfl, .nil rfl rfl (Traces.refl _ s)⟩
  | cons slot rest ih =>
    rw [List.length_cons] at hsmall hall
    by_cases hhere : o + i < v.slotsPerSector
    · have hoffset : wrap32 (32 * o + i * 32) = 32 * (o + i) := by
        rw [wrap32_of_lt (by omega)]
        omega
      have haligned : Place.Aligned v ⟨first + targetSector, 32 * (o + i)⟩ := ⟨o + i, hhere, rfl⟩
      have hputs := puts_afterUpdate hwf haligned (hslots slot List.mem_cons_self) hA s
      rw [Place.address] at hputs
      rw [writeLongLoop, hoffset, hscan, lba_of_addressable haddress, update_run hdev,
        if_neg (by simp), longWrites, longPlace_of_lt hhere]
      generalize s.afterUpdate v _ _ = s' at hputs ⊢
      by_cases hend : v.bytesPerSector ≤ 32 * (o + i) + 32
      · have hnext : v.slotsPerSector ≤ o + (i + 1) := by omega
        have hrest (sector' cluster' offset' : ℕ) (s'' : State)
            (hcase : v.bytesPerSector ≤ (i + 1) * 32 ∨
              fixedRoot v rootDirectory = false ∧ v.bytesPerSector ≤ offset' + (i + 1) * 32)
            (hle : offset' ≤ 32 * o) :=
          writeLongLoop_behind hdev hwf targetSector rootDirectory rest sector' cluster' offset'
            (by omega) hcase
            (fun hne => hall (by have := List.length_pos_of_ne_nil hne; omega)) s''
        simp only [hlost rest hnext]
        rw [if_pos hend]
        by_cases hroot : fixedRoot v rootDirectory = true
        · have hzero : o = 0 := hfixed.resolve_left (by simp [hroot])
          obtain ⟨t, hrun, hlast⟩ := hrest (wrap32 (first + 1)) cluster 0 s'
            (Or.inl (by omega)) (Nat.zero_le _)
          rw [if_pos hroot]
          exact ⟨t, hrun, hputs.trans hlast⟩
        · rw [if_neg hroot]
          split
          · obtain ⟨s'', hread, hreads⟩ := readTable_run hdev.1 cluster s'
            obtain ⟨t, hrun, hlast⟩ := hrest first (tableEntry v s' cluster) (32 * o) s''
              (hbehind hnext) (le_refl _)
            rw [bind_of_ok hread]
            exact ⟨t, hrun, (hputs.reads hreads).trans hlast⟩
          · obtain ⟨t, hrun, hlast⟩ := hrest (wrap32 (first + 1)) cluster (32 * o) s'
              (hbehind hnext) (le_refl _)
            exact ⟨t, hrun, hputs.trans hlast⟩
      · obtain ⟨t, hrun, hlast⟩ := ih (fun slot hslot => hslots slot (List.mem_cons_of_mem _ hslot))
          (i := i + 1) (by omega) (fun h => hall (by omega)) hstay s'
        rw [if_neg hend]
        exact ⟨t, hrun, hputs.trans hlast⟩
    · obtain ⟨t, hrun, hputs⟩ := writeLongLoop_behind hdev hwf targetSector rootDirectory
        (slot :: rest) sector cluster (32 * o) (i := i) (by rw [List.length_cons]; omega) (hbehind (by omega))
        (fun _ => hall (by omega)) s
      exact ⟨t, hrun, by rwa [hlost (slot :: rest) (by omega)]⟩

/-- In the fixed root a name that does not fit into its sector goes on in the next one, at the offset
that its slots would have in a sector it starts. -/
theorem writeLongLoop_root (hroot : fixedRoot v rootDirectory = true)
    (hnext : Addressable v (first + 1 + targetSector)) (hslots : ∀ slot ∈ slots, IsSlot slot)
    (hsmall : (o + i + slots.length) * 32 < 2 ^ 32) {A : ℕ → Prop}
    (hA : A (v.startLBA + (first + targetSector)))
    (hall : v.slotsPerSector < o + i + slots.length → ∀ a, A a) (ho : o + i < v.slotsPerSector)
    (hscan : scanStart v rootDirectory sector cluster = first) (s : State) :
    ∃ t, (writeLongLoop v targetSector rootDirectory slots i sector cluster (32 * o)).run s =
        .ok true t ∧
      Puts v A (longWrites (longPlace v true (first + targetSector) o) slots i) s t := by
  have hbytes := hwf.bytesPerSector_eq
  induction slots generalizing i sector s with
  | nil => exact ⟨s, rfl, .nil rfl rfl (Traces.refl _ s)⟩
  | cons slot rest ih =>
    rw [List.length_cons] at hsmall hall
    have hrest := fun slot hslot => hslots slot (List.mem_cons_of_mem _ hslot)
    have hoffset : wrap32 (32 * o + i * 32) = 32 * (o + i) := by
      rw [wrap32_of_lt (by omega)]
      omega
    have haligned : Place.Aligned v ⟨first + targetSector, 32 * (o + i)⟩ := ⟨o + i, ho, rfl⟩
    have hputs := puts_afterUpdate hwf haligned (hslots slot List.mem_cons_self) hA s
    rw [Place.address] at hputs
    rw [writeLongLoop, hoffset, hscan, lba_of_addressable haddress, update_run hdev,
      longWrites, longPlace_of_lt ho]
    generalize s.afterUpdate v _ _ = s' at hputs ⊢
    by_cases hend : v.bytesPerSector ≤ 32 * (o + i) + 32
    · have hwrap : wrap32 (first + 1) = first + 1 := wrap32_of_lt (by have := hnext.1; omega)
      have hstay' : scanStart v rootDirectory (first + 1) cluster = first + 1 := by
        simp [scanStart, hroot]
      have hplaces : longWrites (longPlace v true (first + targetSector) o) rest (i + 1) =
          longWrites (longPlace v false (first + 1 + targetSector) 0) rest (i + 1) := by
        apply longWrites_congr
        intro j hj
        rw [longPlace, longPlace, if_neg (by omega), Nat.add_right_comm]
        simp
      rw [if_pos hend, if_pos hroot, hwrap]
      simp only [hplaces]
      cases rest with
      | nil =>
        exact ⟨s', rfl, hputs.trans (.nil rfl rfl (Traces.refl _ s'))⟩
      | cons second rest =>
        have hall' := hall (by rw [List.length_cons]; omega)
        obtain ⟨t, hrun, hlast⟩ := writeLongLoop_sector hdev hwf hstay' hnext (Or.inr rfl)
          hrest (i := i + 1) (by omega) (hall' _) (fun _ => hall') hstay' s'
        exact ⟨t, hrun, hputs.trans hlast⟩
    · obtain ⟨t, hrun, hlast⟩ := ih hrest (i := i + 1) (by omega) (fun h => hall (by omega)) (by omega) hstay s'
      rw [if_neg hend]
      exact ⟨t, hrun, hputs.trans hlast⟩

end Sector

end WriteLong

/-! ## The contents of the slots -/

/-- A slot of a long name has nothing behind its 32 bytes. -/
theorem isSlot_lfnEntry (name : List UInt8) (num n : ℕ) (sum : UInt8) :
    IsSlot (lfnEntry name num n sum) := by
  intro i hi
  have hnone : (List.range 13).find? (fun k => lfnCharOffset k = i) = none := by
    rw [List.find?_eq_none]
    intro k hk
    have hk := List.mem_range.mp hk
    have hlt : lfnCharOffset k < 32 := by
      unfold lfnCharOffset
      split
      · omega
      · split <;> omega
    simp only [decide_eq_true_eq]
    omega
  rw [lfnEntry, if_neg (by omega), if_neg (by omega), if_neg (by omega), hnone]

/-- A long-name slot has 32 bytes. -/
theorem isSlot_of_mem_createLFNEntries {name : List UInt8} {num : ℕ} {sum : UInt8} {slot : Bytes}
    (h : slot ∈ createLFNEntriesFromName name num sum) : IsSlot slot := by
  rw [createLFNEntriesFromName, List.mem_reverse] at h
  obtain ⟨n, -, rfl⟩ := List.mem_map.mp h
  exact isSlot_lfnEntry name num n sum

section NewEntry

variable (shortName : Bytes) (attr targetCluster date time : ℕ)

/-- The name of a new entry. -/
theorem newDirectoryEntry_name (hi : i < 11) :
    newDirectoryEntry shortName attr targetCluster date time i = shortName i := by
  simp (disch := omega) only [newDirectoryEntry, Bytes.setU16_of_not_mem, Bytes.setU8_ne]
  rw [Bytes.blit_of_mem (Nat.zero_le i) (by omega), Nat.sub_zero]

/-- A new 8.3 entry has 32 bytes. -/
theorem isSlot_newDirectoryEntry : IsSlot (newDirectoryEntry shortName attr targetCluster date time) := by
  intro i hi
  simp (disch := omega) only [newDirectoryEntry, Bytes.setU16_of_not_mem, Bytes.setU8_ne]
  rw [Bytes.blit_of_not_mem (by omega)]

/-- A new entry leads to its cluster. -/
theorem getCluster_newDirectoryEntry (h : targetCluster < 2 ^ 32) :
    getCluster (newDirectoryEntry shortName attr targetCluster date time) = targetCluster := by
  have hword (b : Bytes) (i : ℕ) (hi : i = 20 ∨ i = 26) :
      (((((((b.setU8 11 attr).setU16 16 date).setU16 14 time).setU8 13 100).setU16 18 date).setU16 24
        date).setU16 22 time).u16 i = b.u16 i := by
    rw [Bytes.u16, Bytes.u16]
    simp (disch := omega) only [Bytes.setU16_of_not_mem, Bytes.setU8_ne]
  rw [getCluster, newDirectoryEntry, hword _ 26 (Or.inr rfl), hword _ 20 (Or.inl rfl),
    Bytes.u16_setU16_of_disjoint (by omega), Bytes.u16_setU16, Bytes.u16_setU16]
  omega

end NewEntry

/-! ## The 8.3 entry -/

section Entry

/-- Slot number `j` of the sector with number `a` of a chain. -/
theorem chainPlaces_sector (hpos : 0 < v.slotsPerSector) (l : List ℕ) (a : ℕ) {j : ℕ}
    (hj : j < v.slotsPerSector) :
    (chainPlaces v l)[a * v.slotsPerSector + j]? =
      (l[a / v.sectorsPerCluster]?).map fun c => ⟨clusterSector v c (a % v.sectorsPerCluster), 32 * j⟩ := by
  obtain ⟨hdiv, hmod⟩ := block_div_mod hj
  have hcluster : (a * v.slotsPerSector + j) / v.slotsPerCluster = a / v.sectorsPerCluster := by
    rw [Geometry.slotsPerCluster, Nat.mul_comm v.sectorsPerCluster, ← Nat.div_div_eq_div_mul, hdiv]
  have hsector : (a * v.slotsPerSector + j) % v.slotsPerCluster / v.slotsPerSector =
      a % v.sectorsPerCluster := by
    rw [Geometry.slotsPerCluster, Nat.mod_mul_left_div_self, hdiv]
  have hslot : (a * v.slotsPerSector + j) % v.slotsPerCluster % v.slotsPerSector = j := by
    rw [Geometry.slotsPerCluster, Nat.mod_mul_left_mod, hmod]
  rw [chainPlaces_getElem? hpos, hcluster]
  simp only [slotPlace, hsector, hslot]
  rfl

/-- The place in a chain that a slot number stands for. -/
theorem chainTarget_eq (v : Volume) (l : List ℕ) (r : ℕ) :
    chainTarget v l r = ⟨l.getD (r / v.slotsPerSector / v.sectorsPerCluster) 0,
      r / v.slotsPerSector % v.sectorsPerCluster, 32 * (r % v.slotsPerSector)⟩ := by
  rw [chainTarget, slotTarget, Geometry.slotsPerCluster, Nat.mod_mul_left_div_self,
    Nat.mod_mul_left_mod, Nat.mul_comm, ← Nat.div_div_eq_div_mul]

/-- The slot that the 8.3 entry gets behind `count` slots of a long name that starts at slot `r`: the
sector may be left once. -/
def entrySlot (v : Volume) (r count : ℕ) : ℕ :=
  if r % v.slotsPerSector + count < v.slotsPerSector then
    r / v.slotsPerSector * v.slotsPerSector + (r % v.slotsPerSector + count)
  else
    (r / v.slotsPerSector + 1) * v.slotsPerSector + (r % v.slotsPerSector + count) % v.slotsPerSector

/-- A run inside one sector is followed by its entry, also if the entry starts the next sector. -/
theorem entrySlot_of_le {r count : ℕ}
    (h : r % v.slotsPerSector + count ≤ v.slotsPerSector) : entrySlot v r count = r + count := by
  have hsplit := Nat.div_add_mod' r v.slotsPerSector
  unfold entrySlot
  split
  · omega
  · have heq : r % v.slotsPerSector + count = v.slotsPerSector := by omega
    rw [heq, Nat.mod_self, Nat.add_mul]
    omega

variable (hdev : v.AlwaysSucceeds) (hwf : v.WellFormed)
include hdev hwf

/-- `CreateEntry` finds the slot of the 8.3 entry in a chain without another cluster. -/
theorem entryPlace_chain (hwhole : WholeEntries v) {rootDirectory : Bool}
    (hroot : fixedRoot v rootDirectory = false) {c count r : ℕ} {l : List ℕ} {target : Target}
    {p : ℕ → Prop} (hl : FileChain v s c l) (hfound : FoundIn v p (count + 1) l target r)
    (hcount : count < 2 ^ 16) :
    ∃ place t, (entryPlace v target count rootDirectory).run s = .ok place t ∧ Reads v s t ∧
      Addressable v place.1 ∧ (chainPlaces v l)[entrySlot v r count]? = some ⟨place.1, place.2⟩ := by
  have hpos := hwf.slotsPerSector_pos
  have hbytes := hwf.bytesPerSector_eq
  have hbytes' := v.bytesPerSector_lt
  have hspc := v.sectorsPerCluster_pos
  have hspc' := v.sectorsPerCluster_lt
  have hinside := hfound.inside
  have hmod := Nat.mod_lt r hpos
  have hsplit := Nat.div_add_mod' r v.slotsPerSector
  set a := r / v.slotsPerSector with ha
  set j := r % v.slotsPerSector with hj
  have hmul (m : ℕ) : m * v.slotsPerCluster = m * v.sectorsPerCluster * v.slotsPerSector := by
    rw [Geometry.slotsPerCluster, Nat.mul_assoc]
  have hsectors : a < l.length * v.sectorsPerCluster := by
    rw [hmul] at hinside
    exact Nat.lt_of_mul_lt_mul_right (a := v.slotsPerSector) (by omega)
  have hindex : a / v.sectorsPerCluster < l.length := Nat.div_lt_of_lt_mul (by rwa [Nat.mul_comm])
  obtain ⟨x, hx⟩ : ∃ x, l[a / v.sectorsPerCluster]? = some x := ⟨_, List.getElem?_eq_getElem hindex⟩
  have hcluster := hl.isCluster x (List.mem_of_getElem? hx)
  have hi := Nat.mod_lt a hspc
  have htarget : target = ⟨x, a % v.sectorsPerCluster, 32 * j⟩ := by
    rw [hfound.target_eq, chainTarget_eq, List.getD_eq_getElem?_getD, hx]
    rfl
  have hoffset : wrap32 (32 * j + count * 32) = 32 * (j + count) := by
    rw [wrap32_of_lt (by omega)]
    omega
  have hstart := hwf.clusterToSector_eq hcluster
  have hwrap (k : ℕ) (hk : k < v.sectorsPerCluster) :
      wrap32 (clusterSector v x 0 + k) = clusterSector v x k :=
    wrap32_of_lt (hwf.addressable_cluster hcluster hk).1
  rw [entryPlace, htarget]
  rw [hoffset, if_neg (by simp [hroot]), hstart, entrySlot, ← ha]
  by_cases hhere : j + count < v.slotsPerSector
  · rw [if_neg (by omega), if_pos hhere, hwrap _ hi]
    refine ⟨_, s, rfl, Observes.refl v _ s, hwf.addressable_cluster hcluster hi, ?_⟩
    rw [chainPlaces_sector hpos l a hhere, hx]
    rfl
  · have hoff : 32 * (j + count) % v.bytesPerSector = 32 * ((j + count) % v.slotsPerSector) := by
      rw [hbytes, Nat.mul_mod_mul_left]
    have hlast := Nat.mod_lt (j + count) hpos
    have hwrap' : wrap32 (a % v.sectorsPerCluster + 1) = a % v.sectorsPerCluster + 1 :=
      wrap32_of_lt (by omega)
    rw [if_pos (by omega), if_neg hhere, hwrap', hoff, chainPlaces_sector hpos l (a + 1) hlast]
    have hasplit := Nat.div_add_mod' a v.sectorsPerCluster
    by_cases hend : v.sectorsPerCluster ≤ a % v.sectorsPerCluster + 1
    · -- the entry starts the next cluster of the chain
      have hnext : a + 1 = (a / v.sectorsPerCluster + 1) * v.sectorsPerCluster := by
        rw [Nat.add_mul]
        omega
      have hmore : (a / v.sectorsPerCluster + 1) * v.slotsPerCluster < r + (count + 1) := by
        rw [hmul, ← hnext, Nat.add_mul]
        omega
      have hlength : a / v.sectorsPerCluster + 1 < l.length :=
        Nat.lt_of_mul_lt_mul_right (lt_of_lt_of_le hmore hinside)
      have hle : x ≤ v.totalClusters := by
        by_contra hgt
        have hhigh := hcluster.2
        have := hfound.readable _ (by rw [hx]; congr 1; omega)
        omega
      obtain ⟨y, hy⟩ : ∃ y, l[a / v.sectorsPerCluster + 1]? = some y :=
        ⟨_, List.getElem?_eq_getElem hlength⟩
      have hlink : links v s x = y := by
        have hwalk := hl.walks_links (List.ne_nil_of_mem (List.mem_of_getElem? hx))
        rw [List.getElem?_eq_getElem hindex] at hx
        rw [List.getElem?_eq_getElem hlength] at hy
        cases hx
        cases hy
        exact hwalk.next_getElem _ hlength
      have hy' := hl.isCluster y (List.mem_of_getElem? hy)
      have hlt := hwf.clusters_lt
      obtain ⟨t, hread, hreads⟩ := readTable_run hdev.1 x s
      rw [tableEntry_eq_links hwf hwhole s hcluster.1 hle, hlink] at hread
      rw [if_pos hend, bind_of_ok hread, if_neg (by have := hy'.2; omega), hwf.clusterToSector_eq hy']
      refine ⟨_, t, rfl, hreads, hwf.addressable_cluster hy' hspc, ?_⟩
      rw [hnext, Nat.mul_div_cancel _ hspc, Nat.mul_mod_left, hy]
      rfl
    · have heq : a / v.sectorsPerCluster * v.sectorsPerCluster + (a % v.sectorsPerCluster + 1) = a + 1 := by
        omega
      obtain ⟨hdiv, hmod'⟩ := block_div_mod (Nat.not_le.mp hend)
      rw [heq] at hdiv hmod'
      rw [if_neg hend, hwrap _ (by omega), hdiv, hmod', hx]
      exact ⟨_, s, rfl, Observes.refl v _ s, hwf.addressable_cluster hcluster (by omega), rfl⟩

end Entry

end Vsos.Fat
