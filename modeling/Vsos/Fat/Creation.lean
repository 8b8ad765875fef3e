import Vsos.Fat.Entering
import Vsos.Fat.WriteFile

/-!
# Where the slots of a new name end up

A creating call overwrites slots that were free, and its long-name slots and its 8.3 entry follow
each other in the directory, only if the slots that were found do not leave their sector: the slots
of a long name that belong to the next sector are lost in a chain of clusters, and end up at a wrong
offset in a fixed root. In a fixed root the slots must lie in the first sector, since the writers
count from the start of the directory and not from the sector that was found.
-/

namespace Vsos.Fat

open Vsos.Lib

variable {v : Volume} {s t u : State} {place : ℕ → Option Place} {p pe : Place}
  {entry' slot : Bytes} {k : ℕ}

/-! ## The slots that are written -/

/-- The characters that a name may have. -/
def IsPrintable (c : UInt8) : Prop := 0x20 ≤ c ∧ c ≤ 0x7E

instance (c : UInt8) : Decidable (IsPrintable c) := inferInstanceAs (Decidable (_ ∧ _))

/-- The first byte of a long-name slot holds its number, and is never that of a free slot. -/
theorem lfnEntry_first (name : List UInt8) (num : ℕ) {n : ℕ} (hn : n < 20) (sum : UInt8) :
    (lfnEntry name num n sum 0 &&& 0x1F).toNat = n + 1 ∧ slotFree (lfnEntry name num n sum) = false := by
  have hboth : ∀ n < 20, ∀ flag ∈ [(0x40 : UInt8), 0], ((UInt8.ofNat (n + 1) ||| flag) &&& 0x1F).toNat = n + 1 ∧
      (UInt8.ofNat (n + 1) ||| flag) ≠ entryEnd ∧ (UInt8.ofNat (n + 1) ||| flag) ≠ entryUnused := by
    decide +kernel
  have hbyte : lfnEntry name num n sum 0 = UInt8.ofNat (n + 1) ||| (if n + 1 = num then 0x40 else 0) :=
    if_pos rfl
  obtain ⟨hnumber, hend, hunused⟩ := hboth n hn (if n + 1 = num then 0x40 else 0) (by split <;> simp)
  rw [← hbyte] at hnumber hend hunused
  exact ⟨hnumber, by simp [slotFree, hend, hunused]⟩

/-- The attributes of a long-name slot. -/
theorem attributes_lfnEntry (name : List UInt8) (num n : ℕ) (sum : UInt8) :
    attributes (lfnEntry name num n sum) = attrLongName := rfl

/-- The slots of a long name, from the last part of the name to the first. -/
theorem nameSlots_getElem? (name : List UInt8) (shortName : Bytes) (j : ℕ) :
    (nameSlots name shortName)[j]? = if j < requiredLFNEntries (name.length % 256) then
      some (lfnEntry name (requiredLFNEntries (name.length % 256))
        (requiredLFNEntries (name.length % 256) - 1 - j) (checksum shortName)) else none := by
  split
  · next hj =>
    rw [nameSlots, createLFNEntriesFromName, List.getElem?_reverse (by simpa using hj), List.length_map,
      List.length_range, List.getElem?_map, List.getElem?_range (by omega)]
    rfl
  · next hj => rw [List.getElem?_eq_none (by rw [length_nameSlots]; omega)]

/-- The short name of a printable name starts like an entry. -/
theorem createShortFilename_first {name : List UInt8} {shortName : Bytes}
    (hshort : createShortFilename name = some shortName) (hchars : ∀ c ∈ name, IsPrintable c) :
    0x20 ≤ shortName 0 ∧ shortName 0 ≤ 0x7E ∧ shortName 0 ≠ 0x2E := by
  have hupper (c : UInt8) (hc : IsPrintable c) (hdot : c ≠ 0x2E) :
      0x20 ≤ uppercase c ∧ uppercase c ≤ 0x7E ∧ uppercase c ≠ 0x2E := by
    obtain ⟨hlow, hhigh⟩ := hc
    unfold uppercase
    split
    · next hcase =>
      have hsub : (c - 32).toNat = c.toNat - 32 := UInt8.toNat_sub_of_le _ _ hlow
      have h₁ : 97 ≤ c.toNat := hcase.1
      have h₂ : c.toNat ≤ 122 := hcase.2
      refine ⟨?_, ?_, fun heq => ?_⟩
      · change 32 ≤ (c - 32).toNat
        omega
      · change (c - 32).toNat ≤ 126
        omega
      · have := congrArg UInt8.toNat heq
        rw [hsub] at this
        change c.toNat - 32 = 46 at this
        omega
    · exact ⟨hlow, hhigh, hdot⟩
  unfold createShortFilename at hshort
  split at hshort
  · cases hshort
  · next dotIndex hfind =>
    cases hshort
    obtain ⟨hlt, -, hbefore⟩ := List.findIdx?_eq_some_iff_getElem.mp hfind
    simp only [show 0 < 8 by decide, show 0 < 6 by decide, if_true]
    by_cases hzero : dotIndex = 0
    · subst hzero
      rw [if_neg (by decide), if_neg (by decide)]
      decide
    · have hfirst : name.getD 0 0 = name[0] := by
        rw [List.getD_eq_getElem?_getD, List.getElem?_eq_getElem (by omega)]
        rfl
      have hdot : name[0] ≠ 0x2E := by simpa using hbefore 0 (by omega)
      have hfacts := hupper name[0] (hchars _ (List.getElem_mem _)) hdot
      rw [hfirst]
      split
      · exact hfacts
      · rw [if_pos (by omega)]
        exact hfacts

/-- The 8.3 entry of a printable name is neither free nor a part of a long name. -/
theorem slotFree_newDirectoryEntry {name : List UInt8} {shortName : Bytes}
    (hshort : createShortFilename name = some shortName) (hchars : ∀ c ∈ name, IsPrintable c)
    (attr new date time : ℕ) : slotFree (newDirectoryEntry shortName attr new date time) = false := by
  obtain ⟨hlow, hhigh, -⟩ := createShortFilename_first hshort hchars
  have hend : shortName 0 ≠ entryEnd := by
    intro heq
    rw [heq] at hlow
    exact absurd hlow (by decide)
  have hunused : shortName 0 ≠ entryUnused := by
    intro heq
    rw [heq] at hhigh
    exact absurd hhigh (by decide)
  simp [slotFree, newDirectoryEntry_name, hend, hunused]

/-- A long name whose slots all have a place. -/
theorem longWrites_eq_zip (ps : List Place) {slots : List Bytes} {i r : ℕ}
    (hplace : ∀ j < slots.length, place (i + j) = ps[r + j]?)
    (hinside : r + slots.length ≤ ps.length) :
    longWrites place slots i = ((ps.drop r).take slots.length).zip slots := by
  induction slots generalizing i r with
  | nil => simp [longWrites]
  | cons slot rest ih =>
    rw [List.length_cons] at hinside hplace
    have hfirst := hplace 0 (by omega)
    rw [Nat.add_zero, Nat.add_zero, List.getElem?_eq_getElem (by omega)] at hfirst
    have hrest := ih (fun j hj => by
      have hj := hplace (j + 1) (by omega)
      rwa [← Nat.add_assoc, ← Nat.add_assoc, Nat.add_right_comm i, Nat.add_right_comm r] at hj) (by omega)
    rw [longWrites, hfirst]
    simp only [hrest]
    rw [List.length_cons, List.drop_eq_getElem_cons (show r < ps.length by omega), List.take_succ_cons, List.zip_cons_cons]

/-! ## Consecutive slots -/

/-- From `s` to `u` the slots in use of a directory with the slots `ps` were kept, and the given
slots were put into consecutive free slots of it; `ps'` are its slots afterwards. -/
structure Neat (v : Volume) (s u : State) (ps ps' : List Place) (slots : List Bytes) : Prop where
  kept : ∀ p ∈ ps, slotFree (slotOf v s p) = false → slotOf v u p = slotOf v s p
  placed : ∃ q, ∀ j slot, slots[j]? = some slot →
    FreeAt v s ps (q + j) ∧ ∃ p, ps'[q + j]? = some p ∧ slotOf v u p = slot

section Neat

variable {ps ps' : List Place} {base : Place → Bytes} {ws : List (Place × Bytes)}
  (hslots : ∀ p ∈ ps', slotOf v u p = overlay base ws p)
  (hbase : ∀ m p, ps'[m]? = some p → FreeAt v s ps m → slotFree (base p) = true)
include hslots hbase

/-- What lies in a slot that was free was written there. -/
theorem mem_writes_of_placed {m : ℕ} (hp : ps'[m]? = some p) (hfree : FreeAt v s ps m)
    (hslot : slotOf v u p = slot) (hused : slotFree slot = false) :
    (p, slot) ∈ ws := by
  have heq := hslots p (List.mem_of_getElem? hp)
  rw [hslot] at heq
  rcases mem_of_overlay base ws p with hmem | hold
  · rwa [← heq] at hmem
  · rw [heq, hold, hbase m p hp hfree] at hused
    cases hused

omit hslots hbase in
/-- A slot of the long name was written as such, at the place for its number. -/
theorem place_of_mem_writes {name : List UInt8} {shortName entry : Bytes}
    (hattr : attributes entry ≠ attrLongName) {j : ℕ}
    (hslot : (nameSlots name shortName)[j]? = some slot)
    (hmem : (p, slot) ∈ longWrites place (nameSlots name shortName) 0 ++ [(pe, entry)]) :
    place j = some p := by
  have hlt := requiredLFNEntries_lt name.length
  rw [nameSlots_getElem?] at hslot
  split at hslot
  · next hj =>
    cases hslot
    rcases List.mem_append.mp hmem with hmem | hmem
    · obtain ⟨j', hslot', hplace⟩ := mem_longWrites.mp hmem
      rw [nameSlots_getElem?] at hslot'
      split at hslot'
      · next hj' =>
        have hsame := Option.some.inj hslot'
        have hnumber := (lfnEntry_first name (requiredLFNEntries (name.length % 256))
          (n := requiredLFNEntries (name.length % 256) - 1 - j) (by omega) (checksum shortName)).1
        rw [← hsame, (lfnEntry_first _ _ (by omega) _).1] at hnumber
        obtain rfl : j' = j := by omega
        rwa [Nat.zero_add] at hplace
      · cases hslot'
    · rw [List.mem_singleton, Prod.mk.injEq] at hmem
      rw [← hmem.2, attributes_lfnEntry] at hattr
      exact absurd rfl hattr
  · cases hslot

omit hslots hbase in
/-- The 8.3 entry was written as such. -/
theorem eq_of_entry_mem_writes {name : List UInt8} {shortName entry : Bytes}
    (hattr : attributes entry' ≠ attrLongName)
    (hmem : (p, entry') ∈ longWrites place (nameSlots name shortName) 0 ++ [(pe, entry)]) :
    p = pe := by
  rcases List.mem_append.mp hmem with hmem | hmem
  · obtain ⟨j, hslot, -⟩ := mem_longWrites.mp hmem
    rw [nameSlots_getElem?] at hslot
    split at hslot
    · cases hslot
      exact absurd (attributes_lfnEntry _ _ _ _) hattr
    · cases hslot
  · rw [List.mem_singleton, Prod.mk.injEq] at hmem
    exact hmem.1

/-- If the slots lie in a row, they were written there. -/
theorem Neat.places {name : List UInt8} {shortName entry : Bytes}
    (hattr : attributes entry ≠ attrLongName) (hattr' : attributes entry' ≠ attrLongName)
    (hentry' : slotFree entry' = false)
    (hws : ws = longWrites place (nameSlots name shortName) 0 ++ [(pe, entry)])
    (h : Neat v s u ps ps' (nameSlots name shortName ++ [entry'])) :
    ∃ q, (∀ j < requiredLFNEntries (name.length % 256), ∃ p, ps'[q + j]? = some p ∧ place j = some p) ∧
      ps'[q + requiredLFNEntries (name.length % 256)]? = some pe ∧
      RunAt (FreeAt v s ps) (requiredLFNEntries (name.length % 256) + 1) q := by
  have hlt := requiredLFNEntries_lt name.length
  have hlength := length_nameSlots name shortName
  obtain ⟨q, hplaced⟩ := h.placed
  have hslot (j : ℕ) (hj : j < requiredLFNEntries (name.length % 256)) :
      (nameSlots name shortName ++ [entry'])[j]? = (nameSlots name shortName)[j]? :=
    List.getElem?_append_left (by rwa [hlength])
  have hlast : (nameSlots name shortName ++ [entry'])[requiredLFNEntries (name.length % 256)]? = some entry' := by
    rw [List.getElem?_append_right (by omega), hlength, Nat.sub_self]
    rfl
  refine ⟨q, fun j hj => ?_, ?_, fun k hk => ?_⟩
  · have hthis := nameSlots_getElem? name shortName j
    rw [if_pos hj] at hthis
    obtain ⟨hfree, p, hp, hput⟩ := hplaced j _ ((hslot j hj).trans hthis)
    have hmem := mem_writes_of_placed hslots hbase hp hfree hput (lfnEntry_first _ _ (by omega) _).2
    rw [hws] at hmem
    exact ⟨p, hp, place_of_mem_writes hattr hthis hmem⟩
  · obtain ⟨hfree, p, hp, hput⟩ := hplaced _ _ hlast
    have hmem := mem_writes_of_placed hslots hbase hp hfree hput hentry'
    rw [hws] at hmem
    rw [hp, eq_of_entry_mem_writes hattr' hmem]
  · obtain ⟨slot, hget⟩ : ∃ slot, (nameSlots name shortName ++ [entry'])[k]? = some slot :=
      ⟨_, List.getElem?_eq_getElem (by simp [hlength]; omega)⟩
    exact (hplaced k slot hget).1

end Neat

section Suffices

variable {ps ps' : List Place} {base : Place → Bytes} {slots : List Bytes} {q : ℕ}
  (hnodup : ps'.Nodup)
  (hslots : ∀ p ∈ ps', slotOf v u p = overlay base (((ps'.drop q).take slots.length).zip slots) p)
include hnodup hslots

/-- A slot behind or in front of the written ones. -/
theorem slotOf_of_not_written {m : ℕ} (hp : ps'[m]? = some p) (hm : m < q ∨ q + slots.length ≤ m) :
    slotOf v u p = base p := by
  rw [hslots p (List.mem_of_getElem? hp)]
  apply overlay_of_not_mem
  rw [List.map_fst_zip (List.length_take_le _ _)]
  intro hmem
  obtain ⟨k, hk⟩ := List.mem_iff_getElem?.mp hmem
  rw [List.getElem?_take] at hk
  split at hk
  · next hlt =>
    rw [List.getElem?_drop] at hk
    have := (List.getElem?_inj (List.getElem?_eq_some_iff.mp hp).1 hnodup).mp (hp.trans hk.symm)
    omega
  · cases hk

/-- The written slots. -/
theorem slotOf_of_written (hp : ps'[q + k]? = some p) (hslot : slots[k]? = some slot) :
    slotOf v u p = slot := by
  have hk := (List.getElem?_eq_some_iff.mp hslot).1
  rw [hslots p (List.mem_of_getElem? hp)]
  refine overlay_zip base ?_ (List.length_take_le _ _) ?_ hslot
  · exact hnodup.sublist ((List.take_sublist _ _).trans (List.drop_sublist _ _))
  · rw [List.getElem?_take_of_lt hk, List.getElem?_drop, hp]

/-- Slots that are written to a run of free ones lie in a row, and the slots in use are kept. -/
theorem neat_of_run (hinside : q + slots.length ≤ ps'.length)
    (hrun : RunAt (FreeAt v s ps) slots.length q) (hold : ∀ (m : ℕ) (p : Place), ps[m]? = some p → ps'[m]? = some p)
    (hbase : ∀ p ∈ ps, base p = slotOf v s p) :
    Neat v s u ps ps' slots where
  kept := by
    intro p hp hused
    obtain ⟨m, hm⟩ := List.mem_iff_getElem?.mp hp
    rw [slotOf_of_not_written hnodup hslots (hold m p hm), hbase p hp]
    by_contra hbetween
    have hfree := hrun (m - q) (by omega) p
    rw [Nat.add_sub_cancel' (by omega), hused] at hfree
    exact absurd (hfree hm) (by simp)
  placed := by
    refine ⟨q, fun j slot hslot => ?_⟩
    have hj := (List.getElem?_eq_some_iff.mp hslot).1
    obtain ⟨p, hp⟩ : ∃ p, ps'[q + j]? = some p := ⟨_, List.getElem?_eq_getElem (by omega)⟩
    exact ⟨hrun j hj, p, hp, slotOf_of_written hnodup hslots hp hslot⟩

end Suffices

/-! ## The two kinds of directories -/

section Chain

variable {c r new : ℕ} {l ns : List ℕ} {name : List UInt8} {shortName entry : Bytes} {q : Place}
  (hwf : v.WellFormed)
  (h : Enters v s u c l ns new r (requiredLFNEntries (name.length % 256))
    (longWrites (chainPlace v (l ++ ns) r) (nameSlots name shortName) 0 ++ [(q, entry)]))
  (hq : (chainPlaces v (l ++ ns))[entrySlot v r (requiredLFNEntries (name.length % 256))]? = some q)
include hwf h

/-- The slots of the parent directory afterwards are different places. -/
theorem Enters.nodup_places : (chainPlaces v (l ++ ns)).Nodup := by
  refine chainPlaces_nodup hwf.slotsPerSector_pos ?_ h.chain.isCluster
  rcases h.chain with ⟨-, hnil⟩ | hchain
  · rw [hnil]
    exact List.nodup_nil
  · exact hchain.1.nodup

include hq in
/-- If the run does not leave its sector, the slots are written one behind the other. -/
theorem Enters.writes_eq (hfits : r % v.slotsPerSector + requiredLFNEntries (name.length % 256) ≤
      v.slotsPerSector) :
    longWrites (chainPlace v (l ++ ns) r) (nameSlots name shortName) 0 ++ [(q, entry)] =
      (((chainPlaces v (l ++ ns)).drop r).take (nameSlots name shortName ++ [entry]).length).zip
        (nameSlots name shortName ++ [entry]) := by
  have hlength := length_nameSlots name shortName
  have hinside := h.inside
  rw [← length_chainPlaces hwf.slotsPerSector_pos] at hinside
  rw [entrySlot_of_le hfits, List.getElem?_eq_getElem (by omega)] at hq
  rw [longWrites_eq_zip (chainPlaces v (l ++ ns)) (r := r) (fun j hj => ?_) (by omega),
    List.length_append, List.length_singleton, List.take_add_one, List.getElem?_drop, hlength,
    List.getElem?_eq_getElem (by omega), ← Option.some.inj hq, Option.toList_some,
    List.zip_append (by rw [List.length_take, List.length_drop]; omega)]
  · rfl
  · rw [Nat.zero_add, chainPlace, if_pos (by omega)]

/-- In a chain of clusters the slots lie in a row only if those of the long name do not leave their
sector. -/
theorem Enters.fits_of_neat (hzero : name.length % 256 ≠ 0)
    (hattr : attributes entry ≠ attrLongName) (hattr' : attributes entry' ≠ attrLongName)
    (hentry' : slotFree entry' = false)
    (hneat : Neat v s u (chainPlaces v l) (chainPlaces v (l ++ ns))
      (nameSlots name shortName ++ [entry'])) :
    r % v.slotsPerSector + requiredLFNEntries (name.length % 256) ≤ v.slotsPerSector := by
  have hone := requiredLFNEntries_pos hzero
  have hbase : ∀ m p, (chainPlaces v (l ++ ns))[m]? = some p → FreeAt v s (chainPlaces v l) m →
      slotFree (grownSlot v s l p) = true := by
    intro m p hp hfree
    by_cases hm : m < (chainPlaces v l).length
    · rw [chainPlaces_append, List.getElem?_append_left hm] at hp
      rw [grownSlot, if_pos (List.mem_of_getElem? hp)]
      exact hfree p hp
    · have hnot : p ∉ chainPlaces v l := by
        intro hmem
        obtain ⟨k, hk⟩ := List.mem_iff_getElem?.mp hmem
        have hk' := (List.getElem?_eq_some_iff.mp hk).1
        have heq : (chainPlaces v (l ++ ns))[k]? = some p := by
          rw [chainPlaces_append, List.getElem?_append_left hk', hk]
        have := (List.getElem?_inj (List.getElem?_eq_some_iff.mp hp).1 (h.nodup_places hwf)).mp
          (hp.trans heq.symm)
        omega
      rw [grownSlot, if_neg hnot]
      rfl
  obtain ⟨q', hplaces, -⟩ := hneat.places h.slots hbase hattr hattr' hentry' rfl
  obtain ⟨p, -, hp⟩ := hplaces (requiredLFNEntries (name.length % 256) - 1) (by omega)
  rw [chainPlace] at hp
  split at hp
  · omega
  · cases hp

include hq in
/-- If they do not, the slots lie in a row. -/
theorem Enters.neat_of_fits (hfits : r % v.slotsPerSector + requiredLFNEntries (name.length % 256) ≤
      v.slotsPerSector) :
    Neat v s u (chainPlaces v l) (chainPlaces v (l ++ ns)) (nameSlots name shortName ++ [entry]) := by
  have hlength := length_nameSlots name shortName
  have hinside := h.inside
  rw [← length_chainPlaces hwf.slotsPerSector_pos] at hinside
  have hslots := h.slots
  rw [h.writes_eq hwf hq hfits] at hslots
  refine neat_of_run (h.nodup_places hwf) hslots (by simp [hlength]; omega) ?_ (fun m p hp => ?_)
    fun p hp => if_pos hp
  · rw [List.length_append, hlength]
    exact h.first.run
  · rw [chainPlaces_append, List.getElem?_append_left (List.getElem?_eq_some_iff.mp hp).1, hp]

end Chain

section Root

variable (hwf : v.WellFormed)
include hwf

/-- The slots of the fixed root by their numbers. -/
theorem rootPlaces_getElem? (m : ℕ) :
    (rootPlaces v)[m]? = if m < v.rootDirSectors * v.slotsPerSector then some (slotPlace v v.rootStart m)
      else none := by
  rw [rootPlaces_eq_map hwf.slotsPerSector_pos, List.getElem?_map]
  split
  · next hm =>
    rw [List.getElem?_range' hm]
    simp
  · next hm => rw [List.getElem?_eq_none (by simpa using hm), Option.map_none]

/-- The number of slots of the fixed root. -/
theorem length_rootPlaces : (rootPlaces v).length = v.rootDirSectors * v.slotsPerSector := by
  rw [rootPlaces_eq_map hwf.slotsPerSector_pos, List.length_map, List.length_range']

/-- A free slot of the fixed root. -/
theorem freeAt_rootPlaces_iff (hk : k < (rootPlaces v).length) :
    FreeAt v s (rootPlaces v) k ↔ RootFree v s k := by
  rw [FreeAt, rootPlaces_getElem? hwf, if_pos (by rwa [← length_rootPlaces hwf])]
  simp [RootFree]

/-- The 8.3 entry behind slots in the first sector of the directory. -/
theorem rootPlaces_entry {o count : ℕ} (hfits : o + count ≤ v.slotsPerSector)
    (hlen : o + count < (rootPlaces v).length) :
    (rootPlaces v)[o + count]? = some (rootEntryPlace v o count) := by
  rw [rootPlaces_getElem? hwf, if_pos (by rwa [← length_rootPlaces hwf]), slotPlace, rootEntryPlace]
  split
  · next hin => rw [Nat.div_eq_of_lt hin, Nat.mod_eq_of_lt hin, Nat.add_zero]
  · next hout =>
    have heq : o + count = v.slotsPerSector := by omega
    rw [heq, Nat.div_self hwf.slotsPerSector_pos]

variable {i o : ℕ} {name : List UInt8} {shortName entry : Bytes} (hzero : name.length % 256 ≠ 0)
  (h : EntersRoot v s u (requiredLFNEntries (name.length % 256)) i o
    (longWrites (longPlace v true (v.rootStart + i) o) (nameSlots name shortName) 0 ++
      [(rootEntryPlace v o (requiredLFNEntries (name.length % 256)), entry)]))
include hzero h

/-- In a fixed root directory the slots lie in a row only if there is room for them in the first
sector, up to the 8.3 entry, which may start the second one. -/
theorem EntersRoot.room_of_neat (hattr : attributes entry ≠ attrLongName)
    (hattr' : attributes entry' ≠ attrLongName) (hentry' : slotFree entry' = false)
    (hneat : Neat v s u (rootPlaces v) (rootPlaces v) (nameSlots name shortName ++ [entry'])) :
    ∃ q, RunAt (FreeAt v s (rootPlaces v)) (requiredLFNEntries (name.length % 256) + 1) q ∧
      q + requiredLFNEntries (name.length % 256) ≤ v.slotsPerSector ∧
      q + requiredLFNEntries (name.length % 256) < (rootPlaces v).length := by
  have hone := requiredLFNEntries_pos hzero
  have hpos := hwf.slotsPerSector_pos
  have hslot := h.slot_lt
  have hslots : ∀ p ∈ rootPlaces v, slotOf v u p = overlay (slotOf v s) _ p := fun p hp =>
    h.slots p (of_mem_rootPlaces hwf hp).2 (of_mem_rootPlaces hwf hp).1
  obtain ⟨q, hplaces, hlast, hrun⟩ := hneat.places hslots (fun m p hp hfree => hfree p hp) hattr
    hattr' hentry' rfl
  have hmem := (List.getElem?_eq_some_iff.mp hlast).1
  refine ⟨q, hrun, ?_, hmem⟩
  have hplace {j : ℕ} (hj : j ≤ requiredLFNEntries (name.length % 256)) :
      (rootPlaces v)[q + j]? = some (slotPlace v v.rootStart (q + j)) := by
    rw [rootPlaces_getElem? hwf, if_pos (by rw [← length_rootPlaces hwf]; omega)]
  -- the first slot tells where the run starts, and the entry that it starts in the first sector
  obtain ⟨p, hp, hfirst⟩ := hplaces 0 hone
  rw [longPlace_of_lt h.slot_lt, ← hp, hplace (Nat.zero_le _)] at hfirst
  simp only [slotPlace, Nat.add_zero, Option.some.injEq, Place.mk.injEq, Nat.add_left_cancel_iff] at hfirst
  rw [hplace (le_refl _), Option.some.injEq, slotPlace, rootEntryPlace] at hlast
  have hqsplit := Nat.div_add_mod' q v.slotsPerSector
  have hesplit := Nat.div_add_mod' (q + requiredLFNEntries (name.length % 256)) v.slotsPerSector
  have hemod := Nat.mod_lt (q + requiredLFNEntries (name.length % 256)) hpos
  rw [← hfirst.1] at hqsplit
  split at hlast
  · simp only [Place.mk.injEq, Nat.add_eq_left] at hlast
    rw [hlast.1] at hesplit
    omega
  · next hout =>
    simp only [Place.mk.injEq, Nat.add_left_cancel_iff] at hlast
    rw [hlast.1] at hesplit
    have hi : i = 0 := by
      by_contra hne
      have := Nat.mul_le_mul_right v.slotsPerSector (Nat.one_le_iff_ne_zero.mpr hne)
      omega
    rw [hi] at hqsplit
    by_contra hover
    obtain ⟨p, hp, hsecond⟩ := hplaces (v.slotsPerSector - q) (by omega)
    rw [longPlace, if_neg (by omega), ← hp, hplace (by omega), Nat.add_sub_cancel' (by omega), slotPlace,
      Nat.mod_self] at hsecond
    split at hsecond
    · simp only [Option.some.injEq, Place.mk.injEq] at hsecond
      omega
    · cases hsecond

/-- If there is, the slots lie in a row. -/
theorem EntersRoot.neat_of_room {q : ℕ}
    (hrun : RunAt (FreeAt v s (rootPlaces v)) (requiredLFNEntries (name.length % 256) + 1) q)
    (hq : q + requiredLFNEntries (name.length % 256) ≤ v.slotsPerSector)
    (hqlen : q + requiredLFNEntries (name.length % 256) < (rootPlaces v).length) :
    Neat v s u (rootPlaces v) (rootPlaces v) (nameSlots name shortName ++ [entry]) := by
  have hone := requiredLFNEntries_pos hzero
  have hpos := hwf.slotsPerSector_pos
  have hlength := length_nameSlots name shortName
  have hslots : ∀ p ∈ rootPlaces v, slotOf v u p = overlay (slotOf v s) _ p := fun p hp =>
    h.slots p (of_mem_rootPlaces hwf hp).2 (of_mem_rootPlaces hwf hp).1
  obtain ⟨r, hr, hrun', hi, ho⟩ := h.found q hq fun k hk =>
    (freeAt_rootPlaces_iff hwf (by omega)).mp (hrun k hk)
  rw [Nat.div_eq_of_lt (by omega)] at hi
  rw [Nat.mod_eq_of_lt (by omega)] at ho
  subst hi ho
  have hplace {j : ℕ} (hj : j < v.slotsPerSector) (hj' : j < (rootPlaces v).length) :
      (rootPlaces v)[j]? = some ⟨v.rootStart, 32 * j⟩ := by
    rw [rootPlaces_getElem? hwf, if_pos (by rwa [← length_rootPlaces hwf]), slotPlace,
      Nat.div_eq_of_lt hj, Nat.mod_eq_of_lt hj, Nat.add_zero]
  have hlast := rootPlaces_entry hwf (show o + requiredLFNEntries (name.length % 256) ≤ _ by omega) (by omega)
  have hwrites : longWrites (longPlace v true (v.rootStart + 0) o) (nameSlots name shortName) 0 ++
        [(rootEntryPlace v o (requiredLFNEntries (name.length % 256)), entry)] =
      (((rootPlaces v).drop o).take (nameSlots name shortName ++ [entry]).length).zip
        (nameSlots name shortName ++ [entry]) := by
    rw [longWrites_eq_zip (rootPlaces v) (r := o) (fun j hj => ?_) (by omega), List.length_append,
      List.length_singleton, List.take_add_one, List.getElem?_drop, hlength, hlast, List.zip_append (by rw [List.length_take, List.length_drop]; omega)]
    · rfl
    · rw [Nat.zero_add, longPlace_of_lt (by omega), hplace (by omega) (by omega), Nat.add_zero]
  rw [hwrites] at hslots
  refine neat_of_run (runPlaces_nodup hpos _ _) hslots (by simp [hlength]; omega) ?_ (fun _ _ => id)
    fun _ _ => rfl
  rw [List.length_append, hlength]
  exact fun k hk =>
    (freeAt_rootPlaces_iff hwf (by simp only [List.length_singleton] at hk; omega)).mpr (hrun' k hk)

end Root

/-! ## The calls -/

/-- `CreateDirectory` or `CreateFile`. -/
def creationCall (v : Volume) (isDir : Bool) (fuel : ℕ) (path : List UInt8) : FatM ℤ :=
  if isDir then createDirectory v fuel path else createFile v fuel path

/-- The attributes of the new entry. -/
def creationAttr (isDir : Bool) : ℕ := if isDir then attrDirectory.toNat else 0

/-- Both calls create an entry with their attributes. -/
theorem creationCall_eq (v : Volume) (isDir : Bool) (fuel : ℕ) (path : List UInt8) :
    creationCall v isDir fuel path = createNewDirFileEntry v fuel path (creationAttr isDir) := by
  cases isDir <;> rfl

/-- The attributes of a new entry are not those of a long-name slot. -/
theorem attributes_ne_longName (isDir : Bool) : UInt8.ofNat (creationAttr isDir) ≠ attrLongName := by
  cases isDir <;> decide

/-- The directory that a creating call is for, and the name it enters there. -/
inductive ParentOf (v : Volume) (s : State) (path : List UInt8) : Bool → ℕ → List UInt8 → Prop
  | root (hpath : strSplit path pathSeperator = []) : ParentOf v s path true v.rootDirCluster path
  | entry {parent : FATEntryInfo} {t : State} (hpath : strSplit path pathSeperator ≠ [])
    (hlookup : Returns (fun fuel => getEntryByPath v fuel (parentPath path)) s (some parent) t) :
    ParentOf v s path false (getCluster parent.entry) (entryName path)

/-- A creating call that returns has entered the name into the directory. -/
theorem ParentOf.enterName (hdev : v.AlwaysSucceeds) {path name : List UInt8} {rootDirectory : Bool}
    {c : ℕ} (hparent : ParentOf v s path rootDirectory c name) (isDir : Bool) {r : ℤ}
    (hreturns : Returns (fun fuel => creationCall v isDir fuel path) s r u) :
    ∃ t, Silent v s t ∧
      Returns (fun fuel => enterName v fuel c name (creationAttr isDir) rootDirectory) t r u := by
  simp only [creationCall_eq] at hreturns
  cases hparent with
  | root hpath =>
    simp only [createNewDirFileEntry_of_name hpath] at hreturns
    exact ⟨s, Observes.refl v _ s, hreturns⟩
  | entry hpath hlookup =>
    obtain ⟨parent, w, t, hlookup', hsilent, hentered⟩ :=
      createNewDirFileEntry_components hdev hpath hreturns
    exact ⟨t, hsilent, hentered _ (hlookup'.unique hlookup).1⟩

/-- The slots of a directory. -/
def DirSlots (v : Volume) (s : State) (rootDirectory : Bool) (c : ℕ) (ps : List Place) : Prop :=
  if fixedRoot v rootDirectory then ps = rootPlaces v
  else ∃ l, FileChain v s c l ∧ ps = chainPlaces v l

/-- The name was entered in consecutive slots that were free, and the slots in use were kept. -/
def EntersNeatly (v : Volume) (s u : State) (rootDirectory : Bool) (c : ℕ) (name : List UInt8)
    (attr : ℕ) : Prop :=
  ∃ ps ps' shortName new date time, DirSlots v s rootDirectory c ps ∧ DirSlots v u rootDirectory c ps' ∧
    createShortFilename name = some shortName ∧
    Neat v s u ps ps' (nameSlots name shortName ++ [newDirectoryEntry shortName attr new date time])

/-- There is room for `count` slots of a long name and an entry: in the first sector of a fixed root,
or from the first run of free slots of a chain on. The entry may be the first slot of the next
sector. -/
def HasRoom (v : Volume) (s : State) (rootDirectory : Bool) (c count : ℕ) : Prop :=
  ∃ ps, DirSlots v s rootDirectory c ps ∧
    if fixedRoot v rootDirectory then
      ∃ q, RunAt (FreeAt v s ps) (count + 1) q ∧ q + count ≤ v.slotsPerSector ∧ q + count < ps.length
    else ∃ r, FirstRun (FreeAt v s ps) (count + 1) r ∧ r % v.slotsPerSector + count ≤ v.slotsPerSector

section SameData

variable (h : t.data = s.data)
include h

/-- The slots depend on the disk. -/
theorem slotOf_of_data : slotOf v t = slotOf v s := by
  funext p
  rw [slotOf, slotOf, h]

/-- The chains depend on the disk. -/
theorem fileChain_of_data {c : ℕ} {l : List ℕ} : FileChain v t c l ↔ FileChain v s c l := by
  rw [FileChain, FileChain, DiskChain, DiskChain, diskEntry_congr h]

/-- The free slots depend on the disk. -/
theorem freeAt_of_data (ps : List Place) : FreeAt v t ps = FreeAt v s ps :=
  freeAt_congr fun p _ => by rw [slotOf_of_data h]

/-- The slots of a directory depend on the disk. -/
theorem dirSlots_of_data {rootDirectory : Bool} {c : ℕ} {ps : List Place} :
    DirSlots v t rootDirectory c ps ↔ DirSlots v s rootDirectory c ps := by
  simp only [DirSlots, fileChain_of_data h]

/-- The room in a directory depends on the disk. -/
theorem hasRoom_of_data {rootDirectory : Bool} {c count : ℕ} :
    HasRoom v t rootDirectory c count ↔ HasRoom v s rootDirectory c count := by
  simp only [HasRoom, dirSlots_of_data h, freeAt_of_data h]

/-- A neat entry depends on the disk before the call. -/
theorem entersNeatly_of_data {rootDirectory : Bool} {c : ℕ} {name : List UInt8} {attr : ℕ} :
    EntersNeatly v t u rootDirectory c name attr ↔ EntersNeatly v s u rootDirectory c name attr := by
  have hneat (ps ps' : List Place) (slots : List Bytes) :
      Neat v t u ps ps' slots ↔ Neat v s u ps ps' slots := by
    constructor
    · intro hneat
      exact ⟨by simpa only [slotOf_of_data h] using hneat.kept,
        by simpa only [freeAt_of_data h] using hneat.placed⟩
    · intro hneat
      exact ⟨by simpa only [slotOf_of_data h] using hneat.kept,
        by simpa only [freeAt_of_data h] using hneat.placed⟩
  simp only [EntersNeatly, dirSlots_of_data h, hneat]

end SameData

/-- The slots of a directory, up to different lists of the same clusters. -/
theorem DirSlots.unique {rootDirectory : Bool} {c : ℕ} {ps ps' : List Place}
    (h : DirSlots v s rootDirectory c ps) (h' : DirSlots v s rootDirectory c ps') : ps = ps' := by
  unfold DirSlots at h h'
  split at h
  · next hroot =>
    rw [if_pos hroot] at h'
    rw [h, h']
  · next hroot =>
    rw [if_neg hroot] at h'
    obtain ⟨l, hl, rfl⟩ := h
    obtain ⟨l', hl', rfl⟩ := h'
    rw [hl.unique hl']

/-- A name with a dot has an 8.3 name. -/
theorem exists_createShortFilename {name : List UInt8} (hdot : 0x2E ∈ name) :
    ∃ shortName, createShortFilename name = some shortName := by
  unfold createShortFilename
  cases hfind : name.findIdx? (· = 0x2E) with
  | none =>
    rw [List.findIdx?_eq_none_iff] at hfind
    exact absurd (hfind _ hdot) (by simp)
  | some dotIndex => exact ⟨_, rfl⟩

/-- With a chain that has no cluster the search finds nothing. -/
theorem enterName_nil (hdev : v.AlwaysSucceeds) {rootDirectory : Bool} {c : ℕ} (hl : FileChain v s c [])
    {name : List UInt8} {attr : ℕ} {r : ℤ}
    (hreturns : Returns (fun fuel => enterName v fuel c name attr rootDirectory) s r u) : r = -1 := by
  have hstops : ChainStops v c := by
    rcases hl with ⟨hfirst, -⟩ | ⟨hwalk, -⟩
    · exact Or.inl hfirst
    · exact Or.inr hwalk
  obtain ⟨new, t, halloc⟩ : ∃ new t, (allocateCluster v).run s = .ok new t := by
    obtain ⟨new, t, hrun, -⟩ := allocateCluster_zero_iff hdev s
    exact ⟨new, t, hrun⟩
  obtain ⟨t', hentry, -⟩ := createEntry_silent hdev attr
    (show name.length % 256 = 0 ∨ GivesUp v t rootDirectory c _ from Or.inr (Or.inl hstops)) new
  exact (hreturns.unique ((Returns.of_run halloc).bind (hentry.bind (Returns.of_run rfl)))).1

section Main

variable (hdev : v.AlwaysSucceeds) (hwf : v.WellFormed) (hslots : v.slotsPerSector < 256)
  {rootDirectory : Bool} {c : ℕ} {name : List UInt8} (hzero : name.length % 256 ≠ 0)
  (hchars : ∀ x ∈ name, IsPrintable x) (hdot : 0x2E ∈ name) (hfree : ¬ AllocatesNone v s)
  {isDir : Bool}
  (hreturns : Returns (fun fuel => enterName v fuel c name (creationAttr isDir) rootDirectory) s 0 u)
include hdev hwf hslots hzero hchars hdot hfree hreturns

/-- Names in a chain of clusters. -/
theorem entersNeatly_chain_iff (hroot : fixedRoot v rootDirectory = false) (hwhole : WholeEntries v)
    {l : List ℕ} (hl : FileChain v s c l) :
    EntersNeatly v s u rootDirectory c name (creationAttr isDir) ↔
      HasRoom v s rootDirectory c (requiredLFNEntries (name.length % 256)) := by
  obtain ⟨shortName, hshort⟩ := exists_createShortFilename hdot
  have hps : DirSlots v s rootDirectory c (chainPlaces v l) := by
    rw [DirSlots, if_neg (by simp [hroot])]
    exact ⟨l, hl, rfl⟩
  rcases List.eq_nil_or_concat l with rfl | ⟨xs, last, rfl⟩
  · exact absurd (enterName_nil hdev hl hreturns) (by decide)
  · rw [List.concat_eq_append] at hl hps
    obtain ⟨result, u', hreturns', hcase⟩ := enterName_chain hdev hwf hwhole hslots hroot hzero hshort hl hfree
      (creationAttr isDir)
    obtain ⟨rfl, rfl⟩ := hreturns'.unique hreturns
    obtain ⟨-, ns, new, r, q, date, time, hq, henters⟩ := hcase.resolve_right fun h => absurd h.1 (by decide)
    have hps' : DirSlots v u' rootDirectory c (chainPlaces v (xs ++ [last] ++ ns)) := by
      rw [DirSlots, if_neg (by simp [hroot])]
      exact ⟨_, henters.chain, rfl⟩
    constructor
    · rintro ⟨ps, ps', shortName', new', date', time', hps₁, hps₁', hshort', hneat⟩
      rw [hshort] at hshort'
      cases hshort'
      rw [hps₁.unique hps, hps₁'.unique hps'] at hneat
      refine ⟨_, hps, ?_⟩
      rw [if_neg (by simp [hroot])]
      refine ⟨r, henters.first, henters.fits_of_neat hwf hzero ?_ ?_ ?_ hneat⟩
      · exact attributes_ne_longName isDir
      · exact attributes_ne_longName isDir
      · exact slotFree_newDirectoryEntry hshort hchars _ _ _ _
    · rintro ⟨ps, hps₁, hroom⟩
      rw [hps₁.unique hps, if_neg (by simp [hroot])] at hroom
      obtain ⟨r', hfirst, hfits⟩ := hroom
      rw [hfirst.unique henters.first] at hfits
      exact ⟨_, _, _, new, date, time, hps, hps', hshort, henters.neat_of_fits hwf hq hfits⟩

/-- Names in a fixed root directory. -/
theorem entersNeatly_root_iff (hroot : fixedRoot v rootDirectory = true) :
    EntersNeatly v s u rootDirectory c name (creationAttr isDir) ↔
      HasRoom v s rootDirectory c (requiredLFNEntries (name.length % 256)) := by
  obtain ⟨shortName, hshort⟩ := exists_createShortFilename hdot
  have hclusters : 3 ≤ v.totalClusters := by
    obtain ⟨hstart, hsome⟩ := not_or.mp hfree
    push Not at hsome
    omega
  have hps (w : State) : DirSlots v w rootDirectory c (rootPlaces v) := by
    rw [DirSlots, if_pos hroot]
  obtain ⟨i, o, new, date, time, henters⟩ := enterName_root hdev hwf hroot hclusters hslots hzero hshort hfree
    hreturns
  constructor
  · rintro ⟨ps, ps', shortName', new', date', time', hps₁, hps₁', hshort', hneat⟩
    rw [hshort] at hshort'
    cases hshort'
    rw [hps₁.unique (hps s), hps₁'.unique (hps u)] at hneat
    refine ⟨_, hps s, ?_⟩
    rw [if_pos hroot]
    refine henters.room_of_neat hwf hzero ?_ ?_ ?_ hneat
    · exact attributes_ne_longName isDir
    · exact attributes_ne_longName isDir
    · exact slotFree_newDirectoryEntry hshort hchars _ _ _ _
  · rintro ⟨ps, hps₁, hroom⟩
    rw [hps₁.unique (hps s), if_pos hroot] at hroom
    obtain ⟨q, hrun, hq, hqlen⟩ := hroom
    exact ⟨_, _, _, new, date, time, hps s, hps u, hshort, henters.neat_of_room hwf hzero hrun hq hqlen⟩

end Main

/-- A free entry in the reach of the search. -/
theorem not_allocatesNone (hstart : 2 ≤ s.startSearchCluster) (hk : s.startSearchCluster ≤ k)
    (hk' : k < v.totalClusters) (hfree : tableEntry v s k = 0) : ¬ AllocatesNone v s := by
  rintro (hlow | hnone)
  · omega
  · exact hnone k hk hk' hfree

/-- The name `Q.C`. -/
def newName : List UInt8 := [0x51, 0x2E, 0x43]

instance (v : Volume) (s : State) (ps : List Place) (m : ℕ) : Decidable (FreeAt v s ps m) :=
  decidable_of_iff ((ps[m]?).all fun p => slotFree (slotOf v s p)) (by simp [FreeAt, Option.all_eq_true])

end Vsos.Fat
