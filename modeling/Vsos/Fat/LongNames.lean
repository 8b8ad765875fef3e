import Mathlib.Data.List.DropRight
import Vsos.Fat.NameCodec
import Vsos.Fat.RootListing
import Vsos.Fat.SlotSearch

/-!
# Under which name an entry is reported

The long-name slots that a scan meets wait for the next entry, wherever they were met since the last
one. Whatever waits is decoded, up to the first slot whose checksum is not that of the entry. So an
entry is reported under its own name if nothing waits for it but its long-name set, and the set has
no slot with number 5: such a slot starts with the byte 0x05, and slots that start so are skipped.

A waiting slot with the right checksum and a number that is 0 or above the number of waiting slots is
stored outside of the block for the name, over the headers of the heap. Directories with such slots
are left out here.
-/

namespace Vsos.Fat

open Vsos.Lib

variable {v : Volume} {s t : State} {entry item slot : Bytes}

/-! ## What a directory says -/

/-- The 16-bit characters of a long-name slot. -/
def lfnUnits (item : Bytes) : List ℕ := (List.range 13).map fun k => item.u16 (lfnCharOffset k)

/-- The long name that the slots of a set spell: the slot with number 1 is the last one, and a 0 ends
the name. -/
def longName (set : List Bytes) : List ℕ := (set.reverse.flatMap lfnUnits).takeWhile (· ≠ 0)

/-- A complete long-name set for an 8.3 entry with this checksum: the numbers go down to 1, and the
first slot is marked as the last part of the name. -/
structure CompleteSet (set : List Bytes) (sum : UInt8) : Prop where
  pos : 1 ≤ set.length
  le : set.length ≤ 20
  marked : ∀ item ∈ set, attributes item = attrLongName
  sum_eq : ∀ item ∈ set, item 13 = sum
  number : ∀ j item, set[j]? = some item →
    item 0 = UInt8.ofNat (set.length - j) ||| if j = 0 then 0x40 else 0

/-- The filename that an entry should have, with the slots `front` in front of it. -/
structure RightName (front : List Bytes) (entry : Bytes) (filename : List UInt8) : Prop where
  long : ∀ set, set <:+ front → CompleteSet set (checksum entry) →
    filename.map UInt8.toNat = longName set
  short : (∀ set, set <:+ front → ¬ CompleteSet set (checksum entry)) →
    filename = parseShortFilename entry

/-- The slots in front of slot number `m` of a directory. -/
def slotsBefore (v : Volume) (s : State) (ps : List Place) (m : ℕ) : List Bytes :=
  ((slotsInUse v s ps).take m).map (slotOf v s)

/-! ## What waits for an entry -/

/-- The long-name slots behind the last entry. -/
def waiting (front : List Bytes) : List Bytes :=
  (front.rtakeWhile fun slot => ¬ Listed slot).filter fun slot => IsLongName slot

/-- No slot waits behind a live entry. -/
theorem waiting_concat_listed (front : List Bytes) (h : Listed slot) :
    waiting (front ++ [slot]) = [] := by
  rw [waiting, List.rtakeWhile_concat_neg _ _ _ (by simpa using h)]
  rfl

/-- A slot that is not listed may join the waiting ones. -/
theorem waiting_concat (front : List Bytes) (h : ¬ Listed slot) :
    waiting (front ++ [slot]) = pending slot (waiting front) := by
  rw [waiting, List.rtakeWhile_concat_pos _ _ _ (by simpa using h), pending]
  split
  · next hlong => simp [waiting, hlong]
  · next hlong => simp [waiting, hlong]

/-- A scan over slots without an end mark carries what waits. -/
theorem scanPlaces_waiting (ps : List Place) (hend : ∀ p ∈ ps, slotOf v s p 0 ≠ entryEnd) :
    ∃ results, scanPlaces v s ps ⟨[], []⟩ = .inl ⟨results, waiting (ps.map (slotOf v s))⟩ := by
  induction ps using List.reverseRecOn with
  | nil => exact ⟨[], rfl⟩
  | append_singleton ps p ih =>
    obtain ⟨results, hscan⟩ := ih fun q hq => hend q (List.mem_append_left _ hq)
    have hp := hend p (by simp)
    rw [scanPlaces_append, hscan]
    simp only [scanPlaces, foldStop, List.map_append, List.map_singleton]
    by_cases hlisted : Listed (slotOf v s p)
    · rw [scanSlot_of_listed hp hlisted, waiting_concat_listed _ hlisted]
      exact ⟨_, rfl⟩
    · rw [scanSlot_of_not_listed hp hlisted, waiting_concat _ hlisted]
      exact ⟨_, rfl⟩

/-- A scan only adds to its results. -/
theorem results_subset (v : Volume) (s : State) (ps : List Place) (sc : Scan) :
    sc.results ⊆ scanResults (scanPlaces v s ps sc) := by
  induction ps generalizing sc with
  | nil => exact List.Subset.refl _
  | cons p ps ih =>
    rw [scanPlaces, foldStop]
    by_cases hend : slotOf v s p 0 = entryEnd
    · rw [scanSlot_of_end hend]
      exact List.Subset.refl _
    · by_cases hlisted : Listed (slotOf v s p)
      · rw [scanSlot_of_listed hend hlisted]
        exact fun item hitem => ih _ (List.mem_append_left _ hitem)
      · rw [scanSlot_of_not_listed hend hlisted]
        exact ih ⟨sc.results, pending (slotOf v s p) sc.lfnEntries⟩

/-- Each entry is reported with the name that the waiting slots give it. -/
theorem exists_mem_listing_named {ps : List Place} {m : ℕ} {p : Place}
    (hp : (slotsInUse v s ps)[m]? = some p) (hlisted : Listed (slotOf v s p)) :
    ∃ item ∈ listing v s ps, item.place = p ∧
      item.filename = scanName ⟨[], waiting (slotsBefore v s ps m)⟩ (slotOf v s p) := by
  obtain ⟨rest, hrest⟩ : slotsInUse v s ps <+: ps := List.takeWhile_prefix _
  have hend : ∀ q ∈ slotsInUse v s ps, slotOf v s q 0 ≠ entryEnd := fun q hq => by
    simpa using List.mem_takeWhile_imp hq
  obtain ⟨hlt, hget⟩ := List.getElem?_eq_some_iff.mp hp
  have hsplit : ps = (slotsInUse v s ps).take m ++ p :: ((slotsInUse v s ps).drop (m + 1) ++ rest) := by
    conv_lhs => rw [← hrest, ← List.take_append_drop m (slotsInUse v s ps),
      List.drop_eq_getElem_cons hlt, hget]
    simp
  obtain ⟨results, hscan⟩ := scanPlaces_waiting ((slotsInUse v s ps).take m)
    fun q hq => hend q (List.mem_of_mem_take hq)
  have hfront : scanPlaces v s ps ⟨[], []⟩ =
      scanPlaces v s (p :: ((slotsInUse v s ps).drop (m + 1) ++ rest))
        ⟨results, waiting (slotsBefore v s ps m)⟩ := by
    conv_lhs => rw [hsplit, scanPlaces_append, hscan]
    rfl
  refine ⟨⟨slotOf v s p, scanName ⟨[], waiting (slotsBefore v s ps m)⟩ (slotOf v s p), p.sector, p.offset⟩,
    ?_, rfl, rfl⟩
  rw [listing, hfront, scanPlaces, foldStop, scanSlot_of_listed (hend p (List.mem_of_getElem? hp)) hlisted]
  exact results_subset v s _ _ (List.mem_append_right _ List.mem_cons_self)

/-! ## What the waiting slots spell -/

/-- Decoding goes on behind slots with the right checksum. -/
theorem parseLFNLoop_append {sum : UInt8} {xs : List Bytes} (h : ∀ item ∈ xs, item 13 = sum) (ys : List Bytes)
    (block : Bytes) :
    parseLFNLoop sum (xs ++ ys) block = parseLFNLoop sum ys (parseLFNLoop sum xs block) := by
  induction xs generalizing block with
  | nil => rfl
  | cons item rest ih =>
    have hsum : ¬ item 13 ≠ sum := not_not.mpr (h item List.mem_cons_self)
    rw [List.cons_append, parseLFNLoop, if_neg hsum, parseLFNLoop, if_neg hsum]
    exact ih (fun x hx => h x (List.mem_cons_of_mem _ hx)) _

/-- Slots with numbers up to `n` store nothing behind part `n`. -/
theorem parseLFNLoop_of_number_le {sum : UInt8} {items : List Bytes} {n i : ℕ}
    (h : ∀ item ∈ items, (item 0 &&& 0x0F).toNat ≤ n) (hi : 13 * (n + 1) ≤ i) (block : Bytes) :
    parseLFNLoop sum items block i = block i := by
  induction items generalizing block with
  | nil => rfl
  | cons item rest ih =>
    have hnumber := h item List.mem_cons_self
    rw [parseLFNLoop]
    split
    · rfl
    · rw [ih fun x hx => h x (List.mem_cons_of_mem _ hx)]
      exact Bytes.blit_of_not_mem (by omega)

/-- Slots whose numbers go down to 1 store their characters part by part. -/
theorem parseLFNLoop_descending {sum : UInt8} {set : List Bytes} (hsum : ∀ item ∈ set, item 13 = sum)
    (hnumber : ∀ j item, set[j]? = some item → (item 0 &&& 0x0F).toNat = set.length - j) (block : Bytes)
    (i : ℕ) :
    parseLFNLoop sum set block (13 + i) =
      match set.reverse[i / 13]? with
      | some item => lfnChars item (i % 13)
      | none => block (13 + i) := by
  induction set generalizing block with
  | nil => rfl
  | cons item rest ih =>
    have hhead : (item 0 &&& 0x0F).toNat = rest.length + 1 := by simpa using hnumber 0 item rfl
    have hrest : ∀ j item, rest[j]? = some item → (item 0 &&& 0x0F).toNat = rest.length - j :=
      fun j x hx => by simpa using hnumber (j + 1) x (by simpa using hx)
    rw [parseLFNLoop, if_neg (not_not.mpr (hsum item List.mem_cons_self)),
      ih (fun x hx => hsum x (List.mem_cons_of_mem _ hx)) hrest, List.reverse_cons]
    rcases Nat.lt_trichotomy (i / 13) rest.length with hlt | heq | hgt
    · rw [List.getElem?_append_left (by simpa using hlt)]
      obtain ⟨x, hx⟩ : ∃ x, rest.reverse[i / 13]? = some x := by
        rw [List.getElem?_eq_getElem (by simpa using hlt)]
        exact ⟨_, rfl⟩
      simp only [hx]
    · rw [List.getElem?_eq_none (by simp [heq]), List.getElem?_append_right (by simp [heq])]
      simp only [List.length_reverse, heq, Nat.sub_self, List.getElem?_cons_zero]
      rw [Bytes.blit_of_mem (by omega) (by omega)]
      congr 1
      omega
    · rw [List.getElem?_eq_none (by simpa using hgt.le),
        List.getElem?_eq_none (by simpa using Nat.succ_le_of_lt hgt)]
      exact Bytes.blit_of_not_mem (by omega)

/-- The 16-bit characters of a set, part by part. -/
theorem flatMap_lfnUnits_getElem? (items : List Bytes) (i : ℕ) :
    (items.flatMap lfnUnits)[i]? =
      items[i / 13]?.map fun item => item.u16 (lfnCharOffset (i % 13)) := by
  rw [getElem?_flatMap (n := 13) (by decide) (fun _ => by simp [lfnUnits])]
  cases items[i / 13]? with
  | none => rfl
  | some item =>
    have hlt : i % 13 < 13 := Nat.mod_lt i (by decide)
    simp [lfnUnits, hlt]

/-- The number of a slot in its set. -/
theorem CompleteSet.number_low {set : List Bytes} {sum : UInt8} (h : CompleteSet set sum)
    (hfew : set.length ≤ 15) {j : ℕ} (hitem : set[j]? = some item) :
    (item 0 &&& 0x0F).toNat = set.length - j := by
  have hboth : ∀ k < 16, ((UInt8.ofNat k ||| 0x40) &&& 0x0F).toNat = k ∧
      ((UInt8.ofNat k ||| 0) &&& 0x0F).toNat = k := by decide
  have hk : set.length - j < 16 := by omega
  rw [h.number j item hitem]
  split
  · exact (hboth _ hk).1
  · exact (hboth _ hk).2

/-- A character of a name is read as it is. -/
theorem lfnChars_of_unit {k : ℕ} (hlow : 32 ≤ item.u16 (lfnCharOffset k))
    (hhigh : item.u16 (lfnCharOffset k) ≤ 127) :
    lfnChars item k = UInt8.ofNat (item.u16 (lfnCharOffset k)) := by
  rw [Bytes.u16] at hlow hhigh
  have hhi : (item (lfnCharOffset k + 1)).toNat = 0 := by omega
  rw [lfnChars, Bytes.u16]
  have hlow' : (32 : UInt8) ≤ item (lfnCharOffset k) := by
    exact (show 32 ≤ (item (lfnCharOffset k)).toNat by omega)
  have hhigh' : item (lfnCharOffset k) ≤ (127 : UInt8) := by
    exact (show (item (lfnCharOffset k)).toNat ≤ 127 by omega)
  rw [if_pos ⟨hlow', hhigh'⟩]
  simp

/-- A zero ends the name. -/
theorem lfnChars_of_zero {k : ℕ} (h : item.u16 (lfnCharOffset k) = 0) :
    lfnChars item k = 0 := by
  rw [Bytes.u16] at h
  have hlow : item (lfnCharOffset k) = 0 := by
    rw [← UInt8.toNat_inj]
    exact (show (item (lfnCharOffset k)).toNat = 0 by omega)
  simp [lfnChars, hlow]

/-- The name ends in front of a 0, or fills its set. -/
theorem longName_cases (set : List Bytes) :
    (∀ i < (longName set).length,
        (set.reverse.flatMap lfnUnits)[i]? = some ((longName set).getD i 0)) ∧
      ((longName set).length = 13 * set.length ∨ (longName set).length < 13 * set.length ∧
        (set.reverse.flatMap lfnUnits)[(longName set).length]? = some 0) := by
  have hlength : (set.reverse.flatMap lfnUnits).length = 13 * set.length := by
    simp [lfnUnits, Nat.mul_comm]
  have hsplit := List.takeWhile_append_dropWhile (p := (· ≠ 0)) (l := set.reverse.flatMap lfnUnits)
  have hlongName : longName set = (set.reverse.flatMap lfnUnits).takeWhile (· ≠ 0) := rfl
  rw [← hlongName] at hsplit
  constructor
  · intro i hi
    rw [← hsplit, List.getElem?_append_left hi, List.getElem?_eq_getElem hi, List.getD_eq_getElem _ _ hi]
  · cases hrest : (set.reverse.flatMap lfnUnits).dropWhile (· ≠ 0) with
    | nil =>
      left
      rw [hrest, List.append_nil] at hsplit
      rw [hsplit, hlength]
    | cons u rest =>
      right
      have hu : u = 0 := by
        have := List.head?_dropWhile_not (p := (· ≠ 0)) (l := set.reverse.flatMap lfnUnits)
        rw [hrest] at this
        simpa using this
      rw [hrest, hu] at hsplit
      constructor
      · have := congrArg List.length hsplit
        rw [List.length_append, List.length_cons] at this
        omega
      · rw [← hsplit, List.getElem?_append_right (le_refl _), Nat.sub_self]
        rfl

/-- A complete set of at most fifteen slots is decoded to its long name, also behind stray slots with
the same checksum that have no higher number or lie behind the end of the name. -/
theorem parseLFNEntries_complete {stray set : List Bytes} (hset : CompleteSet set (checksum entry))
    (hfew : set.length ≤ 15) (hascii : ∀ c ∈ longName set, 32 ≤ c ∧ c ≤ 127)
    (hstray : ∀ item ∈ stray, item 13 = checksum entry ∧
      ((item 0 &&& 0x0F).toNat ≤ set.length ∨ (longName set).length < 13 * set.length)) :
    (parseLFNEntries (stray ++ set) entry).map UInt8.toNat = longName set := by
  obtain ⟨hchars, hend⟩ := longName_cases set
  have hread (i : ℕ) (u : ℕ) (hu : (set.reverse.flatMap lfnUnits)[i]? = some u) :
      ∃ item, u = item.u16 (lfnCharOffset (i % 13)) ∧
        lfnBlock (stray ++ set) entry i = lfnChars item (i % 13) := by
    rw [flatMap_lfnUnits_getElem?, Option.map_eq_some_iff] at hu
    obtain ⟨item, hitem, rfl⟩ := hu
    refine ⟨item, rfl, ?_⟩
    rw [lfnBlock, Bytes.shift_apply, parseLFNLoop_append fun x hx => (hstray x hx).1,
      parseLFNLoop_descending hset.sum_eq fun j x hx => hset.number_low hfew hx]
    simp only [hitem]
  have hname : parseLFNEntries (stray ++ set) entry = (longName set).map UInt8.ofNat := by
    refine cString_eq ?_ ?_ ?_ ?_
    · rw [List.length_map]
      omega
    · intro i hi
      rw [List.length_map] at hi
      obtain ⟨item, hu, hblock⟩ := hread i _ (hchars i hi)
      have hbounds := hascii _ (List.getElem_mem hi)
      rw [← List.getD_eq_getElem _ 0 hi, hu] at hbounds
      change lfnBlock (stray ++ set) entry i = _
      rw [hblock, lfnChars_of_unit hbounds.1 hbounds.2, ← hu]
      exact (List.getD_map _ 0 UInt8.ofNat).symm
    · rw [List.length_map]
      change lfnBlock (stray ++ set) entry (longName set).length = 0
      rcases hend with hfull | ⟨-, hzero⟩
      · rw [hfull, lfnBlock, Bytes.shift_apply, parseLFNLoop_append fun x hx => (hstray x hx).1,
          parseLFNLoop_descending hset.sum_eq fun j x hx => hset.number_low hfew hx,
          List.getElem?_eq_none (by simp)]
        apply parseLFNLoop_of_number_le
        · intro item hitem
          exact (hstray item hitem).2.resolve_right (by omega)
        · omega
      · obtain ⟨item, hu, hblock⟩ := hread _ _ hzero
        rw [hblock, lfnChars_of_zero hu.symm]
    · intro c hc
      obtain ⟨u, hu, rfl⟩ := List.mem_map.mp hc
      have := hascii u hu
      rw [Ne, ← UInt8.toNat_inj, UInt8.toNat_ofNat', UInt8.toNat_zero]
      omega
  rw [hname, List.map_map]
  conv_rhs => rw [← List.map_id (longName set)]
  apply List.map_congr_left
  intro u hu
  have := hascii u hu
  rw [Function.comp_apply, UInt8.toNat_ofNat', id]
  omega

/-! ## The name of an entry -/

/-- Nothing waits for the entry, or its long-name set does, with no slots in front of it but such that
have the same checksum, and no higher number unless the name ends inside the set. -/
def NameIntact (front : List Bytes) (entry : Bytes) : Prop :=
  waiting front = [] ∨ ∃ stray set, waiting front = stray ++ set ∧ set <:+ front ∧
    CompleteSet set (checksum entry) ∧ (∀ c ∈ longName set, 32 ≤ c ∧ c ≤ 127) ∧
    ∀ item ∈ stray, item 13 = checksum entry ∧
      ((item 0 &&& 0x0F).toNat ≤ set.length ∨ (longName set).length < 13 * set.length)

/-- A long-name slot is not reported. -/
theorem not_listed_of_long (h : attributes slot = attrLongName) : ¬ Listed slot :=
  fun hlisted => hlisted.2.2.2.2 h

/-- Slots that are no entries let the others wait. -/
theorem waiting_append (front : List Bytes) {set : List Bytes} (h : ∀ slot ∈ set, ¬ Listed slot) :
    waiting (front ++ set) = waiting front ++ set.filter fun slot => IsLongName slot := by
  induction set using List.reverseRecOn with
  | nil => simp
  | append_singleton set slot ih =>
    rw [← List.append_assoc, waiting_concat _ (h slot (by simp)),
      ih fun x hx => h x (List.mem_append_left _ hx), pending]
    split
    · next hlong => simp [hlong]
    · next hlong => simp [hlong]

namespace CompleteSet

variable {set set' front : List Bytes} {sum : UInt8}

/-- The first slot of a set waits for the entry. -/
theorem waiting_ne_nil (h : CompleteSet set sum) (hsuffix : set <:+ front) : waiting front ≠ [] := by
  obtain ⟨xs, rfl⟩ := hsuffix
  rw [waiting_append xs fun slot hslot => not_listed_of_long (h.marked slot hslot)]
  obtain ⟨first, hfirst⟩ : ∃ first, set[0]? = some first := by
    rw [List.getElem?_eq_getElem h.pos]
    exact ⟨_, rfl⟩
  have hmem := List.mem_of_getElem? hfirst
  have hbytes : ∀ n ≤ 20, 1 ≤ n → (UInt8.ofNat n ||| 0x40) ≠ entryUnused ∧ (UInt8.ofNat n ||| 0x40) ≠ 0x2E ∧
      (UInt8.ofNat n ||| 0x40) ≠ 0x05 := by decide
  have hfirst0 : first 0 = UInt8.ofNat set.length ||| 0x40 := by simpa using h.number 0 first hfirst
  obtain ⟨h₁, h₂, h₃⟩ := hbytes set.length h.le h.pos
  have hlong : IsLongName first := ⟨hfirst0 ▸ h₁, hfirst0 ▸ h₂, hfirst0 ▸ h₃, h.marked first hmem⟩
  exact List.append_ne_nil_of_right_ne_nil _
    (List.ne_nil_of_mem (List.mem_filter.mpr ⟨hmem, by simpa using hlong⟩))

section

variable (h : CompleteSet set sum) (h' : CompleteSet set' sum) (hsuffix : set <:+ front)
  (hsuffix' : set' <:+ front)
include h h' hsuffix hsuffix'

/-- There is one set directly in front of an entry. -/
theorem unique_of_le (hle : set.length ≤ set'.length) : set = set' := by
  obtain ⟨xs, hxs⟩ := List.suffix_of_suffix_length_le hsuffix hsuffix' hle
  cases xs with
  | nil => exact hxs
  | cons x xs =>
    obtain ⟨first, hfirst⟩ : ∃ first, set[0]? = some first := by
      rw [List.getElem?_eq_getElem h.pos]
      exact ⟨_, rfl⟩
    have hfirst' : set'[(x :: xs).length]? = some first := by
      rw [← hxs, List.getElem?_append_right (le_refl _), Nat.sub_self, hfirst]
    have hlength : set'.length - (x :: xs).length = set.length := by
      rw [← hxs, List.length_append]
      omega
    have hone := h.number 0 first hfirst
    have hother := h'.number _ first hfirst'
    rw [hlength, hone, if_pos rfl] at hother
    have hbytes : ∀ n ≤ 20, (UInt8.ofNat n ||| 0x40) ≠ UInt8.ofNat n ||| 0 := by decide
    exact absurd hother (hbytes set.length h.le)

/-- The slots in front of an entry form one set at most. -/
theorem unique : set = set' := by
  rcases Nat.le_total set.length set'.length with hle | hle
  · exact h.unique_of_le h' hsuffix hsuffix' hle
  · exact (h'.unique_of_le h hsuffix' hsuffix hle).symm

end

/-- A set that waits as a whole has at most five slots. -/
theorem length_le_five (h : CompleteSet set sum) (hlong : ∀ slot ∈ set, IsLongName slot) :
    set.length ≤ 5 := by
  by_contra hlt
  obtain ⟨item, hitem⟩ : ∃ item, set[set.length - 5]? = some item := by
    rw [List.getElem?_eq_getElem (by omega)]
    exact ⟨_, rfl⟩
  have hfive := h.number _ item hitem
  rw [if_neg (by omega), show set.length - (set.length - 5) = 5 by omega] at hfive
  exact (hlong item (List.mem_of_getElem? hitem)).2.2.1 (by rw [hfive]; decide)

end CompleteSet

/-- What waits are long-name slots. -/
theorem isLongName_of_mem_waiting {front : List Bytes} (h : slot ∈ waiting front) :
    IsLongName slot := by
  simpa using (List.mem_filter.mp h).2

/-- An entry whose name is intact is reported under it. -/
theorem rightName_of_intact {front : List Bytes} (h : NameIntact front entry) :
    RightName front entry (scanName ⟨[], waiting front⟩ entry) := by
  rcases h with hnone | ⟨stray, set, hwaiting, hsuffix, hset, hascii, hstray⟩
  · refine ⟨fun set hsuffix hset => absurd hnone (hset.waiting_ne_nil hsuffix), fun _ => ?_⟩
    rw [hnone]
    rfl
  · refine ⟨fun set' hsuffix' hset' => ?_, fun hnone => absurd hset (hnone set hsuffix)⟩
    obtain rfl := hset.unique hset' hsuffix hsuffix'
    have hfive : set.length ≤ 5 := hset.length_le_five fun slot hslot =>
      isLongName_of_mem_waiting (hwaiting ▸ List.mem_append_right _ hslot)
    rw [scanName, if_pos (hset.waiting_ne_nil hsuffix)]
    simp only [hwaiting]
    exact parseLFNEntries_complete hset (by omega) hascii hstray

/-- A waiting slot with another checksum in front of all others leaves the entry without a name. -/
theorem scanName_of_mismatch {front : List Bytes} {rest : List Bytes}
    (hwaiting : waiting front = item :: rest) (hsum : item 13 ≠ checksum entry) :
    scanName ⟨[], waiting front⟩ entry = [] := by
  rw [scanName, hwaiting]
  rw [parseLFNEntries, parseLFNLoop, if_pos hsum, cString]
  simp [Bytes.shift]

/-- The slots of a cluster are different. -/
theorem runPlaces_nodup (hpos : 0 < v.slotsPerSector) (sector n : ℕ) : (runPlaces v sector 0 n).Nodup := by
  rw [runPlaces_eq_map hpos]
  exact List.Nodup.map (slotPlace_injective sector) List.nodup_range'

/-- The slots of an acyclic chain are different places. -/
theorem chainPlaces_nodup (hpos : 0 < v.slotsPerSector) {l : List ℕ} (hl : l.Nodup)
    (hclusters : ∀ c ∈ l, IsCluster v c) : (chainPlaces v l).Nodup := by
  rw [chainPlaces, List.nodup_flatMap]
  refine ⟨fun c _ => runPlaces_nodup hpos _ _, ?_⟩
  refine List.Pairwise.imp_of_mem ?_ hl
  intro c c' hc hc' hne p hp hp'
  obtain ⟨⟨k, -, hk, hsector⟩, -⟩ := of_mem_runPlaces hp
  obtain ⟨⟨k', -, hk', hsector'⟩, -⟩ := of_mem_runPlaces hp'
  apply hne
  have hin : ClusterRegion v c (p.address v) := ⟨k, by omega, by rw [Place.address, hsector]; rfl⟩
  have hin' : ClusterRegion v c' (p.address v) := ⟨k', by omega, by rw [Place.address, hsector']; rfl⟩
  exact clusterRegion_unique (hclusters c hc).1 (hclusters c' hc').1 hin hin'

/-- For no entry of a directory `ParseLFNEntries` stores outside of the block of the name. -/
def KeepsToBlocks (v : Volume) (s : State) (ps : List Place) : Prop :=
  ∀ m p, (slotsInUse v s ps)[m]? = some p → Listed (slotOf v s p) →
    ∀ w ∈ lfnStores (checksum (slotOf v s p)) (waiting (slotsBefore v s ps m)),
      0 ≤ w.1 ∧ w.1 < 13 * (waiting (slotsBefore v s ps m)).length + 1

/-- The result of a scan has each entry of the directory once, in the order of the slots. -/
def ReportsEach (v : Volume) (s : State) (ps : List Place) (result : List FATEntryInfo) : Prop :=
  result.map (fun item => (item.place, item.entry)) = (liveSlots v s ps).map (fun p => (p, slotOf v s p)) ∧
    (liveSlots v s ps).Nodup

/-- `GetDirectoryEntries` reports each entry of a chain once and in order. Its name is right if it is
intact, and it is empty if the first slot that waits for the entry has another checksum. The
hypothesis on the blocks is for the code, which does not go on behind a store outside of them as the
model does. -/
theorem directory_names (v : Volume) (s : State) (hdev : v.AlwaysSucceeds) (hwf : v.WellFormed)
    (hslots : v.slotsPerSector < 256) (c : ℕ) (rootDirectory : Bool) (hroot : fixedRoot v rootDirectory = false)
    (l : List ℕ) (hwalk : Walks (tableEntry v s) (ChainStops v) c l) (hclusters : ∀ x ∈ l, IsCluster v x)
    (_hblocks : KeepsToBlocks v s (chainPlaces v l)) :
    ∃ result t, Returns (fun fuel => getDirectoryEntries v fuel c rootDirectory) s result t ∧
      ReportsEach v s (chainPlaces v l) result ∧
      ∀ m p, (slotsInUse v s (chainPlaces v l))[m]? = some p → Listed (slotOf v s p) →
        ∃ item ∈ result, item.place = p ∧
          (NameIntact (slotsBefore v s (chainPlaces v l) m) (slotOf v s p) →
            RightName (slotsBefore v s (chainPlaces v l) m) (slotOf v s p) item.filename) ∧
          ∀ first rest, waiting (slotsBefore v s (chainPlaces v l) m) = first :: rest →
            first 13 ≠ checksum (slotOf v s p) → item.filename = [] := by
  obtain ⟨t, hreturns, -⟩ := getDirectoryEntries_chain hwf.blockSize_eq hslots hdev.1 hwf hroot hwalk hclusters
  refine ⟨_, t, hreturns, ⟨?_, ?_⟩, fun m p hp hlisted => ?_⟩
  · simpa [listing] using map_scanResults v s (chainPlaces v l) ⟨[], []⟩
  · have hnodup := chainPlaces_nodup hwf.slotsPerSector_pos hwalk.nodup hclusters
    exact (hnodup.sublist (List.takeWhile_sublist _)).filter _
  · obtain ⟨item, hitem, hplace, hname⟩ := exists_mem_listing_named hp hlisted
    refine ⟨item, hitem, hplace, fun hintact => ?_, fun first rest hwaiting hsum => ?_⟩
    · rw [hname]
      exact rightName_of_intact hintact
    · rw [hname]
      exact scanName_of_mismatch hwaiting hsum

/-- A directory in cluster 2 with a long-name slot that belongs to no entry, in front of `A.TXT`. -/
def orphanState : State :=
  mounted (diskImage [(1, [0xF8, 0xFF, 0xFF, 0xFF, 0xF8, 0xFF]),
    (18, slotBytes (0x41 :: List.replicate 10 0) 0x0F 0 0 ++ slotBytes sampleName 0x20 0 0)])

/-- The directory of the sample has one cluster. -/
theorem orphan_walks : Walks (tableEntry (smallVolume 0) orphanState) (ChainStops (smallVolume 0)) 2 [2] :=
  ⟨rfl, by decide +kernel, show ChainStops _ _ by decide +kernel⟩

/-- The entry behind a long-name slot that does not belong to it is reported without a name. -/
theorem not_directory_names :
    ¬ ∀ (v : Volume) (s : State), v.AlwaysSucceeds → v.WellFormed → v.slotsPerSector < 256 →
      ∀ (c : ℕ) (rootDirectory : Bool), fixedRoot v rootDirectory = false → ∀ l : List ℕ,
        Walks (tableEntry v s) (ChainStops v) c l → (∀ x ∈ l, IsCluster v x) → ∀ result t,
          Returns (fun fuel => getDirectoryEntries v fuel c rootDirectory) s result t →
            ReportsEach v s (chainPlaces v l) result ∧
            ∀ m p, (slotsInUse v s (chainPlaces v l))[m]? = some p → Listed (slotOf v s p) →
              ∀ item ∈ result, item.place = p →
                RightName (slotsBefore v s (chainPlaces v l) m) (slotOf v s p) item.filename := by
  intro hclaim
  have hclusters : ∀ x ∈ [2], IsCluster (smallVolume 0) x := by simp [IsCluster, smallVolume]
  obtain ⟨t, hreturns, -⟩ := getDirectoryEntries_chain
    (smallVolume_wellFormed 0).blockSize_eq (by decide)
    (smallVolume_alwaysSucceeds 0).1 (smallVolume_wellFormed 0)
    (show fixedRoot (smallVolume 0) false = false from rfl) orphan_walks hclusters
  have hsecond : (slotsInUse (smallVolume 0) orphanState (chainPlaces (smallVolume 0) [2]))[1]? =
      some ⟨18, 32⟩ := by rfl
  have hfront : slotsBefore (smallVolume 0) orphanState (chainPlaces (smallVolume 0) [2]) 1 =
      [] ++ [slotOf (smallVolume 0) orphanState ⟨18, 0⟩] := by rfl
  obtain ⟨item, hitem, hplace, hname⟩ := exists_mem_listing_named hsecond (by decide +kernel)
  have hright := (hclaim _ _ (smallVolume_alwaysSucceeds 0) (smallVolume_wellFormed 0) (by decide) 2 false rfl
    [2] orphan_walks hclusters _ t hreturns).2 1 _ hsecond (by decide +kernel) item hitem hplace
  have hsum : slotOf (smallVolume 0) orphanState ⟨18, 0⟩ 13 ≠
      checksum (slotOf (smallVolume 0) orphanState ⟨18, 32⟩) := by decide +kernel
  rw [hfront] at hright hname
  have hshort := hright.short fun set hsuffix hset => by
    obtain ⟨first, hfirst⟩ : ∃ first, first ∈ set := List.exists_mem_of_length_pos hset.pos
    have hmem := hsuffix.subset hfirst
    rw [List.nil_append, List.mem_singleton] at hmem
    exact hsum (hmem ▸ hset.sum_eq first hfirst)
  rw [hname] at hshort
  exact absurd hshort (by decide +kernel)

/-- The 11 bytes of the 8.3 name of `a.b`. -/
def shortAB : List UInt8 := [0x41, 0x20, 0x20, 0x20, 0x20, 0x20, 0x20, 0x20, 0x42, 0x20, 0x20]

/-- A directory in cluster 2 with an entry named `a.b`. -/
def namedState : State :=
  mounted (diskImage [(1, [0xF8, 0xFF, 0xFF, 0xFF, 0xF8, 0xFF]),
    (18, (List.range 32).map (lfnEntry [0x61, 0x2E, 0x62] 1 0 (checksum fun i => shortAB.getD i 0)) ++
      slotBytes shortAB 0x20 0 0)])

/-- The long-name slot of `a.b` is a complete set. -/
theorem named_complete : CompleteSet [slotOf (smallVolume 0) namedState ⟨18, 0⟩]
    (checksum (slotOf (smallVolume 0) namedState ⟨18, 32⟩)) := by
  have hmarked : attributes (slotOf (smallVolume 0) namedState ⟨18, 0⟩) = attrLongName := by decide +kernel
  have hsum : slotOf (smallVolume 0) namedState ⟨18, 0⟩ 13 =
      checksum (slotOf (smallVolume 0) namedState ⟨18, 32⟩) := by decide +kernel
  refine ⟨by simp, by simp, by simpa using hmarked, by simpa using hsum, fun j item hitem => ?_⟩
  cases j with
  | zero =>
    cases hitem
    decide
  | succ j => simp at hitem

/-- It spells the name `a.b`. -/
theorem named_longName : longName [slotOf (smallVolume 0) namedState ⟨18, 0⟩] = [0x61, 0x2E, 0x62] := by
  decide +kernel

/-- The name is intact. -/
theorem named_intact : NameIntact [slotOf (smallVolume 0) namedState ⟨18, 0⟩]
    (slotOf (smallVolume 0) namedState ⟨18, 32⟩) := by
  refine Or.inr ⟨[], _, ?_, List.suffix_refl _, named_complete, ?_, by simp⟩
  · rfl
  · decide

/-- The slots of the directory of `a.b`. -/
theorem named_slots : slotsInUse (smallVolume 0) namedState (chainPlaces (smallVolume 0) [2]) =
    [⟨18, 0⟩, ⟨18, 32⟩] := by
  decide +kernel

/-- The one long-name slot of the directory is stored inside its block. -/
theorem named_keepsToBlocks : KeepsToBlocks (smallVolume 0) namedState (chainPlaces (smallVolume 0) [2]) := by
  intro m p hp hlisted
  rw [slotsBefore, named_slots] at *
  rcases m with _ | _ | m
  · cases hp
    exact absurd hlisted (by decide +kernel)
  · cases hp
    decide +kernel
  · cases hp

/-- The entry `a.b` is reported under its long name. -/
theorem directory_names_named : ∃ result t,
    Returns (fun fuel => getDirectoryEntries (smallVolume 0) fuel 2 false) namedState result t ∧
      ∃ item ∈ result, item.place = ⟨18, 32⟩ ∧ item.filename.map UInt8.toNat = [0x61, 0x2E, 0x62] := by
  have hwalk : Walks (tableEntry (smallVolume 0) namedState) (ChainStops (smallVolume 0)) 2 [2] :=
    ⟨rfl, by decide +kernel, show ChainStops _ _ by decide +kernel⟩
  obtain ⟨result, t, hreturns, -, hnames⟩ := directory_names _ namedState (smallVolume_alwaysSucceeds 0)
    (smallVolume_wellFormed 0) (by decide) 2 false rfl [2] hwalk (by simp [IsCluster, smallVolume])
    named_keepsToBlocks
  obtain ⟨item, hitem, hplace, hright, -⟩ := hnames 1 ⟨18, 32⟩ (by rfl) (by decide +kernel)
  exact ⟨result, t, hreturns, item, hitem, hplace,
    ((hright named_intact).long _ (List.suffix_refl _) named_complete).trans named_longName⟩

end Vsos.Fat
