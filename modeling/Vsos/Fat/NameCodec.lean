import Mathlib.Data.List.GetD
import Vsos.Fat.Create

/-!
# Names and the slots that encode them

A name goes to the disk as a list of long-name slots and as the eleven bytes of an 8.3 name, and
comes back through `ParseLFNEntries` and `ParseShortFilename`. Both parsers store into a block
they allocate. The index of a long-name slot is cut to four bits, so that the stores can miss the
block, and the block of a short name has no room for the NUL behind twelve characters.
-/

namespace Vsos.Fat

open Vsos.Lib

/-! ## Strings in blocks -/

/-- A block of `size` bytes starts with a string and its NUL. -/
structure HoldsString (block : Bytes) (size : ℕ) (str : List UInt8) : Prop where
  inside : str.length < size
  chars : ∀ i < str.length, block i = str.getD i 0
  nul : block str.length = 0

/-- Such a block reads back as the string. -/
theorem cString_eq {block : Bytes} {bound : ℕ} {str : List UInt8} (hbound : str.length ≤ bound)
    (hchars : ∀ i < str.length, block i = str.getD i 0) (hnul : block str.length = 0)
    (hne : ∀ c ∈ str, c ≠ 0) : cString block bound = str := by
  obtain ⟨rest, rfl⟩ := Nat.exists_eq_add_of_le hbound
  have hfront : (List.range str.length).map block = str := by
    apply List.ext_getElem (by simp)
    intro i hi _
    have hi : i < str.length := by simpa using hi
    rw [List.getElem_map, List.getElem_range, hchars i hi, List.getD_eq_getElem _ _ hi]
  rw [cString, List.range_add, List.map_append, hfront,
    List.takeWhile_append_of_pos fun c hc => by simpa using hne c hc]
  cases rest with
  | zero => simp
  | succ rest => simp [List.range_succ_eq_map, hnul]

/-! ## Long names -/

/-- The stores of `ParseLFNEntries`: an index of `longName`, which may lie in front of it, and the
character that goes there. -/
def lfnStores (shortChecksum : UInt8) : List Bytes → List (ℤ × UInt8)
  | [] => []
  | item :: rest =>
    if item 13 ≠ shortChecksum then []
    else
      (List.range 13).map (fun k : ℕ => (13 * (((item 0 &&& 0x0F).toNat : ℤ) - 1) + k, lfnChars item k)) ++
        lfnStores shortChecksum rest

/-- The block that `ParseLFNEntries` returns. -/
def lfnBlock (entries : List Bytes) (sfnEntry : Bytes) : Bytes :=
  (parseLFNLoop (checksum sfnEntry) entries fun _ => 0).shift 13

/-- The stores come from the slots in front of the first one with a wrong checksum. -/
theorem mem_lfnStores {shortChecksum : UInt8} {entries : List Bytes} {w : ℤ × UInt8} :
    w ∈ lfnStores shortChecksum entries ↔
      ∃ item ∈ entries.takeWhile (fun item => item 13 = shortChecksum), ∃ k : ℕ, k < 13 ∧
        w = (13 * (((item 0 &&& 0x0F).toNat : ℤ) - 1) + k, lfnChars item k) := by
  induction entries with
  | nil => simp [lfnStores]
  | cons item rest ih =>
    rw [lfnStores]
    by_cases hsum : item 13 = shortChecksum
    · rw [if_neg (by simpa using hsum), List.mem_append, ih, List.takeWhile_cons_of_pos (by simpa using hsum)]
      simp [eq_comm]
    · rw [if_pos hsum, List.takeWhile_cons_of_neg (by simpa using hsum)]
      simp

/-- `ParseLFNEntries` stores inside its block exactly if the slots it reads have an index between 1
and their number. -/
theorem lfnStores_inside_iff (entries : List Bytes) (sfnEntry : Bytes) :
    (∀ w ∈ lfnStores (checksum sfnEntry) entries, 0 ≤ w.1 ∧ w.1 < 13 * entries.length + 1) ↔
      ∀ item ∈ entries.takeWhile (fun item => item 13 = checksum sfnEntry),
        1 ≤ (item 0 &&& 0x0F).toNat ∧ (item 0 &&& 0x0F).toNat ≤ entries.length := by
  constructor
  · intro h item hitem
    have hfirst := (h _ (mem_lfnStores.mpr ⟨item, hitem, 0, by decide, rfl⟩)).1
    have hlast := (h _ (mem_lfnStores.mpr ⟨item, hitem, 12, by decide, rfl⟩)).2
    constructor <;> omega
  · intro h w hw
    obtain ⟨item, hitem, k, hk, rfl⟩ := mem_lfnStores.mp hw
    obtain ⟨hlow, hhigh⟩ := h item hitem
    constructor <;> omega

/-- A slot of zeros has index 0 and the checksum of an 8.3 entry of zeros: its characters go in front
of the block. -/
theorem not_lfnStores_inside :
    ¬ ∀ (entries : List Bytes) (sfnEntry : Bytes), entries ≠ [] →
      ∀ w ∈ lfnStores (checksum sfnEntry) entries, 0 ≤ w.1 ∧ w.1 < 13 * entries.length + 1 := by
  intro h
  have hfirst : ((-13, 0) : ℤ × UInt8) ∈ lfnStores (checksum fun _ => 0) [fun _ => 0] := by
    decide +kernel
  exact absurd (h _ _ (by simp) _ hfirst).1 (by decide)

/-- The index of a slot is a number below 16. -/
theorem lfnIndex_lt (c : UInt8) : (c &&& 0x0F).toNat < 16 := by
  exact Nat.lt_succ_of_le Nat.and_le_right

/-- No store reaches the 16th block of thirteen characters. -/
theorem parseLFNLoop_of_le (shortChecksum : UInt8) (entries : List Bytes) (block : Bytes) {i : ℕ}
    (h : 208 ≤ i) : parseLFNLoop shortChecksum entries block i = block i := by
  induction entries generalizing block with
  | nil => rfl
  | cons item rest ih =>
    have hindex := lfnIndex_lt (item 0)
    rw [parseLFNLoop]
    split
    · rfl
    · rw [ih, Bytes.blit_of_not_mem (by omega)]

/-- A character that the long-name slots keep. -/
def IsLongChar (c : UInt8) : Prop := 0x20 ≤ c ∧ c ≤ 0x7F

instance (c : UInt8) : Decidable (IsLongChar c) := inferInstanceAs (Decidable (_ ∧ _))

section Encode

variable {name : List UInt8} (num : ℕ) (sum : UInt8)

/-- The checksum in a long-name slot. -/
theorem lfnEntry_checksum (name : List UInt8) (n : ℕ) : lfnEntry name num n sum 13 = sum := rfl

/-- The first fifteen slots of a name keep their index. -/
theorem lfnEntry_index (name : List UInt8) {n : ℕ} (h : n < 15) :
    (lfnEntry name num n sum 0 &&& 0x0F).toNat = n + 1 := by
  have hboth : ∀ n < 15, ((UInt8.ofNat (n + 1) ||| 0x40) &&& 0x0F).toNat = n + 1 ∧
      ((UInt8.ofNat (n + 1) ||| 0) &&& 0x0F).toNat = n + 1 := by decide
  rw [lfnEntry, if_pos rfl]
  split
  · exact (hboth n h).1
  · exact (hboth n h).2

/-- Where a slot keeps its characters, it keeps nothing else. -/
theorem lfnCharOffset_spec : ∀ k < 13, lfnCharOffset k ≠ 0 ∧ lfnCharOffset k ≠ 11 ∧ lfnCharOffset k ≠ 13 ∧
    (List.range 13).find? (fun j => lfnCharOffset j = lfnCharOffset k) = some k := by decide

/-- A slot gives its characters back. -/
theorem lfnChars_lfnEntry (hchars : ∀ c ∈ name, IsLongChar c) (n : ℕ) {k : ℕ} (hk : k < 13) :
    lfnChars (lfnEntry name num n sum) k = name.getD (13 * n + k) 0 := by
  obtain ⟨hzero, hattr, hsum, hfind⟩ := lfnCharOffset_spec k hk
  have hstored : lfnEntry name num n sum (lfnCharOffset k) = name.getD (13 * n + k) 0 := by
    rw [lfnEntry, if_neg hzero, if_neg hattr, if_neg hsum, hfind]
  rw [lfnChars, hstored]
  split
  · rfl
  · next hbad =>
    by_contra hne
    apply hbad
    by_cases hlt : 13 * n + k < name.length
    · rw [List.getD_eq_getElem _ _ hlt]
      exact hchars _ (List.getElem_mem hlt)
    · rw [List.getD_eq_default _ _ (by omega)] at hne
      exact absurd rfl hne

/-- The slots of a name fill the blocks of their numbers. -/
theorem parseLFNLoop_lfnEntry (hchars : ∀ c ∈ name, IsLongChar c) {ns : List ℕ}
    (hns : ∀ n ∈ ns, n < 15) (block : Bytes) (i : ℕ) :
    parseLFNLoop sum (ns.map fun n => lfnEntry name num n sum) block (13 + i) =
      if i / 13 ∈ ns then name.getD i 0 else block (13 + i) := by
  induction ns generalizing block with
  | nil => rfl
  | cons n ns ih =>
    have hn := hns n List.mem_cons_self
    rw [List.map_cons, parseLFNLoop, if_neg (by simp [lfnEntry_checksum]), lfnEntry_index num sum name hn,
      ih fun m hm => hns m (List.mem_cons_of_mem _ hm)]
    by_cases hin : i / 13 ∈ ns
    · rw [if_pos hin, if_pos (List.mem_cons_of_mem _ hin)]
    · rw [if_neg hin]
      by_cases heq : i / 13 = n
      · rw [Bytes.blit_of_mem (by omega) (by omega), if_pos (List.mem_cons.mpr (Or.inl heq)),
          lfnChars_lfnEntry num sum hchars n (by omega)]
        congr 1
        omega
      · rw [Bytes.blit_of_not_mem (by omega), if_neg]
        intro hmem
        exact (List.mem_cons.mp hmem).elim heq hin

end Encode

/-- The slots that a name takes. -/
def lfnSlots (name : List UInt8) (sfnEntry : Bytes) : List Bytes :=
  createLFNEntriesFromName name ((name.length + 12) / 13) (checksum sfnEntry)

/-- A name of at most fifteen slots is decoded to itself, with NULs behind it. -/
theorem lfnBlock_lfnSlots {name : List UInt8} (hchars : ∀ c ∈ name, IsLongChar c)
    (hlength : name.length ≤ 195) (sfnEntry : Bytes) (i : ℕ) :
    lfnBlock (lfnSlots name sfnEntry) sfnEntry i = name.getD i 0 := by
  rw [lfnBlock, Bytes.shift_apply, lfnSlots, createLFNEntriesFromName, ← List.map_reverse,
    parseLFNLoop_lfnEntry _ _ hchars fun n hn => by
      have := List.mem_range.mp (List.mem_reverse.mp hn)
      omega]
  split
  · rfl
  · next hnot =>
    rw [List.getD_eq_default]
    have hge : ¬ i / 13 < (name.length + 12) / 13 := fun hlt =>
      hnot (List.mem_reverse.mpr (List.mem_range.mpr hlt))
    omega

/-- A name of more than fifteen slots loses what lies behind its 195th character. -/
theorem not_holdsString_of_long {name : List UInt8} (hchars : ∀ c ∈ name, IsLongChar c)
    (hlength : 195 < name.length) (sfnEntry : Bytes) (size : ℕ) :
    ¬ HoldsString (lfnBlock (lfnSlots name sfnEntry) sfnEntry) size name := by
  intro h
  have hzero : lfnBlock (lfnSlots name sfnEntry) sfnEntry 195 = 0 := by
    rw [lfnBlock, Bytes.shift_apply, parseLFNLoop_of_le _ _ _ (by omega)]
  have hchar := h.chars 195 hlength
  rw [hzero, List.getD_eq_getElem _ _ hlength] at hchar
  have hlong := (hchars _ (List.getElem_mem hlength)).1
  rw [← hchar] at hlong
  exact absurd hlong (by decide)

/-- `ParseLFNEntries` gives back the name that `CreateLFNEntriesFromName` encodes, inside its block
and with the NUL behind it, exactly if the name has at most 195 characters. -/
theorem longName_roundTrip_iff (name : List UInt8) (sfnEntry : Bytes)
    (hchars : ∀ c ∈ name, IsLongChar c) :
    (parseLFNEntries (lfnSlots name sfnEntry) sfnEntry = name ∧
        HoldsString (lfnBlock (lfnSlots name sfnEntry) sfnEntry)
          (13 * ((name.length + 12) / 13) + 1) name) ↔
      name.length ≤ 195 := by
  constructor
  · rintro ⟨-, hholds⟩
    by_contra hlong
    exact not_holdsString_of_long hchars (by omega) sfnEntry _ hholds
  · intro hlength
    have hblock := lfnBlock_lfnSlots hchars hlength sfnEntry
    have hnul : lfnBlock (lfnSlots name sfnEntry) sfnEntry name.length = 0 := by
      rw [hblock, List.getD_eq_default _ _ (le_refl _)]
    refine ⟨cString_eq hlength (fun i _ => hblock i) hnul fun c hc hzero => ?_,
      by omega, fun i _ => hblock i, hnul⟩
    have hlow := (hchars c hc).1
    rw [hzero] at hlow
    exact absurd hlow (by decide)

/-- A name of 196 letters does not come back. -/
theorem not_longName_roundTrip :
    ¬ ∀ (name : List UInt8) (sfnEntry : Bytes), 1 ≤ name.length → name.length ≤ 255 →
      (∀ c ∈ name, IsLongChar c) →
      parseLFNEntries (lfnSlots name sfnEntry) sfnEntry = name ∧
        HoldsString (lfnBlock (lfnSlots name sfnEntry) sfnEntry)
          (13 * ((name.length + 12) / 13) + 1) name := by
  intro h
  have hchars : ∀ c ∈ List.replicate 196 (0x41 : UInt8), IsLongChar c := by
    intro c hc
    rw [List.eq_of_mem_replicate hc]
    decide
  have hlength : (List.replicate 196 (0x41 : UInt8)).length = 196 := List.length_replicate
  exact not_holdsString_of_long hchars (by omega) (fun _ => 0) _
    (h _ (fun _ => 0) (by omega) (by omega) hchars).2

/-- The name `a.b` comes back. -/
theorem longName_roundTrip_short :
    (parseLFNEntries (lfnSlots [0x61, 0x2E, 0x62] fun _ => 0x20) (fun _ => 0x20) = [0x61, 0x2E, 0x62] ∧
        HoldsString (lfnBlock (lfnSlots [0x61, 0x2E, 0x62] fun _ => 0x20) fun _ => 0x20) 14
          [0x61, 0x2E, 0x62]) ↔ 3 ≤ 195 :=
  longName_roundTrip_iff [0x61, 0x2E, 0x62] (fun _ => 0x20) (by decide +kernel)

/-! ## Short names -/

/-- A field is trimmed to its last character that is no space. -/
theorem trimmedLength_eq {str : Bytes} {n m : ℕ} (hle : m ≤ n)
    (hspaces : ∀ i, m ≤ i → i < n → str i = 0x20) (hlast : 0 < m → str (m - 1) ≠ 0x20) :
    trimmedLength str n = m := by
  induction n with
  | zero =>
    rw [trimmedLength]
    omega
  | succ n ih =>
    rw [trimmedLength]
    rcases Nat.lt_or_ge n m with hlt | hge
    · obtain rfl : m = n + 1 := by omega
      exact if_neg (hlast (by omega))
    · rw [if_pos (hspaces n hge (by omega))]
      exact ih hge fun i hi hi' => hspaces i hi (by omega)

/-- A character of an 8.3 name that stands for itself. -/
def IsShortChar (c : UInt8) : Prop := c ≠ 0 ∧ ¬ (97 ≤ c ∧ c ≤ 122) ∧ c ≠ 0x2E ∧ c ≠ 0x20

instance (c : UInt8) : Decidable (IsShortChar c) := inferInstanceAs (Decidable (_ ∧ _))

/-- The characters of an 8.3 name are upper case. -/
theorem uppercase_of_isShortChar {c : UInt8} (h : IsShortChar c) : uppercase c = c := if_neg h.2.1

section Short

variable {main ext : List UInt8} (hmain : ∀ c ∈ main, IsShortChar c) (hext : ∀ c ∈ ext, IsShortChar c)
  (hmain8 : main.length ≤ 8)
include hmain hext hmain8

/-- The eleven bytes of a name: both fields, filled up with spaces. -/
theorem createShortFilename_spec :
    ∃ short, createShortFilename (main ++ 0x2E :: ext) = some short ∧
      (∀ i < 8, short i = main.getD i 0x20) ∧ ∀ i < 3, short (8 + i) = ext.getD i 0x20 := by
  have hfind : (main ++ 0x2E :: ext).findIdx? (· = 0x2E) = some main.length := by
    rw [List.findIdx?_eq_some_iff_getElem]
    refine ⟨by simp, by simp, fun j hj => ?_⟩
    rw [List.getElem_append_left hj]
    simpa using (hmain _ (List.getElem_mem hj)).2.2.1
  refine ⟨_, by rw [createShortFilename, hfind], fun i hi => ?_, fun i hi => ?_⟩
  · rw [if_pos hi, if_neg (by omega)]
    split
    · next hlt =>
      rw [List.getD_append _ _ _ _ hlt, List.getD_eq_getElem _ _ hlt, List.getD_eq_getElem _ _ hlt]
      exact uppercase_of_isShortChar (hmain _ (List.getElem_mem hlt))
    · rw [List.getD_eq_default _ _ (by omega)]
  · rw [if_neg (by omega), if_pos (by omega), Nat.add_sub_cancel_left]
    simp only [List.length_append, List.length_cons]
    split
    · rw [List.getD_eq_default _ _ (by omega)]
    · have hlt : i < ext.length := by omega
      rw [List.getD_append_right _ _ _ _ (by omega), show main.length + 1 + i - main.length = i + 1 by omega,
        List.getD_cons_succ, List.getD_eq_getElem _ _ hlt, List.getD_eq_getElem _ _ hlt]
      exact uppercase_of_isShortChar (hext _ (List.getElem_mem hlt))

end Short

/-- A padded field is trimmed to what it holds. -/
theorem trimmedLength_field {field : List UInt8} (hfield : ∀ c ∈ field, IsShortChar c) {str : Bytes}
    {n : ℕ} (hle : field.length ≤ n) (hstr : ∀ i < n, str i = field.getD i 0x20) :
    trimmedLength str n = field.length := by
  apply trimmedLength_eq hle
  · intro i hi hi'
    rw [hstr i hi', List.getD_eq_default _ _ hi]
  · intro hpos
    have hlt : field.length - 1 < field.length := by omega
    rw [hstr _ (by omega), List.getD_eq_getElem _ _ hlt]
    exact (hfield _ (List.getElem_mem hlt)).2.2.2

/-- The parsed block of padded fields: the fields joined by a dot, with NULs behind them as far as
there is room. -/
theorem shortBlock_fields {main ext : List UInt8} (hmain : ∀ c ∈ main, IsShortChar c)
    (hext : ∀ c ∈ ext, IsShortChar c) (hmain8 : main.length ≤ 8) (hext1 : 1 ≤ ext.length)
    (hext3 : ext.length ≤ 3) {short : Bytes} (hfirst : ∀ i < 8, short i = main.getD i 0x20)
    (hsecond : ∀ i < 3, short (8 + i) = ext.getD i 0x20) (i : ℕ) (hi : i < 12) :
    shortBlock short i = (main ++ 0x2E :: ext).getD i 0 := by
  have hmainEnd := trimmedLength_field hmain hmain8 hfirst
  have hextEnd : trimmedLength (short.shift 8) 3 = ext.length := trimmedLength_field hext hext3 hsecond
  simp only [shortBlock, hmainEnd, hextEnd, if_neg (show ¬ ext.length = 0 by omega)]
  rcases Nat.lt_trichotomy i main.length with hlt | rfl | hgt
  · rw [Bytes.blit_of_not_mem (by omega), Bytes.setU8_ne (by omega),
      Bytes.blit_of_mem (by omega) (by omega), Nat.sub_zero, hfirst i (by omega),
      List.getD_append _ _ _ _ hlt, List.getD_eq_getElem _ _ hlt, List.getD_eq_getElem _ _ hlt]
  · rw [Bytes.blit_of_not_mem (by omega), Bytes.setU8_self, List.getD_append_right _ _ _ _ (le_refl _),
      Nat.sub_self]
    rfl
  · obtain ⟨j, rfl⟩ := Nat.exists_eq_add_of_lt hgt
    rw [List.getD_append_right _ _ _ _ (by omega), show main.length + j + 1 - main.length = j + 1 by omega,
      List.getD_cons_succ]
    by_cases hj : j < ext.length
    · rw [Bytes.blit_of_mem (by omega) (by omega), Bytes.shift_apply,
        show main.length + j + 1 - (main.length + 1) = j by omega, hsecond j (by omega),
        List.getD_eq_getElem _ _ hj, List.getD_eq_getElem _ _ hj]
    · rw [Bytes.blit_of_not_mem (by omega), Bytes.setU8_ne (by omega), Bytes.blit_of_not_mem (by omega),
        List.getD_eq_default _ _ (by omega)]
      exact if_pos hi

/-- `ParseShortFilename` gives a name back, with its NUL inside the block of twelve bytes. -/
def ShortRoundTrips (name : List UInt8) : Prop :=
  ∃ short, createShortFilename name = some short ∧ parseShortFilename short = name ∧
    HoldsString (shortBlock short) 12 name

/-- A name of eight and three characters fills the block, so that no NUL is behind it; every shorter
name comes back whole. -/
theorem shortName_roundTrip_iff (main ext : List UInt8) (hmain : ∀ c ∈ main, IsShortChar c)
    (hext : ∀ c ∈ ext, IsShortChar c) (hmain8 : main.length ≤ 8) (hext1 : 1 ≤ ext.length)
    (hext3 : ext.length ≤ 3) :
    ShortRoundTrips (main ++ 0x2E :: ext) ↔ main.length + ext.length < 11 := by
  have hlength : (main ++ 0x2E :: ext).length = main.length + ext.length + 1 := by
    rw [List.length_append, List.length_cons]
    omega
  obtain ⟨short, hshort, hfirst, hsecond⟩ := createShortFilename_spec hmain hext hmain8
  have hblock := shortBlock_fields hmain hext hmain8 hext1 hext3 hfirst hsecond
  constructor
  · rintro ⟨_, -, -, hholds⟩
    have := hholds.inside
    omega
  · intro hlt
    have hnul : shortBlock short (main ++ 0x2E :: ext).length = 0 := by
      rw [hblock _ (by omega), List.getD_eq_default _ _ (le_refl _)]
    have hchars (i : ℕ) (hi : i < (main ++ 0x2E :: ext).length) :
        shortBlock short i = (main ++ 0x2E :: ext).getD i 0 := hblock i (by omega)
    refine ⟨short, hshort, ?_, by omega, hchars, hnul⟩
    refine cString_eq (by omega) hchars hnul fun c hc => ?_
    rcases List.mem_append.mp hc with hc | hc
    · exact (hmain c hc).1
    · rcases List.mem_cons.mp hc with rfl | hc
      · decide
      · exact (hext c hc).1

/-- The NUL behind `AAAAAAAA.BBB` would be the thirteenth byte. -/
theorem not_shortName_roundTrip :
    ¬ ∀ main ext : List UInt8, 1 ≤ main.length → main.length ≤ 8 → 1 ≤ ext.length → ext.length ≤ 3 →
      (∀ c ∈ main, IsShortChar c) → (∀ c ∈ ext, IsShortChar c) →
      ShortRoundTrips (main ++ 0x2E :: ext) := by
  intro h
  obtain ⟨_, -, -, hholds⟩ := h (List.replicate 8 0x41) (List.replicate 3 0x42) (by decide) (by decide)
    (by decide) (by decide) (by decide +kernel) (by decide +kernel)
  exact absurd hholds.inside (by decide)

/-- The name `AB.C` comes back. -/
theorem shortName_roundTrip_AB :
    ShortRoundTrips [0x41, 0x42, 0x2E, 0x43] ↔ 2 + 1 < 11 :=
  shortName_roundTrip_iff [0x41, 0x42] [0x43] (by decide +kernel) (by decide +kernel) (by decide) (by decide)
    (by decide)

end Vsos.Fat
