import Vsos.Lib.Memory

/-!
# The module of an address

`GetModuleIndex` scans the section contributions of the DBI stream. The end of the scan counts the
module substream twice, so a scan that finds nothing goes on behind the section contributions.
-/

namespace Vsos.Pdb

open Vsos.Lib

/-- The members of `SectionContribEntry` that the lookup uses, the signed ones as their 32 bits. -/
structure SectionContribEntry where
  sectionIndex : ℕ
  offset : ℕ
  size : ℕ
  moduleIndex : ℕ

namespace SectionContribEntry

variable (entry : SectionContribEntry) (sectionIndex offset : ℕ)

/-- `Read<SectionContribEntry>` at a position of the stream. -/
def read (stream : Bytes) (position : ℕ) : SectionContribEntry :=
  ⟨stream.u16 position, stream.u32 (position + 4), stream.u32 (position + 8), stream.u16 (position + 16)⟩

/-- The comparisons of `GetModuleIndex`, which are unsigned. -/
def Matches : Prop :=
  entry.sectionIndex = sectionIndex ∧ entry.offset ≤ offset ∧ offset < wrap32 (entry.offset + entry.size)

instance : Decidable (entry.Matches sectionIndex offset) := inferInstanceAs (Decidable (_ ∧ _))

/-- The contribution has a byte at the offset. -/
def Covers : Prop :=
  entry.sectionIndex = sectionIndex ∧ (entry.offset : ℤ).bmod (2 ^ 32) ≤ offset ∧
    (offset : ℤ) < (entry.offset : ℤ).bmod (2 ^ 32) + (entry.size : ℤ).bmod (2 ^ 32)

instance : Decidable (entry.Covers sectionIndex offset) := inferInstanceAs (Decidable (_ ∧ _))

/-- The signed members are not negative. -/
def NonNegative : Prop := entry.offset < 2 ^ 31 ∧ entry.size < 2 ^ 31

instance : Decidable entry.NonNegative := inferInstanceAs (Decidable (_ ∧ _))

variable {entry sectionIndex offset}

/-- The unsigned comparisons are right about an entry without a negative member. -/
theorem matches_iff_covers (h : entry.sectionIndex = sectionIndex → entry.NonNegative) :
    entry.Matches sectionIndex offset ↔ entry.Covers sectionIndex offset := by
  refine and_congr_right fun hsection => ?_
  obtain ⟨hoffset, hsize⟩ := h hsection
  rw [wrap32_of_lt (by omega), Int.bmod_eq_of_le (by omega) (by omega),
    Int.bmod_eq_of_le (by omega) (by omega)]
  omega

end SectionContribEntry

/-- `SectionContrSubstreamVersion::Ver60`. -/
def ver60 : ℕ := 0xeffe0000 + 19970605

section Lookup

variable (stream : Bytes) (modInfoSize sectionContributionSize sectionIndex offset : ℕ)

/-- The loop of `GetModuleIndex`: how many entries it reads, and the module it returns. There is none if
the assertion behind the loop fails. -/
def scanEntries (endPosition : ℕ) : ℕ → ℕ → ℕ × Option ℕ
  | 0, _ => (0, none)
  | fuel + 1, position =>
    if position < endPosition then
      let entry := SectionContribEntry.read stream position
      if entry.Matches sectionIndex offset then (1, some entry.moduleIndex)
      else
        let rest := scanEntries endPosition fuel (wrap32 (position + 28))
        (rest.1 + 1, rest.2)
    else (0, none)

/-- `GetModuleIndex`. A loop that has not ended after `2 ^ 32` rounds has come back to a position. -/
def getModuleIndex : ℕ × Option ℕ :=
  let position := wrap32 (64 + modInfoSize)
  let endPosition := wrap32 (position + modInfoSize + sectionContributionSize)
  if stream.u32 position = ver60 then
    scanEntries stream sectionIndex offset endPosition (2 ^ 32) (wrap32 (position + 4))
  else (0, none)

/-- Consecutive entries from a position of the stream on. -/
def entriesFrom : ℕ → ℕ → List SectionContribEntry
  | 0, _ => []
  | n + 1, position => .read stream position :: entriesFrom n (position + 28)

/-- The entries of the section contributions, which follow their version. -/
def contributions : List SectionContribEntry :=
  entriesFrom stream ((sectionContributionSize - 4) / 28) (64 + modInfoSize + 4)

/-- The version and the entries that are read lie in the section contributions, and the module is that
of the first entry that covers the offset. -/
def FindsModule : Prop :=
  let (count, result) := getModuleIndex stream modInfoSize sectionContributionSize sectionIndex offset
  4 + 28 * count ≤ sectionContributionSize ∧
    ∀ entry ∈ (contributions stream modInfoSize sectionContributionSize).find? (·.Covers sectionIndex offset),
      result = some entry.moduleIndex

/-- The scan starts: the version is right, and the end of the scan does not wrap. -/
def Scans : Prop :=
  stream.u32 (64 + modInfoSize) = ver60 ∧ 64 + modInfoSize + modInfoSize + sectionContributionSize < 2 ^ 32

instance : Decidable (Scans stream modInfoSize sectionContributionSize) :=
  inferInstanceAs (Decidable (_ ∧ _))

end Lookup

variable {stream : Bytes} {m c sectionIndex offset : ℕ}

/-- The scan of entries in front of its end. -/
theorem scanEntries_run {endPosition position n : ℕ} (hend : position + 28 * n ≤ endPosition)
    (hlt : endPosition < 2 ^ 32) (fuel : ℕ) :
    let entries := entriesFrom stream n position
    let scan := scanEntries stream sectionIndex offset endPosition (n + fuel) position
    (∀ found ∈ entries.find? (·.Matches sectionIndex offset), scan.1 ≤ n ∧ scan.2 = some found.moduleIndex) ∧
      (entries.find? (·.Matches sectionIndex offset) = none →
        scan = (scanEntries stream sectionIndex offset endPosition fuel (position + 28 * n)).map (· + n) id) := by
  induction n generalizing position with
  | zero => exact ⟨nofun, fun _ => by rw [Nat.zero_add]; rfl⟩
  | succ n ih =>
    obtain ⟨hfound, hnone⟩ := @ih (position + 28) (by omega)
    dsimp only
    rw [Nat.succ_add, scanEntries, if_pos (by omega), wrap32_of_lt (by omega), entriesFrom,
      List.find?_cons]
    by_cases hmatch : (SectionContribEntry.read stream position).Matches sectionIndex offset
    · simp [hmatch]
    · simp only [hmatch, decide_false, if_false]
      refine ⟨fun found h => ?_, fun h => ?_⟩
      · obtain ⟨hcount, hresult⟩ := hfound found h
        exact ⟨Nat.succ_le_succ hcount, hresult⟩
      · rw [hnone h, show position + 28 * (n + 1) = position + 28 + 28 * n by omega]
        rfl

section Call

variable (hfits : 64 + m + c < 2 ^ 32) (hfour : 4 ≤ c)
include hfits hfour

/-- A lookup that does not scan finds nothing. -/
theorem getModuleIndex_of_not_scans (h : ¬ Scans stream m c) :
    getModuleIndex stream m c sectionIndex offset = (0, none) := by
  rw [getModuleIndex, wrap32_of_lt (show 64 + m < 2 ^ 32 by omega)]
  split
  · next hversion =>
    have hwraps := not_and.mp h hversion
    rw [show 2 ^ 32 = (2 ^ 32 - 1) + 1 from rfl, scanEntries, if_neg]
    simp only [wrap32]
    omega
  · rfl

/-- A lookup that scans finds what the unsigned comparisons find; if they find nothing, it ends with the
last entry or reads one more. -/
theorem getModuleIndex_of_scans (h : Scans stream m c) :
    let entries := contributions stream m c
    let lookup := getModuleIndex stream m c sectionIndex offset
    (∀ found ∈ entries.find? (·.Matches sectionIndex offset),
      lookup.1 ≤ (c - 4) / 28 ∧ lookup.2 = some found.moduleIndex) ∧
    (entries.find? (·.Matches sectionIndex offset) = none →
      if m + c ≤ 4 + 28 * ((c - 4) / 28) then lookup = ((c - 4) / 28, none)
      else (c - 4) / 28 < lookup.1) := by
  obtain ⟨hversion, hend⟩ := h
  obtain ⟨hfound, hnone⟩ := @scanEntries_run stream sectionIndex offset (64 + m + m + c) (64 + m + 4)
    ((c - 4) / 28) (by omega) hend (2 ^ 32 - (c - 4) / 28)
  rw [show (c - 4) / 28 + (2 ^ 32 - (c - 4) / 28) = 2 ^ 32 by omega] at hfound hnone
  dsimp only
  rw [getModuleIndex, wrap32_of_lt (show 64 + m < 2 ^ 32 by omega), if_pos hversion, wrap32_of_lt hend,
    wrap32_of_lt (by omega)]
  refine ⟨hfound, fun h => ?_⟩
  obtain ⟨rest, hrest⟩ := Nat.exists_eq_succ_of_ne_zero (show 2 ^ 32 - (c - 4) / 28 ≠ 0 by omega)
  rw [hnone h, hrest, scanEntries]
  by_cases hgo : 64 + m + 4 + 28 * ((c - 4) / 28) < 64 + m + m + c
  · rw [if_pos hgo, if_neg (by omega), Prod.map_fst]
    dsimp only
    split <;> omega
  · rw [if_neg hgo, if_pos (by omega), Prod.map_apply, Nat.zero_add]
    rfl

end Call

/-- A stream with the right version, and one entry for the offset 5 of section 1. -/
def oneEntry : Bytes := Bytes.setU32 (Bytes.setU16 (Bytes.setU32 (fun _ => 0) 164 ver60) 168 1) 176 6

end Vsos.Pdb
