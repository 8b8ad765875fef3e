import Vsos.Fat.Create

/-!
# Splitting a path for a creating call

`GetEntryByPath` looks a path up by its components, the fields of `StrSplit` that are not empty.
`CreateNewDirFileEntry` cuts the path at a separator instead, which it chooses by the number of
components. The two agree on paths whose components are joined by single separators, as long as
the length of the path is an `int`.
-/

namespace Vsos.Fat

open Vsos.Lib

variable {d : UInt8} {path str : List UInt8}

/-! ## Fields and components -/

/-- Nothing is put in front of the first field. -/
theorem modifyHead_nil_append {α : Type} (l : List (List α)) : l.modifyHead ([] ++ ·) = l := by
  cases l <;> rfl

/-- The loop of `StrSplit` in terms of all fields, the empty ones included. -/
theorem splitLoop_eq (d : UInt8) (str part : List UInt8) (found : Bool) :
    splitLoop d str part found =
      if found ∨ d ∈ str then ((str.splitOn d).modifyHead (part ++ ·)).filter (· ≠ []) else [] := by
  induction str generalizing part found with
  | nil => by_cases hpart : part = [] <;> simp [splitLoop, hpart]
  | cons c rest ih =>
    rw [splitLoop, List.splitOn_cons_eq_if_modifyHead]
    by_cases hc : c = d
    · subst hc
      rw [ih, modifyHead_nil_append]
      by_cases hpart : part = [] <;> simp [hpart]
    · have hmem : d ∈ c :: rest ↔ d ∈ rest := by
        rw [List.mem_cons, or_iff_right fun heq => hc heq.symm]
      simp only [hc, if_false, ih, hmem, beq_iff_eq, List.modifyHead_modifyHead, Function.comp_def,
        List.append_assoc, List.singleton_append]

/-- Of a string fewer than `2 ^ 31` characters are looked at. -/
theorem intLength_lt (n : ℕ) : intLength n < 2 ^ 31 := by
  rw [intLength]
  split
  · assumption
  · decide

/-- A string whose length is an `int` is looked at as a whole. -/
theorem take_intLength (h : str.length < 2 ^ 31) : str.take (intLength str.length) = str := by
  have hlength : intLength str.length = str.length := by
    rw [intLength, wrap32_of_lt (by omega), if_pos h]
  rw [hlength, List.take_length]

/-- The components of a path with a separator are its fields that are not empty. -/
theorem strSplit_eq (hlength : str.length < 2 ^ 31) (h : d ∈ str) :
    strSplit str d = (str.splitOn d).filter (· ≠ []) := by
  rw [strSplit, take_intLength hlength, splitLoop_eq, if_pos (Or.inr h), modifyHead_nil_append]

/-- A string without a delimiter has no components. -/
theorem strSplit_eq_nil (h : d ∉ str) : strSplit str d = [] := by
  have hpart : d ∉ str.take (intLength str.length) := fun hmem => h (List.mem_of_mem_take hmem)
  rw [strSplit, splitLoop_eq, if_neg (by simpa using hpart)]

/-- `StrSplit` yields the fields of a string that are not empty, but nothing without a delimiter. -/
theorem strSplit_fields (str : List UInt8) (d : UInt8) (hlength : str.length < 2 ^ 31) :
    strSplit str d = if d ∈ str then (str.splitOn d).filter (· ≠ []) else [] := by
  split
  · next h => exact strSplit_eq hlength h
  · next h => exact strSplit_eq_nil h

/-- The fields of `\a\\b`. -/
theorem strSplit_fields_two : strSplit [0x5C, 0x61, 0x5C, 0x5C, 0x62] 0x5C =
    if 0x5C ∈ ([0x5C, 0x61, 0x5C, 0x5C, 0x62] : List UInt8) then
      (([0x5C, 0x61, 0x5C, 0x5C, 0x62] : List UInt8).splitOn 0x5C).filter (· ≠ []) else [] :=
  strSplit_fields _ 0x5C (by decide)

/-- There is one field more than there are separators. -/
theorem length_splitOn (d : UInt8) (str : List UInt8) : (str.splitOn d).length = str.count d + 1 := by
  induction str with
  | nil => rfl
  | cons c rest ih =>
    rw [List.splitOn_cons_eq_if_modifyHead, List.count_cons]
    split
    · rw [List.length_cons, ih]
    · rw [List.length_modifyHead, ih]

/-- A field holds no separator, and is no longer than the string. -/
theorem of_mem_splitOn {field : List UInt8} (h : field ∈ str.splitOn d) :
    d ∉ field ∧ field.length ≤ str.length := by
  induction str generalizing field with
  | nil =>
    rw [List.splitOn_nil, List.mem_singleton] at h
    simp [h]
  | cons c rest ih =>
    rw [List.splitOn_cons_eq_if_modifyHead] at h
    rw [List.length_cons]
    split at h
    · rcases List.mem_cons.mp h with rfl | h
      · simp
      · exact (ih h).imp_right Nat.le_succ_of_le
    · next hc =>
      cases hfields : rest.splitOn d with
      | nil => exact absurd hfields (List.splitOn_ne_nil _ _)
      | cons first others =>
        rw [hfields] at h ih
        rcases List.mem_cons.mp h with rfl | h
        · obtain ⟨hfirst, hle⟩ := ih List.mem_cons_self
          have hne : d ≠ c := fun heq => hc (by simp [heq])
          exact ⟨by simp [hne, hfirst], by simpa using hle⟩
        · exact (ih (List.mem_cons_of_mem _ h)).imp_right Nat.le_succ_of_le

/-- A component holds no separator and has fewer than `2 ^ 31` characters. -/
theorem of_mem_strSplit {part : List UInt8} (h : part ∈ strSplit str d) :
    d ∉ part ∧ part.length < 2 ^ 31 := by
  rw [strSplit, splitLoop_eq, modifyHead_nil_append] at h
  split at h
  · obtain ⟨hfree, hle⟩ := of_mem_splitOn (List.mem_of_mem_filter h)
    have hlt := intLength_lt str.length
    rw [List.length_take] at hle
    exact ⟨hfree, by omega⟩
  · cases h

/-! ## The separator that is found -/

/-- `IndexOf` answers -1, or the place of a separator behind so many others, which is an `int`. -/
theorem indexOfLoop_spec (c : UInt8) {skip : ℕ} (hskip : skip < 2 ^ 32) (str : List UInt8) {hits : ℕ}
    (hhits : hits ≤ skip) (i : ℕ) :
    (indexOfLoop c skip str hits i = -1 ∧
        (str.count c + hits ≤ skip ∨ 2 ^ 31 < i + str.length)) ∨
      ∃ xs ys, str = xs ++ c :: ys ∧ xs.count c + hits = skip ∧ i + xs.length < 2 ^ 31 ∧
        indexOfLoop c skip str hits i = i + xs.length := by
  induction str generalizing hits i with
  | nil => exact Or.inl ⟨rfl, Or.inl (by simpa using hhits)⟩
  | cons x rest ih =>
    rw [indexOfLoop, List.length_cons]
    by_cases hint : 2 ^ 31 ≤ i
    · exact Or.inl ⟨if_pos hint, Or.inr (by omega)⟩
    rw [if_neg hint]
    by_cases hx : x = c
    · subst hx
      rw [if_pos rfl]
      by_cases heq : hits = skip
      · exact Or.inr ⟨[], rest, rfl, by simpa using heq, by simpa using hint, by simp [heq]⟩
      · rw [if_neg heq, wrap32_of_lt (by omega)]
        rcases ih (show hits + 1 ≤ skip by omega) (i + 1) with
          ⟨hnone, hwhy⟩ | ⟨xs, ys, rfl, hcount, hlt, hfound⟩
        · refine Or.inl ⟨hnone, ?_⟩
          rw [List.count_cons_self]
          omega
        · refine Or.inr ⟨x :: xs, ys, rfl, ?_, ?_, ?_⟩
          · rw [List.count_cons_self]
            omega
          · rw [List.length_cons]
            omega
          · rw [List.length_cons]
            omega
    · rw [if_neg hx]
      rcases ih hhits (i + 1) with ⟨hnone, hwhy⟩ | ⟨xs, ys, rfl, hcount, hlt, hfound⟩
      · refine Or.inl ⟨hnone, ?_⟩
        rw [List.count_cons_of_ne hx]
        omega
      · refine Or.inr ⟨x :: xs, ys, rfl, by rwa [List.count_cons_of_ne hx], ?_, ?_⟩
        · rw [List.length_cons]
          omega
        · rw [List.length_cons]
          omega

/-- The index at which `CreateNewDirFileEntry` cuts the path. -/
def splitIndex (path : List UInt8) : ℤ :=
  indexOf path pathSeperator (sub32 (strSplit path pathSeperator).length 2)

/-- The string that `CreateNewDirFileEntry` looks up as the parent directory. -/
def parentPath (path : List UInt8) : List UInt8 :=
  if splitIndex path < 0 then path else path.take (splitIndex path).toNat

/-- The string that `CreateNewDirFileEntry` passes to `CreateEntry`. -/
def entryName (path : List UInt8) : List UInt8 := path.drop (splitIndex path + 1).toNat

/-- A NUL is put into the string at the index, and what was there is put back. -/
def cutAndRestore (str : ℤ → UInt8) (i : ℤ) : ℤ → UInt8 :=
  Function.update (Function.update str i 0) i (str i)

/-- A path with components is handled in these terms. -/
theorem createNewDirFileEntry_of_components (h : strSplit path pathSeperator ≠ []) (v : Volume)
    (fuel attributes : ℕ) :
    createNewDirFileEntry v fuel path attributes = (do
      emit (.path (splitIndex path))
      match ← getEntryByPath v fuel (parentPath path) with
      | none => return -1
      | some parentEntry => do
        let newCluster ← allocateCluster v
        let parentCluster := getCluster parentEntry.entry
        match ← createEntry v fuel parentCluster (entryName path) attributes false newCluster with
        | none => return -1
        | some offset =>
          finishNewEntry v (attributes &&& attrDirectory.toNat != 0) parentCluster offset) := by
  rw [createNewDirFileEntry, if_neg h]
  rfl

/-- A string leads to the entry of the directory with these components. The root directory, which has
no components, has no entry that a lookup could return. -/
def ResolvesTo (parentDirectory : List UInt8) (components : List (List UInt8)) : Prop :=
  components ≠ [] ∧ ∀ v fuel, getEntryByPath v fuel parentDirectory =
    walkPath v fuel components v.rootDirCluster true

/-- A creating call splits the path as a lookup does. -/
structure SplitsAsLookup (path : List UInt8) : Prop where
  inside : 0 ≤ splitIndex path ∧ splitIndex path ≤ path.length
  kept : ∀ str, cutAndRestore str (splitIndex path) = str
  parent : ResolvesTo (parentPath path) (strSplit path pathSeperator).dropLast
  name : (strSplit path pathSeperator).getLast? = some (entryName path)

/-- A single component is looked up in the root directory, with or without a separator. -/
theorem walkPath_singleton (v : Volume) (fuel : ℕ) (part : List UInt8) (cluster : ℕ) (first : Bool) :
    walkPath v fuel [part] cluster first = seachInDirectory v fuel part cluster first := by
  refine Eq.trans (bind_congr fun r => ?_) (bind_pure _)
  cases r <;> rfl

/-- A string without empty fields leads to what its fields lead to. -/
theorem resolvesTo_splitOn (hlength : str.length < 2 ^ 31)
    (h : ∀ field ∈ str.splitOn pathSeperator, field ≠ []) : ResolvesTo str (str.splitOn pathSeperator) := by
  refine ⟨List.splitOn_ne_nil _ _, fun v fuel => ?_⟩
  rw [getEntryByPath]
  by_cases hmem : pathSeperator ∈ str
  · have hparts : strSplit str pathSeperator = str.splitOn pathSeperator := by
      rw [strSplit_eq hlength hmem]
      simpa using h
    rw [hparts, if_neg (List.splitOn_ne_nil _ _)]
  · rw [strSplit_eq_nil hmem, if_pos rfl, List.splitOn_eq_singleton hmem, walkPath_singleton]

/-- Where a path is cut: at a separator with `splitIndex` characters in front of it, or nowhere. -/
theorem splitIndex_spec (path : List UInt8) :
    (splitIndex path = -1 ∧
        (path.count pathSeperator ≤ sub32 (strSplit path pathSeperator).length 2 ∨
          2 ^ 31 < path.length)) ∨
      ∃ xs ys, path = xs ++ pathSeperator :: ys ∧
        xs.count pathSeperator = sub32 (strSplit path pathSeperator).length 2 ∧
        xs.length < 2 ^ 31 ∧ splitIndex path = xs.length := by
  have hlt : sub32 (strSplit path pathSeperator).length 2 < 2 ^ 32 := Nat.mod_lt _ (by decide)
  simpa [splitIndex, indexOf] using indexOfLoop_spec pathSeperator hlt path (Nat.zero_le _) 0

/-- The two strings of a path that is cut behind `xs`. -/
theorem parentPath_eq {xs ys : List UInt8} (hpath : path = xs ++ pathSeperator :: ys)
    (hindex : splitIndex path = xs.length) : parentPath path = xs ∧ entryName path = ys := by
  have hpos : ¬ splitIndex path < 0 := by omega
  rw [parentPath, entryName, if_neg hpos, hindex]
  constructor
  · rw [Int.toNat_natCast, hpath, List.take_left]
  · rw [hpath, List.append_cons, List.drop_left' (by simp)]

/-- The components of a path without empty fields, and the separator in front of the last one. -/
theorem splitsAsLookup_of_fields (hsep : pathSeperator ∈ path) (hlength : path.length < 2 ^ 31)
    (hfields : ∀ field ∈ path.splitOn pathSeperator, field ≠ []) : SplitsAsLookup path := by
  have hcount : 0 < path.count pathSeperator := List.count_pos_iff.mpr hsep
  have hle : path.count pathSeperator ≤ path.length := List.count_le_length
  have hparts : strSplit path pathSeperator = path.splitOn pathSeperator := by
    rw [strSplit_eq hlength hsep]
    simpa using hfields
  have hskip : sub32 (strSplit path pathSeperator).length 2 = path.count pathSeperator - 1 := by
    rw [hparts, length_splitOn]
    unfold sub32
    omega
  rcases splitIndex_spec path with ⟨-, hwhy⟩ | ⟨xs, ys, hpath, hxs, -, hindex⟩
  · omega
  · obtain ⟨hparent, hname⟩ := parentPath_eq hpath hindex
    have hys : pathSeperator ∉ ys := by
      have hsum : path.count pathSeperator = xs.count pathSeperator + (ys.count pathSeperator + 1) := by
        conv_lhs => rw [hpath, List.count_append, List.count_cons_self]
      rw [← List.count_eq_zero]
      omega
    have hsplit : path.splitOn pathSeperator = xs.splitOn pathSeperator ++ [ys] := by
      rw [hpath, List.splitOn_append_cons_self, List.splitOn_eq_singleton hys]
    have hxsle : xs.length ≤ path.length := by
      rw [hpath, List.length_append]
      omega
    refine ⟨⟨by omega, by omega⟩, fun str => ?_, ?_, ?_⟩
    · rw [cutAndRestore, Function.update_idem, Function.update_eq_self]
    · rw [hparent, hparts, hsplit, List.dropLast_concat]
      apply resolvesTo_splitOn (by omega)
      intro field hfield
      exact hfields field (by rw [hsplit]; exact List.mem_append_left _ hfield)
    · rw [hname, hparts, hsplit, List.getLast?_concat]

/-- A path that is split as for a lookup has two components at least. -/
theorem SplitsAsLookup.two_le (h : SplitsAsLookup path) : 2 ≤ (strSplit path pathSeperator).length := by
  have hpos := List.length_pos_of_ne_nil h.parent.1
  rw [List.length_dropLast] at hpos
  omega

/-- It is cut in front of its last component. -/
theorem SplitsAsLookup.exists_cut (h : SplitsAsLookup path) :
    ∃ xs ys, path = xs ++ pathSeperator :: ys ∧ ys ∈ strSplit path pathSeperator ∧
      xs.count pathSeperator = sub32 (strSplit path pathSeperator).length 2 ∧ xs.length < 2 ^ 31 := by
  rcases splitIndex_spec path with ⟨hnone, -⟩ | ⟨xs, ys, hpath, hxs, hlt, hindex⟩
  · have hinside := h.inside.1
    omega
  · have hlast := List.mem_of_getLast? h.name
    rw [(parentPath_eq hpath hindex).2] at hlast
    exact ⟨xs, ys, hpath, hlast, hxs, hlt⟩

/-- The length of a path that is split as for a lookup is an `int`. -/
theorem SplitsAsLookup.length_lt (h : SplitsAsLookup path) : path.length < 2 ^ 31 := by
  by_contra hlong
  have htwo := h.two_le
  obtain ⟨xs, ys, hpath, hys, -, hxs⟩ := h.exists_cut
  have hname := (of_mem_strSplit hys).2
  have hlength : path.length = xs.length + (ys.length + 1) := by
    rw [hpath, List.length_append, List.length_cons]
  -- a longer path is only looked at if the low word of its length is small
  have hnone : intLength path.length = 0 := by
    rw [intLength, wrap32]
    split <;> omega
  rw [strSplit, hnone] at htwo
  exact absurd htwo (by simp [splitLoop])

/-- A creating call splits a path as a lookup does exactly if the path has no empty field and its
length is an `int`. -/
theorem splitsAsLookup_iff (path : List UInt8) (hsep : pathSeperator ∈ path) :
    SplitsAsLookup path ↔
      path.length < 2 ^ 31 ∧ ∀ field ∈ path.splitOn pathSeperator, field ≠ [] := by
  constructor
  · intro h
    have hlength := h.length_lt
    refine ⟨hlength, ?_⟩
    have htwo := h.two_le
    have hle : path.count pathSeperator ≤ path.length := List.count_le_length
    obtain ⟨xs, ys, hpath, hys, hxs, -⟩ := h.exists_cut
    -- the name is a component, so the separator in front of it is the last one
    have hcount : path.count pathSeperator = sub32 (strSplit path pathSeperator).length 2 + 1 := by
      rw [← hxs, hpath, List.count_append, List.count_cons_self,
        List.count_eq_zero.mpr (of_mem_strSplit hys).1]
    have hall : (strSplit path pathSeperator).length = (path.splitOn pathSeperator).length := by
      have hfew := List.length_filter_le (fun field : List UInt8 => decide (field ≠ []))
        (path.splitOn pathSeperator)
      rw [← strSplit_eq hlength hsep] at hfew
      rw [length_splitOn] at hfew ⊢
      unfold sub32 at hcount
      omega
    rw [strSplit_eq hlength hsep, List.length_filter_eq_length_iff] at hall
    simpa using hall
  · rintro ⟨hlength, hfields⟩
    exact splitsAsLookup_of_fields hsep hlength hfields

/-- In a separator followed by a letter there is no second component to cut in front of, and the
character in front of the string is overwritten. -/
theorem not_splitsAsLookup :
    ¬ ∀ path : List UInt8, pathSeperator ∈ path → (∃ c ∈ path, c ≠ pathSeperator) → SplitsAsLookup path := by
  intro h
  have hindex := (h [0x5C, 0x61] (by decide) (by decide)).inside.1
  exact absurd hindex (by decide)

/-- The path with the components `a` and `b`. -/
theorem splitsAsLookup_two : SplitsAsLookup [0x61, 0x5C, 0x62] :=
  (splitsAsLookup_iff [0x61, 0x5C, 0x62] (by decide)).mpr ⟨by decide, by decide⟩

end Vsos.Fat
