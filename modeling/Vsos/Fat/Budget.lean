import Vsos.Fat.File

/-!
# The budget of the driver

The scans of a directory carry a budget because they need not end. A budget that is large
enough for an answer can be raised without changing it, so one answer of `GetEntryByPath`,
of the creating calls or of `WriteFile` is its answer.
-/

namespace Vsos.Fat

open Vsos.Lib

variable (v : Volume)

/-- More budget does not change what the scan of a cluster finds. -/
theorem scanSectors_stable (sector n i : ℕ) (sc : Scan) :
    Stable fun budget => scanSectors v budget sector n i sc := by
  induction n generalizing i sc with
  | zero => exact Stable.const _
  | succ n ih =>
    refine Stable.bind (Stable.const _) fun status => ?_
    refine Stable.ite (Stable.const _) ?_
    refine Stable.bind (Stable.const _) fun buffer => ?_
    intro m m' s a t hm h
    dsimp only at h ⊢
    -- the rounds over the slots answered, so they answer alike within the larger budget
    split at h
    · cases h
    · next hl => rw [loop8_stable hm hl]; exact h
    · next hl => rw [loop8_stable hm hl]; exact ih _ _ m m' s a t hm h

/-- More budget does not change what the scan of a directory finds. -/
theorem getDirectoryLoop_stable (rootDirectory : Bool) {n m b b' : ℕ} (hb : b ≤ b')
    (hnm : n ≤ m) {sector cluster : ℕ} {sc : Scan} :
    Answers (getDirectoryLoop v rootDirectory b n sector cluster sc)
      (getDirectoryLoop v rootDirectory b' m sector cluster sc) := by
  induction n generalizing m sector cluster sc with
  | zero => exact nofun
  | succ n ih =>
    obtain ⟨m, rfl⟩ := Nat.exists_eq_succ_of_ne_zero (show m ≠ 0 by omega)
    apply Answers.ite (.refl _)
    apply Answers.bind fun _ _ _ => scanSectors_stable v _ _ _ _ _ _ _ _ _ hb
    rintro (sc' | sc')
    · exact .ite (ih (by omega)) (.bind (.refl _) fun _ => ih (by omega))
    · exact .refl _

/-- More budget does not change what a search finds. -/
theorem seachInDirectory_stable (name : List UInt8) (dirCluster : ℕ) (rootDirectory : Bool) :
    Stable fun fuel => seachInDirectory v fuel name dirCluster rootDirectory := by
  refine Stable.bind ?_ fun _ => Stable.const _
  intro n m s a t hnm h
  exact getDirectoryLoop_stable v rootDirectory hnm hnm h

/-- More budget does not change where a path leads. -/
theorem walkPath_stable (parts : List (List UInt8)) (searchCluster : ℕ) (first : Bool) :
    Stable fun fuel => walkPath v fuel parts searchCluster first := by
  induction parts generalizing searchCluster first with
  | nil => exact Stable.const _
  | cons part rest ih =>
    refine Stable.bind (seachInDirectory_stable v part searchCluster first) fun r => ?_
    cases r with
    | none => exact Stable.const _
    | some entry => exact Stable.ite (Stable.const _) (Stable.ite (ih _ _) (Stable.const _))

/-- An answer of `GetEntryByPath` does not depend on the budget it was found with. -/
theorem getEntryByPath_stable (path : List UInt8) :
    Stable fun fuel => getEntryByPath v fuel path := by
  exact Stable.ite (seachInDirectory_stable v path _ _) (walkPath_stable v _ _ _)

/-- More budget does not change the search for free slots in a cluster. -/
theorem searchSectors_stable (cluster sector entryCount n i : ℕ) (st : Search) :
    Stable fun budget => searchSectors v budget cluster sector entryCount n i st := by
  induction n generalizing i st with
  | zero => exact Stable.const _
  | succ n ih =>
    refine Stable.bind (Stable.const _) fun status => ?_
    refine Stable.ite (Stable.const _) ?_
    refine Stable.bind (Stable.const _) fun buffer => ?_
    intro m m' s a t hm h
    dsimp only at h ⊢
    split at h
    · cases h
    · next hl => rw [loop8_stable hm hl]; exact h
    · next hl => rw [loop8_stable hm hl]; exact ih _ _ m m' s a t hm h

/-- More budget does not change the search for free slots. -/
theorem findEntryLoop_stable (entryCount : ℕ) (rootDirectory : Bool) {n m b b' : ℕ} (hb : b ≤ b')
    (hnm : n ≤ m) {sector cluster : ℕ} {st : Search} :
    Answers (findEntryLoop v entryCount rootDirectory b n sector cluster st)
      (findEntryLoop v entryCount rootDirectory b' m sector cluster st) := by
  induction n generalizing m sector cluster st with
  | zero => exact nofun
  | succ n ih =>
    obtain ⟨m, rfl⟩ := Nat.exists_eq_succ_of_ne_zero (show m ≠ 0 by omega)
    have hle : n ≤ m := by omega
    apply Answers.ite (.refl _)
    apply Answers.bind fun _ _ _ => searchSectors_stable v _ _ _ _ _ _ _ _ _ _ _ hb
    rintro (st' | result)
    · apply Answers.ite (.ite (.refl _) (ih hle))
      apply Answers.bind (.refl _)
      intro next
      refine .ite (.bind (.refl _) fun newCluster => ?_) (ih hle)
      exact .bind (.refl _) fun _ => .bind (.refl _) fun _ => ih hle
    · exact .refl _

/-- More budget does not change the slots that are found. -/
theorem findEntryStartpoint_stable (c n : ℕ) (rootDirectory : Bool) :
    Stable fun fuel => findEntryStartpoint v fuel c n rootDirectory :=
  fun _ _ _ _ _ hab h => findEntryLoop_stable v n rootDirectory hab hab h

/-- More budget does not change the entry that is created. -/
theorem createEntry_stable (parentCluster : ℕ) (name : List UInt8) (attr : ℕ) (rootDirectory : Bool)
    (targetCluster : ℕ) :
    Stable fun fuel => createEntry v fuel parentCluster name attr rootDirectory targetCluster := by
  exact Stable.ite (Stable.const _) (Stable.bind (findEntryStartpoint_stable v _ _ _) fun target =>
    Stable.const _)

/-- An answer of `CreateNewDirFileEntry` does not depend on the budget. -/
theorem createNewDirFileEntry_stable (path : List UInt8) (attributes : ℕ) :
    Stable fun fuel => createNewDirFileEntry v fuel path attributes := by
  refine Stable.ite (Stable.bind (Stable.const _) fun newCluster => ?_)
    (Stable.bind (Stable.const _) fun _ => Stable.bind (getEntryByPath_stable v _) fun parent => ?_)
  · exact Stable.bind (createEntry_stable v _ _ _ _ _) fun _ => Stable.const _
  · cases parent with
    | none => exact Stable.const _
    | some parentEntry =>
      refine Stable.bind (Stable.const _) fun newCluster => ?_
      exact Stable.bind (createEntry_stable v _ _ _ _ _) fun _ => Stable.const _

/-- An answer of `WriteFile` does not depend on the budget. -/
theorem writeFile_stable (path : List UInt8) (buffer : Bytes) (len : ℕ) (create : Bool) :
    Stable fun fuel => writeFile v fuel path buffer len create := by
  have hexisting : Stable fun fuel => writeExisting v fuel path buffer len :=
    Stable.bind (getEntryByPath_stable v path) fun _ => Stable.const _
  refine Stable.bind (Stable.bind (getEntryByPath_stable v path) fun _ => Stable.const _) fun isFile => ?_
  refine Stable.ite (Stable.bind (createNewDirFileEntry_stable v path 0) fun created => ?_) hexisting
  exact Stable.ite (Stable.const _) hexisting

/-- The entry a path leads to within a budget, if the lookup returns one. -/
def resolved (s : State) (fuel : ℕ) (path : List UInt8) : Option FATEntryInfo :=
  match (getEntryByPath v fuel path).run s with
  | .ok r _ => r
  | .error _ _ => none

/-- A lookup that returned an entry returns it with every larger budget. -/
theorem returns_of_resolved {s : State} {fuel : ℕ} {path : List UInt8} {entry : FATEntryInfo}
    (h : resolved v s fuel path = some entry) :
    ∃ t, Returns (fun n => getEntryByPath v n path) s (some entry) t := by
  unfold resolved at h
  split at h
  · next r t hrun =>
    subst h
    exact ⟨t, (getEntryByPath_stable v path).returns hrun⟩
  · cases h

/-- A path leads to one entry. -/
theorem eq_of_returns_of_resolved {s t : State} {fuel : ℕ} {path : List UInt8}
    {entry entry' : FATEntryInfo} (h : resolved v s fuel path = some entry)
    (h' : Returns (fun n => getEntryByPath v n path) s (some entry') t) : entry' = entry := by
  obtain ⟨t', ht'⟩ := returns_of_resolved v h
  injection (h'.unique ht').1

end Vsos.Fat
