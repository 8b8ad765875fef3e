import Mathlib.Tactic.Common

/-!
# Directory and file name of a path

`GetDirectoryName` copies a path up to its last backslash and puts the terminator one character too far,
so the name goes on with the character that was there before. `GetFileName` also knows the slash.
-/

namespace Vsos.Boot

variable {p : List ℕ} {old : ℕ → ℕ}

/-- The code of the backslash. -/
def backslash : ℕ := 92

/-- The code of the slash. -/
def slash : ℕ := 47

/-- The loops of both functions: the place of the last separator, moved by `offset`. Characters are their
codes, of either width. -/
def lastLoop (isSeparator : ℕ → Bool) (offset : ℕ) : List ℕ → ℕ → ℕ → ℕ
  | [], _, found => found
  | c :: rest, current, found =>
    lastLoop isSeparator offset rest (current + 1) (if isSeparator c then current + offset else found)

/-- How many characters `GetDirectoryName` copies. -/
def marker (p : List ℕ) : ℕ := lastLoop (· = backslash) 0 p 0 0 + 1

/-- `GetDirectoryName`: what the destination holds then. -/
def getDirectoryName (p : List ℕ) (destination : ℕ → ℕ) : ℕ → ℕ :=
  Function.update (fun i => if i < marker p then (p ++ [0]).getD i 0 else destination i) (marker p + 1) 0

/-- Where `GetFileName` points to. -/
def fileStart (p : List ℕ) : ℕ := lastLoop (fun c => c = slash ∨ c = backslash) 1 p 0 0

/-- `GetFileName`. -/
def getFileName (p : List ℕ) : List ℕ := p.drop (fileStart p)

/-- The string at the start of some memory that holds a zero among its first `bound` characters. -/
def stringAt (memory : ℕ → ℕ) (bound : ℕ) : List ℕ := ((List.range bound).map memory).takeWhile (· ≠ 0)

/-- The directory name and the file name are the path. -/
def Partitions (p : List ℕ) (old : ℕ → ℕ) : Prop :=
  stringAt (getDirectoryName p old) (marker p + 2) ++ getFileName p = p

/-- Without a separator the loop keeps what it has. -/
theorem lastLoop_of_none {isSeparator : ℕ → Bool} {rest : List ℕ} (hrest : ∀ x ∈ rest, ¬ isSeparator x)
    {offset current found : ℕ} : lastLoop isSeparator offset rest current found = found := by
  induction rest generalizing current with
  | nil => rfl
  | cons x rest ih =>
    rw [List.forall_mem_cons] at hrest
    rw [lastLoop, if_neg hrest.1, ih hrest.2]

/-- The loop ends with the last separator. -/
theorem lastLoop_append {isSeparator : ℕ → Bool} {c : ℕ} {front rest : List ℕ} (hc : isSeparator c)
    (hrest : ∀ x ∈ rest, ¬ isSeparator x) (offset current found : ℕ) :
    lastLoop isSeparator offset (front ++ c :: rest) current found = current + front.length + offset := by
  induction front generalizing current found with
  | nil => rw [List.nil_append, lastLoop, if_pos hc, lastLoop_of_none hrest, List.length_nil, Nat.add_zero]
  | cons x front ih =>
    rw [List.cons_append, lastLoop, ih, List.length_cons]
    omega

/-- A text without a separator, or its last separator. -/
theorem exists_last (isSeparator : ℕ → Bool) (p : List ℕ) : (∀ x ∈ p, ¬ isSeparator x) ∨
    ∃ front c rest, p = front ++ c :: rest ∧ isSeparator c ∧ ∀ x ∈ rest, ¬ isSeparator x := by
  induction p with
  | nil => exact Or.inl (by simp)
  | cons x p ih =>
    rcases ih with hnone | ⟨front, c, rest, rfl, hc, hrest⟩
    · by_cases hx : isSeparator x
      · exact Or.inr ⟨[], x, p, rfl, hx, hnone⟩
      · exact Or.inl (List.forall_mem_cons.mpr ⟨hx, hnone⟩)
    · exact Or.inr ⟨x :: front, c, rest, rfl, hc, hrest⟩

/-- The loop stays inside the path. -/
theorem lastLoop_lt (isSeparator : ℕ → Bool) {offset current found : ℕ}
    (h : found < current + p.length + offset) :
    lastLoop isSeparator offset p current found < current + p.length + offset := by
  induction p generalizing current found with
  | nil => exact h
  | cons c rest ih =>
    have hlen : current + (c :: rest).length = current + 1 + rest.length := by
      rw [List.length_cons, Nat.add_right_comm, Nat.add_assoc]
    rw [hlen] at h ⊢
    apply ih
    split
    · omega
    · exact h

/-- The directory name of a path that is not empty. -/
theorem stringAt_getDirectoryName (hp : 0 ∉ p) (hmarker : marker p ≤ p.length) :
    stringAt (getDirectoryName p old) (marker p + 2) =
      p.take (marker p) ++ [old (marker p)].takeWhile (· ≠ 0) := by
  have hcopy : (List.range (marker p)).map (getDirectoryName p old) = p.take (marker p) := by
    apply List.ext_getElem
    · simp [hmarker]
    · intro i hi hi'
      rw [List.length_map, List.length_range] at hi
      have hlt : i < p.length := by omega
      simp [getDirectoryName, hi, show i ≠ marker p + 1 by omega, List.getElem?_append_left hlt, hlt]
  have hfree : ∀ c ∈ p.take (marker p), decide (c ≠ 0) = true := by
    intro c hc
    exact decide_eq_true fun heq => hp (heq ▸ List.mem_of_mem_take hc)
  have hold : getDirectoryName p old (marker p) = old (marker p) := by simp [getDirectoryName]
  have hend : getDirectoryName p old (marker p + 1) = 0 := Function.update_self ..
  rw [stringAt, List.range_succ, List.range_succ, List.map_append, List.map_append, hcopy,
    List.append_assoc, List.takeWhile_append_of_pos hfree]
  simp [hold, hend, List.takeWhile_cons]

/-- The two names are the path just when the copied part ends where the file name starts, and the old
character behind it ends it or is the one that belongs there. -/
theorem partitions_iff_marker (hp : 0 ∉ p) : Partitions p old ↔
    p = [] ∨ (old (marker p) = 0 ∧ fileStart p = marker p) ∨
      (p[marker p]? = some (old (marker p)) ∧ fileStart p = marker p + 1) := by
  by_cases hnil : p = []
  · subst hnil
    exact iff_of_true rfl (Or.inl rfl)
  · have hpos := List.length_pos_iff.mpr hnil
    have hmarker : marker p ≤ p.length := by
      have hlt := lastLoop_lt (· = backslash) (show 0 < 0 + p.length + 0 by omega)
      rw [marker]
      omega
    have hstart : fileStart p ≤ p.length := by
      have hlt := lastLoop_lt (fun c => c = slash ∨ c = backslash) (show 0 < 0 + p.length + 1 by omega)
      rw [fileStart]
      omega
    rw [Partitions, stringAt_getDirectoryName hp hmarker, getFileName, or_iff_right hnil, List.append_assoc]
    -- what follows the copied part has to be the rest of the path
    have hrest (q : List ℕ) : p.take (marker p) ++ (q ++ p.drop (fileStart p)) = p ↔
        q ++ p.drop (fileStart p) = p.drop (marker p) := by
      conv_lhs => rhs; rw [← List.take_append_drop (marker p) p]
      exact List.append_right_inj _
    rw [hrest]
    by_cases hzero : old (marker p) = 0
    · have hnot : p[marker p]? ≠ some 0 := fun hchar => hp (List.mem_of_getElem? hchar)
      simp only [hzero, hnot, List.takeWhile_cons, ne_eq, not_true_eq_false, decide_false,
        Bool.false_eq_true, if_false, List.nil_append, true_and, false_and, or_false]
      refine ⟨fun heq => ?_, fun heq => by rw [heq]⟩
      have hlen := congrArg List.length heq
      rw [List.length_drop, List.length_drop] at hlen
      omega
    · simp only [hzero, List.takeWhile_cons, List.takeWhile_nil, ne_eq, not_false_eq_true, decide_true, if_true,
        List.singleton_append, false_and, false_or]
      constructor
      · intro heq
        have hlen := congrArg List.length heq
        rw [List.length_cons, List.length_drop, List.length_drop] at hlen
        have hlt : marker p < p.length := by omega
        rw [List.drop_eq_getElem_cons hlt, List.cons_eq_cons] at heq
        exact ⟨by rw [List.getElem?_eq_getElem hlt, heq.1], by omega⟩
      · rintro ⟨hchar, heq⟩
        obtain ⟨hlt, hchar⟩ := List.getElem?_eq_some_iff.mp hchar
        rw [heq, List.drop_eq_getElem_cons hlt, hchar]

/-- The part of a path behind its last backslash, or behind its first character if there is none. -/
theorem marker_append {front rest : List ℕ} {c : ℕ} (hrest : backslash ∉ rest) (hc : c = backslash ∨ front = []) :
    marker (front ++ c :: rest) = front.length + 1 := by
  have hnone : ∀ x ∈ rest, ¬ decide (x = backslash) = true := by
    intro x hx
    rw [decide_eq_true_eq]
    rintro rfl
    exact hrest hx
  by_cases hlast : c = backslash
  · rw [marker, lastLoop_append (by simpa using hlast) hnone, Nat.zero_add, Nat.add_zero]
  · obtain rfl := hc.resolve_left hlast
    rw [marker, List.nil_append, lastLoop_of_none]
    · rfl
    · exact List.forall_mem_cons.mpr ⟨by simpa using hlast, hnone⟩

/-- The part of a path behind its last separator. -/
theorem fileStart_append {front rest : List ℕ} {c : ℕ} (hc : c = slash ∨ c = backslash)
    (hrest : slash ∉ rest ∧ backslash ∉ rest) : fileStart (front ++ c :: rest) = front.length + 1 := by
  rw [fileStart, lastLoop_append (by simpa using hc), Nat.zero_add]
  intro x hx
  rw [decide_eq_true_eq]
  rintro (rfl | rfl)
  · exact hrest.1 hx
  · exact hrest.2 hx

/-- The parts of a path around its last backslash, or around its first character if there is none. -/
theorem exists_marker (hnil : p ≠ []) :
    ∃ front c rest, p = front ++ c :: rest ∧ (c = backslash ∨ front = []) ∧ backslash ∉ rest := by
  rcases exists_last (· = backslash) p with hnone | ⟨front, c, rest, rfl, hc, hrest⟩
  · obtain ⟨c, rest, rfl⟩ := List.exists_cons_of_ne_nil hnil
    refine ⟨[], c, rest, rfl, Or.inr rfl, fun hmem => ?_⟩
    exact hnone backslash (List.mem_cons_of_mem _ hmem) (by simp)
  · exact ⟨front, c, rest, rfl, Or.inl (by simpa using hc), fun hmem => hrest _ hmem (by simp)⟩

/-- The two names are the path just when it is empty, or its last separator is a backslash or its first
character, and the old character behind that place is zero; or the last separator is a slash behind a
backslash or at the second place, and the old character at that place is a slash. -/
theorem partitions_iff (hp : 0 ∉ p) : Partitions p old ↔
    p = [] ∨ ∃ front c rest, (slash ∉ rest ∧ backslash ∉ rest) ∧ (c = backslash ∨ front = []) ∧
      ((p = front ++ c :: rest ∧ (c = slash ∨ c = backslash) ∧ old (front.length + 1) = 0) ∨
        (p = front ++ c :: slash :: rest ∧ old (front.length + 1) = slash)) := by
  rw [partitions_iff_marker hp]
  refine or_congr_right' fun hnil => ?_
  constructor
  · intro h
    obtain ⟨front, c, rest, rfl, hc, hrest⟩ := exists_marker hnil
    rw [marker_append hrest hc] at h
    rcases exists_last (fun c => c = slash ∨ c = backslash) (front ++ c :: rest) with
      hnone | ⟨front', c', rest', heq, hc', hrest'⟩
    · have hstart : fileStart (front ++ c :: rest) = 0 := lastLoop_of_none hnone
      omega
    · have hsep : c' = slash ∨ c' = backslash := by simpa using hc'
      have hfree : slash ∉ rest' ∧ backslash ∉ rest' :=
        ⟨fun hmem => hrest' _ hmem (by simp), fun hmem => hrest' _ hmem (by simp)⟩
      have hstart : fileStart (front ++ c :: rest) = front'.length + 1 := by
        rw [heq, fileStart_append hsep hfree]
      rw [hstart] at h
      rcases h with ⟨hold, hlen⟩ | ⟨hold, hlen⟩
      · obtain ⟨rfl, htail⟩ := List.append_inj heq (by omega)
        obtain ⟨rfl, rfl⟩ := List.cons.inj htail
        exact ⟨front, c, rest, hfree, hc, Or.inl ⟨rfl, hsep, hold⟩⟩
      · have hsplit : (front ++ [c]) ++ rest = front' ++ c' :: rest' := by
          rw [← heq, List.append_assoc, List.singleton_append]
        obtain ⟨-, rfl⟩ := List.append_inj hsplit (by
          rw [List.length_append, List.length_singleton]
          omega)
        have hslash : c' = slash := hsep.resolve_right fun h => hrest (h ▸ List.mem_cons_self)
        subst hslash
        refine ⟨front, c, rest', hfree, hc, Or.inr ⟨rfl, ?_⟩⟩
        rw [List.append_cons, List.getElem?_append_right (by simp)] at hold
        simpa using hold.symm
  · rintro ⟨front, c, rest, hrest, hc, ⟨rfl, hsep, hold⟩ | ⟨rfl, hold⟩⟩
    · left
      rw [marker_append hrest.2 hc, fileStart_append hsep hrest]
      exact ⟨hold, rfl⟩
    · right
      have hnone : backslash ∉ slash :: rest := by
        rw [List.mem_cons, not_or]
        exact ⟨by decide, hrest.2⟩
      have hsplit : front ++ c :: slash :: rest = (front ++ [c]) ++ slash :: rest := by simp
      rw [marker_append hnone hc, hold, hsplit, fileStart_append (Or.inl rfl) hrest]
      simp

/-- The file `a` in the root directory. -/
theorem partitions_root : 0 ∉ [92, 97] ∧ Partitions [92, 97] fun _ => 0 := by
  refine ⟨by decide, (partitions_iff (by decide)).mpr (Or.inr ⟨[], 92, [97], ?_, Or.inl rfl, Or.inl ?_⟩)⟩
  · decide
  · exact ⟨rfl, Or.inr rfl, rfl⟩

/-- What was in the destination becomes a part of the directory name. -/
theorem not_partitions : ¬ ∀ (p : List ℕ) (old : ℕ → ℕ), 0 ∉ p → Partitions p old := by
  intro hclaim
  have hparts : stringAt (getDirectoryName [92, 97] fun _ => 98) 3 ++ getFileName [92, 97] = [92, 97] :=
    hclaim [92, 97] (fun _ => 98) (by decide)
  exact absurd hparts (by decide)

end Vsos.Boot
