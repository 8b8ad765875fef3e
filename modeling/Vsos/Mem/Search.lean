import Vsos.Lib.FirstRun
import Vsos.Mem.Chosen

/-!
# The search for a run of pages

`AllocateContiguous` stops at the first group of clear buddies at or behind its position. The
bound of the search leaves out the last position, and it wraps for a group that is longer than the
map. Whatever was called before, the links of conventional frames lead to conventional frames or to
the head of the list, so such frames can always be unlinked, and all other frames cannot.
-/

namespace Vsos.Mem

open Vsos.Lib

variable {f : FrameArray} {memoryMap : List Descriptor} {s t : State} {b fuel i k n nextBuddy : ℕ}
  {l : Link} {u : Unit} {r : Option ℕ}

/-- The buddy is not marked. -/
def IsClear (s : State) (buddy : ℕ) : Prop := getBit s.buddyMap buddy = false

instance (s : State) (buddy : ℕ) : Decidable (IsClear s buddy) :=
  inferInstanceAs (Decidable (_ = _))

/-- The buddies that `n` pages fill. -/
def buddiesFor (n : ℕ) : ℕ := (n + 3) / buddySize

/-- The sum in `DivRoundUp` wraps for the three largest numbers of pages. -/
theorem divRoundUp_buddySize (hn : n < 2 ^ 64) :
    divRoundUp n buddySize = if n + 3 < 2 ^ 64 then buddiesFor n else 0 := by
  simp only [divRoundUp, buddiesFor, buddySize, wrap64]
  split <;> omega

/-- The number of groups. -/
theorem buddyLength_lt (f : FrameArray) : buddyLength f ≤ 2 ^ 50 := by
  have h := f.count_le
  simp only [buddyLength, buddySize, pageSize, pageShift] at *
  omega

/-- Where the search for groups ends. -/
theorem searchEnd_of_le (hk : k ≤ buddyLength f) : searchEnd f k = buddyLength f - k := by
  have h := buddyLength_lt f
  simp only [searchEnd, wrap64]
  omega

/-- The bound of a group that is longer than the map wraps. -/
theorem lt_searchEnd_of_lt (hk : buddyLength f < k) (hlt : k ≤ 2 ^ 62) :
    buddyLength f + 1 < searchEnd f k := by
  simp only [searchEnd, wrap64]
  omega

section Loop

/-- A look at a group inside the map. -/
theorem groupInUse_run (h : nextBuddy + i + n ≤ buddyLength f) :
    (groupInUse f nextBuddy n i).run s =
      .ok (!decide (∀ j < n, IsClear s (nextBuddy + i + j))) s := by
  induction n generalizing i with
  | zero => simp [groupInUse]
  | succ n ih =>
    rw [groupInUse, bind_of_ok (buddyGet_run (by omega) s)]
    by_cases hfirst : IsClear s (nextBuddy + i)
    · rw [if_neg (by simpa [IsClear] using hfirst), ih (by omega)]
      have hall : (∀ j < n, IsClear s (nextBuddy + (i + 1) + j)) ↔
          ∀ j < n + 1, IsClear s (nextBuddy + i + j) := by
        rw [Nat.forall_lt_succ_left]
        simp [hfirst, Nat.add_assoc, Nat.add_comm 1]
      simp only [hall]
    · have hnot : ¬ ∀ j < n + 1, IsClear s (nextBuddy + i + j) := fun hall =>
        hfirst (by simpa using hall 0 (by omega))
      rw [if_pos (by simpa [IsClear] using hfirst), decide_eq_false hnot]
      rfl

/-- What follows when a group has been found. -/
def takeGroup (f : FrameArray) (pageCount buddyCount nextBuddy : ℕ) : PmmM (Option ℕ) := do
  removeFrames f (nextBuddy * buddySize) pageCount 0
  markBuddies f nextBuddy buddyCount 0
  setNextBuddy (nextBuddy + buddyCount)
  return some (pageAddress (nextBuddy * buddySize))

/-- One round of the search inside the map. -/
theorem contiguousLoop_step (hk : k ≤ buddyLength f) :
    (contiguousLoop f n k (fuel + 1)).run s =
      if s.nextBuddy + k < buddyLength f then
        if RunAt (IsClear s) k s.nextBuddy then (takeGroup f n k s.nextBuddy).run s
        else (contiguousLoop f n k fuel).run { s with nextBuddy := s.nextBuddy + 1 }
      else .ok none s := by
  rw [contiguousLoop, bind_look, searchEnd_of_le hk]
  by_cases hlt : s.nextBuddy + k < buddyLength f
  · rw [if_pos hlt, if_pos (by omega), bind_of_ok (groupInUse_run (by omega))]
    by_cases hrun : RunAt (IsClear s) k s.nextBuddy
    · rw [if_pos hrun, Nat.add_zero, decide_eq_true (p := ∀ j < k, _) hrun]
      rfl
    · rw [if_neg hrun, Nat.add_zero, decide_eq_false (p := ∀ j < k, _) hrun]
      rfl
  · rw [if_neg hlt, if_neg (by omega)]
    rfl

/-- The search stops at the first clear group. -/
theorem contiguousLoop_found (hb : FirstRunFrom (IsClear s) k s.nextBuddy b)
    (hinside : b + k < buddyLength f) (hfuel : b < s.nextBuddy + fuel) :
    (contiguousLoop f n k fuel).run s = (takeGroup f n k b).run { s with nextBuddy := b } := by
  induction fuel generalizing s with
  | zero => exact absurd hb.le (by omega)
  | succ fuel ih =>
    have hle := hb.le
    rw [contiguousLoop_step (by omega), if_pos (by omega)]
    by_cases hrun : RunAt (IsClear s) k s.nextBuddy
    · rw [if_pos hrun, hb.unique (.of_runAt hrun)]
    · rw [if_neg hrun]
      exact ih ((FirstRunFrom.succ_iff hrun).mp hb)
        (by simp only; omega)

/-- A search that meets no clear group ends where the bound is. -/
theorem contiguousLoop_none (hk : k ≤ buddyLength f)
    (hnone : ∀ b, s.nextBuddy ≤ b → b + k < buddyLength f → ¬ RunAt (IsClear s) k b)
    (hfuel : buddyLength f ≤ s.nextBuddy + k + fuel) :
    (contiguousLoop f n k (fuel + 1)).run s =
      .ok none { s with nextBuddy := max s.nextBuddy (buddyLength f - k) } := by
  induction fuel generalizing s with
  | zero =>
    rw [contiguousLoop_step hk, if_neg (by omega), Nat.max_eq_left (by omega)]
  | succ fuel ih =>
    rw [contiguousLoop_step hk]
    by_cases hlt : s.nextBuddy + k < buddyLength f
    · have hnext := ih (s := { s with nextBuddy := s.nextBuddy + 1 })
        (fun b hb => hnone b (Nat.le_of_succ_le hb)) (by simp only; omega)
      rw [if_pos hlt, if_neg (hnone _ (le_refl _) hlt), hnext]
      congr 2
      simp only
      omega
    · rw [if_neg hlt, Nat.max_eq_left (by omega)]

/-- A group that reaches over the end of the map has a marked buddy, or the look at it runs out of
the map. -/
theorem groupInUse_beyond (h : buddyLength f < nextBuddy + i + n) (hn : 0 < n) :
    (∃ t, (groupInUse f nextBuddy n i).run s = .error .outOfRange t) ∨
      (groupInUse f nextBuddy n i).run s = .ok true s ∧ nextBuddy < buddyLength f := by
  induction n generalizing i with
  | zero => omega
  | succ n ih =>
    by_cases hlt : nextBuddy + i < buddyLength f
    · rw [groupInUse, bind_of_ok (buddyGet_run hlt s)]
      by_cases hbit : getBit s.buddyMap (nextBuddy + i) = true
      · rw [if_pos hbit]
        exact Or.inr ⟨rfl, by omega⟩
      · rw [if_neg hbit]
        exact ih (by omega) (by omega)
    · have hindex : (assertIndex f (nextBuddy + i)).run s = .error .outOfRange s := by
        rw [assertIndex, if_neg hlt]
        rfl
      rw [groupInUse, buddyGet, bind_of_error (bind_of_error hindex)]
      exact Or.inl ⟨s, rfl⟩

/-- The search for a group that is longer than the map runs out of the map. -/
theorem contiguousLoop_outOfRange (hk : buddyLength f < k) (hlt : k ≤ 2 ^ 62)
    (hnext : s.nextBuddy ≤ buddyLength f + 1) (hfuel : buddyLength f + 1 < s.nextBuddy + fuel) :
    ∃ t, (contiguousLoop f n k fuel).run s = .error .outOfRange t := by
  induction fuel generalizing s with
  | zero => omega
  | succ fuel ih =>
    have hbound := lt_searchEnd_of_lt hk hlt
    rw [contiguousLoop, bind_look, if_pos (by omega)]
    rcases groupInUse_beyond (f := f) (show _ < s.nextBuddy + 0 + k by omega)
        (by omega) with
      ⟨t, hrun⟩ | ⟨hrun, hmore⟩
    · exact ⟨t, bind_of_error hrun⟩
    · rw [bind_of_ok hrun]
      exact ih (by simp only; omega)
        (by simp only; omega)

end Loop

section Links

/-- The head of the free list or the link of a conventional frame. -/
def Anchored (memoryMap : List Descriptor) : Link → Prop
  | .null => False
  | .head => True
  | .frame i => IsRam memoryMap i

/-- A link that belongs to a page is mapped. -/
theorem Anchored.mapped (hmap : Suitable f memoryMap) (h : Anchored memoryMap l) :
    Mapped f l = true := by
  cases l with
  | null => exact h.elim
  | head => rfl
  | frame i => exact mapped_frame.mpr (IsRam.lt hmap h)

/-- What holds after `Initialize` and any calls: the links of conventional frames lead to each
other or to the head, other frames have none, a clear buddy that the search can reach has no page of
another type, and the frames behind the last buddy look free. -/
structure Linked (f : FrameArray) (memoryMap : List Descriptor) (s : State) : Prop where
  flink : ∀ l, Anchored memoryMap l → Anchored memoryMap (s.flink l)
  blink : ∀ l, Anchored memoryMap l → Anchored memoryMap (s.blink l)
  unlinked : ∀ i < f.count, ¬ IsRam memoryMap i → s.flink (.frame i) = .null
  ahead : ∀ i, s.nextBuddy ≤ i / buddySize → IsClear s (i / buddySize) → ¬ IsReserved memoryMap i
  nextBuddy_le : s.nextBuddy ≤ buddyLength f + 1
  beyond : ∀ i < f.count, buddyLength f ≤ i / buddySize → s.pageState i = .Free

section

variable (h : Linked f memoryMap s)
include h

/-- A conventional frame can be unlinked. -/
theorem Linked.unlink (hmap : Suitable f memoryMap) (hl : Anchored memoryMap l) :
    (listRemoveEntry f l).run s = .ok () (s.unlinked l) ∧ Linked f memoryMap (s.unlinked l) := by
  refine ⟨listRemoveEntry_run (hl.mapped hmap) ((h.flink l hl).mapped hmap)
    ((h.blink l hl).mapped hmap), ?_, ?_, ?_, h.ahead, h.nextBuddy_le, h.beyond⟩
  · intro l' hl'
    simp only [State.unlinked, Function.update_apply]
    split
    · exact h.flink l hl
    · exact h.flink l' hl'
  · intro l' hl'
    simp only [State.unlinked, Function.update_apply]
    split
    · exact h.blink l hl
    · exact h.blink l' hl'
  · intro i hi hram
    have hne : Link.frame i ≠ s.blink l := fun heq => by
      have hanchored := h.blink l hl
      rw [← heq] at hanchored
      exact hram hanchored
    simp only [State.unlinked, Function.update_of_ne hne]
    exact h.unlinked i hi hram

/-- Only conventional frames can be unlinked, whatever the states and buddies say. -/
theorem Linked.isRam_of_unlink {s' : State} (hrun : (listRemoveEntry f (.frame i)).run s' = .ok u t)
    (hs' : s'.flink = s.flink) :
    IsRam memoryMap i := by
  obtain ⟨hentry, hflink, -⟩ := unlinked_of_listRemoveEntry hrun
  by_contra hram
  rw [hs', h.unlinked i (mapped_frame.mp hentry) hram] at hflink
  cases hflink

/-- The frames of a run can be unlinked just when all of them are conventional. -/
theorem Linked.removeFrames_iff (hmap : Suitable f memoryMap) (index n i : ℕ) :
    (∃ t, (removeFrames f index n i).run s = .ok () t) ↔
      ∀ j < n, IsRam memoryMap (index + i + j) := by
  induction n generalizing i s with
  | zero => simp [removeFrames]
  | succ n ih =>
    rw [Nat.forall_lt_succ_left]
    constructor
    · rintro ⟨t, hrun⟩
      obtain ⟨_, s', hremove, hrest⟩ := bind_eq_ok.mp hrun
      have hram := h.isRam_of_unlink hremove rfl
      obtain ⟨-, -, rfl⟩ := unlinked_of_listRemoveEntry hremove
      have hlinked := (h.unlink hmap (l := .frame (index + i)) hram).2
      refine ⟨hram, fun j hj => ?_⟩
      simpa [Nat.add_assoc, Nat.add_comm 1] using (ih hlinked (i + 1)).mp ⟨t, hrest⟩ j hj
    · rintro ⟨hram, hrest⟩
      obtain ⟨hrun, hlinked⟩ := h.unlink hmap (l := .frame (index + i)) hram
      rw [removeFrames, bind_of_ok hrun]
      refine (ih hlinked (i + 1)).mpr fun j hj => ?_
      simpa [Nat.add_assoc, Nat.add_comm 1] using hrest j hj

/-- Unlinking frames keeps the links in order, and touches nothing else. -/
theorem Linked.removeFrames (hmap : Suitable f memoryMap) {index : ℕ}
    (hrun : (removeFrames f index n i).run s = .ok u t) :
    Linked f memoryMap t ∧ t.buddyMap = s.buddyMap ∧ t.nextBuddy = s.nextBuddy := by
  induction n generalizing i s with
  | zero =>
    cases hrun
    exact ⟨h, rfl, rfl⟩
  | succ n ih =>
    obtain ⟨_, s', hremove, hrest⟩ := bind_eq_ok.mp hrun
    have hlinked := (h.unlink hmap (l := .frame (index + i)) (h.isRam_of_unlink hremove rfl)).2
    obtain ⟨-, -, rfl⟩ := unlinked_of_listRemoveEntry hremove
    obtain ⟨hlinked', hbits, hnext⟩ := ih hlinked hrest
    exact ⟨hlinked', hbits, hnext⟩

/-- The position of the search may move on. -/
theorem Linked.advance (hle : s.nextBuddy ≤ b) (hb : b ≤ buddyLength f + 1) :
    Linked f memoryMap { s with nextBuddy := b } where
  flink := h.flink
  blink := h.blink
  unlinked := h.unlinked
  ahead := fun i hi => h.ahead i (hle.trans hi)
  nextBuddy_le := hb
  beyond := h.beyond

/-- Handing out a single conventional page. -/
theorem Linked.taken (hmap : Suitable f memoryMap) (hi : IsRam memoryMap i) :
    Linked f memoryMap (s.taken i) := by
  have hlinked := (h.unlink hmap (l := .frame i) hi).2
  refine ⟨hlinked.flink, hlinked.blink, hlinked.unlinked, ?_, h.nextBuddy_le, ?_⟩
  · intro j hnext hclear
    change getBit (setBit s.buddyMap (i / buddySize) true) (j / buddySize) = false at hclear
    rw [getBit_setBit] at hclear
    split at hclear
    · cases hclear
    · exact h.ahead j hnext hclear
  · intro j hj hbeyond
    have hne : j ≠ i := fun heq => absurd (hi.buddy_lt hmap) (not_lt.mpr (heq ▸ hbeyond))
    change Function.update s.pageState i .Active j = .Free
    rw [Function.update_of_ne hne]
    exact h.beyond j hj hbeyond

end

end Links

section Calls

/-- Marking the buddies of a group inside the map. -/
theorem markBuddies_run (h : nextBuddy + i + n ≤ buddyLength f) :
    ∃ t, (markBuddies f nextBuddy n i).run s = .ok () t := by
  induction n generalizing i s with
  | zero => exact ⟨s, rfl⟩
  | succ n ih =>
    rw [markBuddies, bind_of_ok (buddySet_run (by omega) _ s)]
    exact ih (by omega)

/-- A group is handed out just when all its pages are conventional. -/
theorem Linked.takeGroup_iff (h : Linked f memoryMap s) (hmap : Suitable f memoryMap) {a : ℕ}
    (hb : b + k ≤ buddyLength f) :
    (∃ t, (takeGroup f n k b).run s = .ok (some a) t) ↔
      (∀ j < n, IsRam memoryMap (b * buddySize + j)) ∧ a = pageAddress (b * buddySize) := by
  have hiff := h.removeFrames_iff hmap (b * buddySize) n 0
  simp only [Nat.add_zero] at hiff
  rw [← hiff]
  constructor
  · rintro ⟨t, hrun⟩
    obtain ⟨_, s₁, hremove, hrest⟩ := bind_eq_ok.mp hrun
    obtain ⟨_, s₂, -, hend⟩ := bind_eq_ok.mp hrest
    cases hend
    exact ⟨⟨s₁, hremove⟩, rfl⟩
  · rintro ⟨⟨s₁, hremove⟩, rfl⟩
    obtain ⟨s₂, hmark⟩ := markBuddies_run (show b + 0 + k ≤ buddyLength f from hb)
    rw [takeGroup, bind_of_ok hremove, bind_of_ok hmark]
    exact ⟨_, rfl⟩

/-- A group that was found is handed out. -/
theorem takeGroup_ne_none : (takeGroup f n k b).run s ≠ .ok none t := by
  intro hrun
  obtain ⟨_, s₁, -, hrest⟩ := bind_eq_ok.mp hrun
  obtain ⟨_, s₂, -, hend⟩ := bind_eq_ok.mp hrest
  cases hend

/-- Handing out a group. -/
theorem Linked.takeGroup (h : Linked f memoryMap s) (hmap : Suitable f memoryMap)
    (hnext : s.nextBuddy = b) (hb : b + k ≤ buddyLength f)
    (hrun : (Mem.takeGroup f n k b).run s = .ok r t) : Linked f memoryMap t := by
  obtain ⟨_, s₁, hremove, hrest⟩ := bind_eq_ok.mp hrun
  obtain ⟨_, s₂, hmark, hend⟩ := bind_eq_ok.mp hrest
  cases hend
  obtain ⟨hlinked, -, hnext₁⟩ := h.removeFrames hmap hremove
  obtain ⟨hflink, hblink, hpages, hbits⟩ := markBuddies_ok hmark
  refine ⟨?_, ?_, ?_, ?_, Nat.le_succ_of_le hb, ?_⟩
  · simpa only [hflink] using hlinked.flink
  · simpa only [hblink] using hlinked.blink
  · simpa only [hflink] using hlinked.unlinked
  · intro i hi hclear
    change b + k ≤ i / buddySize at hi
    change getBit s₂.buddyMap (i / buddySize) = false at hclear
    rw [hbits _ hi] at hclear
    exact hlinked.ahead i (by omega) hclear
  · simpa only [hpages] using hlinked.beyond

/-- How a search inside the map ends. -/
theorem contiguousLoop_cases (s : State) (hk : k ≤ buddyLength f) :
    (∃ b, FirstRunFrom (IsClear s) k s.nextBuddy b ∧ b + k < buddyLength f ∧ ∀ n,
      (contiguousLoop f n k (buddyLength f + 2)).run s =
        (Mem.takeGroup f n k b).run { s with nextBuddy := b }) ∨
    (∀ b, FirstRunFrom (IsClear s) k s.nextBuddy b → buddyLength f ≤ b + k) ∧ ∀ n,
      (contiguousLoop f n k (buddyLength f + 2)).run s =
        .ok none { s with nextBuddy := max s.nextBuddy (buddyLength f - k) } := by
  by_cases hex : ∃ b, FirstRunFrom (IsClear s) k s.nextBuddy b ∧ b + k < buddyLength f
  · obtain ⟨b, hb, hlt⟩ := hex
    exact Or.inl ⟨b, hb, hlt, fun n => contiguousLoop_found hb hlt (by omega)⟩
  · refine Or.inr ⟨fun b hb => not_lt.mp fun hlt => hex ⟨b, hb, hlt⟩, fun n => ?_⟩
    refine contiguousLoop_none hk (fun b hle hlt hrun => hex ?_) (by omega)
    obtain ⟨r, hr, hrb⟩ := FirstRunFrom.exists_of_runAt hle hrun
    exact ⟨r, hr, by omega⟩

/-- The number of groups that a request needs. -/
theorem divRoundUp_le (n : ℕ) : divRoundUp n buddySize ≤ 2 ^ 62 := by
  simp only [divRoundUp, buddySize, wrap64]
  omega

/-- A request for more buddies than there are runs out of the map. -/
theorem Linked.allocateContiguous_outOfRange (h : Linked f memoryMap s)
    (hlong : buddyLength f < divRoundUp n buddySize) :
    ∃ t, (allocateContiguous f n).run s = .error .outOfRange t :=
  contiguousLoop_outOfRange hlong (divRoundUp_le n) h.nextBuddy_le (by omega)

section

variable (h : Linked f memoryMap s) (hmap : Suitable f memoryMap)
include h hmap

/-- `AllocateContiguous` keeps the links in order. -/
theorem Linked.allocateContiguous (hrun : (allocateContiguous f n).run s = .ok r t) :
    Linked f memoryMap t := by
  rcases Nat.lt_or_ge (buddyLength f) (divRoundUp n buddySize) with hlong | hk
  · obtain ⟨t', hrun'⟩ := h.allocateContiguous_outOfRange hlong
    rw [hrun'] at hrun
    cases hrun
  · have hnext := h.nextBuddy_le
    rw [Mem.allocateContiguous] at hrun
    rcases contiguousLoop_cases s hk with ⟨b, hb, hlt, hrun'⟩ | ⟨-, hrun'⟩
    · rw [hrun'] at hrun
      exact (h.advance hb.le (by omega)).takeGroup hmap rfl hlt.le hrun
    · rw [hrun'] at hrun
      cases hrun
      exact h.advance (Nat.le_max_left _ _) (by omega)

/-- A request for any page takes the first one of the list, if there is one. -/
theorem Linked.allocatePage_any :
    (allocatePage f 0).run s = .error .fault s ∨
      ∃ i, IsRam memoryMap i ∧
        (allocatePage f 0).run s = .ok (some (pageAddress i)) (s.taken i) := by
  have hhead := h.flink .head trivial
  cases hfirst : s.flink .head with
  | null =>
    rw [hfirst] at hhead
    exact hhead.elim
  | head => exact Or.inl (allocatePage_empty hfirst)
  | frame i =>
    rw [hfirst] at hhead
    exact Or.inr ⟨i, hhead, allocatePage_first hfirst (h.unlink hmap hhead).1
      (IsRam.buddy_lt hmap hhead)⟩

/-- Any call keeps the links in order. -/
theorem Linked.call {call : Call} (hrun : (call.run f).run s = .ok r t) : Linked f memoryMap t := by
  cases call with
  | allocateContiguous n => exact h.allocateContiguous hmap hrun
  | allocatePage address =>
    by_cases hzero : address = 0
    · subst hzero
      rw [Call.run] at hrun
      rcases h.allocatePage_any hmap with hany | ⟨i, hi, hany⟩
      · rw [hany] at hrun
        cases hrun
      · rw [hany] at hrun
        cases hrun
        exact h.taken hmap hi
    · obtain ⟨i, rfl, hcount⟩ := chosen_of_allocatePage hzero (by rw [← Call.run, hrun]; simp)
      have hi : i ≠ 0 := fun hi => hzero (by rw [hi, Nat.zero_mul])
      rw [Call.run, allocatePage_chosen hi hcount] at hrun
      by_cases hstate : s.pageState i ≠ PageState.Free
      · rw [if_pos hstate] at hrun
        cases hrun
        exact h
      · rw [if_neg hstate, bind_of_ok (setPageState_run hcount _ s)] at hrun
        obtain ⟨_, s₂, hset, hrest⟩ := bind_eq_ok.mp hrun
        obtain ⟨_, hremove, rfl⟩ := bind_pure_eq_ok.mp hrest
        obtain ⟨hbuddy, rfl⟩ := buddySet_ok hset
        have hram := h.isRam_of_unlink hremove rfl
        obtain ⟨-, -, rfl⟩ := unlinked_of_listRemoveEntry hremove
        exact h.taken hmap hram

/-- `AllocateContiguous` hands out a run just when the first group of clear buddies comes before the
last position and consists of conventional pages. -/
theorem Linked.allocateContiguous_some_iff {a : ℕ} (hn : n < 2 ^ 64) :
    (∃ t, (Mem.allocateContiguous f n).run s = .ok (some a) t) ↔
      ∃ b, FirstRunFrom (IsClear s) (buddiesFor n) s.nextBuddy b ∧
        b + buddiesFor n < buddyLength f ∧ (∀ j < n, IsRam memoryMap (b * buddySize + j)) ∧
        a = pageAddress (b * buddySize) := by
  have hsmall := buddyLength_lt f
  have hdiv := divRoundUp_buddySize hn
  by_cases hwrap : n + 3 < 2 ^ 64
  · rw [if_pos hwrap] at hdiv
    rcases Nat.lt_or_ge (buddyLength f) (buddiesFor n) with hlong | hk
    · obtain ⟨t', hrun⟩ := h.allocateContiguous_outOfRange (hdiv ▸ hlong)
      rw [hrun]
      constructor
      · rintro ⟨t, ht⟩
        cases ht
      · rintro ⟨b, -, hlt, -⟩
        omega
    · rw [Mem.allocateContiguous, hdiv]
      rcases contiguousLoop_cases s hk with ⟨b, hb, hlt, hrun⟩ | ⟨hnone, hrun⟩
      · rw [hrun, (h.advance hb.le (by omega)).takeGroup_iff hmap hlt.le]
        constructor
        · rintro ⟨hram, ha⟩
          exact ⟨b, hb, hlt, hram, ha⟩
        · rintro ⟨b', hb', -, hram, ha⟩
          rw [hb.unique hb']
          exact ⟨hram, ha⟩
      · rw [hrun]
        constructor
        · rintro ⟨t, ht⟩
          cases ht
        · rintro ⟨b, hb, hlt, -⟩
          exact absurd (hnone b hb) (not_le.mpr hlt)
  · -- the group is empty, and no frames are left for the pages
    rw [Mem.allocateContiguous, hdiv, if_neg hwrap]
    constructor
    · rintro ⟨t, ht⟩
      rcases contiguousLoop_cases s (Nat.zero_le (buddyLength f)) with ⟨b, hb, hlt, hrun⟩ | ⟨-, hrun⟩
      · rw [hrun] at ht
        obtain ⟨hram, -⟩ :=
          ((h.advance hb.le (by omega)).takeGroup_iff hmap hlt.le).mp ⟨t, ht⟩
        have hlast := (hram (2 ^ 60) (by omega)).lt hmap
        have hcount := f.count_le
        simp only [pageSize, pageShift] at hcount
        omega
      · rw [hrun] at ht
        cases ht
    · rintro ⟨b, -, hlt, -⟩
      have hlarge : 2 ^ 60 ≤ buddiesFor n := by
        simp only [buddiesFor, buddySize]
        omega
      omega

end

end Calls

section Boot

/-- The nodes of the free list after `Initialize`. -/
theorem Built.anchored_iff {free : List ℕ}
    (h : Built f s (IsRam memoryMap) (IsReserved memoryMap) free) :
    Anchored memoryMap l ↔ l ∈ Link.head :: free.map Link.frame := by
  cases l with
  | null => simp [Anchored]
  | head => simp [Anchored]
  | frame i => simp [Anchored, h.mem_free]

/-- The region that the search starts with lies in the map. -/
theorem largestLoop_mem (first : Descriptor) (rest : List Descriptor) :
    largestLoop (first :: rest) first ∈ first :: rest := by
  rcases (largestLoop_spec (first :: rest) first).2 with heq | ⟨hmem, -⟩
  · rw [heq]
    exact List.mem_cons_self
  · exact hmem

/-- The links are in order after `Initialize`. -/
theorem linked_of_pmmInitialize (hwf : MapWellFormed f.count memoryMap) {boot : State}
    (hrun : (pmmInitialize f memoryMap).run boot = .ok u s) : Linked f memoryMap s := by
  have hmap := suitable_of_pmmInitialize hrun hwf.disjoint
  obtain ⟨free, hbuilt⟩ := built_of_pmmInitialize hmap hrun
  refine ⟨?_, ?_, hbuilt.unlinked, ?_, ?_, ?_⟩
  · intro l hl
    rw [hbuilt.anchored_iff] at hl ⊢
    exact Ring.next_mem hbuilt.list hl
  · intro l hl
    rw [hbuilt.anchored_iff] at hl ⊢
    exact Ring.prev_mem hbuilt.list hl
  · intro i _ hclear hreserved
    have hmarked := (hbuilt.marked (i / buddySize)).mpr ⟨i, hreserved, rfl⟩
    rw [IsClear, hmarked] at hclear
    cases hclear
  · obtain ⟨first, rest, t', rfl, -, rfl⟩ := pmmInitialize_ok hrun
    have hinside := hwf.inside _ (largestLoop_mem first rest)
    rw [Descriptor.baseIndex] at hinside
    simp only [buddyLength, buddySize] at hinside ⊢
    omega
  · intro i hi hbeyond
    obtain ⟨_, _, t', -, hregions, rfl⟩ := pmmInitialize_ok hrun
    have hkept := (initializeRegions_pageState hmap.disjoint hregions i).2 fun desc hdesc hcovers =>
      absurd (hmap.buddies desc hdesc i hcovers) (not_lt.mpr hbeyond)
    rw [hkept]
    exact if_pos hi

/-- The manager after `Initialize` and a sequence of calls. -/
def Reached (f : FrameArray) (memoryMap : List Descriptor) (boot : State) (calls : List Call)
    (s : State) : Prop :=
  (do pmmInitialize f memoryMap
      callAll (Call.run f) calls).run boot = .ok () s

/-- The links are in order in every state that is reached. -/
theorem Reached.linked (hwf : MapWellFormed f.count memoryMap) {boot : State} {calls : List Call}
    (h : Reached f memoryMap boot calls s) : Suitable f memoryMap ∧ Linked f memoryMap s := by
  obtain ⟨_, s₁, hinit, hcalls⟩ := bind_eq_ok.mp h
  have hmap := suitable_of_pmmInitialize hinit hwf.disjoint
  refine ⟨hmap, invariant_of_callAll (fun s call r t hs hrun => Linked.call hs hmap hrun) ?_ hcalls⟩
  exact linked_of_pmmInitialize hwf hinit

end Boot

end Vsos.Mem
