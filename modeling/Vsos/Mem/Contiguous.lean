import Vsos.Mem.Search

/-!
# What contiguous requests find

On a map without gaps a request for a run finds the first group of clear buddies unless that group
ends with the map. A request that fails leaves the search where its bound was, so the groups that
it went past are lost to every later request.
-/

namespace Vsos.Mem

open Vsos.Lib

variable {f : FrameArray} {memoryMap : List Descriptor} {s t : State} {boot : State}
  {calls : List Call}

/-- All pages of a group are conventional. -/
def Conventional (memoryMap : List Descriptor) (b n : ℕ) : Prop :=
  ∀ j < n, IsRam memoryMap (b * buddySize + j)

/-- On a map without gaps, clear buddies that the search can reach are conventional. -/
theorem Linked.conventional (h : Linked f memoryMap s)
    (hgap : ∀ i < f.count, ∃ desc ∈ memoryMap, desc.Covers i) {b n : ℕ} (hnext : s.nextBuddy ≤ b)
    (hclear : RunAt (IsClear s) (buddiesFor n) b) (hinside : b + buddiesFor n ≤ buddyLength f) :
    Conventional memoryMap b n := by
  intro j hj
  have hbuddy : (b * buddySize + j) / buddySize = b + j / buddySize := by
    simp only [buddySize]
    omega
  have hgroup : j / buddySize < buddiesFor n := by
    simp only [buddiesFor, buddySize]
    omega
  have hcount : b * buddySize + j < f.count := lt_of_buddy_lt (by omega)
  have hreserved := h.ahead (b * buddySize + j) (hbuddy ▸ hnext.trans (Nat.le_add_right _ _))
    (hbuddy ▸ hclear _ hgroup)
  obtain ⟨desc, hdesc, hcovers⟩ := hgap _ hcount
  refine ⟨desc, hdesc, ?_, hcovers⟩
  by_contra htype
  exact hreserved ⟨desc, hdesc, htype, hcovers⟩

/-- The request returns, and hands out the first group of clear buddies in the map, if there is
one. -/
def Finds (f : FrameArray) (s : State) (n : ℕ) : Prop :=
  ∃ r t, (allocateContiguous f n).run s = .ok r t ∧ ∀ address, r = some address ↔
    ∃ b, FirstRunFrom (IsClear s) (buddiesFor n) s.nextBuddy b ∧
      b + buddiesFor n ≤ buddyLength f ∧ address = pageAddress (b * buddySize)

/-- A request whose group fits into the map finds what there is, unless it ends with the map. -/
theorem Linked.finds_iff_of_le (h : Linked f memoryMap s) (hmap : Suitable f memoryMap)
    (hgap : ∀ i < f.count, ∃ desc ∈ memoryMap, desc.Covers i) {n : ℕ} (hn : n + 3 < 2 ^ 64)
    (hk : buddiesFor n ≤ buddyLength f) :
    Finds f s n ↔ ∀ b, FirstRunFrom (IsClear s) (buddiesFor n) s.nextBuddy b →
      b + buddiesFor n ≠ buddyLength f := by
  have hdiv : divRoundUp n buddySize = buddiesFor n := by
    rw [divRoundUp_buddySize (by omega), if_pos hn]
  rcases contiguousLoop_cases s hk with ⟨b, hb, hlt, hrun⟩ | ⟨hnone, hrun⟩
  · -- the group found lies in front of the last position
    have hfits : ∀ b', FirstRunFrom (IsClear s) (buddiesFor n) s.nextBuddy b' →
        b' + buddiesFor n ≠ buddyLength f := fun b' hb' => by
      rw [← hb.unique hb']
      exact hlt.ne
    rw [iff_true_intro hfits, iff_true]
    obtain ⟨t, ht⟩ := (h.allocateContiguous_some_iff hmap (by omega)).mpr
      ⟨b, hb, hlt, h.conventional hgap hb.le hb.run hlt.le, rfl⟩
    refine ⟨_, t, ht, fun address => ?_⟩
    rw [Option.some.injEq]
    constructor
    · rintro rfl
      exact ⟨b, hb, hlt.le, rfl⟩
    · rintro ⟨b', hb', -, rfl⟩
      rw [hb.unique hb']
  · have hnothing : (Mem.allocateContiguous f n).run s =
        .ok none { s with nextBuddy := max s.nextBuddy (buddyLength f - buddiesFor n) } := by
      rw [Mem.allocateContiguous, hdiv, hrun]
    rw [Finds, hnothing]
    constructor
    · rintro ⟨r, t, ht, hfound⟩ b hb heq
      cases ht
      have hsome := (hfound _).mpr ⟨b, hb, heq.le, rfl⟩
      cases hsome
    · intro hlast
      refine ⟨none, _, rfl, fun address => ?_⟩
      simp only [reduceCtorEq, false_iff, not_exists, not_and]
      intro b hb hle
      exact absurd (le_antisymm hle (hnone b hb)) (hlast b hb)

/-- On a map without gaps, after any calls, a request finds the first group of clear buddies just
when it is not longer than the map and the first group does not end with the map. The three largest
requests look for no buddies at all, and return only when no buddy is left. -/
theorem finds_iff (hwf : MapWellFormed f.count memoryMap)
    (hgap : ∀ i < f.count, ∃ desc ∈ memoryMap, desc.Covers i)
    (hreached : Reached f memoryMap boot calls s) {n : ℕ} (hn : n < 2 ^ 64) :
    Finds f s n ↔
      (buddiesFor n ≤ buddyLength f ∧ ∀ b,
        FirstRunFrom (IsClear s) (buddiesFor n) s.nextBuddy b → b + buddiesFor n ≠ buddyLength f) ∨
      (2 ^ 64 ≤ n + 3 ∧ buddyLength f ≤ s.nextBuddy) := by
  obtain ⟨hmap, h⟩ := hreached.linked hwf
  have hsmall := buddyLength_lt f
  have hnext := h.nextBuddy_le
  rcases Nat.lt_or_ge (n + 3) (2 ^ 64) with hlt | hwrap
  · have hnot : ¬ (2 ^ 64 ≤ n + 3 ∧ buddyLength f ≤ s.nextBuddy) := by omega
    rw [or_iff_left hnot]
    rcases Nat.lt_or_ge (buddyLength f) (buddiesFor n) with hlong | hk
    · have hdiv := divRoundUp_buddySize hn
      rw [if_pos hlt] at hdiv
      obtain ⟨t, ht⟩ := h.allocateContiguous_outOfRange (hdiv ▸ hlong)
      rw [iff_false_right (by omega), Finds, ht]
      rintro ⟨r, t', ht', -⟩
      cases ht'
    · rw [and_iff_right hk]
      exact h.finds_iff_of_le hmap hgap hlt hk
  · have hlarge : buddyLength f < buddiesFor n := by
      simp only [buddiesFor, buddySize]
      omega
    rw [or_iff_right (by omega), and_iff_right hwrap, Finds, allocateContiguous,
      divRoundUp_buddySize hn, if_neg (by omega)]
    rcases contiguousLoop_cases s (Nat.zero_le (buddyLength f)) with ⟨b, hb, hlt, hrun⟩ | ⟨hnone, hrun⟩
    · have hle := hb.le
      rw [iff_false_right (by omega)]
      rintro ⟨r, t, ht, hfound⟩
      cases r with
      | none =>
        rw [hrun] at ht
        exact takeGroup_ne_none ht
      | some address =>
        obtain ⟨b', -, hle', -⟩ := (hfound address).mp rfl
        omega
    · have hleft := hnone s.nextBuddy (.of_runAt fun _ hk => absurd hk (Nat.not_lt_zero _))
      rw [iff_true_right (by omega), hrun]
      refine ⟨none, _, rfl, fun address => ?_⟩
      simp only [reduceCtorEq, false_iff, not_exists, not_and]
      intro b _ hle
      omega

/-- The run of `Initialize` on fixed frames and a sequence of calls. -/
def bootRun (f : FrameArray) (memoryMap : List Descriptor) (calls : List Call) :
    EStateM.Result Halt State Unit :=
  (do pmmInitialize f memoryMap
      callAll (Call.run f) calls).run rawState

/-- A run that answers reaches its final state. -/
theorem reached_of_answer (h : answer (bootRun f memoryMap calls) = some ()) :
    Reached f memoryMap rawState calls (final (bootRun f memoryMap calls)) := eq_ok_of_answer h

/-- The manager of twelve frames after `Initialize` on the map without a gap. -/
def fullState : State := final (bootRun twelveFrames fullMap [])

/-- That state is reached by the start. -/
theorem fullState_reached : Reached twelveFrames fullMap rawState [] fullState :=
  reached_of_answer (by decide +kernel)

/-- Three pages are found in the first of the three buddies. -/
theorem finds_fullMap :
    MapWellFormed twelveFrames.count fullMap ∧
      (∀ i < twelveFrames.count, ∃ desc ∈ fullMap, desc.Covers i) ∧
      Reached twelveFrames fullMap rawState [] fullState ∧ Finds twelveFrames fullState 3 := by
  refine ⟨fullMap_wellFormed, fullMap_covers, fullState_reached, ?_⟩
  refine (finds_iff fullMap_wellFormed fullMap_covers fullState_reached (by decide)).mpr
    (Or.inl ⟨by decide, fun b hb => ?_⟩)
  have hfirst : RunAt (IsClear fullState) (buddiesFor 3) 0 := by decide +kernel
  have hle := hb.le_of_runAt (show fullState.nextBuddy ≤ 0 by decide +kernel) hfirst
  have hbuddies : buddiesFor 3 = 1 ∧ buddyLength twelveFrames = 3 := by decide
  omega

/-- Four frames of conventional memory. -/
def fourFrames : FrameArray := ⟨4, by decide⟩

def soleMap : List Descriptor := [⟨.EfiConventionalMemory, 0, 4⟩]

/-- The map with four pages is well formed. -/
theorem soleMap_wellFormed : MapWellFormed fourFrames.count soleMap where
  aligned := by decide
  inside := by decide
  disjoint := List.pairwise_singleton _ _

/-- It covers all four frames. -/
theorem soleMap_covers : ∀ i < fourFrames.count, ∃ desc ∈ soleMap, desc.Covers i := by
  simp only [Descriptor.Covers]
  decide

def soleState : State := final (bootRun fourFrames soleMap [])

/-- It is the state after the start. -/
theorem soleState_reached : Reached fourFrames soleMap rawState [] soleState :=
  reached_of_answer (by decide +kernel)

/-- A request for all the memory there is fails although every buddy is clear. -/
theorem not_finds :
    ¬ ∀ (f : FrameArray) (memoryMap : List Descriptor), buddySize ∣ f.count →
      MapWellFormed f.count memoryMap → (∀ i < f.count, ∃ desc ∈ memoryMap, desc.Covers i) →
      ∀ (boot : State) (calls : List Call) (s : State), Reached f memoryMap boot calls s →
      ∀ n, 1 ≤ n → n < 2 ^ 64 →
        ((∃ address t, (allocateContiguous f n).run s = .ok (some address) t) ↔
          ∃ b, s.nextBuddy ≤ b ∧ b + (n + 3) / 4 ≤ buddyLength f ∧
            ∀ i < (n + 3) / 4, getBit s.buddyMap (b + i) = false) ∧
        ∀ address t, (allocateContiguous f n).run s = .ok (some address) t →
          ∃ b, address = b * buddySize * pageSize ∧
            FirstRunFrom (IsClear s) ((n + 3) / 4) s.nextBuddy b := by
  intro hclaim
  have hiff := (hclaim fourFrames soleMap (by decide) soleMap_wellFormed soleMap_covers rawState []
    soleState soleState_reached 4 (by decide) (by decide)).1
  have hclear : soleState.nextBuddy ≤ 0 ∧ ∀ i < 1, getBit soleState.buddyMap (0 + i) = false := by
    decide +kernel
  have hnone : answer ((allocateContiguous fourFrames 4).run soleState) = some none := by
    decide +kernel
  obtain ⟨address, t, hrun⟩ := hiff.mpr ⟨0, hclear.1, by decide, hclear.2⟩
  rw [hrun] at hnone
  injection hnone with hnone
  cases hnone

section Failing

variable {s' : State} {n m : ℕ}

/-- A request that fails went past every group in front of its bound and found none. -/
theorem Linked.allocateContiguous_none (h : Linked f memoryMap s) (hn : n < 2 ^ 64)
    (hfail : (Mem.allocateContiguous f n).run s = .ok none s') :
    s' = { s with nextBuddy := max s.nextBuddy (buddyLength f - buddiesFor n) } ∧
      ∀ b, s.nextBuddy ≤ b → b + buddiesFor n < buddyLength f →
        ¬ RunAt (IsClear s) (buddiesFor n) b := by
  have hsmall := buddyLength_lt f
  have hdiv := divRoundUp_buddySize hn
  rcases Nat.lt_or_ge (n + 3) (2 ^ 64) with hlt | hwrap
  · rw [if_pos hlt] at hdiv
    rcases Nat.lt_or_ge (buddyLength f) (buddiesFor n) with hlong | hk
    · obtain ⟨t, ht⟩ := h.allocateContiguous_outOfRange (hdiv ▸ hlong)
      rw [ht] at hfail
      cases hfail
    · rw [Mem.allocateContiguous, hdiv] at hfail
      rcases contiguousLoop_cases s hk with ⟨b, -, -, hrun⟩ | ⟨hnone, hrun⟩
      · rw [hrun] at hfail
        exact absurd hfail takeGroup_ne_none
      · rw [hrun] at hfail
        cases hfail
        refine ⟨rfl, fun b hle hlt' hclear => ?_⟩
        obtain ⟨r, hr, hrb⟩ := FirstRunFrom.exists_of_runAt hle hclear
        have hlast := hnone r hr
        omega
  · have hlarge : buddyLength f < buddiesFor n := by
      simp only [buddiesFor, buddySize]
      omega
    rw [Mem.allocateContiguous, hdiv, if_neg (by omega)] at hfail
    refine ⟨?_, fun b _ hlt => by omega⟩
    rcases contiguousLoop_cases s (Nat.zero_le (buddyLength f)) with ⟨b, -, -, hrun⟩ | ⟨hnone, hrun⟩
    · rw [hrun] at hfail
      exact absurd hfail takeGroup_ne_none
    · have hleft := hnone s.nextBuddy (.of_runAt fun _ hk => absurd hk (Nat.not_lt_zero _))
      rw [hrun] at hfail
      cases hfail
      congr 1
      omega

/-- Groups of the map have different addresses. -/
theorem eq_of_pageAddress {b b' : ℕ} (hb : b < buddyLength f) (hb' : b' < buddyLength f)
    (heq : pageAddress (b * buddySize) = pageAddress (b' * buddySize)) : b = b' := by
  have hlt {c : ℕ} (hc : c < buddyLength f) : c * buddySize < f.count :=
    lt_of_buddy_lt (by rwa [Nat.mul_div_cancel _ (by decide)])
  rw [pageAddress_eq (hlt hb), pageAddress_eq (hlt hb')] at heq
  exact Nat.eq_of_mul_eq_mul_right (by decide) (Nat.eq_of_mul_eq_mul_right (by decide) heq)

/-- A request for `m` pages succeeds in both states or in none, and with the same address. -/
def SameGrants (f : FrameArray) (s s' : State) (m : ℕ) : Prop :=
  ∀ address, (∃ t, (allocateContiguous f m).run s' = .ok (some address) t) ↔
    ∃ t, (allocateContiguous f m).run s = .ok (some address) t

/-- A failed request leaves another request as it was just when the first clear group for the
latter does not begin in front of the bound of the former, or neither that group nor the one behind
the bound could be handed out because of pages outside of all descriptors. -/
theorem sameGrants_iff (hwf : MapWellFormed f.count memoryMap)
    (hreached : Reached f memoryMap boot calls s) (hn : n < 2 ^ 64) (hm : m < 2 ^ 64)
    (hfail : (allocateContiguous f n).run s = .ok none s') :
    SameGrants f s s' m ↔
      ∀ b, FirstRunFrom (IsClear s) (buddiesFor m) s.nextBuddy b →
        b + buddiesFor n < buddyLength f → ¬ Conventional memoryMap b m ∧
          ∀ b', FirstRunFrom (IsClear s) (buddiesFor m) (buddyLength f - buddiesFor n) b' →
            b' + buddiesFor m < buddyLength f → ¬ Conventional memoryMap b' m := by
  obtain ⟨hmap, h⟩ := hreached.linked hwf
  obtain ⟨hs', hnone⟩ := h.allocateContiguous_none hn hfail
  have h' := h.allocateContiguous hmap hfail
  have hclear : IsClear s' = IsClear s := by
    rw [hs']
    rfl
  have hnext : s'.nextBuddy = max s.nextBuddy (buddyLength f - buddiesFor n) := by rw [hs']
  simp only [SameGrants, h.allocateContiguous_some_iff hmap hm,
    h'.allocateContiguous_some_iff hmap hm, hclear]
  by_cases hex : ∃ b, FirstRunFrom (IsClear s) (buddiesFor m) s.nextBuddy b ∧
      b + buddiesFor n < buddyLength f
  · obtain ⟨b, hb, hbn⟩ := hex
    -- a group for `m` in front of the bound is shorter than the one for `n`
    have hshort : b + buddiesFor m < buddyLength f := by
      by_contra hlong
      exact hnone b hb.le hbn fun k hk => hb.run k (by omega)
    have hle := hb.le
    have hmoved : s'.nextBuddy = buddyLength f - buddiesFor n := by omega
    rw [hmoved]
    constructor
    · intro hsame b₀ hb₀ _
      obtain rfl := hb.unique hb₀
      have hnot : ¬ Conventional memoryMap b m := by
        intro hram
        obtain ⟨b', hb', hlt', -, heq⟩ := (hsame _).mpr ⟨b, hb, hshort, hram, rfl⟩
        have hle' := hb'.le
        have hsame := eq_of_pageAddress (f := f) (by omega) (by omega) heq
        omega
      refine ⟨hnot, fun b' hb' hlt' hram => ?_⟩
      obtain ⟨b₁, hb₁, -, hram₁, -⟩ := (hsame _).mp ⟨b', hb', hlt', hram, rfl⟩
      exact hnot (hb.unique hb₁ ▸ hram₁)
    · intro hcond address
      obtain ⟨hnot, hnot'⟩ := hcond b hb hbn
      constructor
      · rintro ⟨b', hb', hlt', hram, -⟩
        exact absurd hram (hnot' b' hb' hlt')
      · rintro ⟨b₁, hb₁, -, hram₁, -⟩
        exact absurd (hb.unique hb₁ ▸ hram₁) hnot
  · -- the search has not gone past the group that it would find
    have hfirst : ∀ b, FirstRunFrom (IsClear s) (buddiesFor m) s'.nextBuddy b ↔
        FirstRunFrom (IsClear s) (buddiesFor m) s.nextBuddy b := by
      have hmoved : s.nextBuddy ≤ s'.nextBuddy := by omega
      have hkept {b : ℕ} (hb : FirstRunFrom (IsClear s) (buddiesFor m) s.nextBuddy b) :
          FirstRunFrom (IsClear s) (buddiesFor m) s'.nextBuddy b := by
        have hle := hb.le
        have hbound : ¬ b + buddiesFor n < buddyLength f := fun hlt => hex ⟨b, hb, hlt⟩
        exact hb.advance hmoved (by omega)
      refine fun b => ⟨fun hb => ?_, hkept⟩
      obtain ⟨r, hr, -⟩ := FirstRunFrom.exists_of_runAt (hmoved.trans hb.le) hb.run
      rwa [← (hkept hr).unique hb]
    simp only [hfirst, implies_true, true_iff]
    exact fun b hb hlt => absurd ⟨b, hb, hlt⟩ hex

/-- Twelve conventional pages. -/
def wideMap : List Descriptor := [⟨.EfiConventionalMemory, 0, 12⟩]

/-- The map of twelve conventional pages is well formed. -/
theorem wideMap_wellFormed : MapWellFormed twelveFrames.count wideMap where
  aligned := by decide
  inside := by decide
  disjoint := List.pairwise_singleton _ _

/-- The manager of twelve conventional frames. -/
def wideState : State := final (bootRun twelveFrames wideMap [])

/-- That state is reached by the start. -/
theorem wideState_reached : Reached twelveFrames wideMap rawState [] wideState :=
  reached_of_answer (by decide +kernel)

/-- The state after a request for all twelve frames has failed. -/
def wholeState : State := final ((allocateContiguous twelveFrames 12).run wideState)

/-- A request for all twelve frames fails. -/
theorem wholeState_run : (allocateContiguous twelveFrames 12).run wideState = .ok none wholeState :=
  eq_ok_of_answer (by decide +kernel)

/-- After a request for all frames has failed, a request for some still succeeds. -/
theorem sameGrants_wideMap :
    Reached twelveFrames wideMap rawState [] wideState ∧
      (allocateContiguous twelveFrames 12).run wideState = .ok none wholeState ∧
      SameGrants twelveFrames wideState wholeState 5 := by
  refine ⟨wideState_reached, wholeState_run, ?_⟩
  refine (sameGrants_iff wideMap_wellFormed wideState_reached (by decide) (by decide)
    wholeState_run).mpr fun b _ hlt => ?_
  have hbuddies : buddiesFor 12 = 3 ∧ buddyLength twelveFrames = 3 := by decide
  omega

/-- The same after the second page of the second buddy has been taken. -/
def brokenState : State := final (bootRun twelveFrames wideMap [.allocatePage 0x5000])

/-- That state is reached by the start and the request. -/
theorem brokenState_reached :
    Reached twelveFrames wideMap rawState [.allocatePage 0x5000] brokenState :=
  reached_of_answer (by decide +kernel)

/-- A failed request for eight pages goes past the first buddy, and four pages are not found any
more. -/
theorem not_sameGrants :
    ¬ ∀ (f : FrameArray) (memoryMap : List Descriptor), MapWellFormed f.count memoryMap →
      ∀ (boot : State) (calls : List Call) (s : State), Reached f memoryMap boot calls s →
      ∀ n m, 1 ≤ n → n < 2 ^ 64 → 1 ≤ m → m < 2 ^ 64 → ∀ s',
        (allocateContiguous f n).run s = .ok none s' → SameGrants f s s' m := by
  intro hclaim
  have hfail : answer ((allocateContiguous twelveFrames 8).run brokenState) = some none := by
    decide +kernel
  have hbefore : answer ((allocateContiguous twelveFrames 4).run brokenState) = some (some 0) := by
    decide +kernel
  have hafter : answer ((allocateContiguous twelveFrames 4).run
      (final ((allocateContiguous twelveFrames 8).run brokenState))) = some none := by decide +kernel
  have hsame := hclaim twelveFrames wideMap wideMap_wellFormed rawState [.allocatePage 0x5000]
    brokenState brokenState_reached 8 4 (by decide) (by decide) (by decide) (by decide) _
    (eq_ok_of_answer hfail) 0
  obtain ⟨t, hrun⟩ := hsame.mpr ⟨_, eq_ok_of_answer hbefore⟩
  rw [hrun] at hafter
  injection hafter with hafter
  cases hafter

end Failing

end Vsos.Mem
