import Vsos.Mem.Search

/-!
# The indices of the buddy map

The buddy map has one bit for each four frames, and none for the frames that are left over. An index
behind its end is passed for a page among the frames that are left over, and by a search for a group
that is longer than the map, whose bound wraps. No other call passes one.
-/

namespace Vsos.Mem

open Vsos.Lib

variable {f : FrameArray} {memoryMap : List Descriptor} {s t : State}

section Startup

variable {ram reserved : ℕ → Prop} {free : List ℕ}

/-- `Get` halts at an index behind the last bit. -/
theorem buddyGet_outOfRange {index : ℕ} (h : buddyLength f ≤ index) :
    (buddyGet f index).run s = .error .outOfRange s := by
  refine bind_of_error ?_
  rw [assertIndex, if_neg (not_lt.mpr h)]
  rfl

/-- `Set` halts at an index behind the last bit. -/
theorem buddySet_outOfRange {index : ℕ} (h : buddyLength f ≤ index) (value : Bool) :
    (buddySet f index value).run s = .error .outOfRange s := by
  refine bind_of_error ?_
  rw [assertIndex, if_neg (not_lt.mpr h)]
  rfl

/-- A descriptor with a page behind the last buddy is not visited to its end. -/
theorem Built.pages_outOfRange (h : Built f s ram reserved free) (desc : Descriptor) (n j : ℕ)
    (hcount : ∀ i, Stretch desc j n i → i < f.count) (hnew : ∀ i, Stretch desc j n i → ¬ ram i)
    (hpast : ∃ i, Stretch desc j n i ∧ buddyLength f ≤ i / buddySize) :
    ∃ t, (initializePages f desc n j).run s = .error .outOfRange t := by
  induction n generalizing j s ram reserved free with
  | zero =>
    obtain ⟨i, hi, -⟩ := hpast
    simp only [Stretch] at hi
    omega
  | succ n ih =>
    have hfirst : Stretch desc j (n + 1) (desc.baseIndex + j) := ⟨le_refl _, by omega⟩
    have hrest {i : ℕ} (hi : Stretch desc (j + 1) n i) : Stretch desc j (n + 1) i :=
      ⟨by have := hi.1; omega, by have := hi.2; omega⟩
    rw [initializePages]
    rcases Nat.lt_or_ge ((desc.baseIndex + j) / buddySize) (buddyLength f) with hbuddy | hbuddy
    · obtain ⟨t, free', hrun, hbuilt⟩ := h.page desc hbuddy (hnew _ hfirst)
      rw [bind_of_ok hrun]
      refine ih hbuilt (j + 1) (fun i hi => hcount i (hrest hi)) ?_ ?_
      · rintro i hi (hram | ⟨-, rfl⟩)
        · exact hnew i (hrest hi) hram
        · have hlow := hi.1
          omega
      · obtain ⟨i, hi, hlast⟩ := hpast
        have hne : i ≠ desc.baseIndex + j := fun heq => absurd (heq ▸ hlast) (not_le.mpr hbuddy)
        exact ⟨i, ⟨by have := hi.1; omega, by have := hi.2; omega⟩, hlast⟩
    · have hpage : ∃ t, (initializePage f desc (desc.baseIndex + j)).run s =
          .error .outOfRange t := by
        rw [initializePage, bind_of_ok (setPageState_run (hcount _ hfirst) _ s)]
        exact ⟨_, bind_of_error (buddyGet_outOfRange hbuddy)⟩
      obtain ⟨t, ht⟩ := hpage
      exact ⟨t, bind_of_error ht⟩

/-- A map with a page behind the last buddy is not visited to its end. -/
theorem Built.regions_outOfRange (h : Built f s ram reserved free) {regions : List Descriptor}
    (hwf : MapWellFormed f.count regions)
    (hnew : ∀ desc ∈ regions, ∀ i, desc.Covers i → ¬ ram i)
    (hpast : ∃ desc ∈ regions, ∃ i, desc.Covers i ∧ buddyLength f ≤ i / buddySize) :
    ∃ t, (initializeRegions f regions).run s = .error .outOfRange t := by
  induction regions generalizing s ram reserved free with
  | nil =>
    obtain ⟨desc, hdesc, -⟩ := hpast
    cases hdesc
  | cons desc rest ih =>
    obtain ⟨hapart, hpairs⟩ := List.pairwise_cons.mp hwf.disjoint
    have hrest : MapWellFormed f.count rest :=
      ⟨fun d hd => hwf.aligned d (List.mem_cons_of_mem _ hd),
        fun d hd => hwf.inside d (List.mem_cons_of_mem _ hd), hpairs⟩
    have haligned : (desc.physicalStart % pageSize == 0) = true := by
      simpa using hwf.aligned desc List.mem_cons_self
    have hdesc := hnew desc List.mem_cons_self
    rw [initializeRegions, bind_of_ok (assert_run haligned s)]
    by_cases hhere : ∃ i, desc.Covers i ∧ buddyLength f ≤ i / buddySize
    · obtain ⟨t, ht⟩ := h.pages_outOfRange desc desc.numberOfPages 0
        (fun i hi => (stretch_zero.mp hi).2.trans_le (hwf.inside desc List.mem_cons_self))
        (fun i hi => hdesc i (stretch_zero.mp hi)) hhere
      exact ⟨t, bind_of_error ht⟩
    · obtain ⟨t, free', hrun, hbuilt⟩ := h.pages desc desc.numberOfPages 0
        (fun i hi => not_le.mp fun hle => hhere ⟨i, stretch_zero.mp hi, hle⟩)
        fun i hi => hdesc i (stretch_zero.mp hi)
      rw [bind_of_ok hrun]
      refine ih hbuilt hrest ?_ ?_
      · rintro d hd i hi (hram | ⟨-, hin⟩)
        · exact hnew d (List.mem_cons_of_mem _ hd) i hi hram
        · exact hapart d hd i (stretch_zero.mp hin) hi
      · obtain ⟨d, hd, hlast⟩ := hpast
        rcases List.mem_cons.mp hd with rfl | hd
        · exact absurd hlast hhere
        · exact ⟨d, hd, hlast⟩

/-- `Initialize` passes an index behind the end of the buddy map just when some page has no buddy. -/
theorem pmmInitialize_outOfRange_iff (hwf : MapWellFormed f.count memoryMap) (boot : State) :
    (∀ t, (pmmInitialize f memoryMap).run boot ≠ .error .outOfRange t) ↔
      ∀ desc ∈ memoryMap, ∀ i, desc.Covers i → i / buddySize < buddyLength f := by
  constructor
  · intro hnever
    by_contra hpast
    push Not at hpast
    obtain ⟨t, ht⟩ := (built_cleared f boot).regions_outOfRange hwf (fun _ _ _ _ h => h) hpast
    refine hnever t ?_
    rw [pmmInitialize_cleared, bind_of_error ht]
  · intro hbuddies t ht
    have hmap : Suitable f memoryMap := ⟨hwf.aligned, hwf.disjoint, hbuddies⟩
    by_cases hne : memoryMap = []
    · subst hne
      cases ht
    · obtain ⟨t', free, hrun, -⟩ := pmmInitialize_run hmap hne boot
      rw [hrun] at ht
      cases ht

end Startup

section Calls

/-- Taking frames off the list touches no bit. -/
theorem removeFrames_ne_outOfRange (index n i : ℕ) :
    (removeFrames f index n i).run s ≠ .error .outOfRange t := by
  induction n generalizing i s with
  | zero =>
    intro h
    cases h
  | succ n ih =>
    intro h
    rcases bind_eq_error.mp h with h | ⟨_, _, -, h⟩
    · cases eq_fault_of_listRemoveEntry h
    · exact ih _ h

/-- A request for a run passes an index behind the end of the map just when it looks for more
buddies than there are. -/
theorem Linked.allocateContiguous_inRange_iff (h : Linked f memoryMap s) (n : ℕ) :
    (∀ t, (Mem.allocateContiguous f n).run s ≠ .error .outOfRange t) ↔
      divRoundUp n buddySize ≤ buddyLength f := by
  constructor
  · intro hnever
    by_contra hlong
    obtain ⟨t, ht⟩ := h.allocateContiguous_outOfRange (not_le.mp hlong)
    exact hnever t ht
  · intro hk t ht
    rw [Mem.allocateContiguous] at ht
    rcases contiguousLoop_cases s hk with ⟨b, -, hlt, hrun⟩ | ⟨-, hrun⟩
    · rw [hrun] at ht
      rcases bind_eq_error.mp ht with ht | ⟨_, s₁, -, ht⟩
      · exact removeFrames_ne_outOfRange _ _ _ ht
      · obtain ⟨s₂, hmark⟩ := markBuddies_run
          (show b + 0 + divRoundUp n buddySize ≤ buddyLength f from hlt.le)
        rw [bind_of_ok hmark] at ht
        cases ht
    · rw [hrun] at ht
      cases ht

/-- The request for a frame passes its buddy unless the frame is in use, and the frames behind the
last buddy never are. -/
theorem Linked.allocateFrame_inRange_iff (h : Linked f memoryMap s) {i : ℕ} (hi : i ≠ 0)
    (hcount : i < f.count) :
    (∀ t, (allocatePage f (i * pageSize)).run s ≠ .error .outOfRange t) ↔
      i / buddySize < buddyLength f := by
  rw [allocatePage_chosen hi hcount]
  constructor
  · intro hnever
    by_contra hlast
    rw [not_lt] at hlast
    rw [if_neg (not_not.mpr (h.beyond i hcount hlast)),
      bind_of_ok (setPageState_run hcount _ s)] at hnever
    exact hnever _ (bind_of_error (buddySet_outOfRange hlast true))
  · intro hbuddy t ht
    split at ht
    · cases ht
    · rw [bind_of_ok (setPageState_run hcount _ s), bind_of_ok (buddySet_run hbuddy _ _)] at ht
      rcases bind_eq_error.mp ht with ht | ⟨_, _, -, ht⟩
      · cases eq_fault_of_listRemoveEntry ht
      · cases ht

/-- A request for a page passes an index behind the end of the map just when it asks for a frame
behind the last buddy. -/
theorem Linked.allocatePage_inRange_iff (h : Linked f memoryMap s) (hmap : Suitable f memoryMap)
    (address : ℕ) :
    (∀ t, (allocatePage f address).run s ≠ .error .outOfRange t) ↔
      ∀ i ∈ (Call.allocatePage address).asked f, i / buddySize < buddyLength f := by
  by_cases hzero : address = 0
  · subst hzero
    have hasked : ∀ i ∈ (Call.allocatePage 0).asked f, i / buddySize < buddyLength f := by
      simp [Call.asked]
    refine iff_of_true (fun t ht => ?_) hasked
    rcases h.allocatePage_any hmap with hany | ⟨i, -, hany⟩ <;> rw [hany] at ht <;> cases ht
  by_cases hframe : ∃ i, address = i * pageSize ∧ i < f.count
  · obtain ⟨i, rfl, hcount⟩ := hframe
    have hi : i ≠ 0 := fun hi => hzero (by rw [hi, Nat.zero_mul])
    rw [h.allocateFrame_inRange_iff hi hcount, Call.asked_frame hi hcount]
    simp
  · refine iff_of_true (fun t ht => hframe (chosen_of_allocatePage hzero (by rw [ht]; simp))) ?_
    intro i hi
    rw [Call.asked] at hi
    split at hi
    · next hvalid =>
      exact absurd ⟨address / pageSize,
        (Nat.div_mul_cancel (Nat.dvd_of_mod_eq_zero hvalid.2.1)).symm, hvalid.2.2⟩ hframe
    · cases hi

end Calls

/-- A call of one of the three methods; `Initialize` may be called again. -/
inductive Operation where
  | restart
  | request (call : Call)
  deriving DecidableEq, Repr

/-- The method that is called. -/
def Operation.run (f : FrameArray) (memoryMap : List Descriptor) : Operation → PmmM (Option ℕ)
  | .restart => do
    pmmInitialize f memoryMap
    return none
  | .request call => call.run f

/-- The call asks for no frame behind the last buddy, and for no more buddies than there are. -/
def Operation.InRange (f : FrameArray) : Operation → Prop
  | .restart => True
  | .request (.allocatePage address) =>
    ∀ i ∈ (Call.allocatePage address).asked f, i / buddySize < buddyLength f
  | .request (.allocateContiguous n) => divRoundUp n buddySize ≤ buddyLength f

/-- `Initialize`, and any calls behind it. -/
def session (f : FrameArray) (memoryMap : List Descriptor) (operations : List Operation) :
    PmmM Unit := do
  pmmInitialize f memoryMap
  callAll (Operation.run f memoryMap) operations

section

variable (h : Linked f memoryMap s) (hwf : MapWellFormed f.count memoryMap)
  (hmap : Suitable f memoryMap)
include h hwf hmap

/-- Every operation keeps the links in order. -/
theorem Linked.operation {operation : Operation} {r : Option ℕ}
    (hrun : (operation.run f memoryMap).run s = .ok r t) : Linked f memoryMap t := by
  cases operation with
  | restart =>
    obtain ⟨_, hinit, rfl⟩ := bind_pure_eq_ok.mp hrun
    exact linked_of_pmmInitialize hwf hinit
  | request call => exact h.call hmap hrun

/-- One call passes no bad index just when it is in range. -/
theorem Linked.operation_inRange_iff (operation : Operation) :
    (∀ t, (operation.run f memoryMap).run s ≠ .error .outOfRange t) ↔ operation.InRange f := by
  cases operation with
  | restart =>
    refine iff_of_true (fun t ht => ?_) trivial
    rcases bind_eq_error.mp ht with ht | ⟨_, _, -, ht⟩
    · exact (pmmInitialize_outOfRange_iff hwf s).mpr hmap.buddies t ht
    · cases ht
  | request call =>
    cases call with
    | allocatePage address => exact h.allocatePage_inRange_iff hmap address
    | allocateContiguous n => exact h.allocateContiguous_inRange_iff n

end

/-- Of `Initialize` and any calls behind it, none passes an index behind the end of the buddy map just
when every page of the map has a buddy, and each call that is reached asks for a frame with a buddy
and for no more buddies than there are. -/
theorem session_inRange_iff (hwf : MapWellFormed f.count memoryMap) (boot : State)
    (operations : List Operation) :
    (∀ t, (session f memoryMap operations).run boot ≠ .error .outOfRange t) ↔
      (∀ desc ∈ memoryMap, ∀ i, desc.Covers i → i / buddySize < buddyLength f) ∧
        ∀ s, (pmmInitialize f memoryMap).run boot = .ok () s →
          EachCall (Operation.run f memoryMap) (fun _ _ _ => ()) (fun _ _ operation =>
            operation.InRange f) operations () s := by
  rw [← pmmInitialize_outOfRange_iff hwf boot, session]
  cases hinit : (pmmInitialize f memoryMap).run boot with
  | error e t =>
    rw [bind_of_error hinit]
    simp
  | ok u s =>
    have hmap := suitable_of_pmmInitialize hinit hwf.disjoint
    rw [bind_of_ok hinit, callAll_ne_error_iff (fun _ _ _ => ()) operations () s,
      EachCall.congr_of_invariant (I := fun _ s => Linked f memoryMap s)
        (fun _ _ operation hs => hs.operation_inRange_iff hwf hmap operation)
        (fun _ _ _ _ _ hs _ hrun => hs.operation hwf hmap hrun)
        (linked_of_pmmInitialize hwf hinit) operations]
    simp

/-- A page, a run of pages and a second `Initialize` on the map without a gap. -/
theorem session_inRange_fullMap :
    MapWellFormed twelveFrames.count fullMap ∧
      ∀ t, (session twelveFrames fullMap [.request (.allocatePage 0x5000),
        .request (.allocateContiguous 3), .restart, .request (.allocatePage 0)]).run rawState ≠
          .error .outOfRange t := by
  refine ⟨fullMap_wellFormed, (session_inRange_iff fullMap_wellFormed rawState _).mpr ⟨?_, ?_⟩⟩
  · exact fullMap_suitable.buddies
  · intro s _
    refine EachCall.of_forall_mem ?_ () s
    simp only [List.forall_mem_cons, List.not_mem_nil, false_implies, implies_true, and_true,
      Operation.InRange]
    exact ⟨fun _ _ => by decide, fun _ _ => by decide, trivial, fun _ _ => by decide⟩

/-- Five frames of conventional memory. -/
def fiveFrames : FrameArray := ⟨5, by decide⟩

/-- The last of five pages has no buddy. -/
theorem not_session_inRange :
    ¬ ∀ (f : FrameArray) (memoryMap : List Descriptor), 0 < f.count →
      MapWellFormed f.count memoryMap →
      (∃ desc ∈ memoryMap, desc.baseIndex + desc.numberOfPages = f.count) →
      ∀ (boot : State) (operations : List Operation) (t : State),
        (session f memoryMap operations).run boot ≠ .error .outOfRange t := by
  intro hclaim
  have hwf : MapWellFormed fiveFrames.count [⟨.EfiConventionalMemory, 0, 5⟩] :=
    ⟨by decide, by decide, List.pairwise_singleton _ _⟩
  have hrange := hclaim fiveFrames [⟨.EfiConventionalMemory, 0, 5⟩] (by decide) hwf (by decide)
    rawState []
  have hbuddies := (pmmInitialize_outOfRange_iff hwf rawState).mp fun t ht =>
    hrange t (bind_of_error ht)
  exact absurd (hbuddies _ List.mem_cons_self 4 ⟨by decide, by decide⟩) (by decide)

end Vsos.Mem
