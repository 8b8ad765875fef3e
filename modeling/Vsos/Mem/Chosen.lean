import Vsos.Lib.Runs
import Vsos.Mem.HandOut

/-!
# Requests for a chosen page

A page that the caller chose is handed out when the state of its frame says that it is free.
`AllocatePage` sets that state, `AllocateContiguous` does not: the frames of a run leave the
free list and still look free, so each of them can be requested and handed out once more.
Between requests that leave the runs alone, the free frames are the conventional pages that
have not been handed out.
-/

namespace Vsos.Mem

open Vsos.Lib

variable {f : FrameArray} {memoryMap : List Descriptor} {u : Unit} {r : Option ℕ}

section PageStates

/-- Linking a frame does not change its state. -/
theorem listInsertHead_pageState {listHead entry : Link} {s t : State}
    (hrun : (listInsertHead f listHead entry).run s = .ok u t) : t.pageState = s.pageState := by
  obtain ⟨_, _, hread, hrun⟩ := bind_eq_ok.mp hrun
  obtain ⟨_, _, h₁, hrun⟩ := bind_eq_ok.mp hrun
  obtain ⟨_, _, h₂, hrun⟩ := bind_eq_ok.mp hrun
  obtain ⟨_, _, h₃, h₄⟩ := bind_eq_ok.mp hrun
  rw [← (access_eq_ok h₄).2.2, ← (access_eq_ok h₃).2.2, ← (access_eq_ok h₂).2.2,
    ← (access_eq_ok h₁).2.2, ← (access_eq_ok hread).2.2]

/-- Visiting a page sets the state of its frame. -/
theorem initializePage_pageState {desc : Descriptor} {index : ℕ} {s t : State}
    (hrun : (initializePage f desc index).run s = .ok u t) :
    t.pageState = Function.update s.pageState index (getPageState desc) := by
  obtain ⟨_, _, hset, hrest⟩ := bind_eq_ok.mp hrun
  obtain ⟨_, _, hget, hrest⟩ := bind_eq_ok.mp hrest
  obtain ⟨_, _, hmark, hlink⟩ := bind_eq_ok.mp hrest
  obtain ⟨-, -, rfl⟩ := buddyGet_ok hget
  obtain ⟨-, rfl⟩ := buddySet_ok hmark
  obtain ⟨-, -, rfl⟩ := access_eq_ok hset
  split at hlink
  · exact listInsertHead_pageState hlink
  · cases hlink
    rfl

/-- Visiting the pages of a descriptor sets the states of their frames. -/
theorem initializePages_pageState {desc : Descriptor} {n j : ℕ} {s t : State}
    (hrun : (initializePages f desc n j).run s = .ok u t) (i : ℕ) :
    (Stretch desc j n i → t.pageState i = getPageState desc) ∧
      (¬ Stretch desc j n i → t.pageState i = s.pageState i) := by
  induction n generalizing j s with
  | zero =>
    cases hrun
    exact ⟨fun h => by simp only [Stretch] at h; omega, fun _ => rfl⟩
  | succ n ih =>
    obtain ⟨_, s', hpage, hrest⟩ := bind_eq_ok.mp hrun
    have hs' := congrFun (initializePage_pageState hpage) i
    obtain ⟨hin, hout⟩ := ih hrest
    simp only [Stretch] at hin hout ⊢
    by_cases hlast : desc.baseIndex + (j + 1) ≤ i ∧ i < desc.baseIndex + (j + 1) + n
    · exact ⟨fun _ => hin hlast, fun h => by omega⟩
    · rw [hout hlast, hs']
      constructor
      · intro h
        rw [show i = desc.baseIndex + j by omega, Function.update_self]
      · intro h
        rw [Function.update_of_ne (by omega)]

/-- Visiting the descriptors sets the states of all frames they describe. -/
theorem initializeRegions_pageState {regions : List Descriptor} {s t : State}
    (hdisjoint : regions.Pairwise fun a b => ∀ index, a.Covers index → ¬ b.Covers index)
    (hrun : (initializeRegions f regions).run s = .ok u t) (i : ℕ) :
    (∀ desc ∈ regions, desc.Covers i → t.pageState i = getPageState desc) ∧
      ((∀ desc ∈ regions, ¬ desc.Covers i) → t.pageState i = s.pageState i) := by
  induction regions generalizing s with
  | nil =>
    cases hrun
    exact ⟨fun _ hdesc => absurd hdesc List.not_mem_nil, fun _ => rfl⟩
  | cons desc rest ih =>
    obtain ⟨_, s₁, hassert, hbody⟩ := bind_eq_ok.mp hrun
    obtain ⟨_, s₂, hpages, hrest⟩ := bind_eq_ok.mp hbody
    obtain rfl := eq_of_assert hassert
    obtain ⟨hapart, hpairs⟩ := List.pairwise_cons.mp hdisjoint
    obtain ⟨hin, hout⟩ := ih hpairs hrest
    obtain ⟨hpage, hother⟩ := initializePages_pageState hpages i
    have hcovers : Stretch desc 0 desc.numberOfPages i ↔ desc.Covers i := by
      simp only [Stretch, Descriptor.Covers, Nat.add_zero]
    rw [hcovers] at hpage hother
    constructor
    · intro d hd hd'
      rcases List.mem_cons.mp hd with rfl | hd
      · rw [hout fun b hb => hapart b hb i hd', hpage hd']
      · exact hin d hd hd'
    · intro hnone
      rw [hout fun b hb => hnone b (List.mem_cons_of_mem _ hb), hother (hnone desc List.mem_cons_self)]

/-- The frames that `Initialize` leaves free are the conventional ones. -/
theorem pmmInitialize_pageState (hmap : Suitable f memoryMap)
    (hgap : ∀ i < f.count, ∃ desc ∈ memoryMap, desc.Covers i) {s t : State}
    (hrun : (pmmInitialize f memoryMap).run s = .ok u t) {i : ℕ} (hi : i < f.count) :
    t.pageState i = .Free ↔ IsRam memoryMap i := by
  obtain ⟨_, _, t', -, hregions, rfl⟩ := pmmInitialize_ok hrun
  have hstate := (initializeRegions_pageState hmap.disjoint hregions i).1
  constructor
  · intro hfree
    obtain ⟨desc, hdesc, hcovers⟩ := hgap i hi
    refine ⟨desc, hdesc, ?_, hcovers⟩
    rw [hstate desc hdesc hcovers, getPageState] at hfree
    by_contra htype
    rw [if_neg htype] at hfree
    cases hfree
  · rintro ⟨desc, hdesc, htype, hcovers⟩
    rw [hstate desc hdesc hcovers, getPageState, if_pos htype]

end PageStates

/-- A call of the manager; `AllocatePage` with the address zero leaves the choice to it. -/
inductive Call where
  | allocatePage (address : ℕ)
  | allocateContiguous (pageCount : ℕ)
  deriving DecidableEq, Repr

/-- The method that a call runs. -/
def Call.run (f : FrameArray) : Call → PmmM (Option ℕ)
  | .allocatePage address => Mem.allocatePage f address
  | .allocateContiguous pageCount => Mem.allocateContiguous f pageCount

/-- The frames that a call hands out when it returns `r`. -/
def Call.frames : Call → Option ℕ → List ℕ
  | _, none => []
  | .allocatePage _, some address => [address / pageSize]
  | .allocateContiguous pageCount, some address =>
    (List.range pageCount).map (address / pageSize + ·)

/-- The frames among them that belong to a run. -/
def Call.runFrames : Call → Option ℕ → List ℕ
  | .allocatePage _, _ => []
  | .allocateContiguous pageCount, r => (Call.allocateContiguous pageCount).frames r

/-- The frame that the call asks for: that of a page-aligned address other than zero, in front of
the last frame. -/
def Call.asked (f : FrameArray) : Call → Option ℕ
  | .allocatePage address =>
    if address ≠ 0 ∧ address % pageSize = 0 ∧ address / pageSize < f.count then
      some (address / pageSize)
    else none
  | .allocateContiguous _ => none

/-- What the calls have handed out, and the part of it that belongs to runs. -/
structure Handed where
  frames : List ℕ
  runs : List ℕ

/-- The frames of one more call. -/
def Handed.note (h : Handed) (call : Call) (r : Option ℕ) : Handed :=
  ⟨h.frames ++ call.frames r, h.runs ++ call.runFrames r⟩

/-- Along a sequence of calls, `P` holds wherever a frame is asked for: of what has been handed
out, the state, and the frame. -/
def EveryRequest (f : FrameArray) (P : Handed → State → ℕ → Prop) (calls : List Call) :
    State → Prop :=
  EachCall (Call.run f) Handed.note (fun h s call => ∀ i ∈ call.asked f, P h s i) calls ⟨[], []⟩

instance (f : FrameArray) (P : Handed → State → ℕ → Prop) [∀ h s i, Decidable (P h s i)]
    (calls : List Call) (s : State) : Decidable (EveryRequest f P calls s) :=
  EachCall.decidable _ _ _ calls _ s

/-- The request for frame `i` returns true just when the page is conventional memory that has
not been handed out, and then that frame alone leaves the free list. -/
def Exact (f : FrameArray) (memoryMap : List Descriptor) (s : State) (handed : List ℕ) (i : ℕ) :
    Prop :=
  ∃ r t, (allocatePage f (i * pageSize)).run s = .ok r t ∧
    (r ≠ none ↔ IsRam memoryMap i ∧ i ∉ handed) ∧
    (r ≠ none → ∃ free, FreeList s free ∧ i ∈ free ∧ FreeList t (free.erase i))

/-- What holds between two calls: the conventional pages are on the free list or handed out,
and a frame looks free when it is on the list or belongs to a run. -/
structure Books (f : FrameArray) (memoryMap : List Descriptor) (s : State)
    (free handed runs : List ℕ) : Prop extends Inv f memoryMap s free handed where
  complete : ∀ i, IsRam memoryMap i → i ∈ free ∨ i ∈ handed
  looks_free : ∀ i < f.count, s.pageState i = .Free ↔ i ∈ free ∨ i ∈ runs
  runs_handed : ∀ i ∈ runs, i ∈ handed

section Books

variable {s t : State} {free handed runs : List ℕ}

/-- Handing out a single free page keeps the books. -/
theorem Books.taken (h : Books f memoryMap s free handed runs) {i : ℕ} (hi : i ∈ free) :
    Books f memoryMap (s.taken i) (free.erase i) (handed ++ [i]) runs where
  toInv := h.toInv.taken hi
  complete := by
    intro j hj
    by_cases hji : j = i
    · exact Or.inr (List.mem_append_right _ (List.mem_singleton.mpr hji))
    · rcases h.complete j hj with hfree | hhanded
      · exact Or.inl ((List.mem_erase_of_ne hji).mpr hfree)
      · exact Or.inr (List.mem_append_left _ hhanded)
  looks_free := by
    intro j hj
    change Function.update s.pageState i .Active j = .Free ↔ _
    by_cases hji : j = i
    · subst hji
      rw [Function.update_self]
      have hrun : j ∉ runs := fun hrun => h.apart j (h.runs_handed j hrun) hi
      simp [hrun, h.list.frames_nodup.not_mem_erase]
    · rw [Function.update_of_ne hji, List.mem_erase_of_ne hji]
      exact h.looks_free j hj
  runs_handed := fun j hj => List.mem_append_left _ (h.runs_handed j hj)

/-- A search for a run keeps the books. -/
theorem Books.allocateContiguous (h : Books f memoryMap s free handed runs) {n : ℕ}
    (hrun : (allocateContiguous f n).run s = .ok r t) :
    ∃ free', Books f memoryMap t free' (handed ++ (Call.allocateContiguous n).frames r)
      (runs ++ (Call.allocateContiguous n).frames r) := by
  obtain ⟨hstate, free', frames, hinv, hsplit, hr⟩ := h.toInv.contiguousLoop hrun
  have hframes : (Call.allocateContiguous n).frames r = frames := by
    rcases hr with ⟨rfl, rfl⟩ | ⟨index, rfl, hlt, rfl⟩
    · rfl
    · refine List.map_congr_left fun j hj => ?_
      have hindex : index < f.count :=
        lt_of_le_of_lt (Nat.le_add_right _ _) (hlt j (List.mem_range.mp hj))
      rw [pageAddress_eq hindex, Nat.mul_div_cancel _ (by decide)]
  rw [hframes]
  have hback : ∀ i ∈ free', i ∈ free := by
    intro i hi
    refine (h.complete i (hinv.free_ram i hi)).resolve_right fun hhanded => ?_
    exact hinv.apart i (List.mem_append_left _ hhanded) hi
  have hfrom : ∀ i ∈ frames, i ∈ free := by
    intro i hi
    have hram := hinv.handed_ram i (List.mem_append_right _ hi)
    refine (h.complete i hram).resolve_right fun hhanded => ?_
    exact (List.nodup_append.mp hinv.handed_nodup).2.2 i hhanded i hi rfl
  refine ⟨free', hinv, ?_, ?_, ?_⟩
  · intro i hi
    rcases h.complete i hi with hfree | hhanded
    · exact (hsplit i hfree).imp_right (List.mem_append_right _)
    · exact Or.inr (List.mem_append_left _ hhanded)
  · intro i hi
    rw [hstate, h.looks_free i hi, List.mem_append]
    constructor
    · rintro (hfree | hrun)
      · exact (hsplit i hfree).imp_right Or.inr
      · exact Or.inr (Or.inl hrun)
    · rintro (hfree | hrun | hframe)
      · exact Or.inl (hback i hfree)
      · exact Or.inr hrun
      · exact Or.inl (hfrom i hframe)
  · intro i hi
    rcases List.mem_append.mp hi with hi | hi
    · exact List.mem_append_left _ (h.runs_handed i hi)
    · exact List.mem_append_right _ hi

/-- The books after `Initialize`. -/
theorem Built.books (h : Built f s (IsRam memoryMap) (IsReserved memoryMap) free)
    (hstate : ∀ i < f.count, s.pageState i = .Free ↔ IsRam memoryMap i) :
    Books f memoryMap s free [] [] where
  toInv := h.inv
  complete := fun i hi => Or.inl ((h.mem_free i).mpr hi)
  looks_free := by
    intro i hi
    rw [hstate i hi, ← h.mem_free i]
    simp
  runs_handed := by simp

end Books

section Requests

variable {s t : State} {free handed runs : List ℕ} {i : ℕ}

/-- A request for a chosen page gets past its assertions only for the page of a frame. -/
theorem chosen_of_allocatePage {address : ℕ} (hne : address ≠ 0)
    (hrun : (allocatePage f address).run s ≠ .error .fault s) :
    ∃ i, address = i * pageSize ∧ i < f.count := by
  rw [allocatePage, if_pos hne, allocateChosen] at hrun
  by_cases haligned : address % pageSize = 0
  · rw [bind_of_ok (assert_run (by simpa using haligned) s)] at hrun
    refine ⟨address / pageSize, (Nat.div_mul_cancel (Nat.dvd_of_mod_eq_zero haligned)).symm, ?_⟩
    by_contra hinside
    exact hrun (bind_of_error (assert_error (by simpa using hinside) s))
  · exact absurd (bind_of_error (assert_error (by simpa using haligned) s)) hrun

/-- The request for a frame looks at its state first. -/
theorem allocatePage_chosen (hi : i ≠ 0) (hcount : i < f.count) :
    (allocatePage f (i * pageSize)).run s = (do
      if s.pageState i ≠ PageState.Free then return none
      else do
        setPageState f i .Active
        buddySet f (i / buddySize) true
        listRemoveEntry f (.frame i)
        return some (i * pageSize) : PmmM (Option ℕ)).run s := by
  have hdiv : i * pageSize / pageSize = i := Nat.mul_div_cancel _ (by decide)
  have hne : i * pageSize ≠ 0 := Nat.mul_ne_zero hi (by decide)
  rw [allocatePage, if_pos hne, allocateChosen, bind_of_ok (assert_run (by simp) s), hdiv,
    bind_of_ok (assert_run (by simpa using hcount) s), bind_look]

section

variable (h : Books f memoryMap s free handed runs)
include h

/-- A frame on the free list is handed out. -/
theorem Books.allocatePage_free (hmap : Suitable f memoryMap) (hi : i ≠ 0) (hfree : i ∈ free) :
    (allocatePage f (i * pageSize)).run s = .ok (some (i * pageSize)) (s.taken i) := by
  have hbuddy := (h.free_ram i hfree).buddy_lt hmap
  have hcount := lt_of_buddy_lt hbuddy
  have hlooks : s.pageState i = .Free := (h.looks_free i hcount).mpr (Or.inl hfree)
  have hlist : FreeList { s with
      pageState := Function.update s.pageState i .Active
      buddyMap := setBit s.buddyMap (i / buddySize) true } free := h.list
  rw [allocatePage_chosen hi hcount, if_neg (not_not.mpr hlooks),
    bind_of_ok (setPageState_run hcount _ _), bind_of_ok (buddySet_run hbuddy _ _),
    bind_of_ok (hlist.listRemoveEntry_run (h.free_lt hmap) hfree)]
  rfl

/-- A frame that is neither on the free list nor in a run is refused. -/
theorem Books.allocatePage_used (hi : i ≠ 0) (hcount : i < f.count) (hfree : i ∉ free)
    (hrun : i ∉ runs) :
    (allocatePage f (i * pageSize)).run s = .ok none s := by
  have hlooks : s.pageState i ≠ .Free := fun hlooks =>
    ((h.looks_free i hcount).mp hlooks).elim hfree hrun
  rw [allocatePage_chosen hi hcount, if_pos hlooks]
  rfl

/-- A frame of a run is never refused. -/
theorem Books.allocatePage_run (hi : i ≠ 0) (hcount : i < f.count) (hrun : i ∈ runs)
    (hok : (allocatePage f (i * pageSize)).run s = .ok r t) : r ≠ none := by
  have hlooks : s.pageState i = .Free := (h.looks_free i hcount).mpr (Or.inr hrun)
  rw [allocatePage_chosen hi hcount, if_neg (not_not.mpr hlooks)] at hok
  obtain ⟨_, _, _, hok⟩ := bind_eq_ok.mp hok
  obtain ⟨_, _, _, hok⟩ := bind_eq_ok.mp hok
  obtain ⟨_, _, _, hok⟩ := bind_eq_ok.mp hok
  cases hok
  exact Option.some_ne_none _

/-- The request for a frame is exact just when the frame belongs to no run. -/
theorem Books.exact_iff (hmap : Suitable f memoryMap) (hi : i ≠ 0) (hcount : i < f.count) :
    Exact f memoryMap s handed i ↔ i ∉ runs := by
  constructor
  · rintro ⟨r, t, hok, hiff, -⟩ hrun
    exact (hiff.mp (h.allocatePage_run hi hcount hrun hok)).2 (h.runs_handed i hrun)
  · intro hrun
    by_cases hfree : i ∈ free
    · refine ⟨_, _, h.allocatePage_free hmap hi hfree, ?_, fun _ => ?_⟩
      · have hhanded : i ∉ handed := fun hhanded => h.apart i hhanded hfree
        simp [h.free_ram i hfree, hhanded]
      · exact ⟨free, h.list, hfree, (h.taken hfree).list⟩
    · refine ⟨none, s, h.allocatePage_used hi hcount hfree hrun, ?_, fun hne => absurd rfl hne⟩
      have hgone : IsRam memoryMap i → i ∈ handed := fun hram =>
        (h.complete i hram).resolve_left hfree
      simp only [ne_eq, not_true_eq_false, false_iff, not_and, not_not]
      exact hgone

end

/-- The frame that a request for its address asks for. -/
theorem Call.asked_frame (hi : i ≠ 0) (hcount : i < f.count) :
    (Call.allocatePage (i * pageSize)).asked f = some i := by
  rw [Call.asked, Nat.mul_mod_left, Nat.mul_div_cancel _ (by decide),
    if_pos ⟨Nat.mul_ne_zero hi (by decide), rfl, hcount⟩]

/-- A call that asks for no frame of a run keeps the books. -/
theorem Books.call (h : Books f memoryMap s free handed runs) (hmap : Suitable f memoryMap)
    {call : Call} (hasks : ∀ i ∈ call.asked f, i ∉ runs) (hrun : (call.run f).run s = .ok r t) :
    ∃ free', Books f memoryMap t free' (handed ++ call.frames r) (runs ++ call.runFrames r) := by
  cases call with
  | allocateContiguous n => exact h.allocateContiguous hrun
  | allocatePage address =>
    rw [Call.runFrames, List.append_nil]
    by_cases hzero : address = 0
    · subst hzero
      obtain ⟨i, rest, rfl⟩ := List.exists_cons_of_ne_nil (h.list.ne_nil_of_allocatePage hrun)
      have hbuddy := (h.free_ram i List.mem_cons_self).buddy_lt hmap
      rw [Call.run, h.list.allocatePage_run hbuddy (h.free_lt hmap)] at hrun
      cases hrun
      have hcount : i < f.count := lt_of_buddy_lt hbuddy
      rw [Call.frames, pageAddress_eq hcount, Nat.mul_div_cancel _ (by decide)]
      exact ⟨_, h.taken List.mem_cons_self⟩
    · obtain ⟨i, rfl, hcount⟩ := chosen_of_allocatePage hzero (by rw [← Call.run, hrun]; simp)
      have hi : i ≠ 0 := fun hi => hzero (by rw [hi, Nat.zero_mul])
      have hnotrun : i ∉ runs := hasks i (Call.asked_frame hi hcount)
      by_cases hfree : i ∈ free
      · rw [Call.run, h.allocatePage_free hmap hi hfree] at hrun
        cases hrun
        rw [Call.frames, Nat.mul_div_cancel _ (by decide)]
        exact ⟨_, h.taken hfree⟩
      · rw [Call.run, h.allocatePage_used hi hcount hfree hnotrun] at hrun
        cases hrun
        rw [Call.frames, List.append_nil]
        exact ⟨free, h⟩

/-- A request asks for a frame of the array. -/
theorem Call.bounds_of_asked {call : Call} (h : i ∈ call.asked f) : i ≠ 0 ∧ i < f.count := by
  cases call with
  | allocateContiguous n => cases h
  | allocatePage address =>
    rw [Call.asked] at h
    split at h
    · next hvalid =>
      obtain ⟨hne, haligned, hcount⟩ := hvalid
      cases h
      refine ⟨fun hzero => hne ?_, hcount⟩
      rw [← Nat.div_mul_cancel (Nat.dvd_of_mod_eq_zero haligned), hzero, Nat.zero_mul]
    · cases h

/-- Along a sequence of calls, the requests are exact just when none asks for a frame of an
earlier run. -/
theorem Books.everyRequest_iff (h : Books f memoryMap s free [] [])
    (hmap : Suitable f memoryMap) (calls : List Call) :
    EveryRequest f (fun h s => Exact f memoryMap s h.frames) calls s ↔
      EveryRequest f (fun h _ i => i ∉ h.runs) calls s := by
  apply EachCall.congr_of_invariant
    (I := fun h s => ∃ free, Books f memoryMap s free h.frames h.runs)
  · rintro h s call ⟨free, hbooks⟩
    refine forall₂_congr fun i hasked => ?_
    obtain ⟨hi, hcount⟩ := Call.bounds_of_asked hasked
    exact hbooks.exact_iff hmap hi hcount
  · rintro h s call r t ⟨free, hbooks⟩ hasks hrun
    exact hbooks.call hmap hasks hrun
  · exact ⟨free, h⟩

end Requests

/-- After `Initialize` on a map without gaps, whatever is called, the requests for chosen pages
are exact just when none of them asks for a page of a run that was handed out before. -/
theorem everyRequest_exact_iff (hdvd : buddySize ∣ f.count) (hwf : MapWellFormed f.count memoryMap)
    (hgap : ∀ i < f.count, ∃ desc ∈ memoryMap, desc.Covers i) (boot : State) :
    (memoryMap ≠ [] → ∃ s, (pmmInitialize f memoryMap).run boot = .ok () s) ∧
      ∀ s, (pmmInitialize f memoryMap).run boot = .ok () s → ∀ calls : List Call,
        (EveryRequest f (fun h s => Exact f memoryMap s h.frames) calls s ↔
          EveryRequest f (fun h _ i => i ∉ h.runs) calls s) := by
  constructor
  · intro hne
    obtain ⟨s, free, hrun, -⟩ := pmmInitialize_run (hwf.suitable hdvd) hne boot
    exact ⟨s, hrun⟩
  · intro s hrun calls
    obtain ⟨free, hbuilt⟩ := built_of_pmmInitialize (hwf.suitable hdvd) hrun
    have hbooks := hbuilt.books fun i hi =>
      pmmInitialize_pageState (hwf.suitable hdvd) hgap hrun hi
    exact hbooks.everyRequest_iff (hwf.suitable hdvd) calls

/-- Two regions without a gap between them. -/
def fullMap : List Descriptor :=
  [⟨.EfiConventionalMemory, 0, 8⟩, ⟨.EfiLoaderData, 8 * pageSize, 4⟩]

/-- The map without a gap is well formed. -/
theorem fullMap_wellFormed : MapWellFormed twelveFrames.count fullMap where
  aligned := by decide
  inside := by decide
  disjoint := by
    have hsorted : fullMap.Pairwise fun a b => a.baseIndex + a.numberOfPages ≤ b.baseIndex := by
      decide
    exact hsorted.imp fun hle index ha hb => absurd (ha.2.trans_le hle) (not_lt.mpr hb.1)

/-- The map without a gap is suitable. -/
theorem fullMap_suitable : Suitable twelveFrames fullMap := fullMap_wellFormed.suitable (by decide)

/-- It covers all twelve frames. -/
theorem fullMap_covers : ∀ i < twelveFrames.count, ∃ desc ∈ fullMap, desc.Covers i := by
  simp only [Descriptor.Covers]
  decide

/-- Whether the calls leave the earlier runs alone after `Initialize` on the map without a gap. -/
def leavesRuns (calls : List Call) : PmmM Bool := do
  pmmInitialize twelveFrames fullMap
  look fun s => decide (EveryRequest twelveFrames (fun h _ i => i ∉ h.runs) calls s)

/-- The executable check of the requests is right. -/
theorem everyRequest_of_leavesRuns {calls : List Call} {s : State}
    (hrun : (pmmInitialize twelveFrames fullMap).run rawState = .ok () s) {b : Bool}
    (h : answer ((leavesRuns calls).run rawState) = some b) :
    EveryRequest twelveFrames (fun h _ i => i ∉ h.runs) calls s ↔ b = true := by
  rw [leavesRuns, bind_of_ok hrun, look_run] at h
  cases h
  rw [decide_eq_true_iff]

/-- Three pages in a row, a page behind them, and a page that is not conventional memory. -/
theorem everyRequest_exact_fullMap :
    (buddySize ∣ twelveFrames.count ∧ MapWellFormed twelveFrames.count fullMap ∧
      ∀ i < twelveFrames.count, ∃ desc ∈ fullMap, desc.Covers i) ∧
      ∃ s, (pmmInitialize twelveFrames fullMap).run rawState = .ok () s ∧
        EveryRequest twelveFrames (fun h s => Exact twelveFrames fullMap s h.frames)
          [.allocateContiguous 3, .allocatePage 0x5000, .allocatePage 0x9000] s := by
  refine ⟨⟨by decide, fullMap_wellFormed, fullMap_covers⟩, ?_⟩
  obtain ⟨hboots, hexact⟩ :=
    everyRequest_exact_iff (by decide) fullMap_wellFormed fullMap_covers rawState
  obtain ⟨s, hrun⟩ := hboots (by decide)
  refine ⟨s, hrun, (hexact s hrun _).mpr ((everyRequest_of_leavesRuns hrun ?_).mpr rfl)⟩
  decide +kernel

/-- The second page of a run is handed out again to a caller who asks for it. -/
theorem not_everyRequest_exact :
    ¬ ∀ (f : FrameArray) (memoryMap : List Descriptor), buddySize ∣ f.count →
      MapWellFormed f.count memoryMap → (∀ i < f.count, ∃ desc ∈ memoryMap, desc.Covers i) →
      ∀ (boot s : State), (pmmInitialize f memoryMap).run boot = .ok () s → ∀ calls : List Call,
        EveryRequest f (fun h s => Exact f memoryMap s h.frames) calls s := by
  intro hclaim
  obtain ⟨s, free, hrun, hbuilt⟩ := pmmInitialize_run fullMap_suitable (by decide) rawState
  have hexact := hclaim twelveFrames fullMap (by decide) fullMap_wellFormed fullMap_covers rawState
    s hrun [.allocateContiguous 3, .allocatePage 0x1000]
  have hbooks := hbuilt.books fun i hi =>
    pmmInitialize_pageState fullMap_suitable fullMap_covers hrun hi
  have hfalse : answer ((leavesRuns [.allocateContiguous 3, .allocatePage 0x1000]).run rawState) =
      some false := by decide +kernel
  rw [hbooks.everyRequest_iff fullMap_suitable,
    everyRequest_of_leavesRuns hrun hfalse] at hexact
  cases hexact

end Vsos.Mem
