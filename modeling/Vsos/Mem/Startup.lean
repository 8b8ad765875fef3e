import Vsos.Mem.Lists

/-!
# What `Initialize` builds

After `Initialize` the free list holds exactly the conventional pages, and a buddy is marked
exactly when it has a page of another type. Pages outside of all descriptors look like free
ones to the buddy map but have no links.
-/

namespace Vsos.Mem

open Vsos.Lib

variable {f : FrameArray} {desc : Descriptor} {index : ℕ} {condition : Bool} {s t : State}
  {u : Unit} {memoryMap : List Descriptor} {ram reserved : ℕ → Prop} {free : List ℕ}

/-- Free list, buddy map and links while the pages in `ram` and `reserved` have been visited. -/
structure Built (f : FrameArray) (s : State) (ram reserved : ℕ → Prop) (free : List ℕ) : Prop where
  list : FreeList s free
  mem_free : ∀ i, i ∈ free ↔ ram i
  ram_lt : ∀ i, ram i → i < f.count
  marked : ∀ b, getBit s.buddyMap b = true ↔ ∃ i, reserved i ∧ i / buddySize = b
  unlinked : ∀ i < f.count, ¬ ram i → s.flink (.frame i) = .null

/-- The pages of a descriptor from number `j` on. -/
def Stretch (desc : Descriptor) (j n index : ℕ) : Prop :=
  desc.baseIndex + j ≤ index ∧ index < desc.baseIndex + j + n

/-- A stretch from the first page on is the region. -/
theorem stretch_zero :
    Stretch desc 0 desc.numberOfPages index ↔ desc.Covers index := Iff.rfl

/-- An assertion that holds. -/
theorem assert_run (h : condition = true) (s : State) :
    (assert condition).run s = .ok () s := by
  rw [assert, if_pos h]
  rfl

/-- An assertion does not change the state. -/
theorem eq_of_assert (hrun : (assert condition).run s = .ok u t) : s = t := by
  rw [assert] at hrun
  split at hrun <;> cases hrun
  rfl

/-- Behind an assertion its condition holds. -/
theorem condition_of_assert (hrun : (assert condition).run s = .ok u t) : condition = true := by
  rw [assert] at hrun
  split at hrun
  · assumption
  · cases hrun

/-- An assertion that fails. -/
theorem assert_error (h : condition = false) (s : State) :
    (assert condition).run s = .error .fault s := by
  rw [h]
  rfl

/-- The check of an index that is in range. -/
theorem assertIndex_run (h : index < buddyLength f) (s : State) :
    (assertIndex f index).run s = .ok () s := by
  rw [assertIndex, if_pos h]
  rfl

/-- Behind the check the index is in range. -/
theorem assertIndex_eq_ok (hrun : (assertIndex f index).run s = .ok u t) :
    index < buddyLength f ∧ s = t := by
  rw [assertIndex] at hrun
  split at hrun
  · next hlt =>
    cases hrun
    exact ⟨hlt, rfl⟩
  · cases hrun

/-- `Get` of an index in range. -/
theorem buddyGet_run (h : index < buddyLength f) (s : State) :
    (buddyGet f index).run s = .ok (getBit s.buddyMap index) s := by
  rw [buddyGet, bind_of_ok (assertIndex_run h s)]
  rfl

/-- `Set` of an index in range. -/
theorem buddySet_run (h : index < buddyLength f) (value : Bool) (s : State) :
    (buddySet f index value).run s = .ok () { s with buddyMap := setBit s.buddyMap index value } := by
  rw [buddySet, bind_of_ok (assertIndex_run h s)]
  rfl

/-- A read of the buddy map that returns stays inside of it. -/
theorem buddyGet_ok {r : Bool} (hrun : (buddyGet f index).run s = .ok r t) :
    index < buddyLength f ∧ r = getBit s.buddyMap index ∧ s = t := by
  obtain ⟨_, _, hassert, hlook⟩ := bind_eq_ok.mp hrun
  obtain ⟨hlt, rfl⟩ := assertIndex_eq_ok hassert
  cases hlook
  exact ⟨hlt, rfl, rfl⟩

/-- What a call of `Set` that returns has done. -/
theorem buddySet_ok {value : Bool} (hrun : (buddySet f index value).run s = .ok u t) :
    index < buddyLength f ∧ t = { s with buddyMap := setBit s.buddyMap index value } := by
  obtain ⟨_, _, hassert, hchange⟩ := bind_eq_ok.mp hrun
  obtain ⟨hlt, rfl⟩ := assertIndex_eq_ok hassert
  cases hchange
  exact ⟨hlt, rfl⟩

/-- Storing the state of a frame. -/
theorem setPageState_run (h : index < f.count) (state : PageState) (s : State) :
    (setPageState f index state).run s =
      .ok () { s with pageState := Function.update s.pageState index state } :=
  if_pos h

/-- A frame with a buddy is one of the frames of the array. -/
theorem lt_of_buddy_lt (h : index / buddySize < buddyLength f) : index < f.count :=
  lt_of_not_ge fun hge => absurd h (not_lt.mpr (Nat.div_le_div_right hge))

/-- A memory map that `Initialize` gets through: the descriptors are aligned and disjoint, and
the pages they describe have buddies. -/
structure Suitable (f : FrameArray) (memoryMap : List Descriptor) : Prop where
  aligned : ∀ desc ∈ memoryMap, desc.physicalStart % pageSize = 0
  disjoint : memoryMap.Pairwise fun a b => ∀ index, a.Covers index → ¬ b.Covers index
  buddies : ∀ desc ∈ memoryMap, ∀ index, desc.Covers index → index / buddySize < buddyLength f

/-- All frames have buddies when their number is a multiple of four. -/
theorem MapWellFormed.suitable (hwf : MapWellFormed f.count memoryMap)
    (hdvd : buddySize ∣ f.count) : Suitable f memoryMap where
  aligned := hwf.aligned
  disjoint := hwf.disjoint
  buddies := fun desc hdesc _ hcovers =>
    Nat.div_lt_div_of_lt_of_dvd hdvd (lt_of_lt_of_le hcovers.2 (hwf.inside desc hdesc))

/-- A page is visited only if it has a buddy. -/
theorem buddy_lt_of_initializePages {n j : ℕ}
    (hrun : (initializePages f desc n j).run s = .ok u t) :
    ∀ i, Stretch desc j n i → i / buddySize < buddyLength f := by
  induction n generalizing j s with
  | zero =>
    rintro i ⟨hlow, hhigh⟩
    omega
  | succ n ih =>
    obtain ⟨_, s', hpage, hrest⟩ := bind_eq_ok.mp hrun
    rintro i ⟨hlow, hhigh⟩
    by_cases hfirst : i = desc.baseIndex + j
    · obtain ⟨_, _, -, hpage⟩ := bind_eq_ok.mp hpage
      obtain ⟨_, _, hget, -⟩ := bind_eq_ok.mp hpage
      rw [hfirst]
      exact (buddyGet_ok hget).1
    · exact ih hrest i ⟨by omega, by omega⟩

/-- `Initialize` gets through no other maps, since it asserts what they need. -/
theorem suitable_of_initializeRegions (hrun : (initializeRegions f memoryMap).run s = .ok u t)
    (hdisjoint : memoryMap.Pairwise fun a b => ∀ index, a.Covers index → ¬ b.Covers index) :
    Suitable f memoryMap := by
  induction memoryMap generalizing s with
  | nil => exact ⟨by simp, hdisjoint, by simp⟩
  | cons desc rest ih =>
    obtain ⟨_, _, hassert, hrest⟩ := bind_eq_ok.mp hrun
    obtain ⟨_, _, hpages, hrest⟩ := bind_eq_ok.mp hrest
    have haligned : desc.physicalStart % pageSize = 0 := by simpa using condition_of_assert hassert
    have hbuddies : ∀ i, desc.Covers i → i / buddySize < buddyLength f := fun i hi =>
      buddy_lt_of_initializePages hpages i (stretch_zero.mpr hi)
    obtain ⟨haligned', -, hbuddies'⟩ := ih hrest (List.pairwise_cons.mp hdisjoint).2
    exact ⟨List.forall_mem_cons.mpr ⟨haligned, haligned'⟩, hdisjoint,
      List.forall_mem_cons.mpr ⟨hbuddies, hbuddies'⟩⟩

/-- Zeroed frames and an empty list. -/
def State.cleared (f : FrameArray) (s : State) : State :=
  { s with
    flink := Function.update (zeroedLink f s.flink) .head .head
    blink := Function.update (zeroedLink f s.blink) .head .head
    pageState := fun index => if index < f.count then .Free else s.pageState index
    buddyMap := fun _ => 0#64 }

/-- `Initialize` clears the frames first. -/
theorem pmmInitialize_cleared (memoryMap : List Descriptor) (s : State) :
    (pmmInitialize f memoryMap).run s = (do
      initializeRegions f memoryMap
      match getLargestConventionalAddress memoryMap with
      | none => throw .fault
      | some address => setNextBuddy ((address / pageSize + (buddySize - 1)) / buddySize) :
        PmmM Unit).run (s.cleared f) := rfl

/-- An initialization that returns visits the descriptors from zeroed frames on, and sets the search
to the region it takes for the largest. -/
theorem pmmInitialize_ok (hrun : (pmmInitialize f memoryMap).run s = .ok u t) :
    ∃ first rest t', memoryMap = first :: rest ∧
      (initializeRegions f memoryMap).run (s.cleared f) = .ok () t' ∧
      t = { t' with nextBuddy :=
        ((largestLoop memoryMap first).physicalStart / pageSize + (buddySize - 1)) / buddySize } := by
  rw [pmmInitialize_cleared] at hrun
  obtain ⟨_, t', hregions, hlast⟩ := bind_eq_ok.mp hrun
  cases memoryMap with
  | nil => cases hlast
  | cons first rest =>
    cases hlast
    exact ⟨first, rest, t', rfl, hregions, rfl⟩

/-- A map that `Initialize` accepts is suitable if its regions are disjoint. -/
theorem suitable_of_pmmInitialize (hrun : (pmmInitialize f memoryMap).run s = .ok u t)
    (hdisjoint : memoryMap.Pairwise fun a b => ∀ index, a.Covers index → ¬ b.Covers index) :
    Suitable f memoryMap := by
  obtain ⟨_, _, _, -, hregions, -⟩ := pmmInitialize_ok hrun
  exact suitable_of_initializeRegions hregions hdisjoint

/-- The buddy map after one page was visited. -/
theorem marked_step {map : ℕ → BitVec 64}
    (h : ∀ b, getBit map b = true ↔ ∃ i, reserved i ∧ i / buddySize = b) (index : ℕ) (inUse : Bool)
    (b : ℕ) :
    getBit (setBit map (index / buddySize) (inUse || getBit map (index / buddySize))) b = true ↔
      ∃ i, (reserved i ∨ (inUse = true ∧ i = index)) ∧ i / buddySize = b := by
  rw [getBit_setBit]
  by_cases hb : b = index / buddySize
  · rw [if_pos hb, Bool.or_eq_true, h]
    constructor
    · rintro (hin | ⟨i, hi, hbi⟩)
      · exact ⟨index, Or.inr ⟨hin, rfl⟩, hb.symm⟩
      · exact ⟨i, Or.inl hi, hbi.trans hb.symm⟩
    · rintro ⟨i, hi | ⟨hin, rfl⟩, hbi⟩
      · exact Or.inr ⟨i, hi, hbi.trans hb⟩
      · exact Or.inl hin
  · rw [if_neg hb, h]
    constructor
    · rintro ⟨i, hi, hbi⟩
      exact ⟨i, Or.inl hi, hbi⟩
    · rintro ⟨i, hi | ⟨-, rfl⟩, hbi⟩
      · exact ⟨i, hi, hbi⟩
      · exact absurd hbi.symm hb

section

variable (h : Built f s ram reserved free)
include h

/-- Visiting one page. -/
theorem Built.page (desc : Descriptor) (hbuddy : index / buddySize < buddyLength f)
    (hnew : ¬ ram index) :
    ∃ t free', (initializePage f desc index).run s = .ok () t ∧
      Built f t (fun i => ram i ∨ (desc.type = .EfiConventionalMemory ∧ i = index))
        (fun i => reserved i ∨ (desc.type ≠ .EfiConventionalMemory ∧ i = index)) free' := by
  have hcount := lt_of_buddy_lt hbuddy
  have hfree : ∀ i ∈ free, i < f.count := fun i hi => h.ram_lt i ((h.mem_free i).mp hi)
  rw [initializePage, bind_of_ok (setPageState_run hcount _ s), bind_of_ok (buddyGet_run hbuddy _),
    bind_of_ok (buddySet_run hbuddy _ _)]
  by_cases htype : desc.type = .EfiConventionalMemory
  · have hstate : getPageState desc = .Free := if_pos htype
    have hnotin : index ∉ free := fun hin => hnew ((h.mem_free index).mp hin)
    simp only [hstate, bne_self_eq_false, if_true]
    obtain ⟨hrun, hlist⟩ := FreeList.listInsertHead_run
      (s := { s with
        pageState := Function.update s.pageState index .Free
        buddyMap := setBit s.buddyMap (index / buddySize) (false || getBit s.buddyMap (index / buddySize)) })
      h.list hfree hcount hnotin
    refine ⟨_, index :: free, hrun, hlist, ?_, ?_, ?_, ?_⟩
    · intro i
      rw [List.mem_cons, h.mem_free]
      simp [htype, or_comm]
    · rintro i (hi | ⟨-, rfl⟩)
      · exact h.ram_lt i hi
      · exact hcount
    · intro b
      have hstep := marked_step h.marked index false b
      simpa [htype, State.linked] using hstep
    · intro i hi hram
      rw [not_or] at hram
      rw [State.linked_flink _ (fun heq => hram.2 ⟨htype, heq⟩)]
      exact h.unlinked i hi hram.1
  · have hstate : getPageState desc = .Reserved := if_neg htype
    simp only [hstate, show (PageState.Reserved != PageState.Free) = true from rfl]
    refine ⟨_, free, rfl, h.list, ?_, ?_, ?_, ?_⟩
    · intro i
      simp [h.mem_free, htype]
    · rintro i (hi | ⟨hconv, -⟩)
      · exact h.ram_lt i hi
      · exact absurd hconv htype
    · intro b
      have hstep := marked_step h.marked index true b
      simpa [htype] using hstep
    · intro i hi hram
      exact h.unlinked i hi fun hin => hram (Or.inl hin)

/-- The same pages described in another way. -/
theorem Built.congr {ram' reserved' : ℕ → Prop} (hram : ∀ i, ram i ↔ ram' i)
    (hres : ∀ i, reserved i ↔ reserved' i) :
    Built f s ram' reserved' free := by
  obtain rfl : ram = ram' := funext fun i => propext (hram i)
  obtain rfl : reserved = reserved' := funext fun i => propext (hres i)
  exact h

/-- Visiting the pages of a descriptor from number `j` on. -/
theorem Built.pages (desc : Descriptor) (n j : ℕ)
    (hbuddies : ∀ i, Stretch desc j n i → i / buddySize < buddyLength f)
    (hnew : ∀ i, Stretch desc j n i → ¬ ram i) :
    ∃ t free', (initializePages f desc n j).run s = .ok () t ∧
      Built f t (fun i => ram i ∨ (desc.type = .EfiConventionalMemory ∧ Stretch desc j n i))
        (fun i => reserved i ∨ (desc.type ≠ .EfiConventionalMemory ∧ Stretch desc j n i)) free' := by
  induction n generalizing j s ram reserved free with
  | zero =>
    have hempty (i : ℕ) : ¬ Stretch desc j 0 i := by
      simp only [Stretch]
      omega
    exact ⟨s, free, rfl, h.congr (fun i => by simp [hempty]) fun i => by simp [hempty]⟩
  | succ n ih =>
    have hfirst : Stretch desc j (n + 1) (desc.baseIndex + j) := ⟨le_refl _, by omega⟩
    obtain ⟨t, free', hrun, hbuilt⟩ := h.page desc (hbuddies _ hfirst) (hnew _ hfirst)
    obtain ⟨u, free'', hrun', hbuilt'⟩ := ih hbuilt (j + 1)
      (fun i hi => hbuddies i ⟨by have := hi.1; omega, by have := hi.2; omega⟩) (by
      rintro i ⟨hlow, hhigh⟩ (hi | ⟨-, rfl⟩)
      · exact hnew i ⟨by omega, by omega⟩ hi
      · omega)
    have hsplit (i : ℕ) : Stretch desc j (n + 1) i ↔ i = desc.baseIndex + j ∨ Stretch desc (j + 1) n i := by
      simp only [Stretch]
      omega
    refine ⟨u, free'', ?_, hbuilt'.congr ?_ ?_⟩
    · rw [initializePages, bind_of_ok hrun, hrun']
    · intro i
      rw [hsplit]
      tauto
    · intro i
      rw [hsplit]
      tauto

end

/-- A page of one of the descriptors with this property. -/
def CoveredBy (memoryMap : List Descriptor) (p : Descriptor → Prop) (index : ℕ) : Prop :=
  ∃ desc ∈ memoryMap, p desc ∧ desc.Covers index

/-- A page of conventional memory. -/
def IsRam (memoryMap : List Descriptor) : ℕ → Prop :=
  CoveredBy memoryMap fun desc => desc.type = .EfiConventionalMemory

/-- A page of another type. -/
def IsReserved (memoryMap : List Descriptor) : ℕ → Prop :=
  CoveredBy memoryMap fun desc => desc.type ≠ .EfiConventionalMemory

/-- A page of the first region or of the others. -/
theorem coveredBy_cons {rest : List Descriptor} {p : Descriptor → Prop} {i : ℕ} :
    CoveredBy (desc :: rest) p i ↔ (p desc ∧ desc.Covers i) ∨ CoveredBy rest p i := by
  simp [CoveredBy]

/-- Visiting the descriptors. -/
theorem Built.regions (h : Built f s ram reserved free) (hmap : Suitable f memoryMap)
    (hnew : ∀ desc ∈ memoryMap, ∀ i, desc.Covers i → ¬ ram i) :
    ∃ t free', (initializeRegions f memoryMap).run s = .ok () t ∧
      Built f t (fun i => ram i ∨ IsRam memoryMap i)
        (fun i => reserved i ∨ IsReserved memoryMap i) free' := by
  induction memoryMap generalizing s ram reserved free with
  | nil =>
    refine ⟨s, free, rfl, h.congr ?_ ?_⟩
    · simp [IsRam, CoveredBy]
    · simp [IsReserved, CoveredBy]
  | cons desc rest ih =>
    obtain ⟨hapart, hpairs⟩ := List.pairwise_cons.mp hmap.disjoint
    have hrest : Suitable f rest :=
      ⟨fun d hd => hmap.aligned d (List.mem_cons_of_mem _ hd), hpairs,
        fun d hd => hmap.buddies d (List.mem_cons_of_mem _ hd)⟩
    have haligned : (desc.physicalStart % pageSize == 0) = true := by
      simpa using hmap.aligned desc List.mem_cons_self
    obtain ⟨t, free', hrun, hbuilt⟩ := h.pages desc desc.numberOfPages 0
      (fun i hi => hmap.buddies desc List.mem_cons_self i (stretch_zero.mp hi))
      fun i hi => hnew desc List.mem_cons_self i (stretch_zero.mp hi)
    obtain ⟨u, free'', hrun', hbuilt'⟩ := ih hbuilt hrest (by
      rintro d hd i hi (hin | ⟨-, hin⟩)
      · exact hnew d (List.mem_cons_of_mem _ hd) i hi hin
      · exact hapart d hd i (stretch_zero.mp hin) hi)
    refine ⟨u, free'', ?_, hbuilt'.congr ?_ ?_⟩
    · rw [initializeRegions, bind_of_ok (assert_run haligned s), bind_of_ok hrun, hrun']
    · intro i
      rw [IsRam, IsRam, coveredBy_cons]
      tauto
    · intro i
      rw [IsReserved, IsReserved, coveredBy_cons]
      tauto

/-- Nothing is built in a cleared array. -/
theorem built_cleared (f : FrameArray) (s : State) :
    Built f (s.cleared f) (fun _ => False) (fun _ => False) [] where
  list := Ring.nil rfl rfl
  mem_free := by simp
  ram_lt := fun i hi => hi.elim
  marked := by simp [State.cleared, getBit]
  unlinked := by
    intro i hi _
    simp [State.cleared, zeroedLink, hi]

/-- `Initialize` returns for every map that is not empty. -/
theorem pmmInitialize_run (hmap : Suitable f memoryMap) (hne : memoryMap ≠ []) (s : State) :
    ∃ t free, (pmmInitialize f memoryMap).run s = .ok () t ∧
      Built f t (IsRam memoryMap) (IsReserved memoryMap) free := by
  obtain ⟨desc, rest, rfl⟩ := List.exists_cons_of_ne_nil hne
  obtain ⟨t, free, hregions, hbuilt⟩ := (built_cleared f s).regions hmap fun _ _ _ _ h => h
  let address := (largestLoop (desc :: rest) desc).physicalStart
  have hpages : Built f t (IsRam (desc :: rest)) (IsReserved (desc :: rest)) free :=
    hbuilt.congr (by simp) (by simp)
  refine ⟨{ t with nextBuddy := (address / pageSize + (buddySize - 1)) / buddySize }, free, ?_,
    hpages.list, hpages.mem_free, hpages.ram_lt, hpages.marked, hpages.unlinked⟩
  rw [pmmInitialize_cleared, bind_of_ok hregions]
  rfl

/-- What an initialization that returns leaves; an empty map makes it read a region that is not
there. -/
theorem built_of_pmmInitialize (hmap : Suitable f memoryMap)
    (hrun : (pmmInitialize f memoryMap).run s = .ok u t) :
    ∃ free, Built f t (IsRam memoryMap) (IsReserved memoryMap) free := by
  obtain ⟨first, rest, -, hmem, -, -⟩ := pmmInitialize_ok hrun
  obtain ⟨t', free, hrun', hbuilt⟩ :=
    pmmInitialize_run hmap (hmem ▸ List.cons_ne_nil first rest) s
  cases hrun.symm.trans hrun'
  exact ⟨free, hbuilt⟩

end Vsos.Mem
