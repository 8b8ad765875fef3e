import Vsos.Mem.Startup

/-!
# The pages that are handed out

Single pages come off the free list, runs of pages are found in the buddy map. The two agree
because a buddy at or behind the search position that is not marked has all of its
conventional pages on the free list. A run that would contain a page outside of all
descriptors is never completed, since that page cannot be unlinked.
-/

namespace Vsos.Mem

open Vsos.Lib

variable {f : FrameArray} {memoryMap : List Descriptor} {i n : ℕ} {r : Option ℕ} {u : Unit}

/-- The frames in `free` are on the free list, those in `handed` have left it, and the frames
that are not conventional memory have no links. -/
structure Ledger (f : FrameArray) (memoryMap : List Descriptor) (s : State)
    (free handed : List ℕ) : Prop where
  list : FreeList s free
  free_ram : ∀ i ∈ free, IsRam memoryMap i
  handed_ram : ∀ i ∈ handed, IsRam memoryMap i
  handed_nodup : handed.Nodup
  apart : ∀ i ∈ handed, i ∉ free
  unlinked : ∀ i < f.count, ¬ IsRam memoryMap i → s.flink (.frame i) = .null

/-- The conventional pages that the search can still reach and whose buddy is not marked are on
the free list. -/
def Ahead (memoryMap : List Descriptor) (s : State) (free : List ℕ) : Prop :=
  ∀ i, s.nextBuddy ≤ i / buddySize → getBit s.buddyMap (i / buddySize) = false →
    IsRam memoryMap i → i ∈ free

/-- What holds between two requests. -/
structure Inv (f : FrameArray) (memoryMap : List Descriptor) (s : State) (free handed : List ℕ) :
    Prop extends Ledger f memoryMap s free handed where
  ahead : Ahead memoryMap s free

/-- A conventional page of a suitable map has a buddy, and so it has a frame. -/
theorem IsRam.buddy_lt (hmap : Suitable f memoryMap) (h : IsRam memoryMap i) :
    i / buddySize < buddyLength f := by
  obtain ⟨desc, hdesc, -, hcovers⟩ := h
  exact hmap.buddies desc hdesc i hcovers

/-- A conventional page has a frame. -/
theorem IsRam.lt (hmap : Suitable f memoryMap) (h : IsRam memoryMap i) : i < f.count :=
  lt_of_buddy_lt (h.buddy_lt hmap)

/-- The addresses of frames do not wrap. -/
theorem pageAddress_eq (h : i < f.count) : pageAddress i = i * pageSize := by
  have hle := f.count_le
  have hlt : i * pageSize < f.count * pageSize := Nat.mul_lt_mul_of_pos_right h (by decide)
  exact Nat.mod_eq_of_lt (lt_of_lt_of_le hlt hle)

/-- The invariant holds after `Initialize`. -/
theorem Built.inv {s : State} {free : List ℕ}
    (h : Built f s (IsRam memoryMap) (IsReserved memoryMap) free) : Inv f memoryMap s free [] where
  list := h.list
  free_ram := fun i hi => (h.mem_free i).mp hi
  handed_ram := by simp
  handed_nodup := List.nodup_nil
  apart := by simp
  ahead := fun i _ _ hram => (h.mem_free i).mpr hram
  unlinked := h.unlinked

/-- The frames of a free list are pairwise different. -/
theorem FreeList.frames_nodup {s : State} {free : List ℕ} (h : FreeList s free) : free.Nodup :=
  (List.nodup_cons.mp (Ring.nodup h)).2.of_map

section Ledger

variable {s t : State} {free handed : List ℕ}

section

variable (h : Ledger f memoryMap s free handed)
include h

/-- A free page has a frame. -/
theorem Ledger.free_lt (hmap : Suitable f memoryMap) : ∀ i ∈ free, i < f.count :=
  fun i hi => (h.free_ram i hi).lt hmap

/-- The ledger depends on the links alone. -/
theorem Ledger.of_links (hflink : t.flink = s.flink) (hblink : t.blink = s.blink) :
    Ledger f memoryMap t free handed where
  list := by
    rw [FreeList, hflink, hblink]
    exact h.list
  free_ram := h.free_ram
  handed_ram := h.handed_ram
  handed_nodup := h.handed_nodup
  apart := h.apart
  unlinked := by
    rw [hflink]
    exact h.unlinked

/-- Unlinking a free frame hands it out. -/
theorem Ledger.take (hi : i ∈ free) :
    Ledger f memoryMap (s.unlinked (.frame i)) (free.erase i) (handed ++ [i]) where
  list := h.list.remove hi
  free_ram := fun j hj => h.free_ram j (List.mem_of_mem_erase hj)
  handed_ram := by
    intro j hj
    rcases List.mem_append.mp hj with hj | hj
    · exact h.handed_ram j hj
    · rw [List.mem_singleton.mp hj]
      exact h.free_ram i hi
  handed_nodup := by
    apply List.Nodup.append h.handed_nodup (List.nodup_singleton i)
    rw [List.disjoint_singleton]
    exact fun hin => h.apart i hin hi
  apart := by
    intro j hj hin
    rcases List.mem_append.mp hj with hj | hj
    · exact h.apart j hj (List.mem_of_mem_erase hin)
    · rw [List.mem_singleton.mp hj] at hin
      exact h.list.frames_nodup.not_mem_erase hin
  unlinked := by
    intro j hj hram
    rw [h.list.unlinked_flink hi fun hin => hram (h.free_ram j hin)]
    exact h.unlinked j hj hram

end

end Ledger

/-- What changes when a single page is handed out. -/
def State.taken (s : State) (i : ℕ) : State :=
  { s.unlinked (.frame i) with
    pageState := Function.update s.pageState i .Active
    buddyMap := setBit s.buddyMap (i / buddySize) true }

/-- Handing out a free page keeps the invariant. -/
theorem Inv.taken {s : State} {free handed : List ℕ} (h : Inv f memoryMap s free handed)
    (hi : i ∈ free) : Inv f memoryMap (s.taken i) (free.erase i) (handed ++ [i]) := by
  refine ⟨(h.take hi).of_links rfl rfl, ?_⟩
  intro j hnext hbit hram
  change getBit (setBit s.buddyMap (i / buddySize) true) (j / buddySize) = false at hbit
  rw [getBit_setBit] at hbit
  split at hbit
  · cases hbit
  · next hne =>
    have hin := h.ahead j hnext hbit hram
    exact (List.mem_erase_of_ne fun heq => hne (by rw [heq])).mpr hin

/-- `AllocatePage` without an address takes the frame behind the head. -/
theorem allocatePage_first {s : State} (hhead : s.flink .head = .frame i)
    (hunlink : (listRemoveEntry f (.frame i)).run s = .ok () (s.unlinked (.frame i)))
    (hbuddy : i / buddySize < buddyLength f) :
    (allocatePage f 0).run s = .ok (some (pageAddress i)) (s.taken i) := by
  have hcount : i < f.count := lt_of_buddy_lt hbuddy
  have hempty : (listIsEmpty f .head).run s = .ok (s.flink .head == .head) s := rfl
  have hassert : (assert (!(Link.frame i == Link.head))).run s = .ok () s := rfl
  have hpop : (listRemoveHead f .head).run s = .ok (.frame i) (s.unlinked (.frame i)) := by
    have hread : (readFlink f .head).run s = .ok (s.flink .head) s := rfl
    rw [hhead] at hread
    rw [listRemoveHead, bind_of_ok hread, bind_of_ok hunlink]
    rfl
  have hsame : pageAddress i / pageSize / buddySize = i / buddySize := by
    rw [pageAddress_eq hcount, Nat.mul_div_cancel _ (by decide)]
  rw [hhead] at hempty
  rw [allocatePage, if_neg (by simp), allocateFirst, bind_of_ok hempty, bind_of_ok hassert,
    bind_of_ok hpop, bind_of_ok (show (getIndex (.frame i)).run _ = .ok i _ from rfl),
    bind_of_ok (setPageState_run hcount _ _), hsame, bind_of_ok (buddySet_run hbuddy _ _)]
  rfl

/-- With nothing behind the head, there is no page to take. -/
theorem allocatePage_empty {s : State} (hhead : s.flink .head = .head) :
    (allocatePage f 0).run s = .error .fault s := by
  have hempty : (listIsEmpty f .head).run s = .ok (s.flink .head == .head) s := rfl
  rw [hhead] at hempty
  rw [allocatePage, if_neg (by simp), allocateFirst, bind_of_ok hempty]
  rfl

/-- `AllocatePage` without an address takes the first frame of the free list. -/
theorem FreeList.allocatePage_run {s : State} {rest : List ℕ} (h : FreeList s (i :: rest))
    (hbuddy : i / buddySize < buddyLength f) (hfree : ∀ j ∈ i :: rest, j < f.count) :
    (allocatePage f 0).run s = .ok (some (pageAddress i)) (s.taken i) :=
  allocatePage_first (Ring.next_head h) (h.listRemoveEntry_run hfree List.mem_cons_self) hbuddy

/-- `AllocatePage` without an address returns only if there is a free page. -/
theorem FreeList.ne_nil_of_allocatePage {s t : State} {free : List ℕ} (h : FreeList s free)
    (hrun : (allocatePage f 0).run s = .ok r t) : free ≠ [] := by
  rintro rfl
  rw [allocatePage_empty ((Ring.next_head_eq_iff h).mpr rfl)] at hrun
  cases hrun

/-- `AllocatePage` without an address hands out the first free page. -/
theorem Inv.allocatePage {s t : State} {free handed : List ℕ} (h : Inv f memoryMap s free handed)
    (hmap : Suitable f memoryMap) (hrun : (allocatePage f 0).run s = .ok r t) :
    ∃ i free', r = some (pageAddress i) ∧ Inv f memoryMap t free' (handed ++ [i]) := by
  obtain ⟨i, rest, rfl⟩ := List.exists_cons_of_ne_nil (h.list.ne_nil_of_allocatePage hrun)
  have hbuddy := (h.free_ram i List.mem_cons_self).buddy_lt hmap
  rw [h.list.allocatePage_run hbuddy (h.free_lt hmap)] at hrun
  cases hrun
  exact ⟨i, _, rfl, h.taken List.mem_cons_self⟩

/-- A look at a group of buddies changes nothing and reports a marked one. -/
theorem groupInUse_ok {nextBuddy : ℕ} {s t : State} {r : Bool}
    (hrun : (groupInUse f nextBuddy n i).run s = .ok r t) :
    s = t ∧ (r = false → ∀ j < n, getBit s.buddyMap (nextBuddy + i + j) = false) := by
  induction n generalizing i with
  | zero =>
    cases hrun
    simp
  | succ n ih =>
    obtain ⟨inUse, u, hget, hrest⟩ := bind_eq_ok.mp hrun
    obtain ⟨-, hinUse, rfl⟩ := buddyGet_ok hget
    cases inUse with
    | true =>
      cases hrest
      simp
    | false =>
      obtain ⟨rfl, hfree⟩ := ih hrest
      refine ⟨rfl, fun hr j hj => ?_⟩
      cases j with
      | zero => exact hinUse.symm
      | succ j => simpa [Nat.add_assoc, Nat.add_comm 1] using hfree hr j (by omega)

/-- Frames behind the array cannot be unlinked. -/
theorem lt_of_removeFrames {index : ℕ} {s t : State}
    (hrun : (removeFrames f index n i).run s = .ok u t) : ∀ j < n, index + i + j < f.count := by
  induction n generalizing i s with
  | zero => simp
  | succ n ih =>
    obtain ⟨_, s', hremove, hrest⟩ := bind_eq_ok.mp hrun
    intro j hj
    cases j with
    | zero => exact mapped_frame.mp (unlinked_of_listRemoveEntry hremove).1
    | succ j => simpa [Nat.add_assoc, Nat.add_comm 1] using ih hrest j (by omega)

/-- A run of frames that can be unlinked consists of free frames. -/
theorem Ledger.removeFrames {index : ℕ} {s t : State} {free handed : List ℕ}
    (h : Ledger f memoryMap s free handed)
    (hfree : ∀ j < n, IsRam memoryMap (index + i + j) → index + i + j ∈ free)
    (hrun : (removeFrames f index n i).run s = .ok u t) :
    t.buddyMap = s.buddyMap ∧ t.pageState = s.pageState ∧
      ∃ free', Ledger f memoryMap t free' (handed ++ (List.range n).map (index + i + ·)) ∧
        ∀ k ∈ free, (k < index + i ∨ index + i + n ≤ k) → k ∈ free' := by
  induction n generalizing i s free handed with
  | zero =>
    cases hrun
    exact ⟨rfl, rfl, free, by simpa using h, fun k hk _ => hk⟩
  | succ n ih =>
    obtain ⟨_, s', hremove, hrest⟩ := bind_eq_ok.mp hrun
    obtain ⟨hentry, hmapped, rfl⟩ := unlinked_of_listRemoveEntry hremove
    have hram : IsRam memoryMap (index + i) := by
      by_contra hram
      rw [h.unlinked _ (mapped_frame.mp hentry) hram] at hmapped
      cases hmapped
    have hin : index + i ∈ free := hfree 0 (by omega) hram
    obtain ⟨hmap, hpages, free', hledger, hkeep⟩ := ih (h.take hin) (by
      intro j hj hj'
      refine (List.mem_erase_of_ne (by omega)).mpr ?_
      simpa [Nat.add_assoc, Nat.add_comm 1] using hfree (j + 1) (by omega)
        (by simpa [Nat.add_assoc, Nat.add_comm 1] using hj')) hrest
    refine ⟨hmap, hpages, free', ?_, ?_⟩
    · have hrange : handed ++ [index + i] ++ (List.range n).map (index + (i + 1) + ·) =
          handed ++ (List.range (n + 1)).map (index + i + ·) := by
        rw [List.range_succ_eq_map, List.map_cons, List.map_map]
        simp [Function.comp_def, Nat.add_assoc, Nat.add_comm 1]
      rw [← hrange]
      exact hledger
    · intro k hk hout
      refine hkeep k ((List.mem_erase_of_ne (by omega)).mpr hk) (by omega)

/-- Marking the buddies of a group leaves the others alone. -/
theorem markBuddies_ok {nextBuddy : ℕ} {s t : State}
    (hrun : (markBuddies f nextBuddy n i).run s = .ok u t) :
    t.flink = s.flink ∧ t.blink = s.blink ∧ t.pageState = s.pageState ∧
      ∀ b, nextBuddy + i + n ≤ b → getBit t.buddyMap b = getBit s.buddyMap b := by
  induction n generalizing i s with
  | zero =>
    cases hrun
    simp
  | succ n ih =>
    obtain ⟨_, s', hset, hrest⟩ := bind_eq_ok.mp hrun
    obtain ⟨-, rfl⟩ := buddySet_ok hset
    obtain ⟨hflink, hblink, hpages, hbits⟩ := ih hrest
    refine ⟨hflink, hblink, hpages, fun b hb => ?_⟩
    rw [hbits b (by omega), getBit_setBit, if_neg (by omega)]

/-- A group that is long enough for the pages of a request. -/
theorem le_divRoundUp_mul (h : n < 2 ^ 63) : n ≤ divRoundUp n buddySize * buddySize := by
  have hwrap : wrap64 (n + buddySize - 1) = n + 3 := by
    rw [wrap64, Nat.mod_eq_of_lt]
    · rfl
    · simp only [buddySize]
      omega
  rw [divRoundUp, hwrap]
  simp only [buddySize]
  omega

/-- The search of `AllocateContiguous`: a run that is handed out starts at some buddy and
consists of frames that were free. -/
theorem Inv.contiguousLoop {fuel : ℕ} {s t : State} {free handed : List ℕ}
    (h : Inv f memoryMap s free handed)
    (hrun : (contiguousLoop f n (divRoundUp n buddySize) fuel).run s = .ok r t) :
    t.pageState = s.pageState ∧ ∃ free' frames, Inv f memoryMap t free' (handed ++ frames) ∧
      (∀ i ∈ free, i ∈ free' ∨ i ∈ frames) ∧ ((r = none ∧ frames = []) ∨
        ∃ index, r = some (pageAddress index) ∧ (∀ j < n, index + j < f.count) ∧
          frames = (List.range n).map (index + ·)) := by
  induction fuel generalizing s with
  | zero => cases hrun
  | succ fuel ih =>
    rw [Mem.contiguousLoop, bind_look] at hrun
    split at hrun
    · obtain ⟨inUse, _, hgroup, hrest⟩ := bind_eq_ok.mp hrun
      obtain ⟨rfl, hclear⟩ := groupInUse_ok hgroup
      cases inUse with
      | true =>
        refine ih (s := { s with nextBuddy := s.nextBuddy + 1 })
          ⟨h.toLedger.of_links rfl rfl, fun i hi => h.ahead i (Nat.le_of_succ_le hi)⟩ hrest
      | false =>
        obtain ⟨_, s', hremove, hrest⟩ := bind_eq_ok.mp hrest
        obtain ⟨_, s'', hmark, hend⟩ := bind_eq_ok.mp hrest
        cases hend
        have hlt : ∀ j < n, s.nextBuddy * buddySize + 0 + j < f.count := lt_of_removeFrames hremove
        have hshort : n < 2 ^ 63 := by
          by_contra hlong
          have hlast := hlt (2 ^ 63 - 1) (by omega)
          have hle := f.count_le
          simp only [pageSize, pageShift] at hle
          omega
        have hcover := le_divRoundUp_mul hshort
        obtain ⟨hmap, hstates, free', hledger, hkeep⟩ := h.toLedger.removeFrames (by
          intro j hj hram
          apply h.ahead _ _ _ hram
          · simp only [buddySize]
            omega
          · have hbuddy : (s.nextBuddy * buddySize + 0 + j) / buddySize =
                s.nextBuddy + 0 + j / buddySize := by
              simp only [buddySize]
              omega
            rw [hbuddy]
            apply hclear rfl
            exact Nat.div_lt_of_lt_mul (by rw [Nat.mul_comm]; omega)) hremove
        obtain ⟨hflink, hblink, hpages, hbits⟩ := markBuddies_ok hmark
        have hsplit : ∀ i ∈ free, i ∈ free' ∨
            i ∈ (List.range n).map (s.nextBuddy * buddySize + 0 + ·) := by
          intro i hi
          by_cases hout : i < s.nextBuddy * buddySize + 0 ∨ s.nextBuddy * buddySize + 0 + n ≤ i
          · exact Or.inl (hkeep i hi hout)
          · refine Or.inr (List.mem_map.mpr ⟨i - s.nextBuddy * buddySize, ?_, by omega⟩)
            exact List.mem_range.mpr (by omega)
        refine ⟨hpages.trans hstates, free', _, ⟨hledger.of_links hflink hblink, ?_⟩, hsplit,
          Or.inr ⟨s.nextBuddy * buddySize, rfl, hlt, rfl⟩⟩
        intro i hi hbit hram
        change s.nextBuddy + divRoundUp n buddySize ≤ i / buddySize at hi
        change getBit s''.buddyMap (i / buddySize) = false at hbit
        rw [hbits _ hi, hmap] at hbit
        have hmul := (Nat.le_div_iff_mul_le (by decide)).mp hi
        rw [Nat.add_mul] at hmul
        exact hkeep i (h.ahead i (by omega) hbit hram) (by omega)
    · cases hrun
      exact ⟨rfl, free, [], by simpa using h, fun i hi => Or.inl hi, Or.inl ⟨rfl, rfl⟩⟩

/-- A request to the manager. -/
inductive Request where
  | page
  | contiguous (pageCount : ℕ)
  deriving DecidableEq, Repr

/-- The pages that a successful call hands out. -/
def perform (f : FrameArray) : Request → PmmM (List ℕ)
  | .page => do
    match ← allocatePage f 0 with
    | some address => return [address]
    | none => return []
  | .contiguous pageCount => do
    match ← allocateContiguous f pageCount with
    | some address => return (List.range pageCount).map (address + · * pageSize)
    | none => return []

/-- The pages that a sequence of requests hands out, up to the first one that stops the
machine. -/
def handedOut (f : FrameArray) : List Request → State → List ℕ
  | [], _ => []
  | request :: rest, s =>
    match (perform f request).run s with
    | .ok pages t => pages ++ handedOut f rest t
    | .error _ _ => []

/-- One request hands out the addresses of frames that were free. -/
theorem Inv.perform {s t : State} {free handed : List ℕ} {request : Request} {pages : List ℕ}
    (h : Inv f memoryMap s free handed) (hmap : Suitable f memoryMap)
    (hrun : (perform f request).run s = .ok pages t) :
    ∃ free' frames, pages = frames.map (· * pageSize) ∧
      Inv f memoryMap t free' (handed ++ frames) := by
  cases request with
  | page =>
    obtain ⟨r, s', hpage, hend⟩ := bind_eq_ok.mp hrun
    obtain ⟨i, free', rfl, hinv⟩ := h.allocatePage hmap hpage
    cases hend
    have hi : i < f.count := (hinv.handed_ram i (by simp)).lt hmap
    exact ⟨free', [i], by simp [pageAddress_eq hi], hinv⟩
  | contiguous n =>
    obtain ⟨r, s', hcontiguous, hend⟩ := bind_eq_ok.mp hrun
    obtain ⟨-, free', frames, hinv, -, ⟨rfl, rfl⟩ | ⟨index, rfl, hlt, rfl⟩⟩ :=
      h.contiguousLoop hcontiguous
    · cases hend
      exact ⟨free', [], by simp, hinv⟩
    · cases hend
      refine ⟨free', _, ?_, hinv⟩
      rw [List.map_map]
      apply List.map_congr_left
      intro j hj
      have hindex : index < f.count := lt_of_le_of_lt (Nat.le_add_right _ _) (hlt j (List.mem_range.mp hj))
      simp [pageAddress_eq hindex, Nat.add_mul]

/-- Several requests to the physical memory manager. -/
def performAll (f : FrameArray) : List Request → PmmM Unit
  | [] => return ()
  | request :: rest => do
    let _ ← perform f request
    performAll f rest

/-- Requests in a row keep the invariant. -/
theorem Inv.performAll {s t : State} {free handed : List ℕ} (h : Inv f memoryMap s free handed)
    (hmap : Suitable f memoryMap) {requests : List Request}
    (hrun : (performAll f requests).run s = .ok u t) :
    ∃ free' handed', Inv f memoryMap t free' handed' := by
  induction requests generalizing s free handed with
  | nil =>
    cases hrun
    exact ⟨free, handed, h⟩
  | cons request rest ih =>
    obtain ⟨pages, s₁, hperform, hrest⟩ := bind_eq_ok.mp hrun
    obtain ⟨free₁, frames, -, h₁⟩ := h.perform hmap hperform
    exact ih h₁ hrest

/-- A sequence of requests hands out frames that are pairwise different and conventional. -/
theorem Inv.handedOut {s : State} {free handed : List ℕ} (h : Inv f memoryMap s free handed)
    (hmap : Suitable f memoryMap) (requests : List Request) :
    ∃ frames, handedOut f requests s = frames.map (· * pageSize) ∧ (handed ++ frames).Nodup ∧
      ∀ i ∈ frames, IsRam memoryMap i := by
  induction requests generalizing s free handed with
  | nil => exact ⟨[], rfl, by simpa using h.handed_nodup, by simp⟩
  | cons request rest ih =>
    rw [Mem.handedOut]
    cases hrun : (Mem.perform f request).run s with
    | ok pages t =>
      obtain ⟨free', frames, rfl, hinv⟩ := h.perform hmap hrun
      obtain ⟨frames', heq, hnodup, hram⟩ := ih hinv
      refine ⟨frames ++ frames', by simp [heq], by simpa using hnodup, ?_⟩
      intro i hi
      rcases List.mem_append.mp hi with hi | hi
      · exact hinv.handed_ram i (List.mem_append_right _ hi)
      · exact hram i hi
    | error e t => exact ⟨[], rfl, by simpa using h.handed_nodup, by simp⟩

/-- `Initialize` returns for every map that describes something, and whatever is requested
afterwards, no page is handed out twice and every page is conventional memory. -/
theorem handedOut_nodup_conventional (hdvd : buddySize ∣ f.count)
    (hwf : MapWellFormed f.count memoryMap) (boot : State) :
    (memoryMap ≠ [] → ∃ s, (pmmInitialize f memoryMap).run boot = .ok () s) ∧
      ∀ s, (pmmInitialize f memoryMap).run boot = .ok () s → ∀ requests : List Request,
        (handedOut f requests s).Nodup ∧ ∀ address ∈ handedOut f requests s,
          address % pageSize = 0 ∧ ∃ desc ∈ memoryMap,
            desc.type = .EfiConventionalMemory ∧ desc.Covers (address / pageSize) := by
  constructor
  · intro hne
    obtain ⟨s, free, hrun, -⟩ := pmmInitialize_run (hwf.suitable hdvd) hne boot
    exact ⟨s, hrun⟩
  · intro s hrun requests
    obtain ⟨free, hbuilt⟩ := built_of_pmmInitialize (hwf.suitable hdvd) hrun
    obtain ⟨frames, heq, hnodup, hram⟩ := hbuilt.inv.handedOut (hwf.suitable hdvd) requests
    rw [heq]
    constructor
    · apply hnodup.map
      exact fun i j h => Nat.eq_of_mul_eq_mul_right (by decide) h
    · intro address haddress
      obtain ⟨i, hi, rfl⟩ := List.mem_map.mp haddress
      rw [Nat.mul_mod_left, Nat.mul_div_cancel _ (by decide)]
      exact ⟨rfl, hram i hi⟩

/-- Requests for single pages empty the free list from its front. -/
theorem Inv.handedOut_pages {s : State} {free handed : List ℕ} (h : Inv f memoryMap s free handed)
    (hmap : Suitable f memoryMap) (n : ℕ) :
    Mem.handedOut f (List.replicate n .page) s = (free.take n).map (· * pageSize) := by
  induction n generalizing s free handed with
  | zero => rfl
  | succ n ih =>
    rw [List.replicate_succ, Mem.handedOut, Mem.perform]
    cases free with
    | nil =>
      rw [bind_of_error (allocatePage_empty ((Ring.next_head_eq_iff h.list).mpr rfl))]
      rfl
    | cons i rest =>
      have hbuddy := (h.free_ram i List.mem_cons_self).buddy_lt hmap
      have hrest := ih (h.taken List.mem_cons_self)
      rw [List.erase_cons_head] at hrest
      rw [bind_of_ok (h.list.allocatePage_run hbuddy (h.free_lt hmap)),
        pageAddress_eq (lt_of_buddy_lt hbuddy)]
      simpa using hrest

/-- Twelve frames. -/
def twelveFrames : FrameArray := ⟨12, by decide⟩

/-- Two conventional regions, one of another type and two gaps. -/
def gapMap : List Descriptor :=
  [⟨.EfiConventionalMemory, 0, 2⟩, ⟨.EfiLoaderData, 2 * pageSize, 1⟩,
    ⟨.EfiConventionalMemory, 4 * pageSize, 4⟩]

/-- The manager before `Initialize`. -/
def rawState : State :=
  ⟨fun _ => .null, fun _ => .null, fun _ => .Free, fun _ => 0#64, 0⟩

/-- The map with a gap is well formed. -/
theorem gapMap_wellFormed : MapWellFormed twelveFrames.count gapMap where
  aligned := by decide
  inside := by decide
  disjoint := by
    have hsorted : gapMap.Pairwise fun a b => a.baseIndex + a.numberOfPages ≤ b.baseIndex := by
      decide
    exact hsorted.imp fun hle index ha hb => absurd (ha.2.trans_le hle) (not_lt.mpr hb.1)

/-- A run of three pages and two single pages out of the twelve frames. -/
theorem handedOut_gapMap :
    (buddySize ∣ twelveFrames.count ∧ MapWellFormed twelveFrames.count gapMap) ∧
      ((pmmInitialize twelveFrames gapMap >>= fun _ =>
          look (handedOut twelveFrames [.contiguous 3, .page, .page])).run rawState matches
        .ok [0x4000, 0x5000, 0x6000, 0x7000, 0x1000] _) ∧
      (gapMap ≠ [] → ∃ s, (pmmInitialize twelveFrames gapMap).run rawState = .ok () s) ∧
      ∀ s, (pmmInitialize twelveFrames gapMap).run rawState = .ok () s →
        ∀ requests : List Request, (handedOut twelveFrames requests s).Nodup ∧
          ∀ address ∈ handedOut twelveFrames requests s,
            address % pageSize = 0 ∧ ∃ desc ∈ gapMap,
              desc.type = .EfiConventionalMemory ∧ desc.Covers (address / pageSize) :=
  ⟨⟨by decide, gapMap_wellFormed⟩, by decide +kernel,
    handedOut_nodup_conventional (by decide) gapMap_wellFormed rawState⟩

end Vsos.Mem
