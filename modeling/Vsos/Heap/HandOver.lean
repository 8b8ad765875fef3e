import Vsos.Heap.LiveBlocks
import Vsos.Lib.Runs

/-!
# From the boot heap to the kernel heap

Until the kernel heap is initialized, the kernel allocates from a boot heap inside its image,
which only moves a watermark. Which of the two is asked depends on whether the kernel heap is
initialized at that time, for an allocation as well as for its release. The kernel heap does not
know the pointers of the boot heap, which lie in front of it.
-/

namespace Vsos.Heap

open Vsos.Lib Vsos.Mem

/-- The two heaps of the kernel; the boot heap lies in front of the kernel heap. -/
structure KernelHeaps where
  heap : KHeap
  bootAddress : ℕ
  bootLength : ℕ
  inFront : bootAddress + bootLength ≤ heap.start

/-- The kernel heap and `m_watermark` of the boot heap. -/
structure KernelState where
  heap : HeapState
  bootWatermark : ℕ

abbrev KernelM := Prog KernelState

/-- `BootHeap::Alignment`. -/
def bootAlignment : ℕ := 16

variable (k : KernelHeaps)

/-- A routine of the kernel heap. -/
def onHeap {α : Type} (x : HeapM α) : KernelM α :=
  within KernelState.heap (fun heap s => { s with heap }) x

/-- `BootHeap::Allocate`. Nothing reads the pattern that it fills the memory with. -/
def bootAllocate (size : ℕ) : KernelM ℕ := do
  let level ← look KernelState.bootWatermark
  ensure (wrap64 (level + size) ≤ k.bootAddress + k.bootLength)
  change fun s => { s with bootWatermark := wrap64 (level + byteAlign size bootAlignment) }
  return level

/-- `BootHeap::Deallocate`. -/
def bootDeallocate (_ : ℕ) : KernelM Unit := return ()

/-- `Kernel::Allocate`. -/
def kernelAllocate (size : ℕ) : KernelM ℕ := do
  if ← look fun s => s.heap.isInitialized then onHeap (allocate k.heap size) else bootAllocate k size

/-- `Kernel::Deallocate`. -/
def kernelDeallocate (address : ℕ) : KernelM Unit := do
  if ← look fun s => s.heap.isInitialized then onHeap (deallocate k.heap address)
  else bootDeallocate address

/-- What happens to the heaps. -/
inductive Event where
  | allocate (size : ℕ)
  | deallocate (address : ℕ)
  | handOver
  deriving DecidableEq, Repr

def performEvent : Event → KernelM (Option ℕ)
  | .allocate size => do
    let p ← kernelAllocate k size
    return some p
  | .deallocate address => do
    kernelDeallocate k address
    return none
  | .handOver => do
    onHeap (heapInitialize k.heap)
    return none

/-- The live pointers of both heaps, and whether the kernel heap has taken over. -/
structure Pointers where
  boot : List ℕ
  heap : List ℕ
  handedOver : Bool

/-- The live pointers after an event. A pointer of the boot heap can be live more than once, for
empty allocations. -/
def noteEvent (live : Pointers) : Event → Option ℕ → Pointers
  | .allocate _, some p =>
    if live.handedOver then { live with heap := p :: live.heap }
    else { live with boot := p :: live.boot }
  | .allocate _, none => live
  | .deallocate p, _ =>
    if p ∈ live.boot then { live with boot := live.boot.erase p }
    else { live with heap := live.heap.filter (· ≠ p) }
  | .handOver, _ => { live with handedOver := true }

/-- Only live pointers are freed, and `Initialize` is executed once at most. -/
def Admissible (live : Pointers) (_ : KernelState) : Event → Prop
  | .allocate _ => True
  | .deallocate p => p ∈ live.boot ∨ p ∈ live.heap
  | .handOver => live.handedOver = false

/-- No assertion of `Deallocate` fails. -/
def FreesWell (_ : Pointers) (s : KernelState) : Event → Prop
  | .deallocate p => ∃ t, (kernelDeallocate k p).run s = .ok () t
  | _ => True

/-- No pointer of the boot heap is freed after the kernel heap has taken over. -/
def FreesInTime (live : Pointers) (_ : KernelState) : Event → Prop
  | .deallocate p => live.handedOver = true → p ∉ live.boot
  | _ => True

/-- Before the first event. -/
def KernelHeaps.construct (mem : Bytes) (supply : ℕ) : KernelState :=
  ⟨k.heap.construct mem supply, k.bootAddress⟩

/-- No pointers yet. -/
def noPointers : Pointers := ⟨[], [], false⟩

variable {k} {s t : KernelState} {live : Pointers} {event : Event}

/-- The pointers of the boot heap lie in front of the data of the first block, and those of the
kernel heap belong to its blocks. -/
structure Owned (k : KernelHeaps) (live : Pointers) (s : KernelState) : Prop where
  flag : s.heap.isInitialized = live.handedOver
  level : s.bootWatermark < k.heap.start + headerSize
  boot : ∀ p ∈ live.boot, p < k.heap.start + headerSize
  before : live.handedOver = false →
    live.heap = [] ∧ ∃ mem supply, s.heap = k.heap.construct mem supply
  after : live.handedOver = true → ∃ blocks, Accounts k.heap s.heap blocks (live.heap.map (·, 0))

/-- The watermark of the boot heap goes at most one alignment past its end. -/
theorem bootWatermark_lt {level size e : ℕ} (h : wrap64 (level + size) ≤ e) :
    wrap64 (level + byteAlign size bootAlignment) < e + bootAlignment := by
  simp only [wrap64, byteAlign, bootAlignment] at *
  omega

/-- What the dispatch leads to before and after the hand-over. -/
theorem Owned.kernelAllocate_eq (h : Owned k live s) (size : ℕ) :
    (kernelAllocate k size).run s =
      (if live.handedOver then onHeap (allocate k.heap size) else bootAllocate k size).run s := by
  rw [kernelAllocate, bind_look, h.flag]

/-- A pointer goes back to the heap that is in charge. -/
theorem Owned.kernelDeallocate_eq (h : Owned k live s) (p : ℕ) :
    (kernelDeallocate k p).run s =
      (if live.handedOver then onHeap (deallocate k.heap p) else bootDeallocate p).run s := by
  rw [kernelDeallocate, bind_look, h.flag]

/-- A pointer in front of the data of the first block is rejected. -/
theorem not_deallocate_of_lt {heap : KHeap} {s t : HeapState} {p : ℕ} {u : Unit}
    (hp : p < heap.start + headerSize) : (deallocate heap p).run s ≠ .ok u t := by
  intro hrun
  obtain ⟨_, _, hcheck, -⟩ := bind_eq_ok.mp hrun
  exact absurd (ensure_eq_ok hcheck).1 (not_le.mpr hp)

section

variable (h : Owned k live s)
include h

/-- The assertions hold just when no pointer of the boot heap is freed too late. -/
theorem Owned.freesWell_iff (hevent : Admissible live s event) :
    FreesWell k live s event ↔ FreesInTime live s event := by
  cases event with
  | allocate size => exact Iff.rfl
  | handOver => exact Iff.rfl
  | deallocate p =>
    rw [FreesWell, FreesInTime, h.kernelDeallocate_eq]
    cases hover : live.handedOver with
    | false => exact ⟨fun _ => nofun, fun _ => ⟨s, rfl⟩⟩
    | true =>
      simp only [if_true, forall_const]
      constructor
      · rintro ⟨t, hrun⟩ hin
        obtain ⟨t', hrun', -⟩ := within_eq_ok.mp hrun
        exact not_deallocate_of_lt (h.boot p hin) hrun'
      · intro hboot
        obtain ⟨blocks, haccounts⟩ := h.after hover
        have hp : p ∈ (live.heap.map (·, 0)).map Prod.fst := by
          simpa using hevent.resolve_left hboot
        obtain ⟨_, _, _, _, -, -, -, hrun, -⟩ := haccounts.deallocate_run hp
        exact ⟨_, within_eq_ok.mpr ⟨_, hrun, rfl⟩⟩

/-- An allocation adds a pointer of the heap that is asked. -/
theorem Owned.kernelAllocate {size p : ℕ} (hrun : (kernelAllocate k size).run s = .ok p t) :
    Owned k (noteEvent live (.allocate size) (some p)) t := by
  rw [h.kernelAllocate_eq] at hrun
  obtain ⟨boot, pointers, handed⟩ := live
  cases handed with
  | false =>
    obtain ⟨hroom, hrest⟩ := bind_ensure_eq_ok.mp hrun
    cases hrest
    have hlt := bootWatermark_lt hroom
    have hfront := k.inFront
    refine ⟨h.flag, ?_, ?_, h.before, by rintro ⟨⟩⟩
    · simp only [headerSize, bootAlignment] at hlt ⊢
      omega
    · intro q hq
      rcases List.mem_cons.mp hq with rfl | hq
      · exact h.level
      · exact h.boot q hq
  | true =>
    obtain ⟨heap, hheap, rfl⟩ := within_eq_ok.mp hrun
    obtain ⟨blocks, haccounts⟩ := h.after rfl
    obtain ⟨-, hrun'⟩ | ⟨l₁, b, l₂, mem, rfl, -, hb, hrun', htiled⟩ := haccounts.allocate_cases size
    · rw [hheap] at hrun'
      cases hrun'
    · rw [hheap] at hrun'
      injection hrun' with hp hheap'
      subst hp hheap'
      exact ⟨h.flag, h.level, h.boot, by rintro ⟨⟩,
        fun _ => ⟨_, haccounts.take hb htiled (Nat.zero_le _)⟩⟩

/-- A release in time removes its pointer. -/
theorem Owned.kernelDeallocate {p : ℕ} {u : Unit} (hlive : p ∈ live.boot ∨ p ∈ live.heap)
    (htime : live.handedOver = true → p ∉ live.boot) (hrun : (kernelDeallocate k p).run s = .ok u t)
    (r : Option ℕ) :
    Owned k (noteEvent live (.deallocate p) r) t := by
  rw [h.kernelDeallocate_eq] at hrun
  obtain ⟨boot, pointers, handed⟩ := live
  cases handed with
  | false =>
    cases hrun
    have hboot : p ∈ boot := by
      obtain ⟨hnone, -⟩ := h.before rfl
      exact hlive.resolve_right fun hin => by
        rw [hnone] at hin
        cases hin
    rw [noteEvent, if_pos hboot]
    exact ⟨h.flag, h.level, fun q hq => h.boot q (List.mem_of_mem_erase hq), h.before, h.after⟩
  | true =>
    have hboot : p ∉ boot := htime rfl
    obtain ⟨heap, hheap, rfl⟩ := within_eq_ok.mp hrun
    obtain ⟨blocks, haccounts⟩ := h.after rfl
    have hp : p ∈ (pointers.map (·, 0)).map Prod.fst := by
      simpa using hlive.resolve_left hboot
    obtain ⟨l₁, b, l₂, mem, rfl, -, rfl, hrun', htiled⟩ := haccounts.deallocate_run hp
    rw [hheap] at hrun'
    injection hrun' with _ hheap'
    subst hheap'
    have hfilter : (pointers.map (·, 0)).filter (fun e => e.1 ≠ b.address + headerSize) =
        (pointers.filter (· ≠ b.address + headerSize)).map (·, 0) := by
      rw [List.filter_map]
      rfl
    rw [noteEvent, if_neg hboot]
    exact ⟨h.flag, h.level, h.boot, nofun, fun _ => ⟨_, hfilter ▸ haccounts.release htiled⟩⟩

/-- The kernel heap takes over with one free block. -/
theorem Owned.handOver {u : Unit} (hbefore : live.handedOver = false)
    (hrun : (onHeap (heapInitialize k.heap)).run s = .ok u t) (r : Option ℕ) :
    Owned k (noteEvent live .handOver r) t := by
  obtain ⟨heap, hheap, rfl⟩ := within_eq_ok.mp hrun
  obtain ⟨hnone, mem, supply, hconstruct⟩ := h.before hbefore
  rw [hconstruct] at hheap
  obtain ⟨heap', hheap', -, hflag, -⟩ := heapInitialize_run mem (le_of_heapInitialize hheap)
  have haccounts := accounts_heapInitialize hheap
  rw [hheap] at hheap'
  injection hheap' with _ hsame
  subst hsame
  have hpointers : (live.heap.map (·, 0)) = [] := by rw [hnone]; rfl
  exact ⟨hflag, h.level, h.boot, nofun, fun _ => ⟨_, hpointers ▸ haccounts⟩⟩

/-- The pointers stay where they belong. -/
theorem Owned.perform (hevent : Admissible live s event) (htime : FreesInTime live s event)
    {r : Option ℕ} (hrun : (performEvent k event).run s = .ok r t) :
    Owned k (noteEvent live event r) t := by
  cases event with
  | allocate size =>
    obtain ⟨p, hallocate, rfl⟩ := bind_pure_eq_ok.mp hrun
    exact h.kernelAllocate hallocate
  | deallocate p =>
    obtain ⟨_, hfree, rfl⟩ := bind_pure_eq_ok.mp hrun
    exact h.kernelDeallocate hevent htime hfree none
  | handOver =>
    obtain ⟨_, hinit, rfl⟩ := bind_pure_eq_ok.mp hrun
    exact h.handOver hevent hinit none

end

/-- No pointer has an owner at first. -/
theorem owned_construct (k : KernelHeaps) (mem : Bytes) (supply : ℕ) :
    Owned k noPointers (k.construct mem supply) where
  flag := rfl
  level := by
    have hfront := k.inFront
    simp only [KernelHeaps.construct, headerSize]
    omega
  boot := by simp [noPointers]
  before := fun _ => ⟨rfl, mem, supply, rfl⟩
  after := fun hover => by cases hover

/-- Whatever the kernel allocates and frees, with the hand-over at any point, no assertion of
`Deallocate` fails just when no pointer of the boot heap is freed after the hand-over. -/
theorem frees_well_iff (k : KernelHeaps) (mem : Bytes) (supply : ℕ) {events : List Event}
    (hevents : EachCall (performEvent k) noteEvent Admissible events noPointers
      (k.construct mem supply)) :
    EachCall (performEvent k) noteEvent (FreesWell k) events noPointers (k.construct mem supply) ↔
      EachCall (performEvent k) noteEvent FreesInTime events noPointers (k.construct mem supply) := by
  refine EachCall.congr_of_admissible ?_ ?_ (owned_construct k mem supply) hevents
  · exact fun live s event h hevent => h.freesWell_iff hevent
  · exact fun live s event r t h hevent htime hrun => h.perform hevent htime hrun

/-- A boot heap of sixteen megabytes in the kernel image. -/
def imageHeaps : KernelHeaps := ⟨imageHeap, 0xFFFF800001100000, 0x1000000, by decide⟩

/-- The boot heap serves eight bytes, and the kernel heap takes over. -/
theorem imageHeaps_handOver : ∃ heap,
    (performEvent imageHeaps (.allocate 8)).run (imageHeaps.construct (fun _ => 0) initialPages) =
      .ok (some 0xFFFF800001100000)
        ⟨imageHeap.construct (fun _ => 0) initialPages, 0xFFFF800001100010⟩ ∧
    (performEvent imageHeaps .handOver).run
        ⟨imageHeap.construct (fun _ => 0) initialPages, 0xFFFF800001100010⟩ =
      .ok none ⟨heap, 0xFFFF800001100010⟩ ∧ heap.isInitialized = true := by
  obtain ⟨heap, hrun, -, hflag, -⟩ := imageHeap_run
  refine ⟨heap, rfl, ?_, hflag⟩
  have hinit : (onHeap (heapInitialize imageHeaps.heap)).run
      ⟨imageHeap.construct (fun _ => 0) initialPages, 0xFFFF800001100010⟩ =
        .ok () ⟨heap, 0xFFFF800001100010⟩ := within_eq_ok.mpr ⟨heap, hrun, rfl⟩
  rw [performEvent, bind_of_ok hinit]
  rfl

/-- A pointer of the boot heap is freed before the hand-over, a pointer of the kernel heap is not
freed at all. -/
theorem frees_well_imageHeaps :
    EachCall (performEvent imageHeaps) noteEvent (FreesWell imageHeaps)
      [.allocate 8, .deallocate 0xFFFF800001100000, .handOver, .allocate 100] noPointers
      (imageHeaps.construct (fun _ => 0) initialPages) := by
  obtain ⟨heap, hallocate, hinit, -⟩ := imageHeaps_handOver
  have hfree : (performEvent imageHeaps (.deallocate 0xFFFF800001100000)).run
      ⟨imageHeap.construct (fun _ => 0) initialPages, 0xFFFF800001100010⟩ =
        .ok none ⟨imageHeap.construct (fun _ => 0) initialPages, 0xFFFF800001100010⟩ := rfl
  refine (frees_well_iff imageHeaps (fun _ => 0) initialPages ?_).mpr ?_
  all_goals rw [eachCall_cons_of_ok hallocate, eachCall_cons_of_ok hfree, eachCall_cons_of_ok hinit]
  · refine ⟨trivial, Or.inl (by decide), rfl, trivial, ?_⟩
    split <;> trivial
  · refine ⟨trivial, nofun, trivial, trivial, ?_⟩
    split <;> trivial

/-- The kernel heap rejects a pointer that the boot heap returned before the hand-over. -/
theorem not_frees_well :
    ¬ ∀ (k : KernelHeaps) (mem : Bytes) (supply : ℕ) (events : List Event),
      EachCall (performEvent k) noteEvent Admissible events noPointers (k.construct mem supply) →
      EachCall (performEvent k) noteEvent (FreesWell k) events noPointers
        (k.construct mem supply) := by
  intro hclaim
  obtain ⟨heap, hallocate, hinit, hflag⟩ := imageHeaps_handOver
  have hfrees := hclaim imageHeaps (fun _ => 0) initialPages
    [.allocate 8, .handOver, .deallocate 0xFFFF800001100000] (by
      rw [eachCall_cons_of_ok hallocate, eachCall_cons_of_ok hinit]
      refine ⟨trivial, rfl, Or.inl (by decide), ?_⟩
      split <;> trivial)
  rw [eachCall_cons_of_ok hallocate, eachCall_cons_of_ok hinit] at hfrees
  obtain ⟨-, -, ⟨t, hrun⟩, -⟩ := hfrees
  rw [kernelDeallocate, bind_look, hflag, if_pos rfl] at hrun
  obtain ⟨t', hrun', -⟩ := within_eq_ok.mp hrun
  exact not_deallocate_of_lt (by decide) hrun'

end Vsos.Heap
