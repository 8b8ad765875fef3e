import Vsos.Heap.HandOver

/-!
# The bounds of the boot heap

The boot heap only moves a watermark. It checks the size that is asked for, and moves the
watermark by the size rounded up. Both the heap and the watermark are aligned, so the rounding
cannot lead past the end where the size does not, unless the sum that is checked wraps: then a
size near `2 ^ 64` is accepted.
-/

namespace Vsos.Heap

open Vsos.Lib Vsos.Mem

/-- The constants of a `BootHeap`, `m_address` and `m_length`, for a region that is aligned on
both ends and does not reach the end of the address space. -/
structure BootHeap where
  address : ℕ
  length : ℕ
  address_aligned : bootAlignment ∣ address
  length_aligned : bootAlignment ∣ length
  stop_lt : address + length < 2 ^ 64

/-- Memory, `m_watermark`, and the fills so far as addresses with lengths, the last one
first. -/
structure BootState where
  mem : Bytes
  watermark : ℕ
  log : List (ℕ × ℕ)

/-- The bytes from `address` on, around the end of the address space. -/
def Spans (range : ℕ × ℕ) (a : ℕ) : Prop := ∃ i < range.2, a = wrap64 (range.1 + i)

/-- The state after a fill. The distance from the start of the fill decides for each byte. -/
def BootState.fill (s : BootState) (address : ℕ) (value : UInt8) (count : ℕ) : BootState :=
  { s with
    mem := fun a => if wrap64 (a + (2 ^ 64 - address)) < count then value else s.mem a
    log := (address, count) :: s.log }

/-- The state after a block of some size was returned. -/
def BootState.advance (s : BootState) (size : ℕ) : BootState :=
  { s with watermark := wrap64 (s.watermark + byteAlign size bootAlignment) }.fill s.watermark 0xEF
    (byteAlign size bootAlignment)

namespace BootHeap

variable (heap : BootHeap)

/-- The constructor, on memory that holds anything. -/
def construct (mem : Bytes) : BootState := ⟨mem, heap.address, []⟩

/-- `BootHeap::Allocate`. The fill takes the lowest byte of its pattern. -/
def allocate (size : ℕ) : Prog BootState ℕ := do
  ensure (wrap64 ((← look BootState.watermark) + size) ≤ wrap64 (heap.address + heap.length))
  let level ← look BootState.watermark
  let aligned := byteAlign size bootAlignment
  change fun s => { s with watermark := wrap64 (s.watermark + aligned) }
  change fun s => s.fill level 0xEF aligned
  return level

/-- The bytes of the heap. -/
def Contains (a : ℕ) : Prop := heap.address ≤ a ∧ a < heap.address + heap.length

/-- The blocks that were returned, with the sizes asked for. -/
def noteBlock (blocks : List (ℕ × ℕ)) (size : UInt64) (block : ℕ) : List (ℕ × ℕ) :=
  (block, size.toNat) :: blocks

/-- The call fails its assertion, or it returns an aligned block such that the bytes of the block
and the bytes that it fills lie in the heap and in none of the earlier blocks. -/
def KeepsBounds (blocks : List (ℕ × ℕ)) (s : BootState) (size : UInt64) : Prop :=
  match (heap.allocate size.toNat).run s with
  | .error e _ => e = .fault
  | .ok block t => bootAlignment ∣ block ∧
    ∀ a, ((block ≤ a ∧ a < block + size.toNat) ∨
        ∃ fills, t.log = fills ++ s.log ∧ ∃ range ∈ fills, Spans range a) →
      heap.Contains a ∧ ∀ earlier ∈ blocks, ¬ (earlier.1 ≤ a ∧ a < earlier.1 + earlier.2)

/-- The sum that is checked does not wrap, or what is left of it still lies behind the end. -/
def SumFits (_ : List (ℕ × ℕ)) (s : BootState) (size : UInt64) : Prop :=
  s.watermark + size.toNat < 2 ^ 64 ∨
    heap.address + heap.length < s.watermark + size.toNat - 2 ^ 64

variable {heap} {blocks : List (ℕ × ℕ)} {s t : BootState} {size block : ℕ}

/-- The watermark is aligned and inside of the heap, and the blocks lie in front of it. -/
structure Marks (heap : BootHeap) (blocks : List (ℕ × ℕ)) (s : BootState) : Prop where
  aligned : bootAlignment ∣ s.watermark
  above : heap.address ≤ s.watermark
  below : s.watermark ≤ heap.address + heap.length
  behind : ∀ earlier ∈ blocks, earlier.1 + earlier.2 ≤ s.watermark

/-- A new boot heap has handed out nothing. -/
theorem marks_construct (heap : BootHeap) (mem : Bytes) : Marks heap [] (heap.construct mem) where
  aligned := heap.address_aligned
  above := le_refl _
  below := Nat.le_add_right _ _
  behind := by simp

/-- What `Allocate` of the boot heap does. -/
theorem allocate_run (heap : BootHeap) (size : ℕ) (s : BootState) :
    (heap.allocate size).run s =
      if wrap64 (s.watermark + size) ≤ heap.address + heap.length then
        .ok s.watermark (s.advance size)
      else .error .fault s := by
  rw [allocate, bind_look, wrap64_of_lt heap.stop_lt]
  by_cases hfits : wrap64 (s.watermark + size) ≤ heap.address + heap.length
  · rw [if_pos hfits, bind_ensure hfits]
    rfl
  · rw [if_neg hfits, ensure, if_neg hfits]
    rfl

/-- A size that fits in front of an aligned end still fits there when it is rounded up. -/
theorem byteAlign_fits {stop : ℕ} (hsize : size ≤ stop) (haligned : bootAlignment ∣ stop)
    (hstop : stop < 2 ^ 64) :
    byteAlign size bootAlignment ≤ stop ∧ size ≤ byteAlign size bootAlignment ∧
      bootAlignment ∣ byteAlign size bootAlignment := by
  simp only [byteAlign, bootAlignment, wrap64] at *
  omega

/-- What a call does whose sum does not wrap. -/
theorem Marks.fits (h : Marks heap blocks s) (hfits : s.watermark + size ≤ heap.address + heap.length) :
    s.watermark + byteAlign size bootAlignment ≤ heap.address + heap.length ∧
      size ≤ byteAlign size bootAlignment ∧ bootAlignment ∣ byteAlign size bootAlignment := by
  have hroom : size ≤ heap.address + heap.length - s.watermark := Nat.le_sub_of_add_le' hfits
  have haligned : bootAlignment ∣ heap.address + heap.length - s.watermark :=
    Nat.dvd_sub (Nat.dvd_add heap.address_aligned heap.length_aligned) h.aligned
  have hrounded := byteAlign_fits hroom haligned (lt_of_le_of_lt (Nat.sub_le _ _) heap.stop_lt)
  exact ⟨(Nat.add_le_of_le_sub' h.below) hrounded.1, hrounded.2⟩

/-- A call keeps to the bounds just when the sum that it checks does not wrap into the heap. -/
theorem Marks.keepsBounds_iff (h : Marks heap blocks s) (size : UInt64) :
    heap.KeepsBounds blocks s size ↔ heap.SumFits blocks s size := by
  have hsize := size.toNat_lt
  have hstop := heap.stop_lt
  have hbelow := h.below
  rw [KeepsBounds, SumFits, allocate_run]
  by_cases hpasses : wrap64 (s.watermark + size.toNat) ≤ heap.address + heap.length
  · rw [if_pos hpasses]
    by_cases hwraps : s.watermark + size.toNat < 2 ^ 64
    · rw [wrap64_of_lt hwraps] at hpasses
      obtain ⟨hend, -, -⟩ := h.fits hpasses
      refine iff_of_true ⟨h.aligned, ?_⟩ (Or.inl hwraps)
      intro a ha
      have hrange : s.watermark ≤ a ∧ a < heap.address + heap.length := by
        rcases ha with ⟨hlow, hhigh⟩ | ⟨fills, hlog, range, hrange, i, hi, rfl⟩
        · exact ⟨hlow, lt_of_lt_of_le hhigh hpasses⟩
        · -- the fill is the only entry of the log that is new
          have hfills : [(s.watermark, byteAlign size.toNat bootAlignment)] = fills :=
            List.append_cancel_right hlog
          rw [← hfills, List.mem_singleton] at hrange
          rw [hrange] at hi ⊢
          rw [wrap64_of_lt (by omega)]
          omega
      refine ⟨⟨h.above.trans hrange.1, hrange.2⟩, fun earlier hearlier hinside => ?_⟩
      have := h.behind earlier hearlier
      omega
    · refine iff_of_false ?_ (by omega)
      rintro ⟨-, hinside⟩
      -- the byte right behind the heap belongs to the block
      have hcontains := (hinside (heap.address + heap.length) (Or.inl (by omega))).1
      exact absurd hcontains.2 (lt_irrefl _)
  · rw [if_neg hpasses]
    refine iff_of_true rfl ?_
    simp only [wrap64] at hpasses
    omega

/-- A call whose sum does not wrap into the heap leaves the watermark aligned and inside. -/
theorem Marks.allocate (h : Marks heap blocks s) {size : UInt64} (hfits : heap.SumFits blocks s size)
    (hrun : (heap.allocate size.toNat).run s = .ok block t) :
    Marks heap (noteBlock blocks size block) t := by
  have hsize := size.toNat_lt
  have hstop := heap.stop_lt
  have hbelow := h.below
  rw [allocate_run] at hrun
  split at hrun
  · next hpasses =>
    cases hrun
    have hsum : s.watermark + size.toNat ≤ heap.address + heap.length := by
      simp only [SumFits, wrap64] at hfits hpasses
      omega
    obtain ⟨hend, hle, haligned⟩ := h.fits hsum
    have hmark : (s.advance size.toNat).watermark =
        s.watermark + byteAlign size.toNat bootAlignment := wrap64_of_lt (by omega)
    refine ⟨?_, ?_, ?_, ?_⟩
    · rw [hmark]
      exact Nat.dvd_add h.aligned haligned
    · rw [hmark]
      exact h.above.trans (Nat.le_add_right _ _)
    · rw [hmark]
      exact hend
    · rw [hmark, noteBlock, List.forall_mem_cons]
      exact ⟨Nat.add_le_add_left hle _,
        fun earlier hearlier => (h.behind earlier hearlier).trans (Nat.le_add_right _ _)⟩
  · cases hrun

/-- Whatever sizes are asked for, every call keeps to the bounds just when no sum that is checked
wraps into the heap. -/
theorem keepsBounds_iff_sumFits (heap : BootHeap) (mem : Bytes) (sizes : List UInt64) :
    EachCall (fun size : UInt64 => heap.allocate size.toNat) noteBlock heap.KeepsBounds sizes []
        (heap.construct mem) ↔
      EachCall (fun size : UInt64 => heap.allocate size.toNat) noteBlock heap.SumFits sizes []
        (heap.construct mem) :=
  EachCall.congr_of_invariant (fun _ _ size h => h.keepsBounds_iff size)
    (fun _ _ _ _ _ h hfits hrun => h.allocate hfits hrun) (marks_construct heap mem) sizes

/-- A boot heap of a megabyte. -/
def sample : BootHeap where
  address := 0x100000
  length := 0x100000
  address_aligned := by decide
  length_aligned := by decide
  stop_lt := by decide

/-- A size of `2 ^ 64 - 16` is accepted, although the block and its fill go around the whole
address space. -/
theorem not_keepsBounds :
    ¬ ∀ (heap : BootHeap) (mem : Bytes) (sizes : List UInt64),
      EachCall (fun size : UInt64 => heap.allocate size.toNat) noteBlock heap.KeepsBounds sizes []
        (heap.construct mem) := by
  intro hclaim
  have hbounds := (hclaim sample (fun _ => 0) [0xFFFFFFFFFFFFFFF0]).1
  have hfits := ((marks_construct sample fun _ => 0).keepsBounds_iff _).mp hbounds
  revert hfits
  rw [SumFits]
  decide

end BootHeap

end Vsos.Heap
