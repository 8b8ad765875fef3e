import Vsos.Virtual.Reservations

/-!
# Requests that leave the address open

As long as every request leaves the address to the space, the granules between the base and the
watermark are all taken, and those behind it are free. The watermark is a 64-bit number, but the
place it stands for is not: behind the last address the search starts over, and finds nothing.
-/

namespace Vsos.Virtual

open Vsos.Lib Vsos.Mem

variable {v : Space} {s : VasState} {top a n : ℕ}

/-- The reservations begin at grid points and fill the granules between the base of the space
and `top`, for which the watermark stands. In the lower half, `top` is at most one granule behind
the last canonical address. -/
structure Grid (v : Space) (s : VasState) (top : ℕ) : Prop where
  watermark : s.watermark = wrap64 top
  base_le : v.construct.watermark ≤ top
  top_mod : top % allocationGranularity = v.construct.watermark % allocationGranularity
  top_lt : top < 2 ^ 64 + allocationGranularity
  lower : v.construct.watermark < 2 ^ 47 → top ≤ 2 ^ 47 + allocationGranularity
  below : ∀ res ∈ s.reservations, res.address + res.pageCount * pageSize ≤ top ∧ ¬ res.Wraps
  filled : ∀ x, v.construct.watermark ≤ x → x < top →
    x % allocationGranularity = v.construct.watermark % allocationGranularity →
    ∃ res ∈ s.reservations, res.Contains x

/-- The first watermark has 64 bits. -/
theorem Space.base_lt (v : Space) : v.construct.watermark < 2 ^ 64 := by
  simp only [Space.construct]
  split
  · decide
  · exact v.start_lt

/-- The first watermark is not in front of the space. -/
theorem Space.start_le_base (v : Space) : v.start ≤ v.construct.watermark := by
  simp only [Space.construct]
  split <;> omega

/-- A base in the upper half of the addresses is the start of the space. -/
theorem Space.base_eq_start (v : Space) (h : 2 ^ 47 ≤ v.construct.watermark) :
    v.construct.watermark = v.start := by
  simp only [Space.construct] at h ⊢
  split
  · next hzero =>
    rw [if_pos hzero] at h
    omega
  · rfl

/-- A new space has no reservations. -/
theorem grid_vasInitialize (hrun : vasInitialize.run v.construct = .ok () s) :
    Grid v s v.construct.watermark := by
  cases hrun
  have hlt := v.base_lt
  refine ⟨(wrap64_of_lt hlt).symm, le_refl _, rfl, ?_, fun h => ?_, ?_, ?_⟩
  · omega
  · omega
  · intro res hres
    cases hres
  · intro x hle hx
    omega

/-- The number of bytes that a request takes from the watermark. -/
theorem byteAlign_spec (h : n < 2 ^ 63) :
    ∃ k, byteAlign n allocationGranularity = k * allocationGranularity ∧
      n ≤ k * allocationGranularity ∧ k * allocationGranularity < n + allocationGranularity := by
  refine ⟨(n + (allocationGranularity - 1)) / allocationGranularity, ?_, ?_⟩
  · rw [byteAlign, wrap64_of_lt]
    simp only [allocationGranularity, pageSize, pageShift]
    omega
  · simp only [allocationGranularity, pageSize, pageShift]
    omega

/-- Grid points in front of the end of a run of granules begin inside of the bytes they hold. -/
theorem lt_of_grid {x k : ℕ} (hmod : x % allocationGranularity = top % allocationGranularity)
    (hx : x < top + k * allocationGranularity)
    (hlt : k * allocationGranularity < n + allocationGranularity) : x < top + n := by
  simp only [allocationGranularity, pageSize, pageShift] at hmod hx hlt
  omega

section

variable (h : Grid v s top)
include h

/-- Between the base and `top` no request can be placed. -/
theorem Grid.not_clear {x : ℕ} (hlow : v.construct.watermark ≤ x) (hx : x < top)
    (hmod : x % allocationGranularity = v.construct.watermark % allocationGranularity) :
    ¬ Clear v s x n := by
  intro hclear
  obtain ⟨res, hres, hcontains⟩ := h.filled x hlow hx hmod
  have hstart := (hclear.2.2 res hres).1
  rw [Reservation.stop_of_not_wraps (h.below res hres).2] at hstart
  exact hstart hcontains

/-- A request that does not run past the last address can be placed at `top`. -/
theorem Grid.clear_top (hn : top + n * pageSize < 2 ^ 64) (hstop : top < v.stop) :
    Clear v s top n := by
  have hhigh : highAddress top n = top + n * pageSize := by
    rw [highAddress, wrap64_of_lt (n := n * pageSize) (by omega), wrap64_of_lt hn]
  refine ⟨v.start_le_base.trans h.base_le, hstop, fun res hres => ?_⟩
  obtain ⟨hbelow, hwraps⟩ := h.below res hres
  rw [Reservation.stop_of_not_wraps hwraps]
  omega

/-- The places that the search visits are grid points. -/
theorem Grid.placeAt_mod (k : ℕ) :
    placeAt s k % allocationGranularity = v.construct.watermark % allocationGranularity := by
  rw [← h.top_mod, placeAt, h.watermark]
  simp only [wrap64, allocationGranularity, pageSize, pageShift]
  omega

/-- A request that fits into its space is placed at `top`. -/
theorem Grid.eq_top (hplaced : Placed v s 0 a n) (hfits : a + n * pageSize ≤ v.stop)
    (hn : n * pageSize ≤ 2 ^ 47) : a = top := by
  obtain ⟨-, -, hclear, hwhere⟩ := hplaced
  obtain ⟨k, rfl, hbefore⟩ := hwhere
  have hstop := v.stop_lt
  have hmod := h.placeAt_mod k
  have hzero : top < 2 ^ 64 → placeAt s 0 = top := fun htop => by
    rw [placeAt, h.watermark, Nat.zero_mul, Nat.add_zero, wrap64_of_lt htop, wrap64_of_lt htop]
  by_cases hup : 2 ^ 47 ≤ v.construct.watermark
  · -- the base is the start of the space, so the place lies behind it
    have hge : top ≤ placeAt s k := by
      by_contra hlt
      rw [not_le] at hlt
      refine h.not_clear ?_ hlt hmod hclear
      rw [v.base_eq_start hup]
      exact hclear.1
    by_contra hne
    have hk : 0 < k := by
      refine Nat.pos_of_ne_zero fun hk => hne ?_
      rw [hk]
      exact hzero (by omega)
    have hfirst := hbefore 0 hk
    rw [hzero (by omega)] at hfirst
    exact hfirst.1 (h.clear_top (by omega) hfirst.2)
  · -- all places of the lower half lie far from the last address
    have hlower := h.lower (not_le.mp hup)
    have htop : top < 2 ^ 62 := by
      simp only [allocationGranularity, pageSize, pageShift] at hlower
      omega
    have hk : ¬ 0 < k := fun hk => by
      have hfirst := hbefore 0 hk
      rw [hzero (by omega)] at hfirst
      exact hfirst.1 (h.clear_top (by omega) hfirst.2)
    rw [Nat.eq_zero_of_not_pos hk]
    exact hzero (by omega)

end

/-- The range stays in one canonical half. -/
def InHalf (address length : ℕ) : Prop :=
  address + length ≤ 2 ^ 47 ∨ (2 ^ 64 - 2 ^ 47 ≤ address ∧ address + length ≤ 2 ^ 64)

/-- A request that is placed in a canonical half moves `top` on by whole granules. -/
theorem Grid.place (h : Grid v s top) (hfits : top + n * pageSize ≤ v.stop)
    (hhalf : InHalf top (n * pageSize)) :
    ∃ top', top + n * pageSize ≤ top' ∧ Grid v (s.place 0 top n) top' := by
  have hstop := v.stop_lt
  have hn : n * pageSize ≤ 2 ^ 47 := by
    rw [InHalf] at hhalf
    omega
  obtain ⟨k, hk, hle, hlt⟩ := byteAlign_spec (n := n * pageSize) (by omega)
  refine ⟨top + k * allocationGranularity, by omega, ?_, ?_, ?_, ?_, ?_, ?_, ?_⟩
  · rw [VasState.place, if_neg (by simp), wrap64_of_lt (n := n * pageSize) (by omega), hk]
  · have hbase := h.base_le
    omega
  · rw [Nat.add_mul_mod_self_right, h.top_mod]
  · omega
  · intro hlow
    have hlower := h.lower hlow
    rw [InHalf] at hhalf
    simp only [allocationGranularity, pageSize, pageShift] at hlower hhalf hlt ⊢
    omega
  · intro res hres
    rcases List.mem_append.mp hres with hres | hres
    · exact ⟨(h.below res hres).1.trans (Nat.le_add_right _ _), (h.below res hres).2⟩
    · rw [List.mem_singleton.mp hres]
      refine ⟨by simp only; omega, ?_⟩
      rw [Reservation.Wraps]
      simp only
      omega
  · intro x hlow hx hmod
    by_cases hold : x < top
    · obtain ⟨res, hres, hcontains⟩ := h.filled x hlow hold hmod
      exact ⟨res, List.mem_append_left _ hres, hcontains⟩
    · exact ⟨⟨top, n⟩, by simp [VasState.place], not_lt.mp hold,
        lt_of_grid (hmod.trans h.top_mod.symm) hx hlt⟩

end Vsos.Virtual
