import Mathlib.Data.List.Pairwise
import Vsos.Lib.Runs
import Vsos.Virtual.Vas

/-!
# Reservations that overlap

`IsFree` accepts a range whose first address and whose end lie in no reservation. Such a range
overlaps an earlier reservation just when it begins in front of it and reaches it, that is,
when it encloses it, or when the earlier reservation runs past the end of the 64-bit addresses,
where the code computes its end modulo `2 ^ 64`.
-/

namespace Vsos.Virtual

open Vsos.Lib Vsos.Mem

variable {v : Space} {s t : VasState} {address count request : ℕ}

/-- The range begins and ends outside of every reservation. -/
def Clear (v : Space) (s : VasState) (address count : ℕ) : Prop :=
  v.start ≤ address ∧ address < v.stop ∧ ∀ res ∈ s.reservations,
    ¬ (res.address ≤ address ∧ address < res.stop) ∧
      ¬ (res.address ≤ highAddress address count ∧ highAddress address count < res.stop)

instance (v : Space) (s : VasState) (address count : ℕ) : Decidable (Clear v s address count) :=
  inferInstanceAs (Decidable (_ ∧ _ ∧ _))

/-- The watermark does not matter for what is free. -/
theorem clear_setWatermark {watermark : ℕ} :
    Clear v { s with watermark } address count ↔ Clear v s address count := Iff.rfl

/-- The loop compares both end points with every reservation. -/
theorem freeLoop_eq_true {high : ℕ} {reservations : List Reservation} :
    freeLoop address high reservations = true ↔ ∀ res ∈ reservations,
      ¬ (res.address ≤ address ∧ address < res.stop) ∧
        ¬ (res.address ≤ high ∧ high < res.stop) := by
  induction reservations with
  | nil => simp [freeLoop]
  | cons res rest ih =>
    rw [List.forall_mem_cons, ← ih, freeLoop]
    split
    · next h => simp [h.1, h.2]
    · next h =>
      split
      · next h' => simp [h'.1, h'.2]
      · next h' => exact ⟨fun hrest => ⟨⟨h, h'⟩, hrest⟩, fun hall => hall.2⟩

/-- What `IsFree` decides. -/
theorem isFree_run (hinit : s.initialized = true) (haligned : address % pageSize = 0) :
    (isFree v address count).run s = .ok (decide (Clear v s address count)) s := by
  rw [isFree, bind_look, bind_ensure hinit,
    bind_ensure haligned]
  by_cases hrange : address < v.start ∨ address ≥ v.stop
  · have hclear : ¬ Clear v s address count := fun h => by
      have hlow := h.1
      have hhigh := h.2.1
      omega
    rw [if_pos hrange, decide_eq_false hclear]
    rfl
  · rw [if_neg hrange, look_run]
    congr 1
    rw [Bool.eq_iff_iff, freeLoop_eq_true, decide_eq_true_iff, Clear]
    rw [not_or, not_lt, not_le] at hrange
    simp only [hrange, true_and]

/-- `IsFree` returns only for a page-aligned address of an initialized space. -/
theorem isFree_ok {r : Bool} (hrun : (isFree v address count).run s = .ok r t) :
    s.initialized = true ∧ address % pageSize = 0 ∧ r = decide (Clear v s address count) ∧ s = t := by
  have hrun' := hrun
  rw [isFree, bind_look] at hrun'
  obtain ⟨_, s₁, hcheck, hrest⟩ := bind_eq_ok.mp hrun'
  obtain ⟨_, s₂, hcheck', -⟩ := bind_eq_ok.mp hrest
  have hinit := (ensure_eq_ok hcheck).1
  have haligned := (ensure_eq_ok hcheck').1
  rw [isFree_run hinit haligned] at hrun
  injection hrun with hr ht
  exact ⟨hinit, haligned, hr.symm, ht⟩

/-- The watermark after some rounds of the search. -/
def placeAt (s : VasState) (k : ℕ) : ℕ := wrap64 (s.watermark + k * allocationGranularity)

/-- Where a request is placed: at its own address if the range there is clear, and otherwise at
the first place behind the watermark where it is. -/
def Placed (v : Space) (s : VasState) (request address count : ℕ) : Prop :=
  count ≠ 0 ∧ address % pageSize = 0 ∧ Clear v s address count ∧
    if request ≠ 0 then address = request
    else ∃ k, address = placeAt s k ∧
      ∀ j < k, ¬ Clear v s (placeAt s j) count ∧ placeAt s j < v.stop

/-- The space after a request was placed. -/
def VasState.place (s : VasState) (request address count : ℕ) : VasState where
  reservations := s.reservations ++ [⟨address, count⟩]
  watermark :=
    if request ≠ 0 then s.watermark
    else wrap64 (address + byteAlign (wrap64 (count * pageSize)) allocationGranularity)
  initialized := s.initialized

/-- The search starts at the watermark. -/
theorem placeAt_zero (h : s.watermark < 2 ^ 64) : placeAt s 0 = s.watermark := by
  rw [placeAt, Nat.zero_mul, Nat.add_zero, wrap64_of_lt h]

/-- One round of the search moves all places on by one. -/
theorem placeAt_succ (s : VasState) (k : ℕ) :
    placeAt { s with watermark := wrap64 (s.watermark + allocationGranularity) } k =
      placeAt s (k + 1) := by
  simp only [placeAt, wrap64, Nat.mod_add_mod]
  congr 1
  rw [Nat.succ_mul]
  omega

/-- The places repeat after `2 ^ 50` rounds. -/
theorem placeAt_add (s : VasState) (k : ℕ) : placeAt s (k + 2 ^ 50) = placeAt s k := by
  simp only [placeAt, wrap64, allocationGranularity, pageSize, pageShift]
  omega

/-- Every step of the search is aligned as the watermark is. -/
theorem placeAt_mod (s : VasState) (k : ℕ) : placeAt s k % pageSize = s.watermark % pageSize := by
  simp only [placeAt, wrap64, allocationGranularity, pageSize, pageShift]
  omega

/-- The search ends at the first clear place. -/
theorem reserveLoop_ok {fuel : ℕ} {u : Unit} (hw : s.watermark < 2 ^ 64)
    (hrun : (reserveLoop v count fuel).run s = .ok u t) :
    ∃ k, t = { s with watermark := placeAt s k } ∧ placeAt s k % pageSize = 0 ∧
      Clear v s (placeAt s k) count ∧
      ∀ j < k, ¬ Clear v s (placeAt s j) count ∧ placeAt s j < v.stop := by
  induction fuel generalizing s with
  | zero => cases hrun
  | succ fuel ih =>
    rw [reserveLoop, bind_look] at hrun
    obtain ⟨free, s₁, hfree, hrest⟩ := bind_eq_ok.mp hrun
    obtain ⟨-, haligned, rfl, rfl⟩ := isFree_ok hfree
    by_cases hclear : Clear v s s.watermark count
    · rw [if_pos (decide_eq_true hclear)] at hrest
      cases hrest
      refine ⟨0, ?_⟩
      rw [placeAt_zero hw]
      exact ⟨rfl, haligned, hclear, fun j hj => absurd hj (Nat.not_lt_zero j)⟩
    · rw [if_neg (by simpa using hclear)] at hrest
      obtain ⟨hstop, hloop⟩ := bind_ensure_eq_ok.mp hrest
      obtain ⟨k, ht, hk, hkclear, hbefore⟩ :=
        ih (s := { s with watermark := wrap64 (s.watermark + allocationGranularity) })
          (wrap64_lt _) hloop
      rw [placeAt_succ] at ht hk hkclear
      rw [clear_setWatermark] at hkclear
      refine ⟨k + 1, ht, hk, hkclear, fun j hj => ?_⟩
      cases j with
      | zero =>
        rw [placeAt_zero hw]
        exact ⟨hclear, hstop⟩
      | succ j =>
        have h := hbefore j (Nat.lt_of_succ_lt_succ hj)
        rwa [placeAt_succ, clear_setWatermark] at h

/-- With enough rounds, the search reaches the first clear place. -/
theorem reserveLoop_run {fuel k : ℕ} (hinit : s.initialized = true) (hw : s.watermark < 2 ^ 64)
    (haligned : s.watermark % pageSize = 0) (hk : k < fuel) (hclear : Clear v s (placeAt s k) count)
    (hbefore : ∀ j < k, ¬ Clear v s (placeAt s j) count ∧ placeAt s j < v.stop) :
    (reserveLoop v count fuel).run s = .ok () { s with watermark := placeAt s k } := by
  induction k generalizing s fuel with
  | zero =>
    obtain ⟨fuel, rfl⟩ := Nat.exists_eq_succ_of_ne_zero (Nat.ne_of_gt hk)
    rw [placeAt_zero hw] at hclear ⊢
    rw [reserveLoop, bind_look, bind_of_ok (isFree_run hinit haligned),
      if_pos (decide_eq_true hclear)]
    rfl
  | succ k ih =>
    obtain ⟨fuel, rfl⟩ := Nat.exists_eq_succ_of_ne_zero (Nat.ne_of_gt (Nat.zero_lt_of_lt hk))
    have hfirst := hbefore 0 (Nat.succ_pos k)
    rw [placeAt_zero hw] at hfirst
    rw [reserveLoop, bind_look, bind_of_ok (isFree_run hinit haligned),
      if_neg (by simpa using hfirst.1), bind_ensure hfirst.2,
      bind_of_ok (setWatermark_run _ s)]
    have hnext := @ih { s with watermark := wrap64 (s.watermark + allocationGranularity) } fuel
      hinit (wrap64_lt _) ?_ (Nat.lt_of_succ_lt_succ hk) ?_ ?_
    · rw [hnext, placeAt_succ]
    · rw [← haligned, ← placeAt_mod s 1, placeAt, Nat.one_mul]
    · rwa [placeAt_succ, clear_setWatermark]
    · intro j hj
      rw [placeAt_succ, clear_setWatermark]
      exact hbefore (j + 1) (Nat.succ_lt_succ hj)

/-- A request that can be placed is. -/
theorem reserve_run (hinit : s.initialized = true) (hw : s.watermark < 2 ^ 64)
    (h : Placed v s request address count) :
    (reserve v request count).run s = .ok (some address) (s.place request address count) := by
  obtain ⟨hcount, haligned, hclear, hwhere⟩ := h
  rw [reserve, bind_look, bind_ensure hinit,
    bind_ensure hcount]
  by_cases hrequest : request ≠ 0
  · rw [if_pos hrequest] at hwhere ⊢
    subst hwhere
    rw [bind_of_ok (isFree_run hinit haligned), if_pos (decide_eq_true hclear),
      VasState.place, if_pos hrequest]
    rfl
  · rw [if_neg hrequest] at hwhere ⊢
    obtain ⟨k, rfl, hbefore⟩ := hwhere
    have hk : k < 2 ^ 50 := by
      by_contra hk
      have hearlier := (hbefore (k - 2 ^ 50) (by omega)).1
      rw [← placeAt_add, Nat.sub_add_cancel (not_lt.mp hk)] at hearlier
      exact hearlier hclear
    rw [placeAt_mod] at haligned
    rw [bind_of_ok (reserveLoop_run hinit hw haligned hk hclear hbefore),
      VasState.place, if_neg hrequest]
    rfl

/-- A request that returns was placed, or asked for a range that is not clear. -/
theorem reserve_ok {r : Option ℕ} (hw : s.watermark < 2 ^ 64)
    (hrun : (reserve v request count).run s = .ok r t) :
    s.initialized = true ∧
      ((r = none ∧ s = t ∧ ∀ address, ¬ Placed v s request address count) ∨
        ∃ address, r = some address ∧ t = s.place request address count ∧
          Placed v s request address count) := by
  obtain ⟨hinit, hrest⟩ := bind_ensure_eq_ok.mp hrun
  obtain ⟨hcount, hbody⟩ := bind_ensure_eq_ok.mp hrest
  refine ⟨hinit, ?_⟩
  by_cases hrequest : request ≠ 0
  · rw [if_pos hrequest] at hbody
    obtain ⟨free, s₃, hfree, hend⟩ := bind_eq_ok.mp hbody
    obtain ⟨-, haligned, rfl, rfl⟩ := isFree_ok hfree
    by_cases hclear : Clear v s request count
    · rw [if_pos (decide_eq_true hclear)] at hend
      cases hend
      refine Or.inr ⟨request, rfl, ?_, hcount, haligned, hclear, ?_⟩
      · rw [VasState.place, if_pos hrequest]
      · rw [if_pos hrequest]
    · rw [if_neg (by simpa using hclear)] at hend
      cases hend
      refine Or.inl ⟨rfl, rfl, fun address hplaced => hclear ?_⟩
      obtain ⟨-, -, hclear', hwhere⟩ := hplaced
      rw [if_pos hrequest] at hwhere
      rwa [← hwhere]
  · rw [if_neg hrequest] at hbody
    obtain ⟨_, s₃, hloop, hend⟩ := bind_eq_ok.mp hbody
    obtain ⟨k, rfl, haligned, hclear, hbefore⟩ := reserveLoop_ok hw hloop
    cases hend
    refine Or.inr ⟨placeAt s k, rfl, ?_, hcount, haligned, hclear, ?_⟩
    · rw [VasState.place, if_neg hrequest]
    · rw [if_neg hrequest]
      exact ⟨k, rfl, hbefore⟩

/-- The addresses of the pages of a reservation. -/
def Reservation.Contains (res : Reservation) (x : ℕ) : Prop :=
  res.address ≤ x ∧ x < res.address + res.pageCount * pageSize

instance (res : Reservation) (x : ℕ) : Decidable (res.Contains x) :=
  inferInstanceAs (Decidable (_ ∧ _))

/-- No address belongs to both. -/
def Reservation.Disjoint (a b : Reservation) : Prop := ∀ x, ¬ (a.Contains x ∧ b.Contains x)

/-- The range begins in front of an earlier reservation and reaches it. -/
def Reservation.Reaches (range earlier : Reservation) : Prop :=
  range.address < earlier.address ∧ range.Contains earlier.address

/-- The reservation runs past the last 64-bit address. -/
def Reservation.Wraps (res : Reservation) : Prop := 2 ^ 64 ≤ res.address + res.pageCount * pageSize

instance (res : Reservation) : Decidable res.Wraps := inferInstanceAs (Decidable (_ ≤ _))

/-- The range neither reaches an earlier reservation nor begins in one that wraps. -/
def Reservation.Avoids (range earlier : Reservation) : Prop :=
  ¬ range.Reaches earlier ∧ ¬ (earlier.Wraps ∧ earlier.Contains range.address)

/-- Two ranges overlap when the start of one lies in the other. -/
theorem Reservation.disjoint_iff {a b : Reservation} (ha : a.pageCount ≠ 0) (hb : b.pageCount ≠ 0) :
    a.Disjoint b ↔ ¬ a.Contains b.address ∧ ¬ b.Contains a.address := by
  have ha := Nat.mul_pos (Nat.pos_of_ne_zero ha) (show 0 < pageSize by decide)
  have hb := Nat.mul_pos (Nat.pos_of_ne_zero hb) (show 0 < pageSize by decide)
  simp only [Disjoint, Contains]
  constructor
  · intro h
    have h₁ := h a.address
    have h₂ := h b.address
    omega
  · intro h x
    omega

/-- The end of a reservation that does not wrap. -/
theorem Reservation.stop_of_not_wraps {res : Reservation} (h : ¬ res.Wraps) :
    res.stop = res.address + res.pageCount * pageSize := by
  rw [Wraps, not_le] at h
  rw [stop, highAddress, wrap64_of_lt (n := res.pageCount * pageSize) (by omega), wrap64_of_lt h]

/-- A clear range is disjoint from an earlier reservation just when it avoids it. -/
theorem Clear.disjoint_iff (h : Clear v s address count) (hcount : count ≠ 0) {res : Reservation}
    (hres : res ∈ s.reservations) (hpages : res.pageCount ≠ 0) :
    res.Disjoint ⟨address, count⟩ ↔ (⟨address, count⟩ : Reservation).Avoids res := by
  have hstart := (h.2.2 res hres).1
  rw [Reservation.disjoint_iff hpages hcount, Reservation.Avoids, Reservation.Reaches]
  have hpos := Nat.mul_pos (Nat.pos_of_ne_zero hpages) (show 0 < pageSize by decide)
  by_cases hwraps : res.Wraps
  · simp only [hwraps, true_and, Reservation.Contains]
    omega
  · rw [Reservation.stop_of_not_wraps hwraps] at hstart
    simp only [hwraps, false_and, not_false_iff, and_true, Reservation.Contains]
    omega

/-- The ranges for which a call returned true. -/
def noteReservation (accepted : List Reservation) (call : ℕ × ℕ) : Option ℕ → List Reservation
  | none => accepted
  | some address => accepted ++ [⟨address, call.2⟩]

/-- The ranges of the calls of a sequence that returned true; a call is an address, zero for
any, and a number of pages. -/
def accepted (v : Space) (calls : List (ℕ × ℕ)) (s : VasState) : List Reservation :=
  history (fun call => reserve v call.1 call.2) noteReservation calls [] s

/-- Every placement of a sequence of calls avoids the reservations that exist at that time. -/
def AvoidsEarlier (v : Space) (calls : List (ℕ × ℕ)) (s : VasState) : Prop :=
  EachCall (fun call => reserve v call.1 call.2) noteReservation (fun _ s call =>
    ∀ address, Placed v s call.1 address call.2 → ∀ res ∈ s.reservations,
      (⟨address, call.2⟩ : Reservation).Avoids res) calls [] s

/-- The state holds the ranges that have been accepted. -/
structure Holds (s : VasState) (accepted : List Reservation) : Prop where
  reservations : s.reservations = accepted
  watermark : s.watermark < 2 ^ 64
  nonempty : ∀ res ∈ accepted, res.pageCount ≠ 0

/-- A request that is placed is recorded. -/
theorem Holds.place {accepted : List Reservation} (h : Holds s accepted) (hcount : count ≠ 0) :
    Holds (s.place request address count) (accepted ++ [⟨address, count⟩]) where
  reservations := by rw [← h.reservations, VasState.place]
  watermark := by
    rw [VasState.place]
    split
    · exact h.watermark
    · exact wrap64_lt _
  nonempty := by
    intro res hres
    rcases List.mem_append.mp hres with hres | hres
    · exact h.nonempty res hres
    · rw [List.mem_singleton.mp hres]
      exact hcount

/-- A placed range is disjoint from all accepted ones just when it avoids them. -/
theorem Holds.pairwise_place {accepted : List Reservation} (h : Holds s accepted)
    (hplaced : Placed v s request address count) :
    List.Pairwise Reservation.Disjoint (accepted ++ [⟨address, count⟩]) ↔
      accepted.Pairwise Reservation.Disjoint ∧
        ∀ res ∈ s.reservations, (⟨address, count⟩ : Reservation).Avoids res := by
  rw [List.pairwise_append, h.reservations]
  simp only [List.pairwise_singleton, List.mem_singleton, forall_eq, true_and]
  refine and_congr_right fun _ => forall₂_congr fun res hres => ?_
  exact hplaced.2.2.1.disjoint_iff hplaced.1 (h.reservations ▸ hres) (h.nonempty res hres)

/-- No range is recorded after `Initialize`. -/
theorem holds_vasInitialize (hrun : vasInitialize.run v.construct = .ok () s) :
    Holds s [] ∧ s.initialized = true := by
  cases hrun
  refine ⟨⟨rfl, ?_, by simp⟩, rfl⟩
  change (if v.start = 0 then 0x140000000 else v.start) < 2 ^ 64
  split
  · decide
  · exact v.start_lt

/-- A property of the accepted ranges that each placed range extends by `Q` holds at the end just
when `Q` holds of every range that is placed. -/
theorem accepted_iff_eachCall {R : List Reservation → Prop} {Q : VasState → ℕ → ℕ → Prop}
    (hplace : ∀ accepted s request address count, Holds s accepted →
      Placed v s request address count →
        (R (accepted ++ [⟨address, count⟩]) ↔ R accepted ∧ Q s address count))
    (hrun : vasInitialize.run v.construct = .ok () s) (hnil : R []) (calls : List (ℕ × ℕ)) :
    R (accepted v calls s) ↔ EachCall (fun call => reserve v call.1 call.2) noteReservation
      (fun _ s call => ∀ address, Placed v s call.1 address call.2 → Q s address call.2)
      calls [] s := by
  refine (history_iff_eachCall
    (I := fun accepted s => Holds s accepted ∧ s.initialized = true) ?_ ?_ ?_
    (holds_vasInitialize hrun) calls).trans (and_iff_right hnil)
  · rintro accepted s call r t ⟨hholds, hinit⟩ hcall
    obtain ⟨-, ⟨rfl, rfl, -⟩ | ⟨address, rfl, rfl, hplaced⟩⟩ := reserve_ok hholds.watermark hcall
    · exact ⟨hholds, hinit⟩
    · exact ⟨hholds.place hplaced.1, hinit⟩
  · rintro accepted s call r t ⟨hholds, hinit⟩ hcall
    obtain ⟨-, ⟨rfl, rfl, hnone⟩ | ⟨address, rfl, rfl, hplaced⟩⟩ :=
      reserve_ok hholds.watermark hcall
    · exact (and_iff_left fun address hplaced => absurd hplaced (hnone address)).symm
    · rw [noteReservation, hplace accepted s call.1 address call.2 hholds hplaced]
      apply and_congr_right
      intro _
      refine ⟨fun hQ address' hplaced' => ?_, fun hQ => hQ address hplaced⟩
      have heq := (reserve_run hinit hholds.watermark hplaced').symm.trans hcall
      injection heq with heq
      injection heq with heq
      rwa [heq]
  · rintro accepted s call e t ⟨hholds, hinit⟩ hcall address hplaced
    rw [reserve_run hinit hholds.watermark hplaced] at hcall
    cases hcall

/-- Whatever is requested of an initialized space, the ranges it accepts are pairwise disjoint
just when no range is placed over an earlier reservation. -/
theorem accepted_disjoint_iff (hrun : vasInitialize.run v.construct = .ok () s)
    (calls : List (ℕ × ℕ)) :
    (accepted v calls s).Pairwise Reservation.Disjoint ↔ AvoidsEarlier v calls s :=
  accepted_iff_eachCall (fun _ _ _ _ _ hholds hplaced => hholds.pairwise_place hplaced) hrun
    List.Pairwise.nil calls

/-- `UserAddressSpace`. -/
def userSpace : Space := ⟨0, 0x0000800000000000, false, Nat.two_pow_pos _, by decide⟩

/-- The user space after `Initialize`. -/
def userState : VasState := ⟨[], 0x140000000, true⟩

/-- The user space after `Initialize`. -/
theorem userState_run : vasInitialize.run userSpace.construct = .ok () userState := rfl

/-- A fixed page in the third page of the first granule makes room for two requests behind it. -/
theorem accepted_disjoint_userSpace :
    vasInitialize.run userSpace.construct = .ok () userState ∧
      AvoidsEarlier userSpace [(0x140002000, 1), (0, 2), (0, 1)] userState := by
  refine ⟨rfl, (accepted_disjoint_iff userState_run _).mp ?_⟩
  have hsorted : (accepted userSpace [(0x140002000, 1), (0, 2), (0, 1)] userState).Pairwise
      fun a b => a.address + a.pageCount * pageSize ≤ b.address := by
    decide
  exact hsorted.imp fun hle x hx => absurd (hx.1.2.trans_le hle) (not_lt.mpr hx.2.1)

/-- Three pages from the watermark on are placed over a fixed page among them. -/
theorem not_accepted_disjoint :
    ¬ ∀ (v : Space) (s : VasState), vasInitialize.run v.construct = .ok () s →
      ∀ calls : List (ℕ × ℕ), (∀ call ∈ calls, call.1 % pageSize = 0 ∧ 1 ≤ call.2) →
        (accepted v calls s).Pairwise Reservation.Disjoint := by
  intro hclaim
  have hpairwise := hclaim userSpace userState userState_run [(0x140002000, 1), (0, 3)] (by decide)
  have haccepted : accepted userSpace [(0x140002000, 1), (0, 3)] userState =
      [⟨0x140002000, 1⟩, ⟨0x140000000, 3⟩] := by decide +kernel
  rw [haccepted, List.pairwise_pair] at hpairwise
  exact hpairwise 0x140002000 ⟨by decide, by decide⟩

end Vsos.Virtual
