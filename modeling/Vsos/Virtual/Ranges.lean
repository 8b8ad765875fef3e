import Vsos.Virtual.Reservations

/-!
# Bounds, free ranges and pointers

The test of a range looks at its first address and at the address behind it, and compares only the
first with the bounds of the space. So a range may leave the space at its end. And since the
address behind a range is compared as if it belonged to it, a range that ends where a reservation
begins is refused, and the page in front of a reservation counts as valid, like every page
outside of the space.
-/

namespace Vsos.Virtual

open Vsos.Lib Vsos.Mem

variable {v : Space} {s t : VasState}

/-- The range lies between the bounds of the space. -/
def Reservation.Inside (res : Reservation) (v : Space) : Prop :=
  v.start ≤ res.address ∧ res.address + res.pageCount * pageSize ≤ v.stop

instance (res : Reservation) (v : Space) : Decidable (res.Inside v) :=
  inferInstanceAs (Decidable (_ ∧ _))

/-- At some step from the watermark on the pages can be placed so that they end inside the space. -/
def Room (v : Space) (s : VasState) (count : ℕ) : Prop :=
  ∃ k, Clear v s (s.watermark + k * allocationGranularity) count ∧
    s.watermark + k * allocationGranularity + count * pageSize ≤ v.stop

/-- A request for a fixed address ends inside the space, or its first address is not in the space or
one of its end points is in a reservation. For a request without an address there is room from the
watermark on, or no step from there on is free. -/
def RequestFits (v : Space) (s : VasState) (call : ℕ × ℕ) : Prop :=
  if call.1 ≠ 0 then call.1 + call.2 * pageSize ≤ v.stop ∨ ¬ Clear v s call.1 call.2
  else Room v s call.2 ∨ ∀ k, ¬ Clear v s (s.watermark + k * allocationGranularity) call.2

/-- Every request of a sequence fits the space as it is then. -/
def RequestsFit (v : Space) (calls : List (ℕ × ℕ)) (s : VasState) : Prop :=
  EachCall (fun call => reserve v call.1 call.2) noteReservation (fun _ s call => RequestFits v s call)
    calls [] s

/-- The steps of the search are not wrapped as long as they stay in front of the end of the space. -/
theorem placeAt_eq (hstop : v.stop + allocationGranularity ≤ 2 ^ 64) (hw : s.watermark < 2 ^ 64) {k : ℕ}
    (hbefore : ∀ j < k, placeAt s j < v.stop) :
    placeAt s k = s.watermark + k * allocationGranularity := by
  induction k with
  | zero => rw [placeAt_zero hw, Nat.zero_mul, Nat.add_zero]
  | succ k ih =>
    have hlast := hbefore k (Nat.lt_succ_self k)
    rw [ih fun j hj => hbefore j (Nat.lt_succ_of_lt hj)] at hlast
    rw [placeAt, wrap64_of_lt]
    rw [Nat.succ_mul]
    omega

/-- The first free step from the watermark on is where a request without an address is placed. -/
theorem placed_of_first (haligned : s.watermark % pageSize = 0) {count k : ℕ} (hcount : count ≠ 0)
    (hk : Clear v s (s.watermark + k * allocationGranularity) count)
    (hfirst : ∀ j < k, ¬ Clear v s (s.watermark + j * allocationGranularity) count) :
    Placed v s 0 (s.watermark + k * allocationGranularity) count := by
  have hlt (j : ℕ) (hj : j ≤ k) : s.watermark + j * allocationGranularity < v.stop :=
    (Nat.add_le_add_left (Nat.mul_le_mul_right _ hj) _).trans_lt hk.2.1
  have hplace (j : ℕ) (hj : j ≤ k) : placeAt s j = s.watermark + j * allocationGranularity := by
    rw [placeAt, wrap64_of_lt ((hlt j hj).trans v.stop_lt)]
  refine ⟨hcount, ?_, hk, ?_⟩
  · rw [← hplace k le_rfl, placeAt_mod, haligned]
  · rw [if_neg (by simp)]
    refine ⟨k, (hplace k le_rfl).symm, fun j hj => ?_⟩
    rw [hplace j hj.le]
    exact ⟨hfirst j hj, hlt j hj.le⟩

/-- A request without an address is placed at the first free step from the watermark on. -/
theorem first_of_placed (hstop : v.stop + allocationGranularity ≤ 2 ^ 64) (hw : s.watermark < 2 ^ 64)
    {address count : ℕ} (h : Placed v s 0 address count) :
    ∃ k, address = s.watermark + k * allocationGranularity ∧
      Clear v s (s.watermark + k * allocationGranularity) count ∧
      ∀ j < k, ¬ Clear v s (s.watermark + j * allocationGranularity) count := by
  obtain ⟨-, -, hclear, hwhere⟩ := h
  rw [if_neg (by simp)] at hwhere
  obtain ⟨k, rfl, hbefore⟩ := hwhere
  have hplace (j : ℕ) (hj : j ≤ k) : placeAt s j = s.watermark + j * allocationGranularity :=
    placeAt_eq hstop hw fun i hi => (hbefore i (hi.trans_le hj)).2
  rw [hplace k le_rfl] at hclear ⊢
  refine ⟨k, rfl, hclear, fun j hj => ?_⟩
  rw [← hplace j hj.le]
  exact (hbefore j hj).1

/-- A request is placed inside the space, if at all, just when it fits. -/
theorem placed_inside_iff (hstop : v.stop + allocationGranularity ≤ 2 ^ 64) (hw : s.watermark < 2 ^ 64)
    (haligned : s.watermark % pageSize = 0) {call : ℕ × ℕ} (hcall : call.1 % pageSize = 0 ∧ call.2 ≠ 0) :
    (∀ address, Placed v s call.1 address call.2 → address + call.2 * pageSize ≤ v.stop) ↔
      RequestFits v s call := by
  obtain ⟨request, count⟩ := call
  obtain ⟨hrequest, hcount⟩ := hcall
  by_cases hzero : request = 0
  · subst hzero
    rw [RequestFits, if_neg (by simp)]
    constructor
    · intro hinside
      rw [or_iff_not_imp_right]
      intro hsome
      simp only [not_forall, not_not] at hsome
      classical
      exact ⟨Nat.find hsome, Nat.find_spec hsome, hinside _ (placed_of_first haligned hcount
        (Nat.find_spec hsome) fun j hj => Nat.find_min hsome hj)⟩
    · rintro hfits address hplaced
      obtain ⟨k, rfl, hclear, hfirst⟩ := first_of_placed hstop hw hplaced
      rcases hfits with ⟨m, hm, hroom⟩ | hnone
      · -- the search does not go past a step that is free
        have hle : k ≤ m := Nat.le_of_not_lt fun hlt => hfirst m hlt hm
        have hsteps := Nat.mul_le_mul_right allocationGranularity hle
        omega
      · exact absurd hclear (hnone k)
  · rw [RequestFits, if_pos hzero, or_iff_not_imp_right, not_not]
    constructor
    · intro hinside hclear
      exact hinside request ⟨hcount, hrequest, hclear, by rw [if_pos hzero]⟩
    · rintro hfits address ⟨-, -, hclear, hwhere⟩
      rw [if_pos hzero] at hwhere
      subst hwhere
      exact hfits hclear

/-- A placed request leaves the watermark page-aligned. -/
theorem place_watermark_mod {request address count : ℕ} (hs : s.watermark % pageSize = 0)
    (haddress : address % pageSize = 0) : (s.place request address count).watermark % pageSize = 0 := by
  rw [VasState.place]
  split
  · exact hs
  · simp only [byteAlign, wrap64, allocationGranularity, pageSize, pageShift] at haddress ⊢
    omega

/-- Whatever is requested of an initialized space, the ranges it accepts stay in the space just
when each request fits it. -/
theorem accepted_inside_iff (hstart : v.start % pageSize = 0)
    (hstop : v.stop + allocationGranularity ≤ 2 ^ 64) (hrun : vasInitialize.run v.construct = .ok () s)
    (calls : List (ℕ × ℕ)) (hcalls : ∀ call ∈ calls, call.1 % pageSize = 0 ∧ call.2 ≠ 0) :
    (∀ res ∈ accepted v calls s, res.Inside v) ↔ RequestsFit v calls s := by
  have hplaced : (∀ res ∈ accepted v calls s, res.Inside v) ↔
      EachCall (fun call => reserve v call.1 call.2) noteReservation (fun _ s call =>
        ∀ address, Placed v s call.1 address call.2 → address + call.2 * pageSize ≤ v.stop)
        calls [] s := by
    refine accepted_iff_eachCall (R := fun accepted => ∀ res ∈ accepted, res.Inside v)
      (Q := fun _ address count => address + count * pageSize ≤ v.stop) ?_ hrun (by simp) calls
    intro accepted s request address count _ hplaced
    have hstart : v.start ≤ address := hplaced.2.2.1.1
    simp [Reservation.Inside, hstart, or_imp, forall_and, and_assoc]
  rw [hplaced]
  refine EachCall.congr_of_admissible (I := fun _ s => s.watermark < 2 ^ 64 ∧ s.watermark % pageSize = 0)
    (V := fun _ _ call => call.1 % pageSize = 0 ∧ call.2 ≠ 0) ?_ ?_ ?_
    (EachCall.of_forall_mem (fun call hcall _ _ => hcalls call hcall) _ _)
  · exact fun _ s call hs hcall => placed_inside_iff hstop hs.1 hs.2 hcall
  · rintro _ s call r t ⟨hw, haligned⟩ - - hreserve
    obtain ⟨-, ⟨-, rfl, -⟩ | ⟨address, -, rfl, hplace⟩⟩ := reserve_ok hw hreserve
    · exact ⟨hw, haligned⟩
    · refine ⟨?_, place_watermark_mod haligned hplace.2.1⟩
      rw [VasState.place]
      split
      · exact hw
      · exact wrap64_lt _
  · refine ⟨(holds_vasInitialize hrun).1.watermark, ?_⟩
    cases hrun
    change (if v.start = 0 then 0x140000000 else v.start) % pageSize = 0
    split
    · decide
    · exact hstart

/-- A page at a fixed address and two at the watermark. -/
theorem accepted_inside_userSpace :
    RequestsFit userSpace [(0x7FFFFFFFF000, 1), (0, 2)] userState ∧
      ∀ res ∈ accepted userSpace [(0x7FFFFFFFF000, 1), (0, 2)] userState, res.Inside userSpace := by
  have hfit : RequestsFit userSpace [(0x7FFFFFFFF000, 1), (0, 2)] userState := by
    refine ⟨Or.inl (by decide), Or.inl ⟨0, ?_, ?_⟩, trivial⟩
    · decide +kernel
    · decide +kernel
  exact ⟨hfit, (accepted_inside_iff (by decide) (by decide) userState_run _ (by decide)).mpr hfit⟩

/-- Two pages from the last page of the user space on are accepted. -/
theorem not_accepted_inside :
    ¬ ∀ (v : Space) (s : VasState), v.start % pageSize = 0 → v.stop % pageSize = 0 →
      v.start < v.stop → vasInitialize.run v.construct = .ok () s →
      ∀ calls : List (ℕ × ℕ),
        (∀ call ∈ calls, call.1 % pageSize = 0 ∧ call.2 ≠ 0 ∧ call.2 < 2 ^ 64) →
        ∀ res ∈ accepted v calls s, v.start ≤ res.address ∧
          res.address + res.pageCount * pageSize ≤ v.stop := by
  intro hclaim
  have hinside := hclaim userSpace userState (by decide) (by decide) (by decide) userState_run
    [(0x7FFFFFFFF000, 2)] (by decide) ⟨0x7FFFFFFFF000, 2⟩ (by decide +kernel)
  exact absurd hinside.2 (by decide)

/-- What holds between two calls of a space: it is initialized, and its reservations are page-aligned,
not empty and begin at 64-bit addresses. -/
structure Recorded (s : VasState) : Prop where
  initialized : s.initialized = true
  watermark : s.watermark < 2 ^ 64
  aligned : ∀ res ∈ s.reservations, res.address % pageSize = 0
  nonempty : ∀ res ∈ s.reservations, res.pageCount ≠ 0
  address_lt : ∀ res ∈ s.reservations, res.address < 2 ^ 64

/-- `Reserve` keeps the record. -/
theorem Recorded.reserve (h : Recorded s) {call : ℕ × ℕ} {r : Option ℕ}
    (hrun : (Virtual.reserve v call.1 call.2).run s = .ok r t) : Recorded t := by
  obtain ⟨-, ⟨-, rfl, -⟩ | ⟨address, -, rfl, hcount, haligned, hclear, -⟩⟩ :=
    reserve_ok h.watermark hrun
  · exact h
  · have hlt : address < 2 ^ 64 := hclear.2.1.trans v.stop_lt
    refine ⟨h.initialized, ?_, ?_, ?_, ?_⟩
    · rw [VasState.place]
      split
      · exact h.watermark
      · exact wrap64_lt _
    all_goals
      intro res hres
      rcases List.mem_append.mp hres with hres | hres
    · exact h.aligned res hres
    · rwa [List.mem_singleton.mp hres]
    · exact h.nonempty res hres
    · rwa [List.mem_singleton.mp hres]
    · exact h.address_lt res hres
    · rwa [List.mem_singleton.mp hres]

/-- The state after `Initialize` and a sequence of calls of `Reserve`, each with an address, zero
for any, and a number of pages. -/
def Reached (v : Space) (calls : List (ℕ × ℕ)) (t : VasState) : Prop :=
  (do vasInitialize
      callAll (fun call : ℕ × ℕ => reserve v call.1 call.2) calls).run v.construct = .ok () t

/-- The record holds in every state that is reached. -/
theorem Reached.recorded {calls : List (ℕ × ℕ)} (h : Reached v calls t) : Recorded t := by
  obtain ⟨_, s, hinit, hcalls⟩ := bind_eq_ok.mp h
  obtain ⟨hholds, hinitialized⟩ := holds_vasInitialize hinit
  have hempty := hholds.reservations
  refine invariant_of_callAll (fun s call r t hs hrun => Recorded.reserve hs hrun) ?_ hcalls
  exact ⟨hinitialized, hholds.watermark, by simp [hempty], by simp [hempty], by simp [hempty]⟩

/-- Of a range inside the space, the address behind it does not wrap. -/
theorem highAddress_eq {address count : ℕ} (h : address + count * pageSize < 2 ^ 64) :
    highAddress address count = address + count * pageSize := by
  rw [highAddress, wrap64_of_lt (n := count * pageSize) (by omega), wrap64_of_lt h]

/-- The computed end of a reservation lies behind the addresses in it, unless it wraps. -/
theorem Reservation.le_of_lt_stop {res : Reservation} {x : ℕ} (h : x < res.stop) :
    x < res.address + res.pageCount * pageSize := by
  refine h.trans_le ?_
  refine (Nat.mod_le _ _).trans (Nat.add_le_add_left (Nat.mod_le _ _) _)

/-- A range inside the space that is disjoint from every reservation is clear just when no
reservation begins at its end. -/
theorem Recorded.clear_iff (h : Recorded s) {address count : ℕ} (hcount : 1 ≤ count)
    (hinside : (⟨address, count⟩ : Reservation).Inside v)
    (hdisjoint : ∀ res ∈ s.reservations, res.Disjoint ⟨address, count⟩) :
    Clear v s address count ↔
      ∀ res ∈ s.reservations, res.address = address + count * pageSize → res.stop ≤ res.address := by
  obtain ⟨hlow, hhigh⟩ := hinside
  simp only at hlow hhigh
  have hpages : 0 < count * pageSize := Nat.mul_pos hcount (by decide)
  have hstop := v.stop_lt
  rw [Clear, highAddress_eq (by omega), and_iff_right hlow, and_iff_right (by omega)]
  refine forall₂_congr fun res hres => ?_
  obtain ⟨hstart, hend⟩ :=
    (Reservation.disjoint_iff (b := ⟨address, count⟩) (h.nonempty res hres)
      (Nat.ne_of_gt hcount)).mp (hdisjoint res hres)
  simp only [Reservation.Contains] at hstart hend
  constructor
  · intro hclear heq
    omega
  · -- an address of the reservation as the code ends it is one of its addresses
    intro htouch
    refine ⟨fun hin => hstart ⟨hin.1, Reservation.le_of_lt_stop hin.2⟩, fun hin => ?_⟩
    have hbehind := Reservation.le_of_lt_stop hin.2
    omega

/-- A range inside the space that is disjoint from all reservations is granted just when no
reservation begins right behind it. -/
theorem reserve_free_iff {calls : List (ℕ × ℕ)} (hreached : Reached v calls t) {address count : ℕ}
    (hne : address ≠ 0) (haligned : address % pageSize = 0) (hcount : 1 ≤ count)
    (hinside : (⟨address, count⟩ : Reservation).Inside v)
    (hdisjoint : ∀ res ∈ t.reservations, res.Disjoint ⟨address, count⟩) :
    (∃ u, (reserve v address count).run t = .ok (some address) u) ↔
      ∀ res ∈ t.reservations, res.address = address + count * pageSize → res.stop ≤ res.address := by
  have h := hreached.recorded
  rw [← h.clear_iff hcount hinside hdisjoint]
  constructor
  · rintro ⟨u, hrun⟩
    obtain ⟨-, ⟨hnone, -⟩ | ⟨place, hsome, -, -, -, hclear, -⟩⟩ := reserve_ok h.watermark hrun
    · cases hnone
    · cases hsome
      exact hclear
  · intro hclear
    have hplaced : Placed v t address address count :=
      ⟨Nat.ne_of_gt hcount, haligned, hclear, by rw [if_pos hne]⟩
    exact ⟨_, reserve_run h.initialized h.watermark hplaced⟩

/-- The user space after one page was reserved, and the page behind it. -/
theorem reserve_free_userSpace :
    ∃ t, Reached userSpace [(0x140001000, 1)] t ∧
      (∀ res ∈ t.reservations, res.Disjoint ⟨0x140002000, 1⟩) ∧
      ∃ u, (reserve userSpace 0x140002000 1).run t = .ok (some 0x140002000) u := by
  have hreached : Reached userSpace [(0x140001000, 1)]
      ⟨[⟨0x140001000, 1⟩], 0x140000000, true⟩ := by rfl
  have hdisjoint : (⟨0x140001000, 1⟩ : Reservation).Disjoint ⟨0x140002000, 1⟩ :=
    (Reservation.disjoint_iff (by decide) (by decide)).mpr (by decide)
  refine ⟨_, hreached, by simpa using hdisjoint, ?_⟩
  exact (reserve_free_iff hreached (by decide) (by decide) (by decide) (by decide)
    (by simpa using hdisjoint)).mpr (by decide)

/-- The page in front of a reserved page is refused. -/
theorem not_reserve_free :
    ¬ ∀ (v : Space) (calls : List (ℕ × ℕ)) (t : VasState), Reached v calls t →
      ∀ address count : ℕ, address ≠ 0 → address % pageSize = 0 → 1 ≤ count →
        v.start ≤ address → address + count * pageSize ≤ v.stop →
        (∀ res ∈ t.reservations, res.Disjoint ⟨address, count⟩) →
        ∃ granted u, (reserve v address count).run t = .ok (some granted) u := by
  intro hclaim
  have hdisjoint : (⟨0x140001000, 1⟩ : Reservation).Disjoint ⟨0x140000000, 1⟩ :=
    (Reservation.disjoint_iff (by decide) (by decide)).mpr (by decide)
  obtain ⟨granted, u, hrun⟩ := hclaim userSpace [(0x140001000, 1)]
    ⟨[⟨0x140001000, 1⟩], 0x140000000, true⟩ rfl 0x140000000 1 (by decide) (by decide) (by decide)
    (by decide) (by decide) (by simpa using hdisjoint)
  cases hrun

/-- The page of a pointer. -/
def pageOf (p : ℕ) : ℕ := p / pageSize * pageSize

/-- The page of the pointer belongs to a reservation. -/
def Reserved (s : VasState) (p : ℕ) : Prop := ∃ res ∈ s.reservations, res.Contains (pageOf p)

instance (s : VasState) (p : ℕ) : Decidable (Reserved s p) :=
  inferInstanceAs (Decidable (∃ res ∈ s.reservations, _))

/-- The pointer is valid for the code when its page is not free. -/
theorem Recorded.isValidPointer_run (h : Recorded s) (p : ℕ) :
    (isValidPointer v p).run s = .ok (!decide (Clear v s (pageOf p) 1)) s := by
  rw [isValidPointer, bind_of_ok (isFree_run h.initialized (Nat.mul_mod_left _ _))]
  rfl

/-- The address behind the page of a pointer. -/
def pageEnd (p : ℕ) : ℕ := highAddress (pageOf p) 1

/-- The address behind a page wraps around for the last page only. -/
theorem pageEnd_cases {p : ℕ} (hp : p < 2 ^ 64) :
    pageEnd p = pageOf p + pageSize ∨ pageEnd p = 0 ∧ pageOf p + pageSize = 2 ^ 64 := by
  simp only [pageEnd, highAddress, pageOf, wrap64, pageSize, pageShift]
  omega

/-- A page that belongs to no reservation is clear just when it lies in the space and no
reservation begins behind it. -/
theorem Recorded.clear_page_iff (h : Recorded s) {p : ℕ} (hp : p < 2 ^ 64) (hfree : ¬ Reserved s p) :
    Clear v s (pageOf p) 1 ↔ v.start ≤ pageOf p ∧ pageOf p < v.stop ∧
      ∀ res ∈ s.reservations, res.address = pageEnd p → res.stop ≤ res.address := by
  refine and_congr_right fun _ => and_congr_right fun _ => forall₂_congr fun res hres => ?_
  have hout : ¬ res.Contains (pageOf p) := fun hin => hfree ⟨res, hres, hin⟩
  rw [Reservation.Contains] at hout
  change ¬ _ ∧ ¬ (res.address ≤ pageEnd p ∧ pageEnd p < res.stop) ↔ _
  constructor
  · intro hclear heq
    omega
  · intro htouch
    refine ⟨fun hin => hout ⟨hin.1, Reservation.le_of_lt_stop hin.2⟩, fun hin => ?_⟩
    have hbehind := Reservation.le_of_lt_stop hin.2
    have haligned := h.aligned res hres
    have hpage : pageOf p % pageSize = 0 := Nat.mul_mod_left _ _
    have heq : res.address = pageEnd p := by
      simp only [pageSize, pageShift] at *
      rcases pageEnd_cases hp with hend | ⟨hend, -⟩
      · simp only [pageSize, pageShift] at hend
        omega
      · omega
    omega

/-- The answer for a pointer is exact just when two things hold. Unless the page is reserved, it
lies in the space and no reservation begins behind it. If it is reserved and lies in the space, a
reservation that holds it does not run past the last address; or one that does is cut to pages that
still hold it, or the address behind the page comes before the end of a reservation as the code
computes it. -/
theorem isValidPointer_iff {calls : List (ℕ × ℕ)} (hreached : Reached v calls t) {p : ℕ}
    (hp : p < 2 ^ 64) :
    ((∃ u, (isValidPointer v p).run t = .ok true u) ↔ Reserved t p) ↔
      (¬ Reserved t p → v.start ≤ pageOf p ∧ pageOf p < v.stop ∧
        ∀ res ∈ t.reservations, res.address = pageEnd p → res.stop ≤ res.address) ∧
      (Reserved t p → v.start ≤ pageOf p → pageOf p < v.stop → ∃ res ∈ t.reservations,
        (¬ res.Wraps ∧ res.Contains (pageOf p)) ∨
          (res.Wraps ∧ res.address ≤ pageOf p ∧ pageOf p < res.stop) ∨
          (res.address ≤ pageEnd p ∧ pageEnd p < res.stop)) := by
  have h := hreached.recorded
  have hvalid : (∃ u, (isValidPointer v p).run t = .ok true u) ↔ ¬ Clear v t (pageOf p) 1 := by
    rw [h.isValidPointer_run]
    simp
  have hseen (res : Reservation) : (res.address ≤ pageOf p ∧ pageOf p < res.stop) ↔
      (¬ res.Wraps ∧ res.Contains (pageOf p)) ∨
        (res.Wraps ∧ res.address ≤ pageOf p ∧ pageOf p < res.stop) := by
    by_cases hwraps : res.Wraps
    · simp only [hwraps, not_true_eq_false, false_and, true_and, false_or]
    · rw [Reservation.stop_of_not_wraps hwraps]
      simp only [hwraps, not_false_eq_true, true_and, false_and, or_false, Reservation.Contains]
  rw [hvalid]
  by_cases hreserved : Reserved t p
  · have hclear : ¬ Clear v t (pageOf p) 1 ↔ (v.start ≤ pageOf p → pageOf p < v.stop →
        ∃ res ∈ t.reservations, (¬ res.Wraps ∧ res.Contains (pageOf p)) ∨
          (res.Wraps ∧ res.address ≤ pageOf p ∧ pageOf p < res.stop) ∨
          (res.address ≤ pageEnd p ∧ pageEnd p < res.stop)) := by
      rw [Clear, not_and, not_and]
      simp only [not_forall, exists_prop]
      refine imp_congr_right fun _ => imp_congr_right fun _ => exists_congr fun res =>
        and_congr_right fun _ => ?_
      rw [not_and_or, not_not, not_not, pageEnd, ← or_assoc, ← hseen]
    simp only [hreserved, not_true_eq_false, false_implies, true_implies, true_and, iff_true, hclear]
  · simp only [hreserved, not_false_eq_true, true_implies, false_implies, and_true, iff_false, not_not]
    exact h.clear_page_iff hp hreserved

/-- In the user space with one reserved page, the answers for a pointer into it and for one into
the page behind it are exact. -/
theorem isValidPointer_userSpace :
    ∃ t, Reached userSpace [(0x140001000, 1)] t ∧
      ((∃ u, (isValidPointer userSpace 0x140001234).run t = .ok true u) ↔
        Reserved t 0x140001234) ∧
      ((∃ u, (isValidPointer userSpace 0x140002FFF).run t = .ok true u) ↔
        Reserved t 0x140002FFF) := by
  have hreached : Reached userSpace [(0x140001000, 1)]
      ⟨[⟨0x140001000, 1⟩], 0x140000000, true⟩ := by rfl
  refine ⟨_, hreached, ?_, ?_⟩
  · exact (isValidPointer_iff hreached (by decide)).mpr (by decide)
  · exact (isValidPointer_iff hreached (by decide)).mpr (by decide)

/-- A pointer into the kernel is valid in the user space. -/
theorem not_isValidPointer_exact :
    ¬ ∀ (v : Space) (calls : List (ℕ × ℕ)) (t : VasState), Reached v calls t →
      ∀ p < 2 ^ 64, (∃ u, (isValidPointer v p).run t = .ok true u) ↔
        ∃ res ∈ t.reservations, res.Contains (p / pageSize * pageSize) := by
  intro hclaim
  have hexact := hclaim userSpace [] userState rfl 0xFFFF800000000000 (by decide)
  obtain ⟨res, hres, -⟩ := hexact.mp ⟨userState, rfl⟩
  cases hres

end Vsos.Virtual
