import Vsos.Lib.Runs
import Vsos.Mem.Pmm
import Vsos.Virtual.Mappings

/-!
# The windows onto physical memory

The kernel maps a physical address `x` for a driver at `KernelIoStart + x` and for ACPI at
`KernelAcpiStart + x`, without a reservation. The first window begins `KernelSectionLength` behind
the second one, and neither ends there: the same page of virtual memory belongs to both of them, and
shows what was mapped last. Within one window a page is always mapped to the same place.
-/

namespace Vsos.Virtual

open Vsos.Lib Vsos.Mem

/-- `KernelSectionLength`. -/
def kernelSectionLength : ℕ := 0x1000000000

/-- `KernelAcpiStart`. -/
def kernelAcpiStart : ℕ := 0xFFFF804000000000

/-- `KernelIoStart`, which is `KernelAcpiEnd`. -/
def kernelIoStart : ℕ := kernelAcpiStart + kernelSectionLength

section Model

variable (pool : Pool)

/-- `Kernel::MapPhysicalMemory`. -/
def mapPhysicalMemory (physicalAddress length mapStartAddr : ℕ) : PtM ℕ := do
  let pageOffset := physicalAddress % pageSize
  let pageCount := divRoundUp (wrap64 (pageOffset + length)) pageSize
  let physicalBase := physicalAddress - pageOffset
  let root ← look PtState.cr3
  let mapped ← mapPages pool root (wrap64 (mapStartAddr + physicalBase)) physicalBase pageCount true
  ensure (mapped = true)
  return wrap64 (mapStartAddr + physicalBase + pageOffset)

/-- `ACPI::AcpiOsMapMemory`, which repeats the body of `MapPhysicalMemory`. -/
def acpiOsMapMemory (physicalAddress length : ℕ) : PtM ℕ :=
  mapPhysicalMemory pool physicalAddress length kernelAcpiStart

/-- `Kernel::DriverMapPages`. -/
def driverMapPages (address count : ℕ) : PtM ℕ := do
  ensure (0 < count)
  let virtualAddress := wrap64 (kernelIoStart + address)
  let root ← look PtState.cr3
  let mapped ← mapPages pool root virtualAddress address count true
  ensure (mapped = true)
  return virtualAddress

end Model

/-- A call that maps physical memory into a window. -/
inductive WindowCall where
  | driverMapPages (address count : ℕ)
  | acpiOsMapMemory (physicalAddress length : ℕ)
  | mapPhysicalMemory (physicalAddress length : ℕ)
  deriving DecidableEq

namespace WindowCall

/-- Run the call; the pointer that it returns. -/
def perform (pool : Pool) : WindowCall → PtM ℕ
  | driverMapPages address count => Virtual.driverMapPages pool address count
  | acpiOsMapMemory physicalAddress length => Virtual.acpiOsMapMemory pool physicalAddress length
  | mapPhysicalMemory physicalAddress length =>
    Virtual.mapPhysicalMemory pool physicalAddress length kernelAcpiStart

/-- Where the window of the call begins. -/
def window : WindowCall → ℕ
  | driverMapPages _ _ => kernelIoStart
  | acpiOsMapMemory _ _ => kernelAcpiStart
  | mapPhysicalMemory _ _ => kernelAcpiStart

/-- The physical address that is requested. -/
def address : WindowCall → ℕ
  | driverMapPages address _ => address
  | acpiOsMapMemory physicalAddress _ => physicalAddress
  | mapPhysicalMemory physicalAddress _ => physicalAddress

/-- The number of bytes that are requested. -/
def length : WindowCall → ℕ
  | driverMapPages _ count => count * pageSize
  | acpiOsMapMemory _ length => length
  | mapPhysicalMemory _ length => length

/-- The number of pages that are mapped. -/
def pageCount : WindowCall → ℕ
  | driverMapPages _ count => count
  | acpiOsMapMemory physicalAddress length =>
    divRoundUp (wrap64 (physicalAddress % pageSize + length)) pageSize
  | mapPhysicalMemory physicalAddress length =>
    divRoundUp (wrap64 (physicalAddress % pageSize + length)) pageSize

/-- The physical address that the first page is mapped to. -/
def physicalBase : WindowCall → ℕ
  | driverMapPages address _ => address
  | acpiOsMapMemory physicalAddress _ => physicalAddress - physicalAddress % pageSize
  | mapPhysicalMemory physicalAddress _ => physicalAddress - physicalAddress % pageSize

/-- The call of `MapPages`. -/
def mapCall (call : WindowCall) : MapCall Unit :=
  ⟨(), wrap64 (call.window + call.physicalBase), call.physicalBase, call.pageCount, true⟩

/-- The requested range is not empty and lies below `2 ^ 47`. -/
structure Valid (call : WindowCall) : Prop where
  length_pos : 0 < call.length
  range_le : call.address + call.length ≤ 2 ^ 47

/-- `DriverMapPages` gets a page. The other calls take care of it. -/
def Aligned : WindowCall → Prop
  | driverMapPages address _ => address % pageSize = 0
  | acpiOsMapMemory _ _ => True
  | mapPhysicalMemory _ _ => True

/-- The byte is requested by the call. -/
def Requests (call : WindowCall) (a : ℕ) : Prop := call.address ≤ a ∧ a < call.address + call.length

/-- The page of the byte is mapped by the call. -/
def Maps (call : WindowCall) (b : ℕ) : Prop :=
  call.address / pageSize ≤ b / pageSize ∧ b / pageSize < call.address / pageSize + call.pageCount

/-- The later call maps a page of its window over a page of the earlier call, in the other window. -/
def Hides (later earlier : WindowCall) : Prop :=
  later.window ≠ earlier.window ∧ ∃ a b, earlier.Requests a ∧ later.Maps b ∧
    (earlier.window + a) / pageSize = (later.window + b) / pageSize

variable {pool : Pool} {s t : PtState} {call earlier : WindowCall} {a b : ℕ}

/-- What `MapPhysicalMemory` runs. -/
theorem mapPhysicalMemory_run (pool : Pool) (physicalAddress length mapStartAddr : ℕ) (s : PtState) :
    (Virtual.mapPhysicalMemory pool physicalAddress length mapStartAddr).run s = (do
      let mapped ← mapPages pool s.cr3
        (wrap64 (mapStartAddr + (physicalAddress - physicalAddress % pageSize)))
        (physicalAddress - physicalAddress % pageSize)
        (divRoundUp (wrap64 (physicalAddress % pageSize + length)) pageSize) true
      ensure (mapped = true)
      return wrap64 (mapStartAddr + physicalAddress) : PtM ℕ).run s := by
  have hbase : mapStartAddr + (physicalAddress - physicalAddress % pageSize) + physicalAddress % pageSize =
      mapStartAddr + physicalAddress := by
    have := Nat.mod_le physicalAddress pageSize
    omega
  rw [Virtual.mapPhysicalMemory, hbase]
  exact bind_look

/-- What the call runs. -/
theorem perform_eq (pool : Pool) (hvalid : call.Valid) (s : PtState) :
    (call.perform pool).run s = (do
      let mapped ← mapPages pool s.cr3 call.mapCall.virtualBase call.mapCall.physicalBase
        call.mapCall.count call.mapCall.global
      ensure (mapped = true)
      return wrap64 (call.window + call.address) : PtM ℕ).run s := by
  cases call with
  | driverMapPages address count =>
    have hcount : 0 < count := Nat.pos_of_mul_pos_right hvalid.length_pos
    exact (bind_ensure hcount).trans (bind_look)
  | acpiOsMapMemory physicalAddress length => exact mapPhysicalMemory_run pool _ _ _ s
  | mapPhysicalMemory physicalAddress length => exact mapPhysicalMemory_run pool _ _ _ s

section Pages

/-- The pages of an unaligned range. -/
theorem pageCount_unaligned {x l : ℕ} (hrange : x + l ≤ 2 ^ 47) :
    x / pageSize + divRoundUp (wrap64 (x % pageSize + l)) pageSize = (x + l + 4095) / pageSize := by
  have hoffset := Nat.mod_le x pageSize
  have hwrap : wrap64 (x % pageSize + l) = x % pageSize + l := wrap64_of_lt (by omega)
  rw [divRoundUp, wrap64_of_lt] <;> simp only [pageSize, pageShift] at * <;> omega

/-- The end of the pages that are mapped. -/
theorem Valid.end_page (hvalid : call.Valid) :
    call.address / pageSize + call.pageCount = (call.address + call.length + 4095) / pageSize ∨
      ¬ call.Aligned ∧
        call.address / pageSize + call.pageCount = (call.address + call.length) / pageSize := by
  have hrange := hvalid.range_le
  cases call with
  | driverMapPages address count =>
    simp only [Aligned, WindowCall.address, length, pageCount, pageSize, pageShift]
    omega
  | acpiOsMapMemory physicalAddress length => exact Or.inl (pageCount_unaligned hrange)
  | mapPhysicalMemory physicalAddress length => exact Or.inl (pageCount_unaligned hrange)

/-- The addresses that a call maps are below the limit of the processor. -/
theorem Valid.lt_of_maps (hvalid : call.Valid) (hb : call.Maps b) : b < 2 ^ 47 := by
  have hrange := hvalid.range_le
  have hb' := hb.2
  rcases hvalid.end_page with hend | ⟨-, hend⟩ <;> simp only [pageSize, pageShift] at * <;> omega

/-- Every byte that is requested is mapped. -/
theorem Valid.maps_of_requests (hvalid : call.Valid) (haligned : call.Aligned)
    (ha : call.Requests a) : call.Maps a := by
  obtain ⟨hle, hlt⟩ := ha
  have hend := hvalid.end_page.resolve_right fun h => h.1 haligned
  rw [Maps, hend]
  simp only [pageSize, pageShift]
  omega

/-- The first frame of a window. -/
theorem physicalBase_page (call : WindowCall) : call.physicalBase / pageSize = call.address / pageSize := by
  cases call with
  | driverMapPages address count => rfl
  | acpiOsMapMemory physicalAddress length =>
    simp only [physicalBase, address, pageSize, pageShift]
    omega
  | mapPhysicalMemory physicalAddress length =>
    simp only [physicalBase, address, pageSize, pageShift]
    omega

/-- A window is in one of two sections. -/
theorem window_cases (call : WindowCall) :
    call.window = kernelAcpiStart ∨ call.window = kernelAcpiStart + kernelSectionLength := by
  cases call
  · exact Or.inr rfl
  · exact Or.inl rfl
  · exact Or.inl rfl

/-- The walk of an address does not see a wrap. -/
theorem pathOf_wrap64 (x : ℕ) : pathOf (wrap64 x) = pathOf x := by
  rw [pathOf_eq_iff, wrap64]
  omega

/-- Addresses of the windows with the same walk lie in the same page. -/
theorem pathOf_window (call earlier : WindowCall) (ha : a < 2 ^ 47) (hb : b < 2 ^ 47) :
    pathOf (earlier.window + a) = pathOf (call.window + b) ↔
      (earlier.window + a) / pageSize = (call.window + b) / pageSize := by
  have hsize : pageSize = 2 ^ 12 := rfl
  rw [pathOf_eq_iff, hsize]
  rcases earlier.window_cases with hw | hw <;> rcases call.window_cases with hw' | hw' <;>
    simp only [hw, hw', kernelAcpiStart, kernelSectionLength] <;> omega

/-- A window is aligned. -/
theorem window_mod (call : WindowCall) : call.window % pageSize = 0 := by
  rcases call.window_cases with hw | hw <;> rw [hw] <;> rfl

end Pages

section Leaves

variable {E E' : Unit → List (Fin 512) → BitVec 64} {roots : Unit → ℕ}

/-- A page of the call, by its number. -/
theorem pathOf_page (call : WindowCall) (i : ℕ) :
    pathOf (call.mapCall.page i).address = pathOf (call.window + (call.physicalBase + i * pageSize)) := by
  simp only [MapCall.page, mapCall, pathOf_eq_iff, wrap64]
  omega

/-- The number of the page that a byte lies in. -/
theorem Maps.page (hb : call.Maps b) : ∃ i < call.pageCount,
    (call.physicalBase + i * pageSize) / pageSize = b / pageSize := by
  obtain ⟨hle, hlt⟩ := hb
  refine ⟨b / pageSize - call.address / pageSize, by omega, ?_⟩
  rw [Nat.add_mul_div_right _ _ (by decide), physicalBase_page]
  omega

/-- The pages of the call are those that it maps. -/
theorem maps_page (call : WindowCall) {i : ℕ} (hi : i < call.pageCount) :
    call.Maps (call.physicalBase + i * pageSize) := by
  rw [Maps, Nat.add_mul_div_right _ _ (by decide), physicalBase_page]
  omega

/-- The pages of a window are those of its addresses. -/
theorem window_page_eq (call : WindowCall) {x y : ℕ} :
    (call.window + x) / pageSize = (call.window + y) / pageSize ↔ x / pageSize = y / pageSize := by
  have hmod := call.window_mod
  simp only [pageSize, pageShift] at *
  omega

/-- The entry leads to the page of a physical address. -/
def Points (E : Unit → List (Fin 512) → BitVec 64) (x a : ℕ) : Prop :=
  E () (pathOf x) ≠ 0 ∧ frame (E () (pathOf x)) = a / pageSize * pageSize

section

variable (hvalid : call.Valid) (hsteps : MapSteps roots call.mapCall.pages E E')
include hvalid hsteps

/-- Every page that the call maps leads to its own place. -/
theorem points_of_maps (hb : call.Maps b) : Points E' (call.window + b) b := by
  obtain ⟨i, hi, hpage⟩ := hb.page
  have hlt {j : ℕ} (hj : j < call.pageCount) : call.physicalBase + j * pageSize < 2 ^ 47 :=
    hvalid.lt_of_maps (call.maps_page hj)
  have hpath : pathOf (call.window + b) = pathOf (call.mapCall.page i).address := by
    rw [pathOf_page, pathOf_window call call (hvalid.lt_of_maps hb) (hlt hi), window_page_eq]
    exact hpage.symm
  rw [call.mapCall.pages_split hi] at hsteps
  have hleaf := hsteps.leaf_of_last fun m hm heq => by
    obtain ⟨j, hj, rfl⟩ := List.mem_map.mp hm
    rw [List.mem_range'_1] at hj
    have hj' : j < call.pageCount := by
      have : call.mapCall.count = call.pageCount := rfl
      omega
    rw [pathOf_page, pathOf_page, pathOf_window call call (hlt hj') (hlt hi), window_page_eq,
      Nat.add_mul_div_right _ _ (by decide), Nat.add_mul_div_right _ _ (by decide)] at heq
    omega
  obtain ⟨⟨hpresent, -⟩, hframe⟩ :=
    pageEntry_spec (call.mapCall.page i).physical (call.mapCall.page i).global
  have hphysical : (call.mapCall.page i).physical = call.physicalBase + i * pageSize :=
    wrap64_of_lt (lt_trans (hlt hi) (by decide))
  rw [Points, hpath, hleaf]
  refine ⟨ne_zero_of_getLsbD hpresent, ?_⟩
  rw [hframe, frame_eq, BitVec.toNat_ofNat, hphysical,
    Nat.mod_eq_of_lt (lt_trans (hlt hi) (by decide)), ← hpage]
  rfl

/-- The other entries stay. -/
theorem points_of_not_maps (ha : a < 2 ^ 47) (hpoints : Points E (earlier.window + a) a)
    (hother : ∀ b, call.Maps b → (earlier.window + a) / pageSize ≠ (call.window + b) / pageSize) :
    Points E' (earlier.window + a) a := by
  have hleaf := hsteps.leaf_of_ne rfl fun m hm heq => by
    obtain ⟨j, hj, rfl⟩ := List.mem_map.mp hm
    have hmaps := call.maps_page (List.mem_range.mp hj)
    rw [pathOf_page, eq_comm, pathOf_window call earlier ha (hvalid.lt_of_maps hmaps)] at heq
    exact hother _ hmaps heq
  rwa [Points, hleaf]

/-- An earlier pointer keeps leading to its place, unless the call hides it. -/
theorem points_of_not_hides (hearlier : earlier.Valid) (hhides : ¬ call.Hides earlier)
    (ha : earlier.Requests a) (hpoints : Points E (earlier.window + a) a) :
    Points E' (earlier.window + a) a := by
  by_cases hother : ∀ b, call.Maps b → (earlier.window + a) / pageSize ≠ (call.window + b) / pageSize
  · exact points_of_not_maps hvalid hsteps (ha.2.trans_le hearlier.range_le) hpoints hother
  · push Not at hother
    obtain ⟨b, hb, hsame⟩ := hother
    -- the page is mapped again, in the same window and therefore to the same place
    have hwindow : call.window = earlier.window := by
      by_contra hne
      exact hhides ⟨hne, a, b, ha, hb, hsame⟩
    rw [← hwindow, window_page_eq] at hsame
    have hb' : call.Maps a := by rwa [Maps, hsame]
    rw [← hwindow]
    exact points_of_maps hvalid hsteps hb'

end

end Leaves

section Calls

variable {E : Unit → List (Fin 512) → BitVec 64}

/-- A call maps its pages in the current tables, unless the pool runs out of pages. -/
theorem perform_spec (hvalid : call.Valid) (htables : Tables pool s (fun _ : Unit => s.cr3) E) :
    Ensures (call.perform pool) s (fun q t => q = wrap64 (call.window + call.address) ∧
      ∃ E', Tables pool t (fun _ : Unit => t.cr3) E' ∧
        MapSteps (fun _ : Unit => s.cr3) call.mapCall.pages E E') (Exhausted pool) := by
  rw [Ensures.congr_run (call.perform_eq pool hvalid s)]
  refine Ensures.bind (htables.mapPages call.mapCall) ?_
  rintro _ t ⟨rfl, hcr3, E', htables', hsteps⟩
  rw [← hcr3] at htables'
  exact Ensures.bind_ensure rfl (Ensures.pure ⟨rfl, E', htables', hsteps⟩)

/-- An address of a window whose entry leads to a page resolves to its byte in it. -/
theorem resolveAddress_of_points (htables : Tables pool s (fun _ : Unit => s.cr3) E)
    (earlier : WindowCall) (hb : b < 2 ^ 47) (hoffset : b % pageSize = a % pageSize)
    (hpoints : Points E (earlier.window + a) b) :
    resolveAddress pool s.cr3 (wrap64 (earlier.window + a)) s = b := by
  have hpath := pathOf_wrap64 (earlier.window + a)
  have hmod := earlier.window_mod
  rw [Points, ← hpath] at hpoints
  rw [htables.resolveAddress_eq () hpoints.1, hpoints.2]
  simp only [wrap64, pageSize, pageShift] at *
  omega

end Calls

end WindowCall

/-- What a caller knows: its calls, the last one first, with the pointers they returned. -/
abbrev WindowHistory := List (WindowCall × ℕ)

def noteWindow (h : WindowHistory) (call : WindowCall) (q : ℕ) : WindowHistory := (call, q) :: h

/-- After the call, the pointers that were returned so far resolve to the physical memory they were
requested for. A call that does not return has found the pool exhausted. -/
def Resolves (pool : Pool) (h : WindowHistory) (s : PtState) (call : WindowCall) : Prop :=
  Ensures (call.perform pool) s (fun q t => ∀ c ∈ noteWindow h call q, ∀ i < c.1.length,
    resolveAddress pool t.cr3 (wrap64 (c.2 + i)) t = c.1.address + i) (Exhausted pool)

/-- The call maps nothing over a page of an earlier call in the other window. -/
def StaysClear (pool : Pool) (h : WindowHistory) (s : PtState) (call : WindowCall) : Prop :=
  (∃ q t, (call.perform pool).run s = .ok q t) → ∀ c ∈ h, ¬ call.Hides c.1

/-- The pointers so far lead to where they should. -/
def Shown (pool : Pool) (h : WindowHistory) (s : PtState) : Prop :=
  ∃ E, Tables pool s (fun _ : Unit => s.cr3) E ∧ ∀ c ∈ h, c.1.Valid ∧
    c.2 = wrap64 (c.1.window + c.1.address) ∧
      ∀ a, c.1.Requests a → WindowCall.Points E (c.1.window + a) a

section Runs

variable {pool : Pool} {s t : PtState} {h : WindowHistory} {call : WindowCall} {q : ℕ}

/-- A call that hides no earlier one keeps the pointers and adds its own. -/
theorem Shown.perform (hshown : Shown pool h s) (hvalid : call.Valid) (haligned : call.Aligned)
    (hclear : ∀ c ∈ h, ¬ call.Hides c.1) (hrun : (call.perform pool).run s = .ok q t) :
    Shown pool (noteWindow h call q) t := by
  obtain ⟨E, htables, hall⟩ := hshown
  obtain ⟨rfl, E', htables', hsteps⟩ := (WindowCall.perform_spec hvalid htables).of_ok hrun
  refine ⟨E', htables', fun c hc => ?_⟩
  rcases List.mem_cons.mp hc with rfl | hc
  · refine ⟨hvalid, rfl, fun a ha => ?_⟩
    exact WindowCall.points_of_maps hvalid hsteps (hvalid.maps_of_requests haligned ha)
  · obtain ⟨hearlier, hq, hpoints⟩ := hall c hc
    refine ⟨hearlier, hq, fun a ha => ?_⟩
    exact WindowCall.points_of_not_hides hvalid hsteps hearlier (hclear c hc) ha (hpoints a ha)

/-- A pointer that is moved wraps around once. -/
theorem wrap64_pointer (x i : ℕ) : wrap64 (wrap64 x + i) = wrap64 (x + i) := by
  simp only [wrap64]
  omega

/-- A pointer that leads to where it should resolves. -/
theorem Shown.resolveAddress (hshown : Shown pool h s) {c : WindowCall × ℕ} (hc : c ∈ h) {i : ℕ}
    (hi : i < c.1.length) :
    resolveAddress pool s.cr3 (wrap64 (c.2 + i)) s = c.1.address + i := by
  obtain ⟨E, htables, hall⟩ := hshown
  obtain ⟨hvalid, hq, hpoints⟩ := hall c hc
  have hrange := hvalid.range_le
  have ha : c.1.address + i < 2 ^ 47 := by omega
  rw [hq, wrap64_pointer, Nat.add_assoc]
  exact WindowCall.resolveAddress_of_points htables c.1 ha rfl (hpoints _ ⟨by omega, by omega⟩)

/-- The pointer of a hidden page resolves to the place that was mapped over it. -/
theorem not_resolves_of_hides (hshown : Shown pool h s) (hvalid : call.Valid)
    (hrun : (call.perform pool).run s = .ok q t) {c : WindowCall × ℕ} (hc : c ∈ h)
    (hhides : call.Hides c.1) : ¬ Resolves pool h s call := by
  intro hresolves
  obtain ⟨E, htables, hall⟩ := hshown
  obtain ⟨-, E', htables', hsteps⟩ := (WindowCall.perform_spec hvalid htables).of_ok hrun
  obtain ⟨hearlier, hq, -⟩ := hall c hc
  obtain ⟨hwindow, a, b, ⟨hle, hlt⟩, hb, hsame⟩ := hhides
  have ha : a < 2 ^ 47 := hlt.trans_le hearlier.range_le
  -- the byte of the foreign page at the offset of the pointer
  let b' := b / pageSize * pageSize + a % pageSize
  have hpage : b' / pageSize = b / pageSize := by
    simp only [b', pageSize, pageShift]
    omega
  have hb' : call.Maps b' := by rwa [WindowCall.Maps, hpage]
  have hpoints := WindowCall.points_of_maps hvalid hsteps hb'
  have hpath : pathOf (c.1.window + a) = pathOf (call.window + b') := by
    rw [WindowCall.pathOf_window call c.1 ha (hvalid.lt_of_maps hb'), hsame, WindowCall.window_page_eq,
      hpage]
  rw [WindowCall.Points, ← hpath] at hpoints
  have hforeign := WindowCall.resolveAddress_of_points htables' c.1 (hvalid.lt_of_maps hb')
    (by simp only [b', pageSize, pageShift]; omega) hpoints
  have hown := hresolves.of_ok hrun c (List.mem_cons_of_mem _ hc) (a - c.1.address) (by omega)
  have hbyte : c.1.address + (a - c.1.address) = a := by omega
  rw [hq, wrap64_pointer, Nat.add_assoc, hbyte, hforeign] at hown
  have hwindows : (c.1.window + a) / pageSize = (call.window + a) / pageSize := by
    rw [hsame, WindowCall.window_page_eq, ← hpage, hown]
  have hmod := call.window_mod
  have hmod' := c.1.window_mod
  apply hwindow
  simp only [pageSize, pageShift] at *
  omega

/-- Under the invariant, the pointers resolve after a call just when it stays clear of the earlier
ones. -/
theorem Shown.resolves_iff (hshown : Shown pool h s) (hvalid : call.Valid) (haligned : call.Aligned) :
    Resolves pool h s call ↔ StaysClear pool h s call := by
  constructor
  · rintro hresolves ⟨q, t, hrun⟩ c hc hhides
    exact not_resolves_of_hides hshown hvalid hrun hc hhides hresolves
  · intro hclear
    obtain ⟨E, htables, -⟩ := id hshown
    refine (WindowCall.perform_spec hvalid htables).mono_of_run fun q t hrun _ c hc i hi => ?_
    exact (hshown.perform hvalid haligned (hclear ⟨q, t, hrun⟩) hrun).resolveAddress hc hi

/-- It is enough that no call hides an earlier one, whether they return or not. -/
theorem staysClear_of_pairwise {calls : List WindowCall}
    (hpairwise : calls.Pairwise fun earlier later => ¬ later.Hides earlier)
    (hh : ∀ c ∈ h, ∀ call ∈ calls, ¬ call.Hides c.1) :
    EachCall (WindowCall.perform pool) noteWindow (StaysClear pool) calls h s := by
  induction calls generalizing h s with
  | nil => trivial
  | cons call rest ih =>
    obtain ⟨hfirst, hrest⟩ := List.pairwise_cons.mp hpairwise
    refine ⟨fun _ c hc => hh c hc call List.mem_cons_self, ?_⟩
    cases (call.perform pool).run s with
    | error e t => trivial
    | ok q t =>
      refine ih hrest fun c hc later hlater => ?_
      rcases List.mem_cons.mp hc with rfl | hc
      · exact hfirst later hlater
      · exact hh c hc later (List.mem_cons_of_mem _ hlater)

/-- Ranges below `KernelSectionLength` do not meet. -/
theorem WindowCall.not_hides_of_le {earlier : WindowCall} (hvalid : call.Valid)
    (hcall : call.address + call.length ≤ kernelSectionLength)
    (hearlier : earlier.address + earlier.length ≤ kernelSectionLength) : ¬ call.Hides earlier := by
  rintro ⟨hwindow, a, b, ⟨-, hlt⟩, ⟨-, hb⟩, hsame⟩
  have hend : call.address / pageSize + call.pageCount ≤ (call.address + call.length + 4095) / pageSize := by
    rcases hvalid.end_page with hend | ⟨-, hend⟩ <;> simp only [pageSize, pageShift] at * <;> omega
  rcases earlier.window_cases with hw | hw <;> rcases call.window_cases with hw' | hw' <;>
    simp only [hw, hw', kernelAcpiStart, kernelSectionLength, pageSize, pageShift] at * <;> omega

/-- For every sequence of calls on well-formed tables in which `DriverMapPages` gets pages: all
pointers resolve to their physical memory, right after their call and after every later one, just
when no call maps over an earlier one in the other window. -/
theorem windows_resolve_iff {E : Unit → List (Fin 512) → BitVec 64}
    (htables : Tables pool s (fun _ : Unit => s.cr3) E) {calls : List WindowCall}
    (hcalls : ∀ call ∈ calls, call.Valid ∧ call.Aligned) :
    EachCall (WindowCall.perform pool) noteWindow (Resolves pool) calls [] s ↔
      EachCall (WindowCall.perform pool) noteWindow (StaysClear pool) calls [] s := by
  have hstart : Shown pool [] s := ⟨E, htables, by simp⟩
  refine EachCall.congr_of_admissible
    (fun h s call hshown hV => hshown.resolves_iff hV.1 hV.2) ?_ hstart
    (EachCall.of_forall_mem (fun call hcall _ _ => hcalls call hcall) [] s)
  intro h s call q t hshown hV hclear hrun
  exact hshown.perform hV.1 hV.2 (hclear ⟨q, t, hrun⟩) hrun

end Runs

/-- The first table of the small pool is the current one. -/
def currentTable : PtState := { firstTable with cr3 := 0x101000 }

/-- The tables of the sample. -/
theorem tables_currentTable :
    Tables smallPool currentTable (fun _ : Unit => currentTable.cr3) fun _ _ => 0 := by
  obtain ⟨htree, hblank, hsmall⟩ := tables_createNew blank_bootState firstTable_run
  exact ⟨htree, hblank, hsmall⟩

/-- A device and two tables of the firmware. -/
theorem windows_resolve_low :
    EachCall (WindowCall.perform smallPool) noteWindow (Resolves smallPool)
      [.driverMapPages 0xFEB00000 2, .acpiOsMapMemory 0xFEB00FF0 0x20, .mapPhysicalMemory 0x1234 1]
      [] currentTable := by
  have hcalls : ∀ call ∈ [WindowCall.driverMapPages 0xFEB00000 2, .acpiOsMapMemory 0xFEB00FF0 0x20,
      .mapPhysicalMemory 0x1234 1], (call.Valid ∧ call.Aligned) ∧
        call.address + call.length ≤ kernelSectionLength := by
    simp only [List.forall_mem_cons]
    refine ⟨⟨⟨⟨by decide, by decide⟩, rfl⟩, by decide⟩, ⟨⟨⟨by decide, by decide⟩, trivial⟩, by decide⟩,
      ⟨⟨⟨by decide, by decide⟩, trivial⟩, by decide⟩, by simp⟩
  refine (windows_resolve_iff tables_currentTable fun call hcall => (hcalls call hcall).1).mpr
    (staysClear_of_pairwise ?_ (by simp))
  refine List.pairwise_of_forall_mem_list fun earlier hearlier later hlater => ?_
  exact WindowCall.not_hides_of_le (hcalls later hlater).1.1 (hcalls later hlater).2
    (hcalls earlier hearlier).2

/-- Neither condition can be dropped. A page of the ACPI window, 64 GiB behind its start, is mapped
over the first page of the IO window. And `DriverMapPages` of one page from the middle of a page on
maps only the first of the two pages that the range touches. -/
theorem not_windows_resolve :
    (¬ ∀ (pool : Pool) (s : PtState) (E : Unit → List (Fin 512) → BitVec 64),
      Tables pool s (fun _ : Unit => s.cr3) E → ∀ calls : List WindowCall,
      (∀ call ∈ calls, call.Valid ∧ call.Aligned) →
      EachCall (WindowCall.perform pool) noteWindow (Resolves pool) calls [] s) ∧
    ¬ ∀ (pool : Pool) (s : PtState) (E : Unit → List (Fin 512) → BitVec 64),
      Tables pool s (fun _ : Unit => s.cr3) E → ∀ call : WindowCall, call.Valid →
      EachCall (WindowCall.perform pool) noteWindow (Resolves pool) [call] [] s := by
  constructor
  · intro hclaim
    let first := WindowCall.driverMapPages 0 1
    let second := WindowCall.acpiOsMapMemory 0x1000000000 1
    have hcalls : ∀ call ∈ [first, second], call.Valid ∧ call.Aligned := by
      simp only [List.forall_mem_cons]
      exact ⟨⟨⟨by decide, by decide⟩, rfl⟩, ⟨⟨by decide, by decide⟩, trivial⟩, by simp⟩
    have heach := hclaim smallPool currentTable _ tables_currentTable [first, second] hcalls
    have hrun := eq_ok_of_answer (r := (first.perform smallPool).run currentTable)
      (a := 0xFFFF805000000000) (by decide +kernel)
    have hresolves := ((eachCall_cons_of_ok hrun).mp heach).2.1
    have hrun' := eq_ok_of_answer (r := (second.perform smallPool).run
      (final ((first.perform smallPool).run currentTable))) (a := 0xFFFF805000000000) (by decide +kernel)
    have hpointer := hresolves.of_ok hrun' (first, 0xFFFF805000000000) (by simp [noteWindow]) 0 (by decide)
    exact absurd hpointer (by decide +kernel)
  · intro hclaim
    let call := WindowCall.driverMapPages 0x800 1
    have heach := hclaim smallPool currentTable _ tables_currentTable call ⟨by decide, by decide⟩
    have hrun := eq_ok_of_answer (r := (call.perform smallPool).run currentTable)
      (a := 0xFFFF805000000800) (by decide +kernel)
    have hpointer := heach.1.of_ok hrun (call, 0xFFFF805000000800) (by simp [noteWindow]) 0x800 (by decide)
    exact absurd hpointer (by decide +kernel)

end Vsos.Virtual
