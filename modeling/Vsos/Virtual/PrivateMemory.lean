import Vsos.Mem.HandOut
import Vsos.Virtual.Mappings
import Vsos.Virtual.Vmm
import Vsos.Virtual.Watermark

/-!
# The memory that `VMM::Allocate` returns is private

Three invariants meet here. The reservations of a space lie one behind the other, the frames
that were handed out are pairwise different, and mapping a page changes no leaf of another
canonical page. So each page of a returned range keeps a frame of its own for good.
-/

namespace Vsos.Virtual

open Vsos.Lib Vsos.Mem

variable {ι : Type} {m : Machine ι} {memoryMap : List Descriptor} {root : ℕ}
  {s t : VmmState ι} {maps : List (ℕ × ℕ)}

/-- The pages in `maps`, each with a frame: the frames are handed out, and the current table
leads from each page to its frame. -/
structure Backed (m : Machine ι) (memoryMap : List Descriptor) (root : ℕ) (s : VmmState ι)
    (maps : List (ℕ × ℕ)) : Prop where
  physical : ∃ free earlier,
    Inv m.frames memoryMap s.physical free (earlier ++ maps.map Prod.snd)
  tables : ∃ E, Tables m.pool s.tables (fun _ : Unit => root) E ∧
    ∀ p ∈ maps, ∃ isGlobal, E () (pathOf p.1) = pageEntry (p.2 * pageSize) isGlobal
  current : s.tables.cr3 = root
  pages : ∀ p ∈ maps, Canonical p.1 ∧ p.1 % pageSize = 0

/-- The last page of the 64-bit addresses ends with them. -/
theorem add_offset_lt {i offset : ℕ} (h : i * pageSize < 2 ^ 64) (hoffset : offset < pageSize) :
    i * pageSize + offset < 2 ^ 64 := by
  calc
    i * pageSize + offset < i * pageSize + pageSize := Nat.add_lt_add_left hoffset _
    _ = (i + 1) * pageSize := (Nat.succ_mul _ _).symm
    _ ≤ 2 ^ 52 * pageSize := Nat.mul_le_mul_right _ (Nat.lt_of_mul_lt_mul_right h)

section

variable (h : Backed m memoryMap root s maps) (hmap : Suitable m.frames memoryMap)
include h hmap

/-- The addresses of a page resolve to the frame that backs it. -/
theorem Backed.resolveAddress_eq {p : ℕ × ℕ} (hp : p ∈ maps) {offset : ℕ}
    (hoffset : offset < pageSize) :
    resolveAddress m.pool root (p.1 + offset) s.tables = p.2 * pageSize + offset := by
  obtain ⟨free, earlier, hinv⟩ := h.physical
  obtain ⟨E, htables, hleaves⟩ := h.tables
  obtain ⟨isGlobal, hleaf⟩ := hleaves p hp
  obtain ⟨⟨hpresent, -⟩, hframe⟩ := pageEntry_spec (p.2 * pageSize) isGlobal
  have hin : p.2 ∈ earlier ++ maps.map Prod.snd :=
    List.mem_append_right _ (List.mem_map_of_mem hp)
  have haddress := pageAddress_eq ((hinv.handed_ram p.2 hin).lt hmap)
  have hlt : p.2 * pageSize < 2 ^ 64 := haddress ▸ wrap64_lt _
  have haligned := (h.pages p hp).2
  have hpath : pathOf (p.1 + offset) = pathOf p.1 := by
    rw [pathOf_eq_iff]
    simp only [pageSize, pageShift] at haligned hoffset
    omega
  have hlow : (p.1 + offset) % 2 ^ 12 = offset := by
    simp only [pageSize, pageShift] at haligned hoffset
    omega
  have hsum := add_offset_lt hlt hoffset
  rw [← hpath] at hleaf
  rw [htables.resolveAddress_eq () (hleaf ▸ ne_zero_of_getLsbD hpresent), hleaf, hframe,
    frame_ofNat (Nat.mul_mod_left _ _) hlt, hlow, wrap64_of_lt hsum]

/-- One round of the loop gives a frame to a page that has none yet. -/
theorem Backed.page {x pAddr : ℕ} {isGlobal mapped : Bool} {physical : State} {tables : PtState}
    (hcanonical : Canonical x) (haligned : x % pageSize = 0) (hnew : ∀ p ∈ maps, p.1 ≠ x)
    (hframe : (allocatePage m.frames 0).run s.physical = .ok (some pAddr) physical)
    (hmapped : (mapPages m.pool root x pAddr 1 isGlobal).run s.tables = .ok mapped tables) :
    ∃ i, Backed m memoryMap root { s with physical, tables } (maps ++ [(x, i)]) := by
  obtain ⟨free, earlier, hinv⟩ := h.physical
  obtain ⟨E, htables, hleaves⟩ := h.tables
  obtain ⟨i, free', hi, hinv'⟩ := hinv.allocatePage hmap hframe
  injection hi with hi
  have hpaddr : pAddr = i * pageSize :=
    hi.trans (pageAddress_eq ((hinv'.handed_ram i (by simp)).lt hmap))
  have hlt : i * pageSize < 2 ^ 64 := hpaddr ▸ hi ▸ wrap64_lt _
  have hx : x < 2 ^ 64 := by
    rw [Canonical] at hcanonical
    omega
  obtain ⟨-, hcr3, E', htables', hsteps⟩ :=
    (htables.mapPages ⟨(), x, pAddr, 1, isGlobal⟩).of_ok hmapped
  have hpage : (⟨(), x, pAddr, 1, isGlobal⟩ : MapCall Unit).pages = [⟨(), x, i * pageSize, isGlobal⟩] := by
    simp [MapCall.pages, MapCall.page, hpaddr, wrap64_of_lt hlt, wrap64_of_lt hx]
  rw [hpage] at hsteps
  refine ⟨i, ⟨free', earlier, ?_⟩, ⟨E', htables', ?_⟩, hcr3.trans h.current, ?_⟩
  · rwa [List.map_append, ← List.append_assoc]
  · intro p hp
    rcases List.mem_append.mp hp with hp | hp
    · obtain ⟨isGlobal', hleaf⟩ := hleaves p hp
      refine ⟨isGlobal', ?_⟩
      rw [← hleaf]
      refine hsteps.leaf_of_ne rfl fun m' hm' heq => hnew p hp ?_
      rw [List.mem_singleton.mp hm'] at heq
      have hsame := hcanonical.page_eq (h.pages p hp).1 heq
      have haligned' := (h.pages p hp).2
      simp only [pageSize, pageShift] at haligned haligned'
      omega
    · rw [List.mem_singleton.mp hp]
      exact ⟨isGlobal, hsteps.leaf_of_last (l := []) (by simp)⟩
  · intro p hp
    rcases List.mem_append.mp hp with hp | hp
    · exact h.pages p hp
    · rw [List.mem_singleton.mp hp]
      exact ⟨hcanonical, haligned⟩

/-- The loop gives frames to all pages of a range that is canonical and has none yet. -/
theorem Backed.allocateLoop {addr n i : ℕ} {isGlobal : Bool} {u : Unit}
    (haligned : addr % pageSize = 0) (hle : addr + (i + n) * pageSize ≤ 2 ^ 64)
    (hcanonical : ∀ j, i ≤ j → j < i + n → Canonical (addr + j * pageSize))
    (hnew : ∀ p ∈ maps, ∀ j, i ≤ j → j < i + n → p.1 ≠ addr + j * pageSize)
    (hrun : (allocateLoop m root addr isGlobal n i).run s = .ok u t) :
    t.spaces = s.spaces ∧ ∃ maps', maps'.map Prod.fst = (List.range' i n).map (addr + · * pageSize) ∧
      Backed m memoryMap root t (maps ++ maps') := by
  induction n generalizing i s maps with
  | zero =>
    cases hrun
    exact ⟨rfl, [], rfl, by simpa using h⟩
  | succ n ih =>
    obtain ⟨r, s₁, hphysical, hrest⟩ := bind_eq_ok.mp hrun
    obtain ⟨physical, hframe, rfl⟩ := within_eq_ok.mp hphysical
    cases r with
    | none => cases hrest
    | some pAddr =>
      obtain ⟨mapped, s₂, htables, hrest⟩ := bind_eq_ok.mp hrest
      obtain ⟨tables, hmapped, rfl⟩ := within_eq_ok.mp htables
      obtain ⟨-, hrest⟩ := bind_ensure_eq_ok.mp hrest
      have hlt : addr + i * pageSize < 2 ^ 64 := by
        simp only [pageSize, pageShift] at hle ⊢
        omega
      rw [wrap64_of_lt (n := i * pageSize) (by omega), wrap64_of_lt hlt] at hmapped
      obtain ⟨frame, hbacked⟩ := h.page hmap (hcanonical i (le_refl i) (by omega))
        (by rw [Nat.add_mul_mod_self_right, haligned])
        (fun p hp => hnew p hp i (le_refl i) (by omega)) hframe hmapped
      have hnext : i + (n + 1) = i + 1 + n := by omega
      obtain ⟨hspaces, maps', hfst, hbacked'⟩ := ih hbacked
        (hnext ▸ hle)
        (fun j hj hj' => hcanonical j (by omega) (by omega)) (by
          intro p hp j hj hj'
          rcases List.mem_append.mp hp with hp | hp
          · exact hnew p hp j (by omega) (by omega)
          · rw [List.mem_singleton.mp hp]
            simp only [pageSize, pageShift]
            omega) hrest
      refine ⟨hspaces, (addr + i * pageSize, frame) :: maps', ?_, ?_⟩
      · rw [List.map_cons, hfst, List.range'_succ, List.map_cons]
      · simpa using hbacked'

end

/-- A range whose pages are all canonical stays in one half. -/
theorem inHalf_of_canonical {a n : ℕ} (ha : a % pageSize = 0) (hle : a + n * pageSize ≤ 2 ^ 64)
    (hn : n ≠ 0) (h : ∀ i < n, Canonical (a + i * pageSize)) : InHalf a (n * pageSize) := by
  have hfirst := h 0 (Nat.pos_of_ne_zero hn)
  simp only [Canonical, InHalf, pageSize, pageShift] at *
  by_cases hlow : a < 2 ^ 47
  · by_contra hout
    -- the page at the end of the lower half
    have hmiddle := h ((2 ^ 47 - a) / 4096) (by omega)
    omega
  · omega

/-- No address belongs to two of the address spaces. -/
def SpacesDisjoint (m : Machine ι) : Prop :=
  ∀ i j, i ≠ j → ∀ x, ¬ (((m.space i).start ≤ x ∧ x < (m.space i).stop) ∧
    (m.space j).start ≤ x ∧ x < (m.space j).stop)

/-- The backed pages belong to the address spaces and lie in front of their watermarks. -/
structure Private (m : Machine ι) (memoryMap : List Descriptor) (root : ℕ) (s : VmmState ι)
    (top : ι → ℕ) (maps : List (ℕ × ℕ)) : Prop extends Backed m memoryMap root s maps where
  grids : ∀ i, Grid (m.space i) (s.spaces i) (top i)
  placed : ∀ p ∈ maps, ∃ i, (m.space i).start ≤ p.1 ∧ p.1 < (m.space i).stop ∧ p.1 < top i

section Calls

variable [DecidableEq ι] {top : ι → ℕ}

/-- A range at the watermark of its space has no page that is backed already. -/
theorem Private.ne_of_top (h : Private m memoryMap root s top maps) (hspaces : SpacesDisjoint m)
    {i : ι} {n : ℕ} (hstart : (m.space i).start ≤ top i)
    (hfits : top i + n * pageSize ≤ (m.space i).stop) {p : ℕ × ℕ} (hp : p ∈ maps) {j : ℕ}
    (hj : j < n) : p.1 ≠ top i + j * pageSize := by
  intro heq
  obtain ⟨i', hlow, hhigh, hfront⟩ := h.placed p hp
  by_cases hi : i' = i
  · rw [hi] at hfront
    omega
  · have hmul : j * pageSize < n * pageSize := Nat.mul_lt_mul_of_pos_right hj (by decide)
    exact hspaces i' i hi p.1 ⟨⟨hlow, hhigh⟩, by omega, by omega⟩

section

variable (h : Private m memoryMap root s top maps) (hmap : Suitable m.frames memoryMap)
  (hspaces : SpacesDisjoint m)
include h hmap hspaces

/-- A call of `VMM::Allocate` that returns a range inside of its space backs its pages. -/
theorem Private.vmmAllocate {i : ι} {n : ℕ} {r : Option ℕ}
    (hrun : (vmmAllocate m 0 n i).run s = .ok r t) (hfits : ∀ a ∈ r, (⟨i, a, n⟩ : Range ι).Fits m) :
    ∃ top' maps', maps'.map Prod.fst = r.elim [] (fun a => (⟨i, a, n⟩ : Range ι).pages) ∧
      Private m memoryMap root t top' (maps ++ maps') := by
  obtain ⟨-, hrest⟩ := bind_ensure_eq_ok.mp hrun
  obtain ⟨reserved, s₂, hspace, hrest⟩ := bind_eq_ok.mp hrest
  obtain ⟨space, hreserve, rfl⟩ := within_eq_ok.mp hspace
  have hgrid := h.grids i
  obtain ⟨-, ⟨rfl, rfl, -⟩ | ⟨a, rfl, rfl, hplaced⟩⟩ :=
    reserve_ok (hgrid.watermark ▸ wrap64_lt _) hreserve
  · cases hrest
    refine ⟨top, [], rfl, ?_⟩
    simpa only [Function.update_eq_self, List.append_nil] using h
  · rw [bind_look] at hrest
    obtain ⟨_, s₃, hloop, hrest⟩ := bind_eq_ok.mp hrest
    obtain ⟨hcanonical, hend⟩ := bind_ensure_eq_ok.mp hrest
    cases hend
    have hstart : (m.space i).start ≤ a := (hfits a rfl).1
    have hstop : a + n * pageSize ≤ (m.space i).stop := (hfits a rfl).2
    have hlt := (m.space i).stop_lt
    have hlength : wrap64 (n * pageSize) / pageSize = n := by
      rw [wrap64_of_lt (by omega), Nat.mul_div_cancel _ (by decide)]
    have hpages : ∀ j < n, Canonical (a + j * pageSize) := by
      intro j hj
      have hmul : j * pageSize < n * pageSize := Nat.mul_lt_mul_of_pos_right hj (by decide)
      have hcanonical' := hcanonical j (hlength.symm ▸ hj)
      rwa [wrap64_of_lt (by omega)] at hcanonical'
    have hhalf := inHalf_of_canonical hplaced.2.1 (by omega) hplaced.1 hpages
    obtain rfl := hgrid.eq_top hplaced hstop (by rw [InHalf] at hhalf; omega)
    obtain ⟨top', htop, hgrid'⟩ := hgrid.place hstop hhalf
    have hcurrent : Backed m memoryMap root
        { s with spaces := Function.update s.spaces i ((s.spaces i).place 0 (top i) n) } maps :=
      ⟨h.physical, h.tables, h.current, h.pages⟩
    obtain ⟨hsame, maps', hfst, hbacked⟩ := hcurrent.allocateLoop hmap hplaced.2.1
      (by rw [Nat.zero_add]; omega) (fun j _ hj => hpages j (by omega))
      (fun p hp j _ hj => h.ne_of_top hspaces hstart hstop hp (by omega)) (h.current ▸ hloop)
    rw [← List.range_eq_range'] at hfst
    refine ⟨Function.update top i top', maps', hfst, hbacked, ?_, ?_⟩
    · intro i'
      rw [hsame]
      by_cases hi : i' = i
      · subst hi
        simpa only [Function.update_self] using hgrid'
      · simpa only [Function.update_of_ne hi] using h.grids i'
    · intro p hp
      rcases List.mem_append.mp hp with hp | hp
      · obtain ⟨i', hlow, hhigh, hfront⟩ := h.placed p hp
        refine ⟨i', hlow, hhigh, ?_⟩
        by_cases hi : i' = i
        · subst hi
          rw [Function.update_self]
          omega
        · rwa [Function.update_of_ne hi]
      · have hin := hfst ▸ List.mem_map_of_mem hp
        obtain ⟨j, hj, heq⟩ := List.mem_map.mp hin
        have hmul : j * pageSize < n * pageSize :=
          Nat.mul_lt_mul_of_pos_right (List.mem_range.mp hj) (by decide)
        exact ⟨i, by omega, by omega, by rw [Function.update_self]; omega⟩

/-- A sequence of calls backs the pages of all ranges it returns. -/
theorem Private.vmmCalls {calls : List (ι × ℕ)} {ranges : List (Range ι)}
    (hrun : (vmmCalls m calls).run s = .ok ranges t) (hfits : ∀ r ∈ ranges, r.Fits m) :
    ∃ top' maps', maps'.map Prod.fst = ranges.flatMap Range.pages ∧
      Private m memoryMap root t top' (maps ++ maps') := by
  induction calls generalizing s top maps ranges with
  | nil =>
    cases hrun
    exact ⟨top, [], rfl, by rwa [List.append_nil]⟩
  | cons call rest ih =>
    obtain ⟨r, s₁, hcall, hrest⟩ := bind_eq_ok.mp hrun
    cases r with
    | none =>
      obtain ⟨top₁, maps₁, hfst, h₁⟩ := h.vmmAllocate hmap hspaces hcall (by simp)
      rw [Option.elim_none, List.map_eq_nil_iff] at hfst
      rw [hfst, List.append_nil] at h₁
      exact ih h₁ hrest hfits
    | some a =>
      obtain ⟨later, hlater, rfl⟩ := bind_pure_eq_ok.mp hrest
      rw [List.forall_mem_cons] at hfits
      obtain ⟨top₁, maps₁, hfst, h₁⟩ := h.vmmAllocate hmap hspaces hcall (by simpa using hfits.1)
      obtain ⟨top₂, maps₂, hfst', h₂⟩ := ih h₁ hlater hfits.2
      refine ⟨top₂, maps₁ ++ maps₂, ?_, by rwa [← List.append_assoc]⟩
      rw [List.map_append, hfst, hfst', Option.elim_some, List.flatMap_cons]

end

end Calls

/-- The state from which the calls start: the physical memory manager after `Initialize` and any
requests, a current table that was created in a blank pool and through which any ranges have been
mapped, and address spaces that have just been initialized. -/
structure Started (m : Machine ι) (memoryMap : List Descriptor) (root : ℕ) (s : VmmState ι) :
    Prop where
  physical : ∃ raw ready requests, (pmmInitialize m.frames memoryMap).run raw = .ok () ready ∧
    (performAll m.frames requests).run ready = .ok () s.physical
  tables : ∃ boot new calls old, Blank m.pool boot ∧ (createNew m.pool).run boot = .ok root new ∧
    (mapCalls m.pool (fun _ : Unit => root) calls).run new = .ok () old ∧
    s.tables = { old with cr3 := root }
  spaces : ∀ i, vasInitialize.run (m.space i).construct = .ok () (s.spaces i)

/-- The tables do not depend on the register of the root. -/
theorem Tables.setRoot {pool : Pool} {s : PtState} {roots : Unit → ℕ}
    {E : Unit → List (Fin 512) → BitVec 64} (h : Tables pool s roots E) (cr3 : ℕ) :
    Tables pool { s with cr3 } roots E := ⟨h.toForest, h.blank, h.small⟩

/-- Nothing is shared after the start. -/
theorem Started.private (h : Started m memoryMap root s)
    (hdisjoint : memoryMap.Pairwise fun a b => ∀ index, a.Covers index → ¬ b.Covers index) :
    Suitable m.frames memoryMap ∧
      Private m memoryMap root s (fun i => (m.space i).construct.watermark) [] := by
  obtain ⟨raw, ready, requests, hready, hrequests⟩ := h.physical
  obtain ⟨boot, new, calls, old, hblank, hnew, hcalls, htables⟩ := h.tables
  have hmap := suitable_of_pmmInitialize hready hdisjoint
  obtain ⟨free, hbuilt⟩ := built_of_pmmInitialize hmap hready
  obtain ⟨free', handed, hinv⟩ := hbuilt.inv.performAll hmap hrequests
  obtain ⟨-, E, hE, -⟩ := ((tables_createNew hblank hnew).mapCalls calls).of_ok hcalls
  refine ⟨hmap, ⟨⟨free', handed, ?_⟩, ⟨E, ?_, by simp⟩, ?_, by simp⟩, ?_, by simp⟩
  · simpa using hinv
  · rw [htables]
    exact hE.setRoot root
  · rw [htables]
  · exact fun i => grid_vasInitialize (h.spaces i)

/-- Whatever ranges a sequence of calls returns inside of disjoint address spaces, their pages
resolve to pairwise different physical pages of conventional memory, and the addresses of the
ranges that were returned earlier resolve as they did before the later calls. -/
theorem vmmAllocate_private [DecidableEq ι] (hstart : Started m memoryMap root s)
    (hdisjoint : memoryMap.Pairwise fun a b => ∀ index, a.Covers index → ¬ b.Covers index)
    (hspaces : SpacesDisjoint m) {calls laterCalls : List (ι × ℕ)} {ranges later : List (Range ι)}
    {u : VmmState ι} (hrun : (vmmCalls m calls).run s = .ok ranges t)
    (hlater : (vmmCalls m laterCalls).run t = .ok later u)
    (hfits : ∀ r ∈ ranges ++ later, r.Fits m) :
    (((ranges ++ later).flatMap Range.pages).map (resolveAddress m.pool root · u.tables)).Nodup ∧
      (∀ page ∈ (ranges ++ later).flatMap Range.pages,
        resolveAddress m.pool root page u.tables % pageSize = 0 ∧ ∃ desc ∈ memoryMap,
          desc.type = .EfiConventionalMemory ∧
            desc.Covers (resolveAddress m.pool root page u.tables / pageSize)) ∧
      ∀ page ∈ ranges.flatMap Range.pages, ∀ offset < pageSize,
        resolveAddress m.pool root (page + offset) u.tables =
          resolveAddress m.pool root (page + offset) t.tables := by
  obtain ⟨hmap, hprivate⟩ := hstart.private hdisjoint
  rw [List.forall_mem_append] at hfits
  obtain ⟨top₁, maps₁, hfst₁, h₁⟩ := hprivate.vmmCalls hmap hspaces hrun hfits.1
  obtain ⟨top₂, maps₂, hfst₂, h₂⟩ := h₁.vmmCalls hmap hspaces hlater hfits.2
  have hpages : (ranges ++ later).flatMap Range.pages = (maps₁ ++ maps₂).map Prod.fst := by
    rw [List.flatMap_append, List.map_append, hfst₁, hfst₂]
  have hresolve : ∀ p ∈ maps₁ ++ maps₂,
      resolveAddress m.pool root p.1 u.tables = p.2 * pageSize := by
    intro p hp
    have hpage := h₂.resolveAddress_eq hmap hp (show 0 < pageSize by decide)
    rwa [Nat.add_zero, Nat.add_zero] at hpage
  obtain ⟨free, earlier, hinv⟩ := h₂.physical
  refine ⟨?_, ?_, ?_⟩
  · have hframes : ((maps₁ ++ maps₂).map Prod.snd).Nodup :=
      (List.nodup_append.mp hinv.handed_nodup).2.1
    have heq : ((ranges ++ later).flatMap Range.pages).map (resolveAddress m.pool root · u.tables) =
        ((maps₁ ++ maps₂).map Prod.snd).map (· * pageSize) := by
      rw [hpages, List.map_map, List.map_map]
      exact List.map_congr_left hresolve
    rw [heq]
    exact hframes.map fun i j h => Nat.eq_of_mul_eq_mul_right (by decide) h
  · intro page hpage
    rw [hpages] at hpage
    obtain ⟨p, hp, rfl⟩ := List.mem_map.mp hpage
    rw [hresolve p hp, Nat.mul_mod_left, Nat.mul_div_cancel _ (by decide)]
    exact ⟨rfl, hinv.handed_ram p.2 (List.mem_append_right _ (List.mem_map_of_mem hp))⟩
  · intro page hpage offset hoffset
    rw [← hfst₁] at hpage
    obtain ⟨p, hp, rfl⟩ := List.mem_map.mp hpage
    rw [h₁.resolveAddress_eq hmap hp hoffset,
      h₂.resolveAddress_eq hmap (List.mem_append_left _ hp) hoffset]

/-- The user space and sixteen megabytes of the kernel. -/
def twoSpaces : Machine Bool where
  frames := twelveFrames
  pool := smallPool
  space := fun kernel => bif kernel then
    ⟨0xFFFF802000000000, 0xFFFF802001000000, true, by decide, by decide⟩ else userSpace

/-- Both spaces without reservations, before the physical memory manager is initialized. -/
def twoSpacesState : VmmState Bool where
  physical := rawState
  tables := { firstTable with cr3 := 0x101000 }
  spaces := fun kernel => ⟨[], bif kernel then 0xFFFF802000000000 else 0x140000000, true⟩

/-- Two pages for the user and one for the kernel, and then another one for the user. -/
theorem vmmAllocate_private_twoSpaces :
    ∃ s t u, Started twoSpaces gapMap 0x101000 s ∧ SpacesDisjoint twoSpaces ∧
      (vmmCalls twoSpaces [(false, 2), (true, 1)]).run s =
        .ok [⟨false, 0x140000000, 2⟩, ⟨true, 0xFFFF802000000000, 1⟩] t ∧
      (vmmCalls twoSpaces [(false, 1)]).run t = .ok [⟨false, 0x140004000, 1⟩] u ∧
      resolveAddress smallPool 0x101000 0x140001234 u.tables =
        resolveAddress smallPool 0x101000 0x140001234 t.tables := by
  have hrun := eq_ok_of_answer (r := (do
      onPhysical (pmmInitialize twelveFrames gapMap)
      let ranges ← vmmCalls twoSpaces [(false, 2), (true, 1)]
      let later ← vmmCalls twoSpaces [(false, 1)]
      return (ranges, later) : VmmM Bool _).run twoSpacesState)
    (a := ([⟨false, 0x140000000, 2⟩, ⟨true, 0xFFFF802000000000, 1⟩], [⟨false, 0x140004000, 1⟩]))
    (by decide +kernel)
  obtain ⟨_, s, hphysical, hrest⟩ := bind_eq_ok.mp hrun
  obtain ⟨ready, hready, rfl⟩ := within_eq_ok.mp hphysical
  obtain ⟨ranges, t, hcalls, hrest⟩ := bind_eq_ok.mp hrest
  obtain ⟨later, u, hlater, hend⟩ := bind_eq_ok.mp hrest
  injection hend with hpair _
  injection hpair with hranges hlater'
  subst hranges hlater'
  have hstarted : Started twoSpaces gapMap 0x101000 { twoSpacesState with physical := ready } := by
    refine ⟨⟨rawState, ready, [], hready, rfl⟩,
      ⟨bootState, firstTable, [], firstTable, blank_bootState, firstTable_run, rfl, rfl⟩, ?_⟩
    intro kernel
    cases kernel <;> rfl
  have hspaces : SpacesDisjoint twoSpaces := by
    intro i j hij x hx
    cases i <;> cases j <;> simp [twoSpaces, userSpace] at hij hx <;> omega
  have hprivate := vmmAllocate_private hstarted gapMap_wellFormed.disjoint hspaces hcalls hlater
    (by decide)
  refine ⟨_, t, u, hstarted, hspaces, hcalls, hlater, ?_⟩
  exact hprivate.2.2 0x140001000 (by decide) 0x234 (by decide)

end Vsos.Virtual
