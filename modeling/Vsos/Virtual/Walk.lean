import Mathlib.Data.BitVec
import Vsos.Lib.Radix
import Vsos.Lib.Triple
import Vsos.Virtual.PageTables

/-!
# Page tables as radix trees

The tables under a root are a radix tree of height four whose tables are pages of the pool.
`MapPage` attaches the tables that are missing on the walk of an address and then writes one
leaf. It stops only when the pool has run out of pages. Several roots may share tables, and
the invariant is about all of them at once.
-/

namespace Vsos.Virtual

open Vsos.Lib Vsos.Mem Relation

variable {pool : Pool} {s t : PtState} {a address i : ℕ}

/-- The physical address of a page of the pool. -/
def Pool.page (pool : Pool) (i : ℕ) : ℕ := pool.physicalBase + i * pageSize

/-- The page at a physical address is a page of the pool that has been handed out. -/
def InUse (pool : Pool) (s : PtState) (table : ℕ) : Prop :=
  ∃ i, 1 ≤ i ∧ i < pool.count ∧ s.index i = true ∧ table = pool.page i

/-- The entries of a table. -/
def contents (pool : Pool) (s : PtState) (table : ℕ) (k : Fin 512) : BitVec 64 :=
  s.mem (slot pool table k)

/-- The pages that have not been handed out are zero. -/
def Blank (pool : Pool) (s : PtState) : Prop :=
  ∀ i, 1 ≤ i → i < pool.count → s.index i = false → ∀ k, contents pool s (pool.page i) k = 0

/-- All pages have been handed out. -/
def Exhausted (pool : Pool) (s : PtState) : Prop := ∀ i, 1 ≤ i → i < pool.count → s.index i = true

/-- A page of the pool has a 64-bit address. -/
theorem Pool.page_lt (pool : Pool) (hi : i < pool.count) : pool.page i < 2 ^ 64 := by
  have hle := pool.physical_le
  have hmul : i * pageSize < pool.count * pageSize := Nat.mul_lt_mul_of_pos_right hi (by decide)
  rw [page]
  omega

/-- A page of the pool is aligned. -/
theorem Pool.page_mod (pool : Pool) (i : ℕ) : pool.page i % pageSize = 0 := by
  rw [page, Nat.add_mul_mod_self_right, pool.aligned]

/-- A page behind the index is not at address zero. -/
theorem Pool.page_ne_zero (pool : Pool) (hi : 1 ≤ i) : pool.page i ≠ 0 := by
  rw [page]
  have hpos : 0 < i * pageSize := Nat.mul_pos hi (by decide)
  omega

/-- Different numbers are different pages. -/
theorem Pool.page_injective {j : ℕ} (h : pool.page i = pool.page j) : i = j :=
  Nat.eq_of_mul_eq_mul_right (show 0 < pageSize by decide) (Nat.add_left_cancel h)

/-- Where a page of the pool is mapped. -/
theorem getVirtualAddress_page (hi : i < pool.count) :
    getVirtualAddress pool (pool.page i) = pool.virtualBase + i * pageSize := by
  have hle := pool.virtual_le
  have hmul : i * pageSize < pool.count * pageSize := Nat.mul_lt_mul_of_pos_right hi (by decide)
  have hsub : pool.page i - pool.physicalBase = i * pageSize := Nat.add_sub_cancel_left _ _
  have hinside : ¬ pool.page i < pool.physicalBase := not_lt.mpr (Nat.le_add_right _ _)
  rw [getVirtualAddress, if_neg hinside, hsub, wrap64_of_lt (by omega), Nat.add_comm]

/-- Where the entries of a page of the pool are. -/
theorem slot_page (hi : i < pool.count) (k : Fin 512) :
    slot pool (pool.page i) k = pool.virtualBase + i * pageSize + 8 * k := by
  have hle := pool.virtual_le
  have hnext : (i + 1) * pageSize ≤ pool.count * pageSize := Nat.mul_le_mul_right _ hi
  have hsize : pageSize = 4096 := rfl
  rw [Nat.succ_mul] at hnext
  rw [slot, getVirtualAddress_page hi, wrap64_of_lt (by omega)]

/-- Different entries of pages of the pool have different addresses. -/
theorem slot_injective {j : ℕ} (hi : i < pool.count) (hj : j < pool.count) {k l : Fin 512}
    (h : slot pool (pool.page i) k = slot pool (pool.page j) l) : i = j ∧ k = l := by
  rw [slot_page hi, slot_page hj] at h
  simp only [pageSize, pageShift] at h
  exact ⟨by omega, Fin.ext (by omega)⟩

section Entries

/-- The bits of an entry that leads to a table. -/
def IsDirectory (global : Bool) (e : BitVec 64) : Prop :=
  e.getLsbD 0 = true ∧ e.getLsbD 1 = true ∧ e.getLsbD 2 = !global ∧ e.getLsbD 7 = false

/-- A word with a bit is not zero. -/
theorem ne_zero_of_getLsbD {e : BitVec 64} (h : e.getLsbD i = true) : e ≠ 0 := by
  rintro rfl
  simp at h

/-- The frame of an aligned address. -/
theorem frame_ofNat (haligned : a % pageSize = 0) (hlt : a < 2 ^ 64) :
    frame (BitVec.ofNat 64 a) = a := by
  rw [frame_eq, BitVec.toNat_ofNat, Nat.mod_eq_of_lt hlt]
  exact Nat.div_mul_cancel (Nat.dvd_of_mod_eq_zero haligned)

/-- An aligned address does not look like a large page. -/
theorem getLsbD_seven (haligned : a % pageSize = 0) :
    (BitVec.ofNat 64 a).getLsbD 7 = false := by
  rw [BitVec.getLsbD_ofNat, Nat.testBit_eq_decide_div_mod_eq]
  simp only [pageSize, pageShift] at haligned
  simp only [Nat.reducePow, Bool.and_eq_false_imp, decide_eq_true_eq, decide_eq_false_iff_not]
  omega

/-- The bits and the frame of a new entry, whatever bits it gets after the common ones. -/
theorem commonEntry_bits (a : ℕ) (global : Bool) :
    (commonEntry a global).getLsbD 0 = true ∧ (commonEntry a global).getLsbD 1 = true ∧
      (commonEntry a global).getLsbD 2 = (!global) ∧
      (commonEntry a global).getLsbD 7 = (BitVec.ofNat 64 a).getLsbD 7 ∧
      frame (commonEntry a global) = frame (BitVec.ofNat 64 a) := by
  rw [commonEntry]
  refine ⟨?_, ?_, ?_, ?_, ?_⟩
  · rw [getLsbD_putBit_of_ne, getLsbD_putBit_of_ne, getLsbD_putBit_self] <;> decide
  · rw [getLsbD_putBit_of_ne, getLsbD_putBit_self] <;> decide
  · rw [getLsbD_putBit_self]
    decide
  · rw [getLsbD_putBit_of_ne, getLsbD_putBit_of_ne, getLsbD_putBit_of_ne] <;> decide
  · rw [frame_putBit, frame_putBit, frame_putBit] <;> decide

/-- The entry of a new table. -/
theorem directoryEntry_spec (global : Bool) (haligned : a % pageSize = 0) (hlt : a < 2 ^ 64) :
    IsDirectory global (directoryEntry a global) ∧ frame (directoryEntry a global) = a := by
  obtain ⟨h0, h1, h2, h7, hframe⟩ := commonEntry_bits a global
  exact ⟨⟨h0, h1, h2, h7.trans (getLsbD_seven haligned)⟩, hframe.trans (frame_ofNat haligned hlt)⟩

/-- The entry of an existing table. -/
theorem accessedEntry_spec (global : Bool) (haligned : a % pageSize = 0) (hlt : a < 2 ^ 64) :
    IsDirectory global (accessedEntry a global) ∧ frame (accessedEntry a global) = a := by
  obtain ⟨h0, h1, h2, h7, hframe⟩ := commonEntry_bits a global
  rw [accessedEntry, frame_putBit _ _ (by decide), hframe, frame_ofNat haligned hlt]
  have hkeep : ∀ j, j ≠ 5 → j < 64 →
      (putBit (commonEntry a global) 5 true).getLsbD j = (commonEntry a global).getLsbD j :=
    fun j => getLsbD_putBit_of_ne _ true
  refine ⟨⟨?_, ?_, ?_, ?_⟩, rfl⟩
  · rw [hkeep 0 (by decide) (by decide), h0]
  · rw [hkeep 1 (by decide) (by decide), h1]
  · rw [hkeep 2 (by decide) (by decide), h2]
  · rw [hkeep 7 (by decide) (by decide), h7, getLsbD_seven haligned]

/-- The bits and the frame of a leaf. -/
theorem pageEntry_spec (p : ℕ) (global : Bool) :
    ((pageEntry p global).getLsbD 0 = true ∧ (pageEntry p global).getLsbD 1 = true ∧
      (pageEntry p global).getLsbD 2 = !global) ∧
      frame (pageEntry p global) = frame (BitVec.ofNat 64 p) := by
  obtain ⟨h0, h1, h2, -, hframe⟩ := commonEntry_bits p global
  rw [pageEntry, frame_putBit _ _ (by decide), hframe]
  have hkeep : ∀ j, j ≠ 8 → j < 64 →
      (putBit (commonEntry p global) 8 global).getLsbD j = (commonEntry p global).getLsbD j :=
    fun j => getLsbD_putBit_of_ne _ global
  refine ⟨⟨?_, ?_, ?_⟩, rfl⟩
  · rw [hkeep 0 (by decide) (by decide), h0]
  · rw [hkeep 1 (by decide) (by decide), h1]
  · rw [hkeep 2 (by decide) (by decide), h2]

end Entries

section Pool

/-- The loop takes the first page that is free, or finds none. -/
theorem poolLoop_spec {n : ℕ} (hi : 1 ≤ i) (hn : i + n ≤ pool.count) :
    Ensures (poolLoop pool n i) s (fun r t =>
      (r = none ∧ t = s ∧ ∀ j, i ≤ j → j < i + n → s.index j = true) ∨
        ∃ j, r = some (pool.page j) ∧ i ≤ j ∧ j < i + n ∧ s.index j = false ∧
          t = { s with index := Function.update s.index j true }) (fun _ => False) := by
  induction n generalizing i with
  | zero => exact Ensures.pure (Or.inl ⟨rfl, rfl, fun j hle hlt => by omega⟩)
  | succ n ih =>
    refine Ensures.bind_look ?_
    by_cases htaken : s.index i = true
    · rw [if_pos htaken]
      refine (ih (by omega) (by omega)).mono ?_ fun _ h => h
      rintro r t (⟨hr, ht, hall⟩ | ⟨j, hr, hle, hlt, hfree, ht⟩)
      · refine Or.inl ⟨hr, ht, fun j hle hlt => ?_⟩
        rcases Nat.eq_or_lt_of_le hle with rfl | hle
        · exact htaken
        · exact hall j hle (by omega)
      · exact Or.inr ⟨j, hr, by omega, by omega, hfree, ht⟩
    · rw [if_neg htaken]
      refine Ensures.bind_change (Ensures.pure (Or.inr ⟨i, ?_, le_rfl, by omega,
        by simpa using htaken, rfl⟩))
      rw [← wrap64_of_lt (pool.page_lt (by omega))]
      rfl

/-- `AllocatePage` hands out a free page of the pool, unless there is none. -/
theorem poolAllocatePage_spec :
    Ensures (poolAllocatePage pool) s (fun r t =>
      (r = none ∧ t = s ∧ Exhausted pool s) ∨
        ∃ j, r = some (pool.page j) ∧ 1 ≤ j ∧ j < pool.count ∧ s.index j = false ∧
          t = { s with index := Function.update s.index j true }) (fun _ => False) := by
  by_cases hcount : pool.count = 0
  · rw [poolAllocatePage, hcount]
    exact Ensures.pure (Or.inl ⟨rfl, rfl, fun i _ hi => by omega⟩)
  · refine (poolLoop_spec le_rfl (by omega)).mono ?_ fun _ h => h
    rintro r t (⟨hr, ht, hall⟩ | ⟨j, hr, hle, hlt, hfree, ht⟩)
    · exact Or.inl ⟨hr, ht, fun i hle hlt => hall i hle (by omega)⟩
    · exact Or.inr ⟨j, hr, hle, by omega, hfree, ht⟩

end Pool

section Write

variable {u : PtState} {table : ℕ} {k : Fin 512} {e : BitVec 64}

/-- Writing an entry of a page that is in use changes no other entry of such a page. -/
theorem puts_write (ht : InUse pool s table)
    (hmem : u.mem = Function.update s.mem (slot pool table k) e)
    (hindex : ∀ i, s.index i = true → u.index i = true) :
    Puts (InUse pool s) (InUse pool u) (contents pool s) (contents pool u) table k e where
  still_used := fun _ ⟨i, hle, hlt, hi, heq⟩ => ⟨i, hle, hlt, hindex i hi, heq⟩
  here := by rw [contents, hmem, Function.update_self]
  elsewhere := by
    rintro _ k' ⟨j, -, hj, -, rfl⟩ hne
    obtain ⟨i, -, hi, -, rfl⟩ := ht
    rw [contents, hmem, Function.update_of_ne, contents]
    intro heq
    obtain ⟨rfl, rfl⟩ := slot_injective hj hi heq
    simp at hne

/-- The pages that are not in use stay zero. -/
theorem Blank.write (h : Blank pool s) (ht : InUse pool s table)
    (hmem : u.mem = Function.update s.mem (slot pool table k) e)
    (hindex : ∀ i, s.index i = true → u.index i = true) : Blank pool u := by
  intro j hle hj hfree k'
  obtain ⟨i, -, hi, hused, rfl⟩ := ht
  have hfree' : s.index j = false := by
    by_contra hne
    rw [hindex j (by simpa using hne)] at hfree
    cases hfree
  rw [contents, hmem, Function.update_of_ne]
  · exact h j hle hj hfree' k'
  · intro heq
    obtain ⟨rfl, -⟩ := slot_injective hj hi heq
    rw [hused] at hfree'
    cases hfree'

/-- One level of `MapPage`: the entry is there, or a blank page of the pool is attached. -/
theorem openEntry_spec {global : Bool} {entry : ℕ → BitVec 64}
    (hentry : ∀ a, a % pageSize = 0 → a < 2 ^ 64 → IsDirectory global (entry a) ∧ frame (entry a) = a)
    (ht : InUse pool s table) (hblank : Blank pool s) :
    Ensures (openEntry pool (slot pool table k) entry) s (fun e u =>
      u.cr3 = s.cr3 ∧ Blank pool u ∧ e = contents pool u table k ∧ ((u = s ∧ e ≠ 0) ∨
        (contents pool s table k = 0 ∧ IsDirectory global e ∧
          Puts (InUse pool s) (InUse pool u) (contents pool s) (contents pool u) table k e ∧
          Attaches frame (InUse pool s) (InUse pool u) (contents pool u) e))) (Exhausted pool) := by
  refine Ensures.bind_look ?_
  by_cases hzero : s.mem (slot pool table k) = 0#64
  · rw [if_pos hzero]
    refine Ensures.bind (poolAllocatePage_spec.mono (fun _ _ h => h) fun _ h => h.elim) ?_
    rintro _ _ (⟨rfl, rfl, hall⟩ | ⟨j, rfl, hle, hj, hfree, rfl⟩)
    · exact Ensures.throw hall
    · obtain ⟨hdirectory, hframe⟩ := hentry _ (pool.page_mod j) (pool.page_lt hj)
      let u : PtState := ⟨Function.update s.index j true,
        Function.update s.mem (slot pool table k) (entry (pool.page j)), s.cr3⟩
      have hindex : ∀ i, s.index i = true → u.index i = true := by
        intro i hi
        by_cases hij : i = j
        · exact hij ▸ Function.update_self ..
        · exact (Function.update_of_ne hij _ _).trans hi
      have hput : Puts (InUse pool s) (InUse pool u) (contents pool s) (contents pool u) table k
          (entry (pool.page j)) := puts_write ht rfl hindex
      have hattach : Attaches frame (InUse pool s) (InUse pool u) (contents pool u)
          (entry (pool.page j)) := by
        refine ⟨ne_zero_of_getLsbD hdirectory.1, ?_, ?_, ?_⟩ <;> rw [hframe]
        · rintro ⟨i, -, hi, hused, heq⟩
          rw [← Pool.page_injective heq, hfree] at hused
          cases hused
        · exact ⟨j, hle, hj, Function.update_self .., rfl⟩
        · intro k'
          obtain ⟨i, -, hi, hused, rfl⟩ := ht
          rw [contents, show u.mem = Function.update s.mem _ _ from rfl, Function.update_of_ne]
          · exact hblank j hle hj hfree k'
          · intro heq
            obtain ⟨rfl, -⟩ := slot_injective hj hi heq
            rw [hused] at hfree
            cases hfree
      have hhere : u.mem (slot pool table k) = entry (pool.page j) := Function.update_self ..
      refine Ensures.bind_change (Ensures.look ?_)
      refine ⟨rfl, hblank.write ht rfl hindex, rfl, Or.inr ⟨hzero, ?_⟩⟩
      rw [hhere]
      exact ⟨hdirectory, hput, hattach⟩
  · rw [if_neg hzero]
    exact Ensures.pure ⟨rfl, hblank, rfl, Or.inl ⟨rfl, hzero⟩⟩

end Write

/-- The page tables under some roots: radix trees of height four in pages of the pool, in which
no directory claims to be a large page; the pages that are not in use are zero. -/
structure Tables {ρ : Type} (pool : Pool) (s : PtState) (roots : ρ → ℕ)
    (E : ρ → List (Fin 512) → BitVec 64) : Prop
    extends Forest frame 4 (InUse pool s) (contents pool s) roots E where
  blank : Blank pool s
  small : ∀ r π, E r π ≠ 0 → π.length < 4 → (E r π).getLsbD 7 = false

/-- The indices on the walk of an address, the lowest level first. -/
def pathOf (address : ℕ) : List (Fin 512) :=
  [index1 address, index2 address, index3 address, index4 address]

section Map

variable {ρ : Type} {roots : ρ → ℕ} {E : ρ → List (Fin 512) → BitVec 64} {r : ρ}
  {q π : List (Fin 512)} {k : Fin 512} {global : Bool}

/-- One level of `MapPage` on the tables under some roots. -/
theorem Tables.openEntry (h : Tables pool s roots E) {entry : ℕ → BitVec 64}
    (hentry : ∀ a, a % pageSize = 0 → a < 2 ^ 64 → IsDirectory global (entry a) ∧ frame (entry a) = a)
    (hπ : Live (E r) π) (hlen : π.length < 3) (hsuffix : k :: π <:+ q) (hne : k :: π ≠ q) :
    Ensures (openEntry pool (slot pool (tableOf frame (roots r) (E r) π) k) entry) s (fun e u =>
      u.cr3 = s.cr3 ∧ ∃ E', Tables pool u roots E' ∧
        ReflTransGen (AttachStep frame 4 roots r q (IsDirectory global)) E E' ∧
        e = E' r (k :: π) ∧ e ≠ 0) (Exhausted pool) := by
  have hlen' : π.length < 4 := by omega
  have hword := (h.tree r).word π k hπ hlen'
  have ht := (h.tree r).in_use π hπ hlen'
  refine (openEntry_spec hentry ht h.blank).mono ?_ fun _ h => h
  rintro e u ⟨hcr3, hblank, he, ⟨rfl, hne⟩ | ⟨hzero, hdirectory, hput, hattach⟩⟩
  · exact ⟨hcr3, E, h, ReflTransGen.refl, he.trans hword, hne⟩
  · rw [hword] at hzero
    have hforest := h.toForest.put hπ hlen' hput (Or.inr ⟨hzero, hattach⟩)
    refine ⟨hcr3, _, ⟨hforest, hblank, ?_⟩, ReflTransGen.single ⟨π, k, e, hπ, hzero,
      hattach.ne_zero, hdirectory, hsuffix, hne, ?_, rfl⟩, ?_, hattach.ne_zero⟩
    · intro r' π' hne' hshort
      rw [putAt] at hne' ⊢
      split at hne'
      · next hshares =>
        rw [if_pos hshares]
        by_cases hhere : π' = k :: π
        · rw [hhere, Function.update_self]
          exact hdirectory.2.2.2
        · rw [Function.update_of_ne hhere] at hne' ⊢
          exact h.small r' π' hne' hshort
      · next hshares =>
        rw [if_neg hshares]
        exact h.small r' π' hne' hshort
    · intro r' π' hlive hshort heq
      exact hattach.fresh (heq ▸ (h.tree r').in_use π' hlive hshort)
    · rw [putAt_self hπ, Function.update_self]

end Map

/-- One page that is mapped through a root. -/
structure PageMapping (ρ : Type) where
  root : ρ
  address : ℕ
  physical : ℕ
  global : Bool
  deriving DecidableEq

/-- What mapping a page does to the entries: the tables that are missing on its walk are
attached, and then the leaf is written. -/
def MapStep {ρ : Type} (roots : ρ → ℕ) (m : PageMapping ρ) (E E' : ρ → List (Fin 512) → BitVec 64) :
    Prop :=
  ∃ E₁, ReflTransGen
      (AttachStep frame 4 roots m.root (pathOf m.address) (IsDirectory m.global)) E E₁ ∧
    Live (E₁ m.root) (pathOf m.address).tail ∧
    E' = putAt frame roots E₁ m.root (pathOf m.address).tail (index1 m.address)
      (pageEntry m.physical m.global)

/-- Several pages are mapped one after the other. -/
def MapSteps {ρ : Type} (roots : ρ → ℕ) :
    List (PageMapping ρ) → (ρ → List (Fin 512) → BitVec 64) → (ρ → List (Fin 512) → BitVec 64) → Prop
  | [], E, E' => E = E'
  | m :: rest, E, E'' => ∃ E', MapStep roots m E E' ∧ MapSteps roots rest E' E''

/-- A call of `MapPages` through a root. -/
structure MapCall (ρ : Type) where
  root : ρ
  virtualBase : ℕ
  physicalBase : ℕ
  count : ℕ
  global : Bool
  deriving DecidableEq

/-- Page number `i` of a call. -/
def MapCall.page {ρ : Type} (call : MapCall ρ) (i : ℕ) : PageMapping ρ :=
  ⟨call.root, wrap64 (call.virtualBase + i * pageSize), wrap64 (call.physicalBase + i * pageSize),
    call.global⟩

/-- The pages that a call maps. -/
def MapCall.pages {ρ : Type} (call : MapCall ρ) : List (PageMapping ρ) :=
  (List.range call.count).map call.page

/-- A sequence of calls of `MapPages`. -/
def mapCalls {ρ : Type} (pool : Pool) (roots : ρ → ℕ) : List (MapCall ρ) → PtM Unit
  | [] => return ()
  | call :: rest => do
    let _ ← mapPages pool (roots call.root) call.virtualBase call.physicalBase call.count call.global
    mapCalls pool roots rest

section Map

variable {ρ : Type} {roots : ρ → ℕ} {E E' E'' : ρ → List (Fin 512) → BitVec 64} {r : ρ}

/-- Mapping pages one after the other. -/
theorem MapSteps.append {l l' : List (PageMapping ρ)} (h : MapSteps roots l E E')
    (h' : MapSteps roots l' E' E'') : MapSteps roots (l ++ l') E E'' := by
  induction l generalizing E with
  | nil =>
    obtain rfl : E = E' := h
    exact h'
  | cons m l ih =>
    obtain ⟨E₁, hstep, hrest⟩ := h
    exact ⟨E₁, hstep, ih hrest⟩

section

variable (h : Tables pool s roots E)
include h

/-- A root is not at address zero. -/
theorem Tables.root_ne_zero (r : ρ) : roots r ≠ 0 := by
  obtain ⟨i, hle, -, -, heq⟩ := (h.tree r).in_use [] (Or.inl rfl) (by decide)
  rw [show roots r = pool.page i from heq]
  exact pool.page_ne_zero hle

/-- `MapPage` maps one page, unless the pool has run out of pages. -/
theorem Tables.mapPage (m : PageMapping ρ) :
    Ensures (mapPage pool (roots m.root) m.address m.physical m.global) s (fun mapped u =>
      mapped = true ∧ u.cr3 = s.cr3 ∧ ∃ E', Tables pool u roots E' ∧ MapStep roots m E E')
      (Exhausted pool) := by
  refine Ensures.bind_ensure (h.root_ne_zero _) ?_
  refine Ensures.bind (h.openEntry (r := m.root) (π := []) (q := pathOf m.address)
    (fun a => accessedEntry_spec m.global) (Or.inl rfl) (by decide) ?_ ?_) ?_
  · exact ⟨[_, _, _], rfl⟩
  · simp [pathOf]
  rintro level4 s₄ ⟨hcr₄, E₄, h₄, hsteps₄, rfl, hne₄⟩
  refine Ensures.bind (h₄.openEntry (r := m.root) (π := [index4 m.address]) (q := pathOf m.address)
    (fun a => accessedEntry_spec m.global) (Or.inr hne₄) (by simp) ?_ ?_) ?_
  · exact ⟨[_, _], rfl⟩
  · simp [pathOf]
  rintro level3 s₃ ⟨hcr₃, E₃, h₃, hsteps₃, rfl, hne₃⟩
  refine Ensures.bind (h₃.openEntry (r := m.root) (π := [index3 m.address, index4 m.address])
    (q := pathOf m.address) (fun a => directoryEntry_spec m.global) (Or.inr hne₃) (by simp) ?_ ?_) ?_
  · exact ⟨[_], rfl⟩
  · simp [pathOf]
  rintro level2 s₂ ⟨hcr₂, E₂, h₂, hsteps₂, rfl, hne₂⟩
  have hlive₂ : Live (E₂ m.root) (pathOf m.address).tail := Or.inr hne₂
  have hused := (h₂.tree m.root).in_use _ hlive₂ (by simp [pathOf])
  refine Ensures.bind_change (Ensures.pure ⟨rfl, (hcr₂.trans hcr₃).trans hcr₄, _, ⟨h₂.toForest.put hlive₂
    (by simp [pathOf]) (puts_write hused rfl fun _ hi => hi) (Or.inl (by simp [pathOf])),
    h₂.blank.write hused rfl fun _ hi => hi, ?_⟩, E₂, (hsteps₄.trans hsteps₃).trans hsteps₂, hlive₂, rfl⟩)
  intro r' π' hne' hshort
  have hother : π' ≠ index1 m.address :: (pathOf m.address).tail := by
    rintro rfl
    simp [pathOf] at hshort
  have hsame : putAt frame roots E₂ m.root (pathOf m.address).tail (index1 m.address)
      (pageEntry m.physical m.global) r' π' = E₂ r' π' := by
    rw [putAt]
    split
    · rw [Function.update_of_ne hother]
    · rfl
  rw [hsame] at hne' ⊢
  exact h₂.small r' π' hne' hshort

/-- The loop of `MapPages` maps its pages one after the other. -/
theorem Tables.mapLoop (call : MapCall ρ) (n i : ℕ) :
    Ensures (mapLoop pool (roots call.root) call.virtualBase call.physicalBase call.global n i) s
      (fun mapped u => mapped = true ∧ u.cr3 = s.cr3 ∧ ∃ E', Tables pool u roots E' ∧
        MapSteps roots ((List.range' i n).map call.page) E E') (Exhausted pool) := by
  induction n generalizing s E i with
  | zero => exact Ensures.pure ⟨rfl, rfl, E, h, rfl⟩
  | succ n ih =>
    refine Ensures.bind (h.mapPage (call.page i)) ?_
    rintro mapped s₁ ⟨rfl, hcr, E₁, h₁, hstep⟩
    refine (ih h₁ (i + 1)).mono ?_ fun _ h => h
    rintro mapped u ⟨rfl, hcr', E', h', hsteps⟩
    exact ⟨rfl, hcr'.trans hcr, E', h', E₁, hstep, hsteps⟩

/-- `MapPages` maps the pages of its range, unless the pool runs out of pages. -/
theorem Tables.mapPages (call : MapCall ρ) :
    Ensures (mapPages pool (roots call.root) call.virtualBase call.physicalBase call.count call.global)
      s (fun mapped u => mapped = true ∧ u.cr3 = s.cr3 ∧ ∃ E', Tables pool u roots E' ∧
        MapSteps roots call.pages E E') (Exhausted pool) := by
  rw [MapCall.pages, List.range_eq_range']
  exact Ensures.bind_ensure (h.root_ne_zero _) (h.mapLoop call call.count 0)

/-- A sequence of calls maps the pages of all ranges. -/
theorem Tables.mapCalls (calls : List (MapCall ρ)) :
    Ensures (mapCalls pool roots calls) s (fun _ u => u.cr3 = s.cr3 ∧ ∃ E', Tables pool u roots E' ∧
      MapSteps roots (calls.flatMap MapCall.pages) E E') (Exhausted pool) := by
  induction calls generalizing s E with
  | nil => exact Ensures.pure ⟨rfl, E, h, rfl⟩
  | cons call rest ih =>
    refine Ensures.bind (h.mapPages call) ?_
    rintro mapped s₁ ⟨-, hcr, E₁, h₁, hsteps⟩
    refine (ih h₁).mono ?_ fun _ h => h
    rintro _ u ⟨hcr', E', h', hsteps'⟩
    exact ⟨hcr'.trans hcr, E', h', hsteps.append hsteps'⟩

end

/-- Mapping a page lets the own tree grow along the walk, and writes one leaf. -/
theorem MapStep.own {m : PageMapping ρ} (h : MapStep roots m E E') :
    ∃ E₁, Grows (IsDirectory m.global) (pathOf m.address) (E m.root) E₁ ∧
      E' m.root = Function.update E₁ (pathOf m.address) (pageEntry m.physical m.global) := by
  obtain ⟨E₁, hsteps, hlive, rfl⟩ := h
  exact ⟨E₁ m.root, grows_of_attachSteps hsteps, putAt_self hlive⟩

end Map

section Resolve

variable {ρ : Type} {roots : ρ → ℕ} {E : ρ → List (Fin 512) → BitVec 64}

section

variable (h : Tables pool s roots E) (r : ρ)
include h r

/-- An entry of a walk, below a table that exists. -/
theorem Tables.mem_slot {π : List (Fin 512)} (hπ : Live (E r) π) (hlen : π.length < 4) (k : Fin 512) :
    s.mem (slot pool (tableOf frame (roots r) (E r) π) k) = E r (k :: π) :=
  (h.tree r).word π k hπ hlen

/-- The walk of a mapped address. -/
theorem Tables.walk_eq (hmapped : E r (pathOf address) ≠ 0) :
    walk pool (roots r) address s = [E r [index4 address], E r [index3 address, index4 address],
      E r [index2 address, index3 address, index4 address], E r (pathOf address)] := by
  have hlive : ∀ π, π <:+ pathOf address → Live (E r) π := fun π =>
    (h.tree r).live_of_suffix (Or.inr hmapped)
  have h₄ := h.mem_slot r (π := []) (Or.inl rfl) (by decide) (index4 address)
  have h₃ := h.mem_slot r (π := [index4 address]) (hlive _ ⟨[_, _, _], rfl⟩) (by simp)
    (index3 address)
  have h₂ := h.mem_slot r (π := [index3 address, index4 address]) (hlive _ ⟨[_, _], rfl⟩) (by simp)
    (index2 address)
  have h₁ := h.mem_slot r (π := [index2 address, index3 address, index4 address])
    (hlive _ ⟨[_], rfl⟩) (by simp) (index1 address)
  simp only [tableOf] at h₄ h₃ h₂ h₁
  simp only [walk, h₄, h₃, h₂, h₁, pathOf]

/-- An address whose walk has no zero entry is mapped. -/
theorem Tables.mapped_of_walk (hwalk : ∀ e ∈ walk pool (roots r) address s, e ≠ 0) :
    E r (pathOf address) ≠ 0 := by
  have h₄ := h.mem_slot r (π := []) (Or.inl rfl) (by decide) (index4 address)
  rw [tableOf] at h₄
  simp only [walk, h₄, List.mem_cons, List.not_mem_nil, or_false, forall_eq_or_imp, forall_eq] at hwalk
  obtain ⟨hne₄, hwalk⟩ := hwalk
  have h₃ := h.mem_slot r (π := [index4 address]) (Or.inr hne₄) (by simp) (index3 address)
  rw [tableOf] at h₃
  rw [h₃] at hwalk
  obtain ⟨hne₃, hwalk⟩ := hwalk
  have h₂ := h.mem_slot r (π := [index3 address, index4 address]) (Or.inr hne₃) (by simp)
    (index2 address)
  rw [tableOf] at h₂
  rw [h₂] at hwalk
  obtain ⟨hne₂, hne₁⟩ := hwalk
  have h₁ := h.mem_slot r (π := [index2 address, index3 address, index4 address]) (Or.inr hne₂)
    (by simp) (index1 address)
  rw [tableOf] at h₁
  rwa [h₁] at hne₁

/-- `ResolveAddress` of a mapped address. -/
theorem Tables.resolveAddress_eq (hmapped : E r (pathOf address) ≠ 0) :
    resolveAddress pool (roots r) address s =
      wrap64 (frame (E r (pathOf address)) + address % 2 ^ 12) := by
  have hwalk := h.walk_eq r hmapped
  simp only [walk, List.cons.injEq, and_true] at hwalk
  obtain ⟨-, -, h₂, h₁⟩ := hwalk
  rw [h₂] at h₁
  have hlive : Live (E r) [index2 address, index3 address, index4 address] :=
    (h.tree r).live_of_suffix (Or.inr hmapped) ⟨[_], rfl⟩
  have hsmall := h.small r _ (hlive.resolve_left (by simp)) (by simp)
  simp only [resolveAddress, h₂, h₁, hsmall, Bool.false_eq_true, if_false]

end

end Resolve

end Vsos.Virtual
