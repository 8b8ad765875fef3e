import Vsos.Lib.Runs
import Vsos.Virtual.Mappings

/-!
# The pages of the pool over runs

`Initialize` clears the index, and from then on the index says which pages are live: those that
`AllocatePage` returned and `DeallocatePage` has not taken back. A physical address leads to its
number in the index and to the virtual address of the page, so both directions agree on which
page is meant.
-/

namespace Vsos.Virtual

open Vsos.Lib Vsos.Mem

/-- `PageTablesPool::Initialize`: one page of the index is cleared. -/
def poolInitialize (pool : Pool) : PtM Unit := do
  ensure (pool.count < pageSize)
  change fun s => { s with index := fun i => if i < pageSize then false else s.index i }

/-- `PageTablesPool::DeallocatePage`. -/
def poolDeallocatePage (pool : Pool) (address : ℕ) : PtM Bool := do
  ensure (address % pageSize = 0)
  let relative := wrap64 (address + (2 ^ 64 - pool.physicalBase))
  let index := relative / pageSize
  ensure (index < pool.count)
  ensure ((← look fun s => s.index index) = true)
  change fun s => { s with index := Function.update s.index index false }
  return true

/-- A call to the pool. -/
inductive PoolCall where
  | allocatePage
  | deallocatePage (address : ℕ)
  deriving DecidableEq, Repr

def PoolCall.perform (pool : Pool) : PoolCall → PtM (Option ℕ)
  | .allocatePage => poolAllocatePage pool
  | .deallocatePage address => do
    let _ ← poolDeallocatePage pool address
    return none

/-- The pages that are live after a call. -/
def notePage (live : List ℕ) : PoolCall → Option ℕ → List ℕ
  | .allocatePage, some p => p :: live
  | .allocatePage, none => live
  | .deallocatePage p, _ => live.erase p

/-- Only live pages are taken back. -/
def TakesLive (live : List ℕ) (_ : PtState) : PoolCall → Prop
  | .allocatePage => True
  | .deallocatePage p => p ∈ live

/-- The live pages are different pages of the pool, none of them the index, and they are seen at
pages that do not overlap, behind the index. -/
structure Disciplined (pool : Pool) (live : List ℕ) : Prop where
  nodup : live.Nodup
  page : ∀ p ∈ live, ∃ i, 1 ≤ i ∧ i < pool.count ∧ p = pool.page i
  virtual : ∀ p ∈ live, pool.virtualBase + pageSize ≤ getVirtualAddress pool p ∧
    getVirtualAddress pool p + pageSize ≤ pool.virtualBase + pageSize * pool.count
  apart : ∀ p ∈ live, ∀ q ∈ live, p ≠ q →
    getVirtualAddress pool p + pageSize ≤ getVirtualAddress pool q ∨
      getVirtualAddress pool q + pageSize ≤ getVirtualAddress pool p

/-- No assertion fails in the call, and `AllocatePage` returns false exactly when all pages but
the first one are live. -/
def Serves (pool : Pool) (live : List ℕ) (s : PtState) (call : PoolCall) : Prop :=
  ∃ r t, (call.perform pool).run s = .ok r t ∧
    (call = .allocatePage → (r = none ↔ live.length = pool.count - 1))

variable {pool : Pool} {s t : PtState} {live : List ℕ}

/-- The index says which pages are live. -/
structure Indexed (pool : Pool) (live : List ℕ) (s : PtState) : Prop where
  nodup : live.Nodup
  mem_iff : ∀ p, p ∈ live ↔ InUse pool s p

/-- The calls of the pool have kept to its discipline. -/
theorem Indexed.disciplined (h : Indexed pool live s) : Disciplined pool live where
  nodup := h.nodup
  page := by
    intro p hp
    obtain ⟨i, hle, hlt, -, heq⟩ := (h.mem_iff p).mp hp
    exact ⟨i, hle, hlt, heq⟩
  virtual := by
    intro p hp
    obtain ⟨i, hle, hlt, -, rfl⟩ := (h.mem_iff p).mp hp
    rw [getVirtualAddress_page hlt]
    simp only [pageSize, pageShift]
    omega
  apart := by
    intro p hp q hq hne
    obtain ⟨i, -, hi, -, rfl⟩ := (h.mem_iff p).mp hp
    obtain ⟨j, -, hj, -, rfl⟩ := (h.mem_iff q).mp hq
    have hij : i ≠ j := fun heq => hne (heq ▸ rfl)
    rw [getVirtualAddress_page hi, getVirtualAddress_page hj]
    simp only [pageSize, pageShift]
    omega

/-- The pages that can be handed out. -/
def Pool.pages (pool : Pool) : List ℕ := (List.range' 1 (pool.count - 1)).map pool.page

/-- The pages of the pool. -/
theorem Pool.mem_pages {p : ℕ} : p ∈ pool.pages ↔ ∃ i, 1 ≤ i ∧ i < pool.count ∧ p = pool.page i := by
  simp only [pages, List.mem_map, List.mem_range'_1]
  constructor
  · rintro ⟨i, hi, rfl⟩
    exact ⟨i, hi.1, by omega, rfl⟩
  · rintro ⟨i, hle, hlt, rfl⟩
    exact ⟨i, ⟨hle, by omega⟩, rfl⟩

/-- The pages of the pool are different. -/
theorem Pool.nodup_pages (pool : Pool) : pool.pages.Nodup :=
  List.Nodup.map (fun _ _ => Pool.page_injective) List.nodup_range'

/-- The number of pages of the pool. -/
theorem Pool.length_pages (pool : Pool) : pool.pages.length = pool.count - 1 := by
  rw [pages, List.length_map, List.length_range']

/-- All pages but the first one are live just when none is free. -/
theorem Indexed.length_eq_iff (h : Indexed pool live s) :
    live.length = pool.count - 1 ↔ Exhausted pool s := by
  have hsub : live ⊆ pool.pages := fun p hp => by
    obtain ⟨i, hle, hlt, -, heq⟩ := (h.mem_iff p).mp hp
    exact Pool.mem_pages.mpr ⟨i, hle, hlt, heq⟩
  have hperm := h.nodup.subperm hsub
  rw [← pool.length_pages]
  constructor
  · intro hlength i hle hlt
    have hall := hperm.perm_of_length_le hlength.ge
    have hmem := hall.mem_iff.mpr (Pool.mem_pages.mpr ⟨i, hle, hlt, rfl⟩)
    obtain ⟨j, -, -, hused, heq⟩ := (h.mem_iff _).mp hmem
    rwa [Pool.page_injective heq]
  · intro hall
    have hback : pool.pages ⊆ live := fun p hp => by
      obtain ⟨i, hle, hlt, heq⟩ := Pool.mem_pages.mp hp
      exact (h.mem_iff p).mpr ⟨i, hle, hlt, hall i hle hlt, heq⟩
    exact le_antisymm hperm.length_le (pool.nodup_pages.subperm hback).length_le

/-- `AllocatePage` in a state whose index is known. -/
theorem poolAllocatePage_cases (pool : Pool) (s : PtState) :
    (Exhausted pool s ∧ (poolAllocatePage pool).run s = .ok none s) ∨
      ∃ j, 1 ≤ j ∧ j < pool.count ∧ s.index j = false ∧ (poolAllocatePage pool).run s =
        .ok (some (pool.page j)) { s with index := Function.update s.index j true } := by
  have hspec := @poolAllocatePage_spec pool s
  cases hrun : (poolAllocatePage pool).run s with
  | error e t => exact (hspec.of_error hrun).elim
  | ok r t =>
    rcases hspec.of_ok hrun with ⟨rfl, rfl, hall⟩ | ⟨j, rfl, hle, hlt, hfree, rfl⟩
    · exact Or.inl ⟨hall, rfl⟩
    · exact Or.inr ⟨j, hle, hlt, hfree, rfl⟩

/-- `DeallocatePage` takes back a page that is in use. -/
theorem poolDeallocatePage_run {i : ℕ} (hi : i < pool.count) (hused : s.index i = true) :
    (poolDeallocatePage pool (pool.page i)).run s =
      .ok true { s with index := Function.update s.index i false } := by
  have hbase := pool.physical_le
  have hindex : wrap64 (pool.page i + (2 ^ 64 - pool.physicalBase)) / pageSize = i := by
    simp only [wrap64, Pool.page, pageSize, pageShift] at *
    omega
  have hfits : wrap64 (pool.page i + (2 ^ 64 - pool.physicalBase)) / pageSize < pool.count :=
    hindex.symm ▸ hi
  have hused' : s.index (wrap64 (pool.page i + (2 ^ 64 - pool.physicalBase)) / pageSize) = true :=
    hindex.symm ▸ hused
  rw [poolDeallocatePage, bind_ensure (pool.page_mod i),
    bind_ensure hfits, bind_look, bind_ensure hused',
    hindex]
  rfl

/-- The pages in use after one is taken. -/
theorem inUse_take {j : ℕ} (hle : 1 ≤ j) (hlt : j < pool.count) (p : ℕ) :
    InUse pool { s with index := Function.update s.index j true } p ↔
      p = pool.page j ∨ InUse pool s p := by
  constructor
  · rintro ⟨i, hi, hi', hused, rfl⟩
    by_cases hij : i = j
    · exact Or.inl (hij ▸ rfl)
    · exact Or.inr ⟨i, hi, hi', by simpa [Function.update_of_ne hij] using hused, rfl⟩
  · rintro (rfl | ⟨i, hi, hi', hused, rfl⟩)
    · exact ⟨j, hle, hlt, Function.update_self .., rfl⟩
    · refine ⟨i, hi, hi', ?_, rfl⟩
      by_cases hij : i = j
      · exact hij ▸ Function.update_self ..
      · exact (Function.update_of_ne hij _ _).trans hused

/-- The pages in use after one is given back. -/
theorem inUse_release {j : ℕ} (p : ℕ) :
    InUse pool { s with index := Function.update s.index j false } p ↔
      p ≠ pool.page j ∧ InUse pool s p := by
  constructor
  · rintro ⟨i, hi, hi', hused, rfl⟩
    have hij : i ≠ j := by
      rintro rfl
      simp at hused
    refine ⟨fun heq => hij (Pool.page_injective heq), i, hi, hi', ?_, rfl⟩
    simpa [Function.update_of_ne hij] using hused
  · rintro ⟨hne, i, hi, hi', hused, rfl⟩
    have hij : i ≠ j := fun heq => hne (heq ▸ rfl)
    exact ⟨i, hi, hi', (Function.update_of_ne hij _ _).trans hused, rfl⟩

/-- What one call does: it returns, and the index still says which pages are live. -/
theorem Indexed.perform (h : Indexed pool live s) {call : PoolCall} (hcall : TakesLive live s call) :
    ∃ r t, (call.perform pool).run s = .ok r t ∧ Indexed pool (notePage live call r) t ∧
      (call = .allocatePage → (r = none ↔ live.length = pool.count - 1)) := by
  cases call with
  | allocatePage =>
    rw [h.length_eq_iff]
    obtain ⟨hall, hrun⟩ | ⟨j, hle, hlt, hfree, hrun⟩ := poolAllocatePage_cases pool s
    · exact ⟨none, s, hrun, h, fun _ => iff_of_true rfl hall⟩
    · refine ⟨_, _, hrun, ⟨List.nodup_cons.mpr ⟨?_, h.nodup⟩, fun p => ?_⟩, fun _ => ?_⟩
      · intro hmem
        obtain ⟨i, -, -, hused, heq⟩ := (h.mem_iff _).mp hmem
        rw [← Pool.page_injective heq, hfree] at hused
        cases hused
      · rw [inUse_take hle hlt, notePage, List.mem_cons, h.mem_iff]
      · refine iff_of_false nofun fun hall => ?_
        rw [hall j hle hlt] at hfree
        cases hfree
  | deallocatePage p =>
    obtain ⟨i, hle, hlt, hused, rfl⟩ := (h.mem_iff p).mp hcall
    have hrun : ((PoolCall.deallocatePage (pool.page i)).perform pool).run s =
        .ok none { s with index := Function.update s.index i false } := by
      rw [PoolCall.perform, bind_of_ok (poolDeallocatePage_run hlt hused)]
      rfl
    refine ⟨none, _, hrun, ⟨h.nodup.erase _, fun q => ?_⟩, nofun⟩
    rw [notePage, h.nodup.mem_erase_iff, inUse_release, h.mem_iff]

/-- After `Initialize` no page is live. -/
theorem poolInitialize_run (pool : Pool) (s : PtState) :
    ∃ t, (poolInitialize pool).run s = .ok () t ∧ Indexed pool [] t := by
  rw [poolInitialize, bind_ensure pool.count_lt]
  refine ⟨_, rfl, List.nodup_nil, fun p => iff_of_false List.not_mem_nil ?_⟩
  rintro ⟨i, -, hi, hused, -⟩
  simp [hi.trans pool.count_lt] at hused

/-- Whatever memory the pool starts from, no assertion of `Initialize` fails, and in every
sequence of calls that takes back live pages only, no assertion fails, `AllocatePage` returns
false exactly when all pages but the index are live, and the live pages are different pages of
the pool behind the index, before every call and at the end. -/
theorem pool_disciplined (pool : Pool) (boot : PtState) :
    ∃ s, (poolInitialize pool).run boot = .ok () s ∧
      ∀ calls, EachCall (PoolCall.perform pool) notePage TakesLive calls [] s →
        EachCall (PoolCall.perform pool) notePage
          (fun live s call => Disciplined pool live ∧ Serves pool live s call) calls [] s ∧
        Disciplined pool (history (PoolCall.perform pool) notePage calls [] s) := by
  obtain ⟨s, hinit, hindexed⟩ := poolInitialize_run pool boot
  have hkeeps : ∀ live s call r t, Indexed pool live s → TakesLive live s call →
      (PoolCall.perform pool call).run s = .ok r t → Indexed pool (notePage live call r) t := by
    intro live s call r t h hcall hrun
    obtain ⟨r', t', hrun', hnext, -⟩ := h.perform hcall
    rw [hrun] at hrun'
    cases hrun'
    exact hnext
  refine ⟨s, hinit, fun calls hcalls => ⟨?_, ?_⟩⟩
  · refine EachCall.of_admissible ?_ hkeeps hindexed hcalls
    intro live s call h hcall
    obtain ⟨r, t, hrun, -, hfull⟩ := h.perform hcall
    exact ⟨h.disciplined, r, t, hrun, hfull⟩
  · have hend := history_of_admissible hkeeps hindexed hcalls
    obtain ⟨t, h⟩ := hend
    exact h.disciplined

/-- Two pages are handed out, and the first one once more after it was taken back. -/
theorem pool_disciplined_smallPool :
    ∃ s, (poolInitialize smallPool).run bootState = .ok () s ∧
      Disciplined smallPool (history (PoolCall.perform smallPool) notePage
        [.allocatePage, .allocatePage, .deallocatePage 0x101000, .allocatePage] [] s) := by
  obtain ⟨s, hinit, hcalls⟩ := pool_disciplined smallPool bootState
  refine ⟨s, hinit, (hcalls _ ?_).2⟩
  cases hinit
  have hlive : (0x101000 : ℕ) ∈ [0x102000, 0x101000] := by decide
  exact ⟨trivial, trivial, hlive, trivial, trivial⟩

end Vsos.Virtual
