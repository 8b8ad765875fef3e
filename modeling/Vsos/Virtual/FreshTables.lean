import Vsos.Virtual.Pool

/-!
# New tables on used pages

`AllocatePage` hands out a page as it is, and nothing clears a page when it becomes a table. A new
table maps nothing if the free pages of the pool are zero when it is made. They are, if the memory
of the pool is zero at first, if every page is zero when it is given back, and if `MapPages` only
ever writes to pages that are in use.
-/

namespace Vsos.Virtual

open Vsos.Lib Vsos.Mem

variable {pool : Pool} {s t u boot : PtState} {root : ℕ}

/-- A call to the pool, or a call of `MapPages` on some table. -/
inductive TableCall where
  | allocatePage
  | deallocatePage (address : ℕ)
  | mapPages (call : MapCall ℕ)
  deriving DecidableEq

/-- What a call does; the table of `MapPages` is given by its root. -/
def TableCall.perform (pool : Pool) : TableCall → PtM Unit
  | .allocatePage => do
    let _ ← poolAllocatePage pool
    return ()
  | .deallocatePage address => do
    let _ ← poolDeallocatePage pool address
    return ()
  | .mapPages call => do
    let _ ← Virtual.mapPages pool call.root call.virtualBase call.physicalBase call.count call.global
    return ()

/-- Only live pages are given back. -/
def GivesLive (pool : Pool) (_ : Unit) (s : PtState) : TableCall → Prop
  | .allocatePage => True
  | .deallocatePage p => InUse pool s p
  | .mapPages _ => True

/-- The tables under a root are different pages that are in use, one for each path, and no
directory claims to be a large page. -/
def Rooted (pool : Pool) (s : PtState) (root : ℕ) : Prop :=
  ∃ E : List (Fin 512) → BitVec 64, Radix frame 4 (InUse pool s) (contents pool s) root E ∧
    ∀ π, E π ≠ 0 → π.length < 4 → (E π).getLsbD 7 = false

/-- A page that is given back is zero, and pages are mapped in tables that are in use. -/
def LeavesBlank (pool : Pool) (_ : Unit) (s : PtState) : TableCall → Prop
  | .allocatePage => True
  | .deallocatePage p => ∀ k, contents pool s p k = 0
  | .mapPages call => Rooted pool s call.root

/-- The walk of every address that no call covers meets an entry that is zero. -/
def MapsNothingElse (pool : Pool) (root : ℕ) (maps : List (MapCall Unit)) (s : PtState) : Prop :=
  ∀ address, (∀ call ∈ maps, ¬ call.CoversWalk address) → 0 ∈ walk pool root address s

/-- A tree and the blank pages around it. -/
theorem Rooted.tables (h : Rooted pool s root) (hblank : Blank pool s) :
    ∃ E, Tables pool s (fun _ : Unit => root) E := by
  obtain ⟨E, htree, hsmall⟩ := h
  exact ⟨fun _ => E, ⟨fun _ => htree, fun _ _ => htree.apart⟩, hblank, fun _ => hsmall⟩

/-- A zero page that is given back is blank. -/
theorem Blank.release {i : ℕ} (h : Blank pool s) (hzero : ∀ k, contents pool s (pool.page i) k = 0) :
    Blank pool { s with index := Function.update s.index i false } := by
  intro j hle hj hfree k
  by_cases hij : j = i
  · rw [hij]
    exact hzero k
  · exact h j hle hj ((Function.update_of_ne hij false s.index).symm.trans hfree) k

/-- One call keeps the free pages blank. -/
theorem Blank.perform {call : TableCall} (h : Blank pool s) (hlive : GivesLive pool () s call)
    (hcall : LeavesBlank pool () s call) (hrun : (call.perform pool).run s = .ok () t) :
    Blank pool t := by
  cases call with
  | allocatePage =>
    obtain ⟨_, t', hallocate, hrest⟩ := bind_eq_ok.mp hrun
    cases hrest
    obtain ⟨-, hrun'⟩ | ⟨j, -, -, -, hrun'⟩ := poolAllocatePage_cases pool s
    · rw [hrun'] at hallocate
      cases hallocate
      exact h
    · rw [hrun'] at hallocate
      cases hallocate
      exact h.allocate j
  | deallocatePage p =>
    obtain ⟨_, t', hrelease, hrest⟩ := bind_eq_ok.mp hrun
    cases hrest
    obtain ⟨i, -, hi, hused, rfl⟩ := hlive
    rw [poolDeallocatePage_run hi hused] at hrelease
    cases hrelease
    exact h.release hcall
  | mapPages call =>
    obtain ⟨_, t', hmap, hrest⟩ := bind_eq_ok.mp hrun
    cases hrest
    obtain ⟨E, htables⟩ := hcall.tables h
    let own : MapCall Unit :=
      ⟨(), call.virtualBase, call.physicalBase, call.count, call.global⟩
    obtain ⟨-, -, E', htables', -⟩ := (htables.mapPages own).of_ok hmap
    exact htables'.blank

/-- On a new table over blank pages, nothing but the ranges of the calls is mapped. -/
theorem mapsNothingElse_of_blank (hblank : Blank pool t)
    (hnew : (createNew pool).run t = .ok root u) (maps : List (MapCall Unit)) :
    Ensures (mapCalls pool (fun _ => root) maps) u
      (fun _ w => MapsNothingElse pool root maps w) (Exhausted pool) := by
  refine ((tables_createNew hblank hnew).mapCalls maps).mono ?_ fun _ h => h
  rintro _ w ⟨-, E, htables, hsteps⟩ address huncovered
  have hleaf : E () (pathOf address) = 0 := by
    refine hsteps.leaf_of_ne rfl fun m hm hpath => ?_
    obtain ⟨call, hcall, hm⟩ := List.mem_flatMap.mp hm
    exact huncovered call hcall ⟨m, hm, hpath⟩
  by_contra hwalk
  refine htables.mapped_of_walk () (fun e he => ?_) hleaf
  rintro rfl
  exact hwalk he

/-- If the free pages of the pool are zero when a table is made, it maps nothing but what `MapPages`
maps on it, unless the pool runs out of pages. They are zero after a sequence of calls if the pool
starts from memory that is zero behind the index, every page is zero when it is given back, and
`MapPages` is called on trees of pages that are in use. -/
theorem freshTables_map_nothing (hinit : (poolInitialize pool).run boot = .ok () s)
    {calls : List TableCall}
    (hlive : EachCall (TableCall.perform pool) (fun _ _ _ => ()) (GivesLive pool) calls () s)
    (hrun : (callAll (TableCall.perform pool) calls).run s = .ok () t) :
    ((∀ i, 1 ≤ i → i < pool.count → ∀ k, contents pool boot (pool.page i) k = 0) →
      EachCall (TableCall.perform pool) (fun _ _ _ => ()) (LeavesBlank pool) calls () s →
      Blank pool t) ∧
    (Blank pool t → ∀ root u, (createNew pool).run t = .ok root u → ∀ maps : List (MapCall Unit),
      Ensures (mapCalls pool (fun _ => root) maps) u
        (fun _ w => MapsNothingElse pool root maps w) (Exhausted pool)) := by
  refine ⟨fun hzero hcalls => ?_, fun hblank root u hnew => mapsNothingElse_of_blank hblank hnew⟩
  have hblank : Blank pool s := by
    rw [poolInitialize, bind_ensure pool.count_lt] at hinit
    cases hinit
    exact fun i hle hi _ => hzero i hle hi
  exact invariant_of_admissible (I := fun _ s => Blank pool s)
    (fun _ s call _ t h hcall hrun => h.perform hcall.1 hcall.2 hrun) hblank (hlive.and hcalls) hrun

/-- A new table next to one with a page. -/
theorem freshTables_smallPool :
    ∃ s t u, (poolInitialize smallPool).run bootState = .ok () s ∧
      (callAll (TableCall.perform smallPool)
        [.allocatePage, .mapPages ⟨0x101000, 0xFFFF800000000000, 0x1000, 1, true⟩]).run s = .ok () t ∧
      (createNew smallPool).run t = .ok 0x105000 u ∧
      Ensures (mapCalls smallPool (fun _ => 0x105000) [⟨(), 0x400000, 0x2000, 1, false⟩]) u
        (fun _ w => MapsNothingElse smallPool 0x105000 [⟨(), 0x400000, 0x2000, 1, false⟩] w)
        (Exhausted smallPool) := by
  let s₀ : PtState := { bootState with index := fun i => if i < pageSize then false else false }
  let s₁ : PtState := { s₀ with index := Function.update s₀.index 1 true }
  have hinit : (poolInitialize smallPool).run bootState = .ok () s₀ := rfl
  have hrooted : Rooted smallPool s₁ 0x101000 :=
    ⟨fun _ => 0, Radix.empty ⟨1, by decide, by decide, rfl, rfl⟩ fun _ => rfl,
      fun _ h => absurd rfl h⟩
  have hrun := eq_ok_of_answer (r := (callAll (TableCall.perform smallPool)
    [.allocatePage, .mapPages ⟨0x101000, 0xFFFF800000000000, 0x1000, 1, true⟩]).run s₀)
    (a := ()) (by decide +kernel)
  have hnew := eq_ok_of_answer (r := (createNew smallPool).run (final ((callAll
    (TableCall.perform smallPool)
    [.allocatePage, .mapPages ⟨0x101000, 0xFFFF800000000000, 0x1000, 1, true⟩]).run s₀)))
    (a := 0x105000) (by decide +kernel)
  refine ⟨s₀, _, _, hinit, hrun, hnew, ?_⟩
  obtain ⟨hstart, hmaps⟩ := freshTables_map_nothing hinit (by
    refine ⟨trivial, trivial, ?_⟩
    split <;> trivial) hrun
  refine hmaps (hstart (fun _ _ _ _ => rfl) ⟨trivial, hrooted, ?_⟩) _ _ hnew _
  split <;> trivial

/-- The memory of the pool is not zero at first. All entries of the first table lead to the table
itself, and every address is mapped. -/
theorem not_freshTables_map_nothing :
    ¬ ∀ (pool : Pool) (boot s : PtState), (poolInitialize pool).run boot = .ok () s →
      ∀ calls : List TableCall,
      EachCall (TableCall.perform pool) (fun _ _ _ => ()) (GivesLive pool) calls () s →
      ∀ t, (callAll (TableCall.perform pool) calls).run s = .ok () t →
      ∀ root u, (createNew pool).run t = .ok root u → ∀ maps : List (MapCall Unit),
      Ensures (mapCalls pool (fun _ => root) maps) u (fun _ w => ∀ address, Canonical address →
        (∀ call ∈ maps, ¬ call.Covers address) → 0 ∈ walk pool root address w) (Exhausted pool) := by
  intro hclaim
  let boot : PtState := ⟨fun _ => false, fun _ => 0x101001, 0⟩
  let s₀ : PtState := { boot with index := fun i => if i < pageSize then false else false }
  let s₁ : PtState := { s₀ with index := Function.update s₀.index 1 true }
  have hnew : (createNew smallPool).run s₀ = .ok 0x101000 s₁ := rfl
  have hensures := hclaim smallPool boot s₀ rfl [] trivial s₀ rfl 0x101000 s₁ hnew []
  have hwalk := hensures.of_ok rfl 0 (by decide) (by simp)
  change 0 ∈ walk smallPool 0x101000 0 s₁ at hwalk
  revert hwalk
  decide

end Vsos.Virtual
