import Vsos.Virtual.Mappings

/-!
# User and kernel pages

An entry above the lowest level is written once, by the first mapping that needs it, and with
the permissions of that mapping. They suit all later mappings through it, because a top-level
entry belongs to one half of the address space, and each half is mapped with one kind of
permission.
-/

namespace Vsos.Virtual

open Vsos.Lib Vsos.Mem

variable {pool : Pool} {s t boot : PtState} {root : ℕ}

/-- The entry is present, writable, and open to the user as said. -/
def Permits (user : Bool) (e : BitVec 64) : Prop :=
  e.getLsbD 0 = true ∧ e.getLsbD 1 = true ∧ e.getLsbD 2 = user

/-- The top-level index of a path belongs to the lower half. -/
def LowerPath (π : List (Fin 512)) : Prop := ∃ k ∈ π.getLast?, k.val < 256

instance (π : List (Fin 512)) : Decidable (LowerPath π) :=
  inferInstanceAs (Decidable (∃ k ∈ π.getLast?, _))

/-- A path and the longer paths through it belong to the same half. -/
theorem lowerPath_suffix {π q : List (Fin 512)} (h : π <:+ q) (hne : π ≠ []) :
    LowerPath π ↔ LowerPath q := by
  obtain ⟨l, rfl⟩ := h
  rw [LowerPath, LowerPath, List.getLast?_append_of_ne_nil l hne]

/-- The half that an address is in. -/
theorem lowerPath_pathOf (address : ℕ) : LowerPath (pathOf address) ↔ address / 2 ^ 39 % 512 < 256 := by
  simp [LowerPath, pathOf, index4, indexAt]

/-- Every entry of a tree permits access to the user just in the lower half. -/
def Separated (E : List (Fin 512) → BitVec 64) : Prop :=
  ∀ π, π ≠ [] → E π ≠ 0 → Permits (decide (LowerPath π)) (E π)

/-- Mapping a page with the permission of its half keeps the halves apart. -/
theorem Separated.mapStep {ρ : Type} {roots : ρ → ℕ} {E E' : ρ → List (Fin 512) → BitVec 64}
    {m : PageMapping ρ} (h : Separated (E m.root)) (hstep : MapStep roots m E E')
    (hglobal : (!m.global) = decide (LowerPath (pathOf m.address))) : Separated (E' m.root) := by
  obtain ⟨E₁, hgrows, heq⟩ := hstep.own
  rw [heq]
  intro π hne hentry
  by_cases hleaf : π = pathOf m.address
  · rw [hleaf, Function.update_self, ← hglobal]
    exact (pageEntry_spec m.physical m.global).1
  · rw [Function.update_of_ne hleaf] at hentry ⊢
    by_cases hzero : E m.root π = 0
    · obtain ⟨hdirectory, hsuffix, -⟩ := hgrows.new π hzero hentry
      rw [decide_eq_decide.mpr (lowerPath_suffix hsuffix hne), ← hglobal]
      exact ⟨hdirectory.1, hdirectory.2.1, hdirectory.2.2.1⟩
    · rw [hgrows.old π hzero]
      exact h π hne hzero

/-- Pages that are mapped for their half keep the halves apart. -/
theorem Separated.mapSteps {roots : Unit → ℕ} {E E' : Unit → List (Fin 512) → BitVec 64}
    {l : List (PageMapping Unit)} (h : Separated (E ())) (hsteps : MapSteps roots l E E')
    (hglobal : ∀ m ∈ l, (!m.global) = decide (LowerPath (pathOf m.address))) :
    Separated (E' ()) := by
  induction l generalizing E with
  | nil =>
    obtain rfl : E = E' := hsteps
    exact h
  | cons m l ih =>
    obtain ⟨E₁, hstep, hrest⟩ := hsteps
    rw [List.forall_mem_cons] at hglobal
    exact ih (h.mapStep hstep hglobal.1) hrest hglobal.2

/-- A mapped page stays mapped. -/
theorem MapSteps.mapped {roots : Unit → ℕ} {E E' : Unit → List (Fin 512) → BitVec 64}
    {l : List (PageMapping Unit)} (hsteps : MapSteps roots l E E') :
    (∀ π, E () π ≠ 0 → E' () π ≠ 0) ∧ ∀ m ∈ l, E' () (pathOf m.address) ≠ 0 := by
  induction l generalizing E with
  | nil =>
    obtain rfl : E = E' := hsteps
    exact ⟨fun _ h => h, by simp⟩
  | cons m l ih =>
    obtain ⟨E₁, hstep, hrest⟩ := hsteps
    obtain ⟨E₂, hgrows, heq⟩ := hstep.own
    have hleaf : pageEntry m.physical m.global ≠ 0 :=
      ne_zero_of_getLsbD (pageEntry_spec m.physical m.global).1.1
    obtain ⟨hkeep, hmapped⟩ := ih hrest
    constructor
    · intro π hne
      apply hkeep
      rw [show E₁ () = _ from heq]
      by_cases hπ : π = pathOf m.address
      · rwa [hπ, Function.update_self]
      · rwa [Function.update_of_ne hπ, hgrows.old π hne]
    · rw [List.forall_mem_cons]
      refine ⟨hkeep _ ?_, hmapped⟩
      rwa [show E₁ () = _ from heq, Function.update_self]

/-- The range of the call lies in the lower half and is mapped for the user, or it lies in the
upper half and is mapped for the kernel. -/
def MapCall.RespectsHalves {ρ : Type} (call : MapCall ρ) : Prop :=
  (call.virtualBase + call.count * pageSize ≤ 2 ^ 47 ∧ call.global = false) ∨
    (2 ^ 64 - 2 ^ 47 ≤ call.virtualBase ∧ call.virtualBase + call.count * pageSize ≤ 2 ^ 64 ∧
      call.global = true)

/-- A page of a call is for its half. -/
theorem MapCall.RespectsHalves.page {ρ : Type} {call : MapCall ρ} (h : call.RespectsHalves)
    {m : PageMapping ρ} (hm : m ∈ call.pages) :
    (!m.global) = decide (LowerPath (pathOf m.address)) := by
  obtain ⟨i, hi, rfl⟩ := List.mem_map.mp hm
  have hmul : (i + 1) * pageSize ≤ call.count * pageSize :=
    Nat.mul_le_mul_right _ (List.mem_range.mp hi)
  have hpath : LowerPath (pathOf (call.page i).address) ↔
      (call.virtualBase + i * 2 ^ 12) % 2 ^ 64 / 2 ^ 39 % 512 < 256 := lowerPath_pathOf _
  simp only [RespectsHalves, pageSize, pageShift] at h hmul
  rcases h with ⟨hlower, hglobal⟩ | ⟨hupper, hle, hglobal⟩
  · rw [decide_eq_true (hpath.mpr (by omega))]
    exact congrArg not hglobal
  · rw [decide_eq_false (mt hpath.mp (by omega))]
    exact congrArg not hglobal

/-- No entry on the walk of the address is zero. -/
def IsMapped (pool : Pool) (root address : ℕ) (s : PtState) : Prop :=
  ∀ e ∈ walk pool root address s, e ≠ 0

/-- All entries on the walk of the address are open to the user. -/
def UserAccessible (pool : Pool) (root address : ℕ) (s : PtState) : Prop :=
  ∀ e ∈ walk pool root address s, e.getLsbD 2 = true

/-- After any sequence of calls on a new table that maps the lower half for the user and the
upper half for the kernel, the mapped pages of the lower half are open to the user and those of
the upper half are not; on the walks of both, all entries are present and writable. -/
theorem userAccessible_iff_lower (hblank : Blank pool boot)
    (hnew : (createNew pool).run boot = .ok root s) (calls : List (MapCall Unit))
    (hcalls : ∀ call ∈ calls, call.RespectsHalves) :
    Ensures (mapCalls pool (fun _ => root) calls) s (fun _ t =>
      (∀ call ∈ calls, ∀ m ∈ call.pages, IsMapped pool root m.address t) ∧
      ∀ address, IsMapped pool root address t →
        (∀ e ∈ walk pool root address t, e.getLsbD 0 = true ∧ e.getLsbD 1 = true) ∧
        (address < 2 ^ 47 → UserAccessible pool root address t) ∧
        (2 ^ 64 - 2 ^ 47 ≤ address → address < 2 ^ 64 → ¬ UserAccessible pool root address t))
      (Exhausted pool) := by
  refine ((tables_createNew hblank hnew).mapCalls calls).mono ?_ fun _ h => h
  rintro _ t ⟨-, E, htables, hsteps⟩
  have hseparated : Separated (E ()) := by
    refine Separated.mapSteps (fun _ _ h => absurd rfl h) hsteps fun m hm => ?_
    obtain ⟨call, hcall, hm⟩ := List.mem_flatMap.mp hm
    exact (hcalls call hcall).page hm
  have hwalk : ∀ address, E () (pathOf address) ≠ 0 → ∀ e ∈ walk pool root address t,
      Permits (decide (LowerPath (pathOf address))) e ∧ e ≠ 0 := by
    intro address hmapped e he
    rw [htables.walk_eq () hmapped] at he
    have hentry : ∃ π, π ≠ [] ∧ π <:+ pathOf address ∧ e = E () π := by
      simp only [List.mem_cons, List.not_mem_nil, or_false] at he
      rcases he with rfl | rfl | rfl | rfl
      · exact ⟨_, by simp, ⟨[_, _, _], rfl⟩, rfl⟩
      · exact ⟨_, by simp, ⟨[_, _], rfl⟩, rfl⟩
      · exact ⟨_, by simp, ⟨[_], rfl⟩, rfl⟩
      · exact ⟨_, List.cons_ne_nil _ _, ⟨[], rfl⟩, rfl⟩
    obtain ⟨π, hne, hsuffix, rfl⟩ := hentry
    have hlive := (htables.tree ()).live_of_suffix (Or.inr hmapped) hsuffix
    have hzero := hlive.resolve_left hne
    rw [← decide_eq_decide.mpr (lowerPath_suffix hsuffix hne)]
    exact ⟨hseparated π hne hzero, hzero⟩
  constructor
  · intro call hcall m hm e he
    have hmapped := hsteps.mapped.2 m (List.mem_flatMap.mpr ⟨call, hcall, hm⟩)
    exact (hwalk m.address hmapped e he).2
  · intro address hismapped
    have hmapped := htables.mapped_of_walk () hismapped
    refine ⟨fun e he => ?_, fun hlower e he => ?_, fun hupper hlt huser => ?_⟩
    · obtain ⟨⟨hpresent, hwritable, -⟩, -⟩ := hwalk address hmapped e he
      exact ⟨hpresent, hwritable⟩
    · rw [(hwalk address hmapped e he).1.2.2, decide_eq_true_iff, lowerPath_pathOf]
      omega
    · have htop : t.mem (slot pool root (index4 address)) ∈ walk pool root address t := by
        simp [walk]
      have hbit := huser _ htop
      rw [(hwalk address hmapped _ htop).1.2.2, decide_eq_true_iff, lowerPath_pathOf] at hbit
      omega

/-- A kernel page and a user page. -/
def mixedCalls : List (MapCall Unit) :=
  [⟨(), 0xFFFF800000000000, 0x1000, 1, true⟩, ⟨(), 0x140000000, 0x2000, 2, false⟩]

/-- The sample calls respect the halves. -/
theorem mixedCalls_respectHalves : ∀ call ∈ mixedCalls, call.RespectsHalves := by
  simp only [mixedCalls, List.mem_cons, List.not_mem_nil, or_false, forall_eq_or_imp, forall_eq]
  exact ⟨Or.inr ⟨by decide, by decide, rfl⟩, Or.inl ⟨by decide, rfl⟩⟩

/-- The user page of the sample calls is accessible, the kernel page is not. -/
theorem userAccessible_mixedCalls :
    (Blank smallPool bootState ∧ (createNew smallPool).run bootState = .ok 0x101000 firstTable ∧
      ∀ call ∈ mixedCalls, call.RespectsHalves) ∧
      ∃ t, (mapCalls smallPool (fun _ => 0x101000) mixedCalls).run firstTable = .ok () t ∧
        UserAccessible smallPool 0x101000 0x140001000 t ∧
        ¬ UserAccessible smallPool 0x101000 0xFFFF800000000000 t := by
  refine ⟨⟨blank_bootState, firstTable_run, mixedCalls_respectHalves⟩, ?_⟩
  have hensures := userAccessible_iff_lower blank_bootState firstTable_run mixedCalls
    mixedCalls_respectHalves
  have hrun := eq_ok_of_answer (r := (mapCalls smallPool (fun _ => 0x101000) mixedCalls).run firstTable)
    (a := ()) (by decide +kernel)
  obtain ⟨hmapped, hhalves⟩ := hensures.of_ok hrun
  have huser := hmapped ⟨(), 0x140000000, 0x2000, 2, false⟩ (by simp [mixedCalls])
    ⟨(), 0x140001000, 0x3000, false⟩ (by decide)
  have hkernel := hmapped ⟨(), 0xFFFF800000000000, 0x1000, 1, true⟩ (by simp [mixedCalls])
    ⟨(), 0xFFFF800000000000, 0x1000, true⟩ (by decide)
  exact ⟨_, hrun, (hhalves _ huser).2.1 (by decide), (hhalves _ hkernel).2.2 (by decide) (by decide)⟩

end Vsos.Virtual
