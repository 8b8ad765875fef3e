import Vsos.Virtual.Walk

/-!
# What a sequence of mappings leaves behind

A new table maps nothing. After any sequence of calls of `MapPages`, an address resolves to
where the last call that covers its page put it, and the permission bits on every walk are
those of the half of the address space it belongs to. Addresses are told apart by 48 of their
bits, so that a range has to stay inside one canonical half.
-/

namespace Vsos.Virtual

open Vsos.Lib Vsos.Mem

variable {pool : Pool} {s t boot : PtState} {root : ℕ} {a i : ℕ}

/-- `CreateNew` takes a blank page of the pool. -/
theorem createNew_spec : Ensures (createNew pool) s (fun root t =>
    ∃ j, root = pool.page j ∧ 1 ≤ j ∧ j < pool.count ∧ s.index j = false ∧
      t = { s with index := Function.update s.index j true }) (Exhausted pool) := by
  refine Ensures.bind (poolAllocatePage_spec.mono (fun _ _ h => h) fun _ h => h.elim) ?_
  rintro _ _ (⟨rfl, rfl, hall⟩ | ⟨j, rfl, hle, hj, hfree, rfl⟩)
  · exact Ensures.throw hall
  · exact Ensures.pure ⟨j, rfl, hle, hj, hfree, rfl⟩

/-- Handing out a page leaves the other ones blank. -/
theorem Blank.allocate (h : Blank pool s) (j : ℕ) :
    Blank pool { s with index := Function.update s.index j true } := by
  intro i hle hi hfree k
  by_cases hij : i = j
  · rw [hij] at hfree
    exact absurd ((Function.update_self j true s.index).symm.trans hfree) (by decide)
  · exact h i hle hi ((Function.update_of_ne hij true s.index).symm.trans hfree) k

/-- A new table is empty. -/
theorem tables_createNew (hblank : Blank pool s) (hnew : (createNew pool).run s = .ok root t) :
    Tables pool t (fun _ : Unit => root) fun _ _ => 0 := by
  obtain ⟨j, rfl, hle, hj, hfree, rfl⟩ := createNew_spec.of_ok hnew
  have hempty : ∀ k, contents pool s (pool.page j) k = 0 := hblank j hle hj hfree
  refine ⟨⟨fun _ => Radix.empty ⟨j, hle, hj, Function.update_self .., rfl⟩ hempty, ?_⟩, ?_, ?_⟩
  · rintro r r' π π' hπ hπ' - - -
    rw [hπ.resolve_right fun h => h rfl, hπ'.resolve_right fun h => h rfl]
  · exact hblank.allocate j
  · exact fun _ _ h => absurd rfl h

section Leaves

variable {E E' : Unit → List (Fin 512) → BitVec 64} {q : List (Fin 512)}

/-- A leaf that no page of the list has keeps its value. -/
theorem MapSteps.leaf_of_ne {l : List (PageMapping Unit)} {roots : Unit → ℕ}
    (h : MapSteps roots l E E') (hq : q.length = 4) (hne : ∀ m ∈ l, pathOf m.address ≠ q) :
    E' () q = E () q := by
  induction l generalizing E with
  | nil => rw [show E = E' from h]
  | cons m l ih =>
    obtain ⟨E₁, hstep, hrest⟩ := h
    obtain ⟨E₂, hgrows, heq⟩ := hstep.own
    have hm : q ≠ pathOf m.address := (hne m List.mem_cons_self).symm
    rw [ih hrest fun m' hm' => hne m' (List.mem_cons_of_mem m hm'), heq,
      Function.update_of_ne hm]
    by_cases hzero : E () q = 0
    · by_contra hne'
      rw [hzero] at hne'
      obtain ⟨-, hsuffix, -⟩ := hgrows.new q hzero hne'
      exact hm (hsuffix.eq_of_length hq)
    · exact hgrows.old q hzero

/-- The last page with a given walk determines the leaf. -/
theorem MapSteps.leaf_of_last {l l' : List (PageMapping Unit)} {m : PageMapping Unit}
    {roots : Unit → ℕ} (h : MapSteps roots (l ++ m :: l') E E')
    (hne : ∀ m' ∈ l', pathOf m'.address ≠ pathOf m.address) :
    E' () (pathOf m.address) = pageEntry m.physical m.global := by
  induction l generalizing E with
  | nil =>
    obtain ⟨E₁, hstep, hrest⟩ := h
    obtain ⟨E₂, -, heq⟩ := hstep.own
    rw [hrest.leaf_of_ne rfl hne, heq, Function.update_self]
  | cons m' l ih =>
    obtain ⟨E₁, -, hrest⟩ := h
    exact ih hrest

end Leaves

/-- A walk sees 36 bits of the page number. -/
theorem pathOf_eq_iff {b : ℕ} :
    pathOf a = pathOf b ↔ a / 2 ^ 12 % 2 ^ 36 = b / 2 ^ 12 % 2 ^ 36 := by
  simp only [pathOf, index1, index2, index3, index4, indexAt, List.cons.injEq, and_true, Fin.mk.injEq]
  omega

/-- Canonical addresses with the same walk lie in the same page. -/
theorem Canonical.page_eq {b : ℕ} (ha : Canonical a) (hb : Canonical b) (h : pathOf a = pathOf b) :
    a / 2 ^ 12 = b / 2 ^ 12 := by
  rw [pathOf_eq_iff] at h
  rw [Canonical] at ha hb
  omega

/-- The arguments of a call: page-aligned, without a wrap, and physical memory below `2 ^ 48`. -/
structure MapCall.Valid {ρ : Type} (call : MapCall ρ) : Prop where
  virtual_aligned : call.virtualBase % pageSize = 0
  virtual_le : call.virtualBase + call.count * pageSize ≤ 2 ^ 64
  physical_aligned : call.physicalBase % pageSize = 0
  physical_le : call.physicalBase + call.count * pageSize ≤ 2 ^ 48

/-- The page of the address is in the range of the call. -/
def MapCall.Covers {ρ : Type} (call : MapCall ρ) (address : ℕ) : Prop :=
  call.virtualBase ≤ address ∧ address < call.virtualBase + call.count * pageSize

section Calls

variable {ρ : Type} {call : MapCall ρ}

/-- The address of a page of the call. -/
theorem MapCall.Valid.page_address (h : call.Valid) (hi : i < call.count) :
    (call.page i).address = call.virtualBase + i * pageSize := by
  have hle := h.virtual_le
  have hmul : i * pageSize < call.count * pageSize := Nat.mul_lt_mul_of_pos_right hi (by decide)
  exact wrap64_of_lt (by omega)

/-- The frame of a page of the call. -/
theorem MapCall.Valid.page_physical (h : call.Valid) (hi : i < call.count) :
    (call.page i).physical = call.physicalBase + i * pageSize := by
  have hle := h.physical_le
  have hmul : i * pageSize < call.count * pageSize := Nat.mul_lt_mul_of_pos_right hi (by decide)
  exact wrap64_of_lt (by omega)

/-- A covered address lies in one of the pages of the call. -/
theorem MapCall.Covers.page (h : call.Covers a) (hvalid : call.Valid) :
    ∃ i < call.count, a = call.virtualBase + i * pageSize + a % pageSize := by
  obtain ⟨hle, hlt⟩ := h
  have haligned := hvalid.virtual_aligned
  refine ⟨(a - call.virtualBase) / pageSize, ?_, ?_⟩
  · exact Nat.div_lt_of_lt_mul (by rw [Nat.mul_comm]; omega)
  · simp only [pageSize, pageShift] at *
    omega

/-- A page of a call covers the addresses in it. -/
theorem MapCall.Valid.page_covers (h : call.Valid) (hi : i < call.count)
    (ha : (call.page i).address / 2 ^ 12 = a / 2 ^ 12) :
    call.Covers a ∧ a = call.virtualBase + i * pageSize + a % pageSize := by
  have haligned := h.virtual_aligned
  rw [h.page_address hi] at ha
  simp only [Covers, pageSize, pageShift] at *
  omega

/-- The call covers its pages. -/
theorem MapCall.Valid.covers_page (h : call.Valid) (hi : i < call.count) :
    call.Covers (call.page i).address := (h.page_covers hi rfl).1

/-- The pages of a call around one of them. -/
theorem MapCall.pages_split (call : MapCall ρ) (hi : i < call.count) :
    call.pages = (List.range i).map call.page ++
      call.page i :: (List.range' (i + 1) (call.count - (i + 1))).map call.page := by
  have hsplit : List.range call.count =
      List.range i ++ i :: List.range' (i + 1) (call.count - (i + 1)) := by
    have happend := @List.range'_append_1 0 i (call.count - i)
    rw [Nat.zero_add, Nat.add_sub_cancel' hi.le] at happend
    rw [List.range_eq_range', List.range_eq_range', ← happend, ← List.range'_succ]
    congr 2
    omega
  rw [pages, hsplit, List.map_append, List.map_cons]

end Calls

/-- Every page of the range of the call is canonical. -/
def MapCall.InCanonical {ρ : Type} (call : MapCall ρ) : Prop :=
  ∀ address, call.Covers address → Canonical address

/-- A page of the call has the walk of the address. -/
def MapCall.CoversWalk {ρ : Type} (call : MapCall ρ) (address : ℕ) : Prop :=
  ∃ m ∈ call.pages, pathOf m.address = pathOf address

/-- In a canonical range, a canonical address is told apart by its walk. -/
theorem MapCall.CoversWalk.covers {ρ : Type} {call : MapCall ρ} {address : ℕ}
    (h : call.CoversWalk address) (hvalid : call.Valid) (hcanonical : call.InCanonical)
    (haddress : Canonical address) : call.Covers address := by
  obtain ⟨m, hm, hpath⟩ := h
  obtain ⟨i, hi, rfl⟩ := List.mem_map.mp hm
  rw [List.mem_range] at hi
  have hsame := (hcanonical _ (hvalid.covers_page hi)).page_eq haddress hpath
  exact (hvalid.page_covers hi hsame).1

/-- After any sequence of calls on a new table, with canonical ranges, an address resolves to
where the last call that covers it put its page. -/
theorem resolveAddress_of_last (hblank : Blank pool boot)
    (hnew : (createNew pool).run boot = .ok root s) (calls : List (MapCall Unit))
    (hcalls : ∀ call ∈ calls, call.Valid ∧ call.InCanonical) :
    Ensures (mapCalls pool (fun _ => root) calls) s (fun _ t =>
      ∀ before call after, calls = before ++ call :: after → ∀ address, call.Covers address →
        (∀ later ∈ after, ¬ later.Covers address) →
        resolveAddress pool root address t = call.physicalBase + (address - call.virtualBase))
      (Exhausted pool) := by
  refine ((tables_createNew hblank hnew).mapCalls calls).mono ?_ fun _ h => h
  rintro _ t ⟨-, E, htables, hsteps⟩ before call after rfl address hcovers hlater
  obtain ⟨hvalid, hcanonical⟩ := hcalls call (by simp)
  obtain ⟨i, hi, haddress⟩ := hcovers.page hvalid
  have hpath : pathOf (call.page i).address = pathOf address := by
    rw [pathOf_eq_iff, hvalid.page_address hi]
    simp only [pageSize, pageShift] at *
    omega
  have hdiffer : ∀ m ∈ (List.range' (i + 1) (call.count - (i + 1))).map call.page ++
      after.flatMap MapCall.pages, pathOf m.address ≠ pathOf (call.page i).address := by
    intro m hm heq
    rw [hpath] at heq
    rcases List.mem_append.mp hm with hm | hm
    · obtain ⟨j, hj, rfl⟩ := List.mem_map.mp hm
      rw [List.mem_range'_1] at hj
      have hsame := (hcanonical _ (hvalid.covers_page (by omega))).page_eq
        (hcanonical address hcovers) heq
      have hj' := (hvalid.page_covers (by omega) hsame).2
      simp only [pageSize, pageShift] at haddress hj'
      omega
    · obtain ⟨later, hmem, hm⟩ := List.mem_flatMap.mp hm
      obtain ⟨hvalid', hcanonical'⟩ := hcalls later (by simp [hmem])
      have hwalk : later.CoversWalk address := ⟨m, hm, heq⟩
      exact hlater later hmem (hwalk.covers hvalid' hcanonical' (hcanonical address hcovers))
  have hleaf : E () (pathOf address) = pageEntry (call.page i).physical (call.page i).global := by
    rw [← hpath]
    have hlist : (before ++ call :: after).flatMap MapCall.pages =
        (before.flatMap MapCall.pages ++ (List.range i).map call.page) ++ call.page i ::
          ((List.range' (i + 1) (call.count - (i + 1))).map call.page ++
            after.flatMap MapCall.pages) := by
      simp [call.pages_split hi]
    rw [hlist] at hsteps
    exact hsteps.leaf_of_last hdiffer
  obtain ⟨⟨hpresent, -⟩, hframe⟩ := pageEntry_spec (call.page i).physical (call.page i).global
  have haligned : (call.page i).physical % pageSize = 0 := by
    rw [hvalid.page_physical hi, Nat.add_mul_mod_self_right, hvalid.physical_aligned]
  have hphysical := hvalid.physical_le
  rw [htables.resolveAddress_eq () (hleaf ▸ ne_zero_of_getLsbD hpresent), hleaf, hframe,
    frame_ofNat haligned (wrap64_lt _), hvalid.page_physical hi]
  simp only [pageSize, pageShift] at *
  rw [wrap64_of_lt] <;> omega

/-- A pool of fifteen tables behind the first megabyte. -/
def smallPool : Pool where
  virtualBase := 0xFFFF801000000000
  physicalBase := 0x100000
  count := 16
  aligned := rfl
  count_lt := by decide
  virtual_le := by decide
  physical_le := by decide

/-- No page of the pool is taken and all memory is zero. -/
def bootState : PtState := ⟨fun _ => false, fun _ => 0, 0⟩

/-- The sample pool is blank. -/
theorem blank_bootState : Blank smallPool bootState := fun _ _ _ _ _ => rfl

/-- The first table. -/
def firstTable : PtState := { bootState with index := Function.update bootState.index 1 true }

/-- The first table of the sample pool. -/
theorem firstTable_run : (createNew smallPool).run bootState = .ok 0x101000 firstTable := rfl

/-- Two pages of the upper half, of which the second is mapped again. -/
def upperCalls : List (MapCall Unit) :=
  [⟨(), 0xFFFF800000000000, 0x1000, 2, true⟩, ⟨(), 0xFFFF800000001000, 0x5000, 1, true⟩]

/-- An address in the upper half is resolved. -/
theorem resolveAddress_upperCalls :
    (Blank smallPool bootState ∧ (createNew smallPool).run bootState = .ok 0x101000 firstTable ∧
      ∀ call ∈ upperCalls, call.Valid ∧ call.InCanonical) ∧
      ∃ t, (mapCalls smallPool (fun _ => 0x101000) upperCalls).run firstTable = .ok () t ∧
        resolveAddress smallPool 0x101000 0xFFFF800000001234 t = 0x5234 := by
  have hvalid : ∀ call ∈ upperCalls, call.Valid ∧ call.InCanonical := by
    intro call hcall
    simp only [upperCalls, List.mem_cons, List.not_mem_nil, or_false] at hcall
    rcases hcall with rfl | rfl
    · refine ⟨⟨by decide, by decide, by decide, by decide⟩, fun a ha => Or.inr ?_⟩
      simp only [MapCall.Covers, pageSize, pageShift] at ha
      omega
    · refine ⟨⟨by decide, by decide, by decide, by decide⟩, fun a ha => Or.inr ?_⟩
      simp only [MapCall.Covers, pageSize, pageShift] at ha
      omega
  refine ⟨⟨blank_bootState, firstTable_run, hvalid⟩, ?_⟩
  have hensures := resolveAddress_of_last blank_bootState firstTable_run upperCalls hvalid
  have hrun := eq_ok_of_answer (r := (mapCalls smallPool (fun _ => 0x101000) upperCalls).run firstTable)
    (a := ()) (by decide +kernel)
  have hresolve := hensures.of_ok hrun [⟨(), 0xFFFF800000000000, 0x1000, 2, true⟩]
    ⟨(), 0xFFFF800000001000, 0x5000, 1, true⟩ [] rfl 0xFFFF800000001234
    ⟨by decide, by decide⟩ (by simp)
  exact ⟨_, hrun, hresolve⟩

/-- A range that begins in the lower canonical half and runs out of it maps over the first page
of the upper half. -/
theorem not_resolveAddress_of_last :
    ¬ ∀ (pool : Pool) (boot s : PtState) (root : ℕ), Blank pool boot →
      (createNew pool).run boot = .ok root s → ∀ calls : List (MapCall Unit),
      (∀ call ∈ calls, call.Valid ∧ Canonical call.virtualBase) →
      Ensures (mapCalls pool (fun _ => root) calls) s (fun _ t =>
        ∀ before call after, calls = before ++ call :: after → ∀ address, call.Covers address →
          (∀ later ∈ after, ¬ later.Covers address) →
          resolveAddress pool root address t = call.physicalBase + (address - call.virtualBase))
        (Exhausted pool) := by
  intro hclaim
  let calls : List (MapCall Unit) :=
    [⟨(), 0xFFFF800000000000, 0x1000, 1, true⟩, ⟨(), 0x00007FFFFFFFF000, 0x5000, 2, false⟩]
  have hvalid : ∀ call ∈ calls, call.Valid ∧ Canonical call.virtualBase := by
    intro call hcall
    simp only [calls, List.mem_cons, List.not_mem_nil, or_false] at hcall
    rcases hcall with rfl | rfl
    · exact ⟨⟨by decide, by decide, by decide, by decide⟩, by decide⟩
    · exact ⟨⟨by decide, by decide, by decide, by decide⟩, by decide⟩
  have hensures := hclaim smallPool bootState firstTable 0x101000 blank_bootState firstTable_run
    calls hvalid
  have hrun := eq_ok_of_answer (r := (mapCalls smallPool (fun _ => 0x101000) calls).run firstTable)
    (a := ()) (by decide +kernel)
  have hresolve := hensures.of_ok hrun [] _ _ rfl 0xFFFF800000000000 ⟨by decide, by decide⟩
    (by simp [MapCall.Covers, pageSize, pageShift])
  exact absurd hresolve (by decide)

end Vsos.Virtual
