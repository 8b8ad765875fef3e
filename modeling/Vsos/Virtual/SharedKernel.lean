import Vsos.Virtual.Permissions

/-!
# Kernel mappings of two address spaces

`LoadKernelMappings` copies the upper half of the current root. From then on the tables below
the copied entries belong to both trees, at the same paths, and every other table belongs to
one of them. A write below a copied entry is seen by both, a write in the lower half by one.
-/

namespace Vsos.Virtual

open Vsos.Lib Vsos.Mem Relation

variable {pool : Pool} {s t : PtState} {π : List (Fin 512)}

section Joint

variable {ρ : Type} {roots : ρ → ℕ} {E E' : ρ → List (Fin 512) → BitVec 64}

/-- The top-level entries in `S` are common to all trees, and the trees have no table in common
that is a root or lies in the lower half. -/
structure Joint (roots : ρ → ℕ) (S : Fin 512 → Prop) (E : ρ → List (Fin 512) → BitVec 64) : Prop where
  common : ∀ r r' k, S k → E r [k] ≠ 0 ∧ E r [k] = E r' [k]
  private_lower : ∀ r r' π, r ≠ r' → Live (E r) π → Live (E r') π → π.length < 4 →
    tableOf frame (roots r) (E r) π = tableOf frame (roots r') (E r') π → π ≠ [] ∧ ¬ LowerPath π

variable {S : Fin 512 → Prop} {r : ρ} {q : List (Fin 512)} {D : BitVec 64 → Prop}

section

variable (h : Joint roots S E)
include h

/-- Tables that did not change. -/
theorem Joint.congr (hsame : ∀ r π, π.length < 4 → E' r π = E r π) :
    Joint roots S E' := by
  have htable : ∀ r π, π.length < 4 →
      tableOf frame (roots r) (E' r) π = tableOf frame (roots r) (E r) π := by
    intro r π hlen
    cases π with
    | nil => rfl
    | cons k π => rw [tableOf, tableOf, hsame r _ hlen]
  constructor
  · intro r r' k hk
    rw [hsame r [k] (by simp), hsame r' [k] (by simp)]
    exact h.common r r' k hk
  · intro r r' π hne hlive hlive' hlen heq
    rw [Live, hsame _ π hlen] at hlive hlive'
    rw [htable r π hlen, htable r' π hlen] at heq
    exact h.private_lower r r' π hne hlive hlive' hlen heq

/-- Attaching a table keeps what the trees have in common. -/
theorem Joint.attach (hlen : q.length ≤ 4) (hstep : AttachStep frame 4 roots r q D E E') :
    Joint roots S E' := by
  obtain ⟨π, k, e, hπ, hzero, hne, -, hsuffix, hshort, hfresh, rfl⟩ := hstep
  have hlength : π.length < 3 := by
    have hlt := lt_of_le_of_ne hsuffix.length_le fun heq => hshort (hsuffix.eq_of_length heq)
    rw [List.length_cons] at hlt
    omega
  constructor
  · have hkeep : ∀ r' k', S k' → putAt frame roots E r π k e r' [k'] = E r' [k'] := by
      intro r' k' hk'
      refine (putAt_cases frame roots E r π k e r' [k']).resolve_right ?_
      rintro ⟨-, heq, -⟩
      rw [← heq] at hzero
      exact (h.common r r k' hk').1 hzero
    intro r₁ r₂ k' hk'
    rw [hkeep r₁ k' hk', hkeep r₂ k' hk']
    exact h.common r₁ r₂ k' hk'
  · intro r₁ r₂ π' hdiffer hlive₁ hlive₂ hlen' heq
    by_cases hnil : π' = []
    · subst hnil
      exact h.private_lower r₁ r₂ [] hdiffer (Or.inl rfl) (Or.inl rfl) hlen' heq
    · refine ⟨hnil, ?_⟩
      obtain ⟨k', π', rfl⟩ := List.exists_cons_of_ne_nil hnil
      rw [tableOf, tableOf] at heq
      replace hlive₁ := hlive₁.resolve_left hnil
      replace hlive₂ := hlive₂.resolve_left hnil
      rcases putAt_cases frame roots E r π k e r₁ (k' :: π') with h₁ | ⟨hshares₁, hhere, h₁⟩ <;>
        rcases putAt_cases frame roots E r π k e r₂ (k' :: π') with h₂ | ⟨hshares₂, hhere', h₂⟩ <;>
        rw [h₁] at heq hlive₁ <;> rw [h₂] at heq hlive₂
      · exact (h.private_lower r₁ r₂ _ hdiffer (Or.inr hlive₁) (Or.inr hlive₂) hlen' heq).2
      · exact absurd heq (hfresh r₁ _ (Or.inr hlive₁) hlen')
      · exact absurd heq.symm (hfresh r₂ _ (Or.inr hlive₂) hlen')
      · -- both trees share the table above, which is therefore in the upper half
        obtain ⟨hne', hupper⟩ := h.private_lower r₁ r₂ π hdiffer hshares₁.1 hshares₂.1 (by omega)
          (hshares₁.2.trans hshares₂.2.symm)
        rw [hhere, ← lowerPath_suffix (List.suffix_cons k π) hne']
        exact hupper

/-- A write through one tree, at a table that is its root or in the lower half, is not seen by
another tree. -/
theorem Joint.putAt_other {r' : ρ} (hr : r ≠ r') (hπ : Live (E r) π) (hlen : π.length < 4)
    (hlower : π ≠ [] → LowerPath π) (k : Fin 512) (e : BitVec 64) :
    putAt frame roots E r π k e r' = E r' := by
  rw [putAt, if_neg]
  rintro ⟨hlive, heq⟩
  obtain ⟨hne, hupper⟩ := h.private_lower r r' π hr hπ hlive hlen heq.symm
  exact hupper (hlower hne)

/-- Attaching tables keeps what the trees have in common, and in the lower half it is not seen
by another tree. -/
theorem Joint.attachSteps (hlen : q.length ≤ 4)
    (hsteps : ReflTransGen (AttachStep frame 4 roots r q D) E E') :
    Joint roots S E' ∧ ∀ r', r ≠ r' → LowerPath q → E' r' = E r' := by
  induction hsteps with
  | refl => exact ⟨h, fun _ _ _ => rfl⟩
  | tail _ hattach ih =>
    obtain ⟨hjoint, hsame⟩ := ih
    refine ⟨hjoint.attach hlen hattach, fun r' hr hlower => ?_⟩
    obtain ⟨π, k, e, hπ, -, -, -, hsuffix, -, -, rfl⟩ := hattach
    have hlength := hsuffix.length_le
    rw [List.length_cons] at hlength
    have hupper : π <:+ q := (List.suffix_cons k π).trans hsuffix
    rw [hjoint.putAt_other hr hπ (by omega) (fun hne => (lowerPath_suffix hupper hne).mpr hlower),
      hsame r' hr hlower]

/-- Mapping a page keeps what the trees have in common, and a page of the lower half is not seen
by another tree. -/
theorem Joint.mapStep {m : PageMapping ρ} (hstep : MapStep roots m E E') :
    Joint roots S E' ∧ ∀ r', m.root ≠ r' → LowerPath (pathOf m.address) → E' r' = E r' := by
  obtain ⟨E₁, hsteps, hlive, rfl⟩ := hstep
  obtain ⟨hjoint, hsame⟩ := h.attachSteps le_rfl hsteps
  constructor
  · refine hjoint.congr fun r' π hlen => ?_
    refine (putAt_cases _ _ _ _ _ _ _ r' π).resolve_right ?_
    rintro ⟨-, rfl, -⟩
    simp [pathOf] at hlen
  · intro r' hr hlower
    have hsuffix : (pathOf m.address).tail <:+ pathOf m.address := List.tail_suffix _
    rw [hjoint.putAt_other hr hlive (by simp [pathOf])
      (fun hne => (lowerPath_suffix hsuffix hne).mpr hlower), hsame r' hr hlower]

/-- Mapping pages keeps what the trees have in common. -/
theorem Joint.mapSteps {l : List (PageMapping ρ)} (hsteps : MapSteps roots l E E') :
    Joint roots S E' ∧ ∀ r', (∀ m ∈ l, m.root ≠ r' ∧ LowerPath (pathOf m.address)) →
      E' r' = E r' := by
  induction l generalizing E with
  | nil =>
    obtain rfl : E = E' := hsteps
    exact ⟨h, fun _ _ => rfl⟩
  | cons m l ih =>
    obtain ⟨E₁, hstep, hrest⟩ := hsteps
    obtain ⟨hjoint, hsame⟩ := h.mapStep hstep
    obtain ⟨hjoint', hsame'⟩ := ih hjoint hrest
    refine ⟨hjoint', fun r' hm => ?_⟩
    rw [List.forall_mem_cons] at hm
    rw [hsame' r' hm.2, hsame r' hm.1.1 hm.1.2]

end

end Joint

/-- Where an address leads if its page is mapped. -/
def translation (pool : Pool) (root address : ℕ) (s : PtState) : Option ℕ :=
  if ∀ e ∈ walk pool root address s, e ≠ 0 then some (resolveAddress pool root address s) else none

/-- A translation is determined by the leaf. -/
theorem Tables.translation_eq {ρ : Type} {roots : ρ → ℕ} {E : ρ → List (Fin 512) → BitVec 64}
    (h : Tables pool s roots E) (r : ρ) (address : ℕ) :
    translation pool (roots r) address s = if E r (pathOf address) ≠ 0 then
      some (wrap64 (frame (E r (pathOf address)) + address % 2 ^ 12)) else none := by
  rw [translation]
  by_cases hmapped : E r (pathOf address) ≠ 0
  · have hwalk : ∀ e ∈ walk pool (roots r) address s, e ≠ 0 := by
      have hlive : ∀ π, π ≠ [] → π <:+ pathOf address → E r π ≠ 0 := fun π hne hπ =>
        ((h.tree r).live_of_suffix (Or.inr hmapped) hπ).resolve_left hne
      rw [h.walk_eq r hmapped]
      simp only [List.mem_cons, List.not_mem_nil, or_false, forall_eq_or_imp, forall_eq]
      exact ⟨hlive _ (by simp) ⟨[_, _, _], rfl⟩, hlive _ (by simp) ⟨[_, _], rfl⟩,
        hlive _ (by simp) ⟨[_], rfl⟩, hmapped⟩
    rw [if_pos hwalk, if_pos hmapped, h.resolveAddress_eq r hmapped]
  · rw [if_neg (fun hwalk => hmapped (h.mapped_of_walk r hwalk)), if_neg hmapped]

/-- The table that is current and the one that gets its kernel mappings. -/
inductive Side where
  | current
  | process
  deriving DecidableEq

/-- The other table. -/
def Side.other : Side → Side
  | .current => .process
  | .process => .current

/-- The roots of both tables. -/
def Side.root (c p : ℕ) : Side → ℕ
  | .current => c
  | .process => p

section Load

variable {i j : ℕ}

/-- `LoadKernelMappings` copies the upper half of one root, and changes no other page. -/
theorem loadKernelMappings_contents (hi : i < pool.count) (hj : j < pool.count)
    (hcurrent : s.cr3 = pool.page i) (hload : (loadKernelMappings pool (pool.page j)).run s = .ok () t) :
    t.index = s.index ∧
      (∀ l < pool.count, l ≠ j → ∀ k, contents pool t (pool.page l) k = contents pool s (pool.page l) k) ∧
      ∀ k : Fin 512, contents pool t (pool.page j) k =
        if k.val < 256 then contents pool s (pool.page j) k else contents pool s (pool.page i) k := by
  cases hload
  refine ⟨rfl, fun l hl hne k => ?_, fun k => ?_⟩
  · simp only [contents, slot_page hl, getVirtualAddress_page hj, pageSize, pageShift]
    rw [if_neg]
    omega
  · simp only [contents, slot_page hj, slot_page hi, getVirtualAddress_page hj, hcurrent,
      getVirtualAddress_page hi, pageSize, pageShift]
    by_cases hlow : k.val < 256
    · rw [if_pos hlow, if_neg (by omega)]
    · rw [if_neg hlow, if_pos (by omega)]
      exact congrArg s.mem (by omega)

/-- The entries of both tables after the upper half was copied. -/
def copied (E : List (Fin 512) → BitVec 64) : Side → List (Fin 512) → BitVec 64
  | .current, π => E π
  | .process, π => if π ≠ [] ∧ ¬ LowerPath π then E π else 0

/-- The entries of the process are those of the kernel half. -/
theorem copied_process {E : List (Fin 512) → BitVec 64} (h : copied E .process π ≠ 0) :
    π ≠ [] ∧ ¬ LowerPath π ∧ copied E .process π = E π ∧ E π ≠ 0 := by
  rw [copied] at h ⊢
  split at h
  · next hupper =>
    rw [if_pos hupper]
    exact ⟨hupper.1, hupper.2, rfl, h⟩
  · exact absurd rfl h

/-- A table below the new root is a table of the current tree. -/
theorem tableOf_copied_process {E : List (Fin 512) → BitVec 64} {c p : ℕ} (hne : π ≠ [])
    (hlive : Live (copied E .process) π) :
    Live E π ∧ ¬ LowerPath π ∧
      tableOf frame p (copied E .process) π = tableOf frame c E π := by
  obtain ⟨-, hupper, heq, hentry⟩ := copied_process (hlive.resolve_left hne)
  obtain ⟨k, π, rfl⟩ := List.exists_cons_of_ne_nil hne
  exact ⟨Or.inr hentry, hupper, by rw [tableOf, tableOf, heq]⟩

/-- From `s` to `t`, the upper half of the table `c` was copied into the new table `p`. -/
structure Copies (pool : Pool) (c p : ℕ) (s t : PtState) : Prop where
  fresh : ¬ InUse pool s p
  in_use : InUse pool t p
  still_used : ∀ table, InUse pool s table → InUse pool t table
  kept : ∀ table k, InUse pool s table → contents pool t table k = contents pool s table k
  root : ∀ k : Fin 512, contents pool t p k = if k.val < 256 then 0 else contents pool s c k
  blank : Blank pool t

/-- `CreateNew` and `LoadKernelMappings`, while `c` is the current table. -/
theorem copies_of_run {c p : ℕ} {u : PtState} (hblank : Blank pool s) (hc : InUse pool s c)
    (hnew : (createNew pool).run { s with cr3 := c } = .ok p u)
    (hload : (loadKernelMappings pool p).run u = .ok () t) : Copies pool c p s t := by
  obtain ⟨j, rfl, hle, hj, hfree, rfl⟩ := createNew_spec.of_ok hnew
  obtain ⟨i, -, hi, husedi, rfl⟩ := hc
  obtain ⟨hindex, hother, hroot⟩ := loadKernelMappings_contents hi hj rfl hload
  have hfresh : ∀ l, s.index l = true → l ≠ j := by
    rintro l hused rfl
    rw [hfree] at hused
    cases hused
  have hused : ∀ l, t.index l = true ↔ l = j ∨ s.index l = true := by
    intro l
    rw [hindex]
    change Function.update s.index j true l = true ↔ _
    by_cases hlj : l = j
    · simp [hlj]
    · simp [hlj]
  refine ⟨?_, ⟨j, hle, hj, (hused j).mpr (Or.inl rfl), rfl⟩, ?_, ?_, ?_, ?_⟩
  · rintro ⟨l, -, -, hl, heq⟩
    exact hfresh l hl (Pool.page_injective heq).symm
  · rintro _ ⟨l, hle', hl, husedl, rfl⟩
    exact ⟨l, hle', hl, (hused l).mpr (Or.inr husedl), rfl⟩
  · rintro _ k ⟨l, -, hl, husedl, rfl⟩
    exact hother l hl (hfresh l husedl) k
  · intro k
    rw [hroot k]
    split
    · exact hblank j hle hj hfree k
    · rfl
  · intro l hle' hl hfreel k
    have hnot : ¬ (l = j ∨ s.index l = true) := fun h => by
      rw [(hused l).mpr h] at hfreel
      cases hfreel
    rw [not_or, Bool.not_eq_true] at hnot
    rw [hother l hl hnot.1]
    exact hblank l hle' hl hnot.2 k

variable {c p : ℕ} {E : List (Fin 512) → BitVec 64}

section

variable (h : Copies pool c p s t) (htree : Radix frame 4 (InUse pool s) (contents pool s) c E)
include h htree

/-- The current tree is not touched. -/
theorem Copies.current_tree :
    Radix frame 4 (InUse pool t) (contents pool t) c E :=
  htree.frame h.still_used fun π k hπ hlen => h.kept _ k (htree.in_use π hπ hlen)

/-- No table of the current tree is the new root. -/
theorem Copies.tableOf_ne (hπ : Live E π) (hlen : π.length < 4) : tableOf frame c E π ≠ p :=
  fun heq => h.fresh (heq ▸ htree.in_use π hπ hlen)

/-- The new table is a radix tree with the upper half of the entries. -/
theorem Copies.process_tree :
    Radix frame 4 (InUse pool t) (contents pool t) p (copied E .process) where
  in_use := by
    intro π hlive hlen
    by_cases hnil : π = []
    · rw [hnil]
      exact h.in_use
    · obtain ⟨hlive', -, htable⟩ := tableOf_copied_process hnil hlive
      rw [htable]
      exact (h.current_tree htree).in_use π hlive' hlen
  word := by
    intro π k hlive hlen
    by_cases hnil : π = []
    · rw [hnil, tableOf, h.root k, copied]
      by_cases hlow : k.val < 256
      · rw [if_pos hlow, if_neg (by simp [LowerPath, hlow])]
      · rw [if_neg hlow, if_pos ⟨by simp, by simpa [LowerPath] using hlow⟩]
        exact htree.word [] k (Or.inl rfl) (by decide)
    · obtain ⟨hlive', hupper, htable⟩ := tableOf_copied_process hnil hlive
      rw [lowerPath_suffix (List.suffix_cons k π) hnil] at hupper
      rw [htable, copied, if_pos ⟨List.cons_ne_nil k π, hupper⟩]
      exact (h.current_tree htree).word π k hlive' hlen
  apart := by
    intro π π' hlive hlive' hlen hlen' heq
    by_cases hnil : π = [] <;> by_cases hnil' : π' = []
    · rw [hnil, hnil']
    · obtain ⟨hold, -, htable⟩ := tableOf_copied_process hnil' hlive'
      rw [hnil, htable] at heq
      exact absurd heq.symm (h.tableOf_ne htree hold hlen')
    · obtain ⟨hold, -, htable⟩ := tableOf_copied_process hnil hlive
      rw [hnil', htable] at heq
      exact absurd heq (h.tableOf_ne htree hold hlen)
    · obtain ⟨hold, -, htable⟩ := tableOf_copied_process hnil hlive
      obtain ⟨hold', -, htable'⟩ := tableOf_copied_process hnil' hlive'
      rw [htable, htable'] at heq
      exact htree.apart π π' hold hold' hlen hlen' heq
  closed := by
    intro π k hne
    obtain ⟨-, hupper, -, hentry⟩ := copied_process hne
    obtain ⟨hlive, hlen⟩ := htree.closed π k hentry
    refine ⟨?_, hlen⟩
    by_cases hnil : π = []
    · exact Or.inl hnil
    · rw [← lowerPath_suffix (List.suffix_cons k π) hnil] at hupper
      refine Or.inr ?_
      rw [copied, if_pos ⟨hnil, hupper⟩]
      exact hlive.resolve_left hnil

end

/-- Both tables after the upper half was copied. -/
theorem Copies.tables {E : Unit → List (Fin 512) → BitVec 64} (h : Copies pool c p s t)
    (htables : Tables pool s (fun _ => c) E) : Tables pool t (Side.root c p) (copied (E ())) := by
  have htree := htables.tree ()
  have hacross : ∀ π π', Live (E ()) π → Live (copied (E ()) .process) π' → π.length < 4 →
      π'.length < 4 → tableOf frame c (E ()) π = tableOf frame p (copied (E ()) .process) π' →
      π = π' := by
    intro π π' hlive hlive' hlen hlen' heq
    by_cases hnil : π' = []
    · rw [hnil] at heq
      exact absurd heq (h.tableOf_ne htree hlive hlen)
    · obtain ⟨hold, -, htable⟩ := tableOf_copied_process hnil hlive'
      rw [htable] at heq
      exact htree.apart π π' hlive hold hlen hlen' heq
  refine ⟨⟨fun r => ?_, fun r r' π π' hlive hlive' hlen hlen' heq => ?_⟩, h.blank, ?_⟩
  · cases r with
    | current => exact h.current_tree htree
    | process => exact h.process_tree htree
  · cases r <;> cases r'
    · exact htree.apart π π' hlive hlive' hlen hlen' heq
    · exact hacross π π' hlive hlive' hlen hlen' heq
    · exact (hacross π' π hlive' hlive hlen' hlen heq.symm).symm
    · exact (h.process_tree htree).apart π π' hlive hlive' hlen hlen' heq
  · intro r π hne hlen
    cases r with
    | current => exact htables.small () π hne hlen
    | process =>
      obtain ⟨-, -, heq, hentry⟩ := copied_process hne
      rw [heq]
      exact htables.small () π hentry hlen

/-- What both tables have in common at first. -/
theorem Copies.joint {E : Unit → List (Fin 512) → BitVec 64} (h : Copies pool c p s t)
    (htables : Tables pool s (fun _ => c) E) :
    Joint (Side.root c p) (fun k => 256 ≤ k.val ∧ E () [k] ≠ 0) (copied (E ())) := by
  have hboth : ∀ r k, 256 ≤ k.val ∧ E () [k] ≠ 0 → copied (E ()) r [k] = E () [k] := by
    intro r k hk
    cases r with
    | current => rfl
    | process => rw [copied, if_pos ⟨by simp, by simpa [LowerPath] using hk.1⟩]
  constructor
  · intro r r' k hk
    rw [hboth r k hk, hboth r' k hk]
    exact ⟨hk.2, rfl⟩
  · have hprivate : ∀ π, Live (E ()) π → Live (copied (E ()) .process) π → π.length < 4 →
        tableOf frame c (E ()) π = tableOf frame p (copied (E ()) .process) π →
        π ≠ [] ∧ ¬ LowerPath π := by
      intro π hlive hlive' hlen heq
      have hne : π ≠ [] := by
        rintro rfl
        exact h.tableOf_ne (htables.tree ()) hlive hlen heq
      exact ⟨hne, (copied_process (hlive'.resolve_left hne)).2.1⟩
    intro r r' π hne hlive hlive' hlen heq
    cases r <;> cases r'
    · exact absurd rfl hne
    · exact hprivate π hlive hlive' hlen heq
    · exact hprivate π hlive' hlive hlen heq.symm
    · exact absurd rfl hne

end Load

/-- The range of the call lies in the lower half. -/
def MapCall.InLower {ρ : Type} (call : MapCall ρ) : Prop :=
  call.virtualBase + call.count * pageSize ≤ 2 ^ 47

/-- A page of a call in the lower half. -/
theorem MapCall.InLower.page {ρ : Type} {call : MapCall ρ} (h : call.InLower) {m : PageMapping ρ}
    (hm : m ∈ call.pages) : m.root = call.root ∧ LowerPath (pathOf m.address) := by
  obtain ⟨i, hi, rfl⟩ := List.mem_map.mp hm
  have hmul : (i + 1) * pageSize ≤ call.count * pageSize :=
    Nat.mul_le_mul_right _ (List.mem_range.mp hi)
  refine ⟨rfl, (lowerPath_pathOf _).mpr ?_⟩
  simp only [InLower, MapCall.page, wrap64, pageSize, pageShift] at *
  omega

/-- Let `c` be a table that was created and mapped, and let `p` get its kernel mappings while
`c` is current. After any further calls through both, an upper-half address whose top-level
entry was there at that time resolves alike in both, and one more call on the lower half of
either leaves every translation of the other as it is. -/
theorem kernel_mappings_shared {boot s₀ s₁ s₂ s₃ : PtState} {c p : ℕ} (hblank : Blank pool boot)
    (hc : (createNew pool).run boot = .ok c s₀) (earlier : List (MapCall Unit))
    (hmapped : (mapCalls pool (fun _ => c) earlier).run s₀ = .ok () s₁)
    (hp : (createNew pool).run { s₁ with cr3 := c } = .ok p s₂)
    (hload : (loadKernelMappings pool p).run s₂ = .ok () s₃) (calls : List (MapCall Side)) :
    Ensures (mapCalls pool (Side.root c p) calls) s₃ (fun _ t =>
      (∀ address, 2 ^ 64 - 2 ^ 47 ≤ address → address < 2 ^ 64 →
        contents pool s₂ c (index4 address) ≠ 0 →
        resolveAddress pool p address t = resolveAddress pool c address t) ∧
      ∀ call : MapCall Side, call.InLower →
        Ensures (mapPages pool (Side.root c p call.root) call.virtualBase call.physicalBase
          call.count call.global) t (fun _ u => ∀ address,
            translation pool (Side.root c p call.root.other) address u =
              translation pool (Side.root c p call.root.other) address t) (Exhausted pool))
      (Exhausted pool) := by
  obtain ⟨-, E, htables, -⟩ := ((tables_createNew hblank hc).mapCalls earlier).of_ok hmapped
  have hcopies : Copies pool c p s₁ s₃ := copies_of_run htables.blank
    ((htables.tree ()).in_use [] (Or.inl rfl) (by decide)) hp hload
  refine ((hcopies.tables htables).mapCalls calls).mono ?_ fun _ h => h
  rintro _ t ⟨-, E', htables', hsteps⟩
  obtain ⟨hjoint, -⟩ := (hcopies.joint htables).mapSteps hsteps
  constructor
  · intro address hupper hlt hentry
    have hslot : contents pool s₂ c (index4 address) = E () [index4 address] := by
      obtain ⟨j, -, -, -, -, rfl⟩ := createNew_spec.of_ok hp
      exact (htables.tree ()).word [] _ (Or.inl rfl) (by decide)
    have hindex : 256 ≤ (index4 address).val := by
      simp only [index4, indexAt]
      omega
    have hcommon := (hjoint.common .process .current (index4 address) ⟨hindex, hslot ▸ hentry⟩).2
    have hroots : t.mem (slot pool p (index4 address)) = t.mem (slot pool c (index4 address)) :=
      ((htables'.tree .process).word [] _ (Or.inl rfl) (by decide)).trans
        (hcommon.trans ((htables'.tree .current).word [] _ (Or.inl rfl) (by decide)).symm)
    simp only [resolveAddress, hroots]
  · intro call hlower
    refine (htables'.mapPages call).mono ?_ fun _ h => h
    rintro _ u ⟨-, -, E'', htables'', hsteps'⟩ address
    have hsame : E'' call.root.other = E' call.root.other := by
      refine (hjoint.mapSteps hsteps').2 _ fun m hm => ?_
      obtain ⟨hroot, hpath⟩ := hlower.page hm
      refine ⟨?_, hpath⟩
      rw [hroot]
      cases call.root <;> exact Side.noConfusion
    rw [htables''.translation_eq, htables'.translation_eq, hsame]

/-- One kernel page through the first table. -/
def kernelCalls : List (MapCall Unit) := [⟨(), 0xFFFF800000000000, 0x1000, 1, true⟩]

/-- The first table with a kernel page. -/
def kernelTable : PtState := final ((mapCalls smallPool (fun _ => 0x101000) kernelCalls).run firstTable)

/-- A second table, created while the first is current. -/
def secondTable : PtState :=
  final ((createNew smallPool).run { kernelTable with cr3 := 0x101000 })

/-- Both tables after the kernel mappings were loaded. -/
def bothTables : PtState := final ((loadKernelMappings smallPool 0x105000).run secondTable)

/-- One more kernel page, through the second table. -/
def processCalls : List (MapCall Side) := [⟨.process, 0xFFFF800000001000, 0x7000, 1, true⟩]

/-- The kernel page that is mapped through the second table resolves alike in the first. -/
theorem kernel_mappings_shared_second :
    ((createNew smallPool).run bootState = .ok 0x101000 firstTable ∧
      (mapCalls smallPool (fun _ => 0x101000) kernelCalls).run firstTable = .ok () kernelTable ∧
      (createNew smallPool).run { kernelTable with cr3 := 0x101000 } = .ok 0x105000 secondTable ∧
      (loadKernelMappings smallPool 0x105000).run secondTable = .ok () bothTables) ∧
    ∃ u, (mapCalls smallPool (Side.root 0x101000 0x105000) processCalls).run bothTables = .ok () u ∧
      resolveAddress smallPool 0x105000 0xFFFF800000001234 u =
        resolveAddress smallPool 0x101000 0xFFFF800000001234 u := by
  have hmapped : (mapCalls smallPool (fun _ => 0x101000) kernelCalls).run firstTable =
      .ok () kernelTable := eq_ok_of_answer (by decide +kernel)
  have hp : (createNew smallPool).run { kernelTable with cr3 := 0x101000 } =
      .ok 0x105000 secondTable := eq_ok_of_answer (by decide +kernel)
  have hload : (loadKernelMappings smallPool 0x105000).run secondTable = .ok () bothTables := rfl
  have hrun := eq_ok_of_answer
    (r := (mapCalls smallPool (Side.root 0x101000 0x105000) processCalls).run bothTables) (a := ())
    (by decide +kernel)
  have hslot : contents smallPool secondTable 0x101000 (index4 0xFFFF800000001234) ≠ 0 := by
    decide +kernel
  have hshared := kernel_mappings_shared blank_bootState firstTable_run kernelCalls hmapped hp hload
  have hboth := (hshared processCalls).of_ok hrun
  refine ⟨⟨firstTable_run, hmapped, hp, hload⟩, _, hrun, ?_⟩
  exact hboth.1 0xFFFF800000001234 (by omega) (by omega) hslot

end Vsos.Virtual
