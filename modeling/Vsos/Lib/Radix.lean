import Mathlib.Data.List.Infix
import Mathlib.Tactic.Ring

/-!
# Radix trees in memory

A radix tree of a fixed height is stored in tables: an entry of a table is zero, or it leads to
a table one level below, or, in the lowest level, it is a leaf. The tree is described by the
entries along its paths, and a path is written with its lowest index first. No two paths lead
to the same table; so an entry can be written through one path without a change at any other.
-/

namespace Vsos.Lib

variable {τ ι ε : Type} [Zero ε]

/-- The path is empty or its entry is not zero. -/
def Live (E : List ι → ε) (π : List ι) : Prop := π = [] ∨ E π ≠ 0

/-- The table that a path leads to. -/
def tableOf (target : ε → τ) (root : τ) (E : List ι → ε) : List ι → τ
  | [] => root
  | k :: π => target (E (k :: π))

/-- The tables of `W`, of which those with `used` are in use, hold a tree with the entries `E`
under `root`. -/
structure Radix (target : ε → τ) (height : ℕ) (used : τ → Prop) (W : τ → ι → ε) (root : τ)
    (E : List ι → ε) : Prop where
  in_use : ∀ π, Live E π → π.length < height → used (tableOf target root E π)
  word : ∀ π k, Live E π → π.length < height → W (tableOf target root E π) k = E (k :: π)
  apart : ∀ π π', Live E π → Live E π' → π.length < height → π'.length < height →
    tableOf target root E π = tableOf target root E π' → π = π'
  closed : ∀ π k, E (k :: π) ≠ 0 → Live E π ∧ π.length < height

namespace Radix

variable {target : ε → τ} {height : ℕ} {used used' : τ → Prop} {W W' : τ → ι → ε} {root : τ}
  {E E' : List ι → ε} {π : List ι} {k : ι} {e : ε}

/-- An empty table is the tree without entries. -/
theorem empty (hroot : used root) (hzero : ∀ k, W root k = 0) :
    Radix target height used W root fun _ => 0 := by
  have hnil : ∀ π : List ι, Live (fun _ => (0 : ε)) π → π = [] := fun π h =>
    h.resolve_right fun hne => hne rfl
  refine ⟨?_, ?_, ?_, ?_⟩
  · rintro π hπ -
    rw [hnil π hπ]
    exact hroot
  · rintro π k hπ -
    rw [hnil π hπ]
    exact hzero k
  · rintro π π' hπ hπ' - - -
    rw [hnil π hπ, hnil π' hπ']
  · exact fun π k h => absurd rfl h

/-- A tree stays as it is when its tables do. -/
theorem frame (h : Radix target height used W root E) (hused : ∀ t, used t → used' t)
    (hkeep : ∀ π k, Live E π → π.length < height →
      W' (tableOf target root E π) k = W (tableOf target root E π) k) :
    Radix target height used' W' root E where
  in_use := fun π hπ hlen => hused _ (h.in_use π hπ hlen)
  word := fun π k hπ hlen => (hkeep π k hπ hlen).trans (h.word π k hπ hlen)
  apart := h.apart
  closed := h.closed

/-- Every path above a live one is live. -/
theorem live_of_suffix (h : Radix target height used W root E) {q : List ι} (hq : Live E q)
    (hπ : π <:+ q) : Live E π := by
  induction q with
  | nil =>
    rw [List.suffix_nil.mp hπ]
    exact Or.inl rfl
  | cons k q ih =>
    rcases List.suffix_cons_iff.mp hπ with rfl | hπ
    · exact hq
    · exact ih (h.closed q k (hq.resolve_left (List.cons_ne_nil k q))).1 hπ

end Radix

/-- One entry of one table is written, and more tables may be in use afterwards. -/
structure Puts (used used' : τ → Prop) (W W' : τ → ι → ε) (t : τ) (k : ι) (e : ε) : Prop where
  still_used : ∀ t, used t → used' t
  here : W' t k = e
  elsewhere : ∀ t' k', used t' → t' ≠ t ∨ k' ≠ k → W' t' k' = W t' k'

/-- The entry leads to an empty table that comes into use with it. -/
structure Attaches (target : ε → τ) (used used' : τ → Prop) (W' : τ → ι → ε) (e : ε) : Prop where
  ne_zero : e ≠ 0
  fresh : ¬ used (target e)
  now_used : used' (target e)
  blank : ∀ k, W' (target e) k = 0

namespace Radix

variable {target : ε → τ} {height : ℕ} {used used' : τ → Prop} {W W' : τ → ι → ε} {root : τ}
  {E E' : List ι → ε} {π π' : List ι} {k : ι} {e : ε}

/-- A write to a table that is not in the tree. -/
theorem put_elsewhere (h : Radix target height used W root E) {t : τ}
    (hput : Puts used used' W W' t k e)
    (ht : ∀ π, Live E π → π.length < height → tableOf target root E π ≠ t) :
    Radix target height used' W' root E :=
  h.frame hput.still_used fun π k' hπ hlen =>
    hput.elsewhere _ k' (h.in_use π hπ hlen) (Or.inl (ht π hπ hlen))

variable [DecidableEq ι]

omit [Zero ε] in
/-- A path other than the written one keeps its table. -/
theorem tableOf_update {q : List ι} (hne : π ≠ q) :
    tableOf target root (Function.update E q e) π = tableOf target root E π := by
  cases π with
  | nil => rfl
  | cons k π => rw [tableOf, tableOf, Function.update_of_ne hne]

/-- A new entry leads to no path but those behind it. -/
theorem live_update {q : List ι} (hne : π ≠ q) : Live (Function.update E q e) π ↔ Live E π := by
  rw [Live, Live, Function.update_of_ne hne]

/-- Writing the entry of a leaf, or attaching an empty table where there was no entry, changes
the tree at that path alone. -/
theorem put (h : Radix target height used W root E) (hπ : Live E π) (hlen : π.length < height)
    (hput : Puts used used' W W' (tableOf target root E π) k e)
    (hnew : π.length + 1 = height ∨ (E (k :: π) = 0 ∧ Attaches target used used' W' e)) :
    Radix target height used' W' root (Function.update E (k :: π) e) := by
  -- a path whose table existed before is not the written one, or is a leaf
  have hold : ∀ π', Live (Function.update E (k :: π) e) π' → π'.length < height →
      π' ≠ k :: π ∧ Live E π' ∨ π' = k :: π ∧ E (k :: π) = 0 ∧ Attaches target used used' W' e := by
    intro π' hπ' hlen'
    by_cases hne : π' = k :: π
    · refine Or.inr ⟨hne, hnew.resolve_left fun hleaf => ?_⟩
      rw [hne, List.length_cons] at hlen'
      omega
    · exact Or.inl ⟨hne, (live_update hne).mp hπ'⟩
  have hchild : ∀ k', k' :: k :: π ≠ k :: π := fun k' heq => by
    have hlength := congrArg List.length heq
    simp at hlength
  refine ⟨?_, ?_, ?_, ?_⟩
  · intro π' hπ' hlen'
    rcases hold π' hπ' hlen' with ⟨hne, hlive⟩ | ⟨rfl, -, hattach⟩
    · rw [tableOf_update hne]
      exact hput.still_used _ (h.in_use π' hlive hlen')
    · rw [tableOf, Function.update_self]
      exact hattach.now_used
  · intro π' k' hπ' hlen'
    rcases hold π' hπ' hlen' with ⟨hne, hlive⟩ | ⟨rfl, hzero, hattach⟩
    · rw [tableOf_update hne]
      by_cases hhere : k' :: π' = k :: π
      · rw [hhere, Function.update_self]
        injection hhere with hk hπ
        rw [hk, hπ]
        exact hput.here
      · rw [Function.update_of_ne hhere, hput.elsewhere _ _ (h.in_use π' hlive hlen'),
          h.word π' k' hlive hlen']
        by_contra! hsame
        have hpath := h.apart π' π hlive hπ hlen' hlen hsame.1
        exact hhere (by rw [hpath, hsame.2])
    · rw [tableOf, Function.update_self, hattach.blank, Function.update_of_ne (hchild k')]
      by_contra hne
      have hlive := (h.closed _ _ (Ne.symm hne)).1
      exact hlive.resolve_left (List.cons_ne_nil k π) hzero
  · intro π₁ π₂ hπ₁ hπ₂ hlen₁ hlen₂ hsame
    rcases hold π₁ hπ₁ hlen₁ with ⟨hne₁, hlive₁⟩ | ⟨rfl, -, hattach⟩ <;>
      rcases hold π₂ hπ₂ hlen₂ with ⟨hne₂, hlive₂⟩ | ⟨rfl, -, hattach'⟩
    · rw [tableOf_update hne₁, tableOf_update hne₂] at hsame
      exact h.apart π₁ π₂ hlive₁ hlive₂ hlen₁ hlen₂ hsame
    · rw [tableOf_update hne₁, tableOf, Function.update_self] at hsame
      exact absurd (hsame ▸ h.in_use π₁ hlive₁ hlen₁) hattach'.fresh
    · rw [tableOf_update hne₂, tableOf, Function.update_self] at hsame
      exact absurd (hsame ▸ h.in_use π₂ hlive₂ hlen₂) hattach.fresh
    · rfl
  · intro π' k' hne
    by_cases hhere : k' :: π' = k :: π
    · injection hhere with _ hπ'
      rw [hπ', live_update (List.cons_ne_self k π).symm]
      exact ⟨hπ, hlen⟩
    · rw [Function.update_of_ne hhere] at hne
      obtain ⟨hlive, hlen'⟩ := h.closed π' k' hne
      refine ⟨?_, hlen'⟩
      rw [live_update]
      · exact hlive
      · rintro rfl
        rcases hnew with hleaf | ⟨hzero, -⟩
        · rw [List.length_cons] at hlen'
          omega
        · exact hlive.resolve_left (List.cons_ne_nil k π) hzero

end Radix

section Forest

variable {ρ : Type} {target : ε → τ} {height : ℕ} {used used' : τ → Prop} {W W' : τ → ι → ε}
  {roots : ρ → τ} {E E' : ρ → List ι → ε} {r r' : ρ} {q π π' : List ι} {k : ι} {e : ε}

/-- Several trees in the same tables. Two of them may share a table, but only at the same
path. -/
structure Forest (target : ε → τ) (height : ℕ) (used : τ → Prop) (W : τ → ι → ε) (roots : ρ → τ)
    (E : ρ → List ι → ε) : Prop where
  tree : ∀ r, Radix target height used W (roots r) (E r)
  together : ∀ r r' π π', Live (E r) π → Live (E r') π' → π.length < height → π'.length < height →
    tableOf target (roots r) (E r) π = tableOf target (roots r') (E r') π' → π = π'

/-- The tree `r'` has the table of `r` at the path `π`. -/
def Shares (target : ε → τ) (roots : ρ → τ) (E : ρ → List ι → ε) (r r' : ρ) (π : List ι) : Prop :=
  Live (E r') π ∧ tableOf target (roots r') (E r') π = tableOf target (roots r) (E r) π

variable [DecidableEq ι]

open Classical in
/-- The entries after a write through `r`: the trees that share the table see it. -/
noncomputable def putAt (target : ε → τ) (roots : ρ → τ) (E : ρ → List ι → ε) (r : ρ)
    (π : List ι) (k : ι) (e : ε) (r' : ρ) : List ι → ε :=
  if Shares target roots E r r' π then Function.update (E r') (k :: π) e else E r'

/-- The tree of the root that is written to. -/
theorem putAt_self (hπ : Live (E r) π) :
    putAt target roots E r π k e r = Function.update (E r) (k :: π) e :=
  if_pos ⟨hπ, rfl⟩

/-- An entry after a write is the old one, or the one that was written. -/
theorem putAt_cases (target : ε → τ) (roots : ρ → τ) (E : ρ → List ι → ε) (r : ρ) (π : List ι)
    (k : ι) (e : ε) (r' : ρ) (π' : List ι) :
    putAt target roots E r π k e r' π' = E r' π' ∨
      (Shares target roots E r r' π ∧ π' = k :: π ∧ putAt target roots E r π k e r' π' = e) := by
  rw [putAt]
  split
  · next hshares =>
    by_cases hπ : π' = k :: π
    · exact Or.inr ⟨hshares, hπ, by rw [hπ, Function.update_self]⟩
    · exact Or.inl (Function.update_of_ne hπ _ _)
  · exact Or.inl rfl

/-- After a write, a table of a tree is an old one at its old path, or the attached one. -/
theorem Forest.table_cases (hleaf : π.length + 1 = height ∨
      (E r (k :: π) = 0 ∧ Attaches target used used' W' e)) (hlen : π'.length < height)
    (hlive : Live (putAt target roots E r π k e r') π') :
    (Live (E r') π' ∧ tableOf target (roots r') (putAt target roots E r π k e r') π' =
        tableOf target (roots r') (E r') π') ∨
      (π' = k :: π ∧ Attaches target used used' W' e ∧
        tableOf target (roots r') (putAt target roots E r π k e r') π' = target e) := by
  rw [putAt] at hlive ⊢
  split at hlive
  · next hshares =>
    rw [if_pos hshares]
    by_cases hne : π' = k :: π
    · refine Or.inr ⟨hne, (hleaf.resolve_left fun hleaf => ?_).2, ?_⟩
      · rw [hne, List.length_cons] at hlen
        omega
      · rw [hne, tableOf, Function.update_self]
    · exact Or.inl ⟨(Radix.live_update hne).mp hlive, Radix.tableOf_update hne⟩
  · next hshares =>
    rw [if_neg hshares]
    exact Or.inl ⟨hlive, rfl⟩

/-- A write through one tree changes the trees that share the table, and no other. -/
theorem Forest.put (h : Forest target height used W roots E) (hπ : Live (E r) π)
    (hlen : π.length < height)
    (hput : Puts used used' W W' (tableOf target (roots r) (E r) π) k e)
    (hnew : π.length + 1 = height ∨ (E r (k :: π) = 0 ∧ Attaches target used used' W' e)) :
    Forest target height used' W' roots (putAt target roots E r π k e) := by
  constructor
  · intro r'
    rw [putAt]
    split
    · next hshares =>
      have hword : E r' (k :: π) = E r (k :: π) := by
        rw [← (h.tree r').word π k hshares.1 hlen, hshares.2, (h.tree r).word π k hπ hlen]
      rw [← hword] at hnew
      exact (h.tree r').put hshares.1 hlen (hshares.2 ▸ hput) hnew
    · next hshares =>
      refine (h.tree r').put_elsewhere hput fun π' hlive hlen' heq => hshares ?_
      obtain rfl := h.together r' r π' π hlive hπ hlen' hlen heq
      exact ⟨hlive, heq⟩
  · intro r₁ r₂ π₁ π₂ hlive₁ hlive₂ hlen₁ hlen₂ heq
    rcases Forest.table_cases hnew hlen₁ hlive₁ with ⟨hold₁, htable₁⟩ | ⟨rfl, hattach, htable₁⟩ <;>
      rcases Forest.table_cases hnew hlen₂ hlive₂ with ⟨hold₂, htable₂⟩ | ⟨rfl, hattach', htable₂⟩ <;>
      rw [htable₁, htable₂] at heq
    · exact h.together r₁ r₂ π₁ π₂ hold₁ hold₂ hlen₁ hlen₂ heq
    · exact absurd (heq ▸ (h.tree r₁).in_use π₁ hold₁ hlen₁) hattach'.fresh
    · exact absurd (heq ▸ (h.tree r₂).in_use π₂ hold₂ hlen₂) hattach.fresh

/-- Through the tree `r`, an entry with `D` was attached above the end of the path `q`. -/
def AttachStep (target : ε → τ) (height : ℕ) (roots : ρ → τ) (r : ρ) (q : List ι) (D : ε → Prop)
    (E E' : ρ → List ι → ε) : Prop :=
  ∃ π k e, Live (E r) π ∧ E r (k :: π) = 0 ∧ e ≠ 0 ∧ D e ∧ k :: π <:+ q ∧ k :: π ≠ q ∧
    (∀ r' π', Live (E r') π' → π'.length < height →
      tableOf target (roots r') (E r') π' ≠ target e) ∧
    E' = putAt target roots E r π k e

end Forest

/-- Along the path `q`, entries were added that satisfy `D`, and no entry changed. -/
structure Grows (D : ε → Prop) (q : List ι) (E E' : List ι → ε) : Prop where
  old : ∀ π, E π ≠ 0 → E' π = E π
  new : ∀ π, E π = 0 → E' π ≠ 0 → D (E' π) ∧ π <:+ q ∧ π ≠ q

namespace Grows

variable {D : ε → Prop} {q π : List ι} {E E' E'' : List ι → ε} {e : ε}

/-- A tree that has not changed has grown. -/
theorem refl (D : ε → Prop) (q : List ι) (E : List ι → ε) : Grows D q E E :=
  ⟨fun _ _ => rfl, fun _ hzero hne => absurd hzero hne⟩

/-- Growth in two steps. -/
theorem trans (h : Grows D q E E') (h' : Grows D q E' E'') : Grows D q E E'' := by
  constructor
  · intro π hne
    rw [← h.old π hne]
    apply h'.old
    rwa [h.old π hne]
  · intro π hzero hne
    by_cases hmid : E' π = 0
    · exact h'.new π hmid hne
    · rw [h'.old π hmid]
      exact h.new π hzero hmid

/-- A new entry on the way to a path lets the tree grow. -/
theorem update [DecidableEq ι] (hzero : E π = 0) (hD : D e) (hπ : π <:+ q) (hne : π ≠ q) :
    Grows D q E (Function.update E π e) := by
  constructor
  · intro π' hne'
    apply Function.update_of_ne
    rintro rfl
    exact hne' hzero
  · intro π' hzero' hne'
    by_cases heq : π' = π
    · subst heq
      rw [Function.update_self]
      exact ⟨hD, hπ, hne⟩
    · rw [Function.update_of_ne heq] at hne'
      exact absurd hzero' hne'

end Grows

/-- Attaching entries lets the own tree grow along the path. -/
theorem grows_of_attachSteps {ρ : Type} [DecidableEq ι] {target : ε → τ} {height : ℕ}
    {roots : ρ → τ} {r : ρ} {q : List ι} {D : ε → Prop} {E E' : ρ → List ι → ε}
    (h : Relation.ReflTransGen (AttachStep target height roots r q D) E E') :
    Grows D q (E r) (E' r) := by
  induction h with
  | refl => exact Grows.refl D q (E r)
  | tail _ hstep ih =>
    obtain ⟨π, k, e, hπ, hzero, -, hD, hsuffix, hne, -, rfl⟩ := hstep
    rw [putAt_self hπ]
    exact ih.trans (Grows.update hzero hD hsuffix hne)

end Vsos.Lib
