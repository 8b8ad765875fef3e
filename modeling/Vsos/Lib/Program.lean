import Mathlib.Data.Finset.Basic
import Mathlib.Tactic.Ring

/-!
# Routines that pass a state along and may halt

A routine maps a state to a result and the state it leaves behind. A run can also halt:
at a wild access, or inside a loop that never ends. The state reached is kept in that
case, so a statement about every access of a run also covers the runs that never return.

Loops that need not end carry a budget. A routine returns when every large enough budget
yields the same answer, and the answer of a halted run says nothing about its budget.
-/

namespace Vsos.Lib

/-- Why a run ends without returning to its caller: a loop never ends, an access or an assertion
fails, or an index lies behind the end of a checked container. -/
inductive Halt where
  | diverged
  | fault
  | outOfRange
  deriving DecidableEq, Repr

/-- A routine over the state `σ`; the error results keep the state that was reached. -/
abbrev Prog (σ α : Type) := EStateM Halt σ α

/-- The state in which a run ends, whether it returned or halted. -/
def final {σ α : Type} : EStateM.Result Halt σ α → σ
  | .ok _ s => s
  | .error _ s => s

/-- Look at the state. -/
def look {σ α : Type} (g : σ → α) : Prog σ α := fun s => .ok (g s) s

/-- Change the state. -/
def change {σ : Type} (g : σ → σ) : Prog σ Unit := fun s => .ok () (g s)

/-- An assertion: the run stops unless it holds. -/
def ensure {σ : Type} (condition : Prop) [Decidable condition] : Prog σ Unit :=
  if condition then return () else throw .fault

section Run

variable {σ α β : Type} {x : Prog σ α} {f : α → Prog σ β} {s t : σ} {a : α} {e : Halt}

/-- A returned value is passed to the continuation together with the state. -/
theorem bind_of_ok (h : x.run s = .ok a t) : (x >>= f).run s = (f a).run t := by
  change EStateM.bind x f s = f a t
  change x s = .ok a t at h
  simp only [EStateM.bind, h]

/-- A halted run skips its continuation. -/
theorem bind_of_error (h : x.run s = .error e t) : (x >>= f).run s = .error e t := by
  change EStateM.bind x f s = _
  change x s = .error e t at h
  simp only [EStateM.bind, h]

/-- A sequence that returns has a first part that returns. -/
theorem bind_eq_ok {b : β} {u : σ} :
    (x >>= f).run s = .ok b u ↔ ∃ a t, x.run s = .ok a t ∧ (f a).run t = .ok b u := by
  constructor
  · intro h
    cases hx : x.run s with
    | ok a t => exact ⟨a, t, rfl, (bind_of_ok hx).symm.trans h⟩
    | error e t => rw [bind_of_error hx] at h; cases h
  · rintro ⟨a, t, hx, hf⟩
    rw [bind_of_ok hx, hf]

/-- A program whose result is mapped. -/
theorem bind_pure_eq_ok {g : α → β} {b : β} {u : σ} :
    (x >>= fun a => pure (g a)).run s = .ok b u ↔ ∃ a, x.run s = .ok a u ∧ g a = b := by
  rw [bind_eq_ok]
  constructor
  · rintro ⟨a, t, hx, hend⟩
    cases hend
    exact ⟨a, hx, rfl⟩
  · rintro ⟨a, hx, rfl⟩
    exact ⟨a, u, hx, rfl⟩

/-- A sequence that halts does so in its first part or behind it. -/
theorem bind_eq_error {u : σ} :
    (x >>= f).run s = .error e u ↔
      x.run s = .error e u ∨ ∃ a t, x.run s = .ok a t ∧ (f a).run t = .error e u := by
  cases hx : x.run s with
  | ok a t => simp [bind_of_ok hx]
  | error e' t => simp [bind_of_error hx]

/-- Reading the state. -/
@[simp] theorem look_run (g : σ → α) (s : σ) : (look g).run s = .ok (g s) s := rfl

/-- An assertion that holds. -/
theorem ensure_run {c : Prop} [Decidable c] (h : c) (s : σ) : (ensure c).run s = .ok () s := by
  rw [ensure, if_pos h]
  rfl

/-- An assertion that returns holds, and leaves the state alone. -/
theorem ensure_eq_ok {c : Prop} [Decidable c] {u : Unit} (h : (ensure c).run s = .ok u t) :
    c ∧ s = t := by
  rw [ensure] at h
  split at h
  · next hc =>
    injection h with _ h
    exact ⟨hc, h⟩
  · cases h

/-- A program that starts with a read. -/
theorem bind_look {g : σ → α} : (look g >>= f).run s = (f (g s)).run s := rfl

/-- A program that starts with a change. -/
theorem bind_change {g : σ → σ} {f : Unit → Prog σ β} : (change g >>= f).run s = (f ()).run (g s) := rfl

section Ensure

variable {c : Prop} [Decidable c] {f : Unit → Prog σ β}

/-- A program that starts with an assertion that holds. -/
theorem bind_ensure (h : c) : (ensure c >>= f).run s = (f ()).run s := bind_of_ok (ensure_run h s)

/-- A program returns behind an assertion only if that holds. -/
theorem bind_ensure_eq_ok {b : β} : (ensure c >>= f).run s = .ok b t ↔ c ∧ (f ()).run s = .ok b t := by
  constructor
  · intro h
    obtain ⟨_, _, hcheck, hrest⟩ := bind_eq_ok.mp h
    obtain ⟨hc, rfl⟩ := ensure_eq_ok hcheck
    exact ⟨hc, hrest⟩
  · rintro ⟨hc, hrest⟩
    rwa [bind_ensure hc]

end Ensure

/-- The state that a program returns with. -/
@[simp] theorem final_ok (a : α) (s : σ) : final (.ok a s : EStateM.Result Halt σ α) = s := rfl

/-- The state that a program halts in. -/
@[simp] theorem final_error (e : Halt) (s : σ) :
    final (.error e s : EStateM.Result Halt σ α) = s := rfl

end Run

section Within

variable {σ τ α : Type}

/-- Run a routine on a part of the state. -/
def within (part : σ → τ) (replace : τ → σ → σ) (x : Prog τ α) : Prog σ α := fun s =>
  match x.run (part s) with
  | .ok a t => .ok a (replace t s)
  | .error e t => .error e (replace t s)

/-- A routine on a part of the state returns just when it returns on that part. -/
theorem within_eq_ok {part : σ → τ} {replace : τ → σ → σ} {x : Prog τ α} {s u : σ} {a : α} :
    (within part replace x).run s = .ok a u ↔ ∃ t, x.run (part s) = .ok a t ∧ u = replace t s := by
  change (match x.run (part s) with
    | .ok a t => EStateM.Result.ok a (replace t s)
    | .error e t => .error e (replace t s)) = .ok a u ↔ _
  cases x.run (part s) with
  | ok b t =>
    simp only [EStateM.Result.ok.injEq]
    constructor
    · rintro ⟨rfl, rfl⟩
      exact ⟨t, ⟨rfl, rfl⟩, rfl⟩
    · rintro ⟨_, ⟨rfl, rfl⟩, rfl⟩
      exact ⟨rfl, rfl⟩
  | error e t => simp

end Within

section Keeps

variable {σ α β : Type} {R : σ → σ → Prop}

/-- Every run of `x` leads from its first state to an `R`-related last one. -/
def Keeps (R : σ → σ → Prop) (x : Prog σ α) : Prop := ∀ s, R s (final (x.run s))

/-- The states in front of and behind a run that returned. -/
theorem Keeps.of_ok {x : Prog σ α} (h : Keeps R x) {s t : σ} {a : α} (hrun : x.run s = .ok a t) :
    R s t := by
  have hs := h s
  rwa [hrun] at hs

/-- A returned value keeps every reflexive relation. -/
theorem Keeps.pure [Std.Refl R] (a : α) : Keeps R (Pure.pure a : Prog σ α) :=
  fun s => refl_of R s

/-- Sequencing keeps a transitive relation that both parts keep. -/
theorem Keeps.bind [IsTrans σ R] {x : Prog σ α} {f : α → Prog σ β} (hx : Keeps R x)
    (hf : ∀ a, Keeps R (f a)) : Keeps R (x >>= f) := by
  intro s
  have hs := hx s
  cases h : x.run s with
  | ok a t =>
    rw [h] at hs
    rw [bind_of_ok h]
    exact trans_of R hs (hf a t)
  | error e t =>
    rw [h] at hs
    rw [bind_of_error h]
    exact hs

/-- A branch keeps what both of its arms keep. -/
theorem Keeps.ite {c : Prop} [Decidable c] {x y : Prog σ α} (hx : c → Keeps R x)
    (hy : ¬ c → Keeps R y) : Keeps R (if c then x else y) := by
  by_cases hc : c
  · rw [if_pos hc]; exact hx hc
  · rw [if_neg hc]; exact hy hc

end Keeps

section Total

variable {σ α β : Type}

/-- Every run of `x` returns. -/
def Total (x : Prog σ α) : Prop := ∀ s, ∃ a t, x.run s = .ok a t

/-- A value is total. -/
theorem Total.pure (a : α) : Total (Pure.pure a : Prog σ α) := fun s => ⟨a, s, rfl⟩

/-- Total programs in a row are total. -/
theorem Total.bind {x : Prog σ α} {f : α → Prog σ β} (hx : Total x) (hf : ∀ a, Total (f a)) :
    Total (x >>= f) := by
  intro s
  obtain ⟨a, t, h⟩ := hx s
  rw [bind_of_ok h]
  exact hf a t

/-- A choice of total programs is total. -/
theorem Total.ite {c : Prop} [Decidable c] {x y : Prog σ α} (hx : Total x) (hy : Total y) :
    Total (if c then x else y) := by
  by_cases hc : c
  · rw [if_pos hc]; exact hx
  · rw [if_neg hc]; exact hy

end Total

section Twin

variable {σ α β : Type} {R S T : σ → σ → Prop}

/-- Two runs of `x` from states related by `R` halt alike, or return the same value in states
related by `S`. -/
def Twin (R S : σ → σ → Prop) (x : Prog σ α) : Prop :=
  ∀ s t, R s t →
    (∃ a s' t', x.run s = .ok a s' ∧ x.run t = .ok a t' ∧ S s' t') ∨
      ∃ e s' t', x.run s = .error e s' ∧ x.run t = .error e t'

/-- A value does not tell the states apart. -/
theorem Twin.pure (h : ∀ s t, R s t → S s t) (a : α) : Twin R S (Pure.pure a : Prog σ α) :=
  fun s t hR => Or.inl ⟨a, s, t, rfl, rfl, h s t hR⟩

/-- A halt does not tell the states apart. -/
theorem Twin.throw (e : Halt) : Twin R S (MonadExcept.throw e : Prog σ α) :=
  fun s t _ => Or.inr ⟨e, s, t, rfl, rfl⟩

/-- Sequencing of routines that run alike. -/
theorem Twin.bind {x : Prog σ α} {f : α → Prog σ β} (hx : Twin R S x)
    (hf : ∀ a, Twin S T (f a)) : Twin R T (x >>= f) := by
  intro s t hR
  rcases hx s t hR with ⟨a, s', t', hs, ht, hS⟩ | ⟨e, s', t', hs, ht⟩
  · rw [bind_of_ok hs, bind_of_ok ht]
    exact hf a s' t' hS
  · rw [bind_of_error hs, bind_of_error ht]
    exact Or.inr ⟨e, s', t', rfl, rfl⟩

/-- A choice that does not depend on the state does not tell the states apart. -/
theorem Twin.ite {c : Prop} [Decidable c] {x y : Prog σ α} (hx : Twin R S x)
    (hy : Twin R S y) : Twin R S (if c then x else y) := by
  by_cases hc : c
  · rw [if_pos hc]; exact hx
  · rw [if_neg hc]; exact hy

/-- A run that returns has a twin that returns the same value. -/
theorem Twin.of_ok {x : Prog σ α} (hx : Twin R S x) {s s' t : σ} {a : α} (hR : R s t)
    (h : x.run s = .ok a s') : ∃ t', x.run t = .ok a t' ∧ S s' t' := by
  rcases hx s t hR with ⟨b, u, t', hs, ht, hS⟩ | ⟨e, u, t', hs, ht⟩
  · rw [h] at hs
    injection hs with hab hu
    subst hab hu
    exact ⟨t', ht, hS⟩
  · rw [h] at hs
    cases hs

end Twin

section Returns

variable {σ α β : Type} {s t u : σ} {a : α} {b : β}

/-- With a large enough budget the routine returns `a` and leaves the state `t`. -/
def Returns (x : ℕ → Prog σ α) (s : σ) (a : α) (t : σ) : Prop :=
  ∃ n, ∀ fuel, n ≤ fuel → (x fuel).run s = .ok a t

/-- A routine without a budget returns as soon as its run does. -/
theorem Returns.of_run {x : Prog σ α} (h : x.run s = .ok a t) : Returns (fun _ => x) s a t :=
  ⟨0, fun _ _ => h⟩

/-- Sequencing of routines that return. -/
theorem Returns.bind {x : ℕ → Prog σ α} {f : ℕ → α → Prog σ β} (hx : Returns x s a t)
    (hf : Returns (fun n => f n a) t b u) : Returns (fun n => x n >>= f n) s b u := by
  obtain ⟨n, hn⟩ := hx
  obtain ⟨m, hm⟩ := hf
  refine ⟨max n m, fun fuel hfuel => ?_⟩
  have hx := hn fuel (Nat.le_trans (Nat.le_max_left n m) hfuel)
  exact (bind_of_ok hx).trans (hm fuel (Nat.le_trans (Nat.le_max_right n m) hfuel))

/-- A routine has at most one answer. -/
theorem Returns.unique {x : ℕ → Prog σ α} {a' : α} {t' : σ} (h : Returns x s a t)
    (h' : Returns x s a' t') : a = a' ∧ t = t' := by
  obtain ⟨n, hn⟩ := h
  obtain ⟨m, hm⟩ := h'
  have heq := (hn _ (Nat.le_max_left n m)).symm.trans (hm _ (Nat.le_max_right n m))
  injection heq with ha ht
  exact ⟨ha, ht⟩

end Returns

section Stable

variable {σ α β : Type}

/-- What `x` returns, `y` returns too. -/
def Answers (x y : Prog σ α) : Prop := ∀ ⦃s a t⦄, x.run s = .ok a t → y.run s = .ok a t

/-- A program answers as itself. -/
theorem Answers.refl (x : Prog σ α) : Answers x x := fun _ _ _ h => h

/-- Programs that answer as others do so in a row. -/
theorem Answers.bind {x x' : Prog σ α} {f f' : α → Prog σ β} (hx : Answers x x')
    (hf : ∀ a, Answers (f a) (f' a)) : Answers (x >>= f) (x' >>= f') := by
  intro s b u h
  obtain ⟨a, t, hxa, hfa⟩ := bind_eq_ok.mp h
  exact bind_eq_ok.mpr ⟨a, t, hx hxa, hf a hfa⟩

/-- Programs that answer as others do so under a choice. -/
theorem Answers.ite {c : Prop} [Decidable c] {x x' y y' : Prog σ α} (hx : Answers x x')
    (hy : Answers y y') : Answers (if c then x else y) (if c then x' else y') := by
  by_cases hc : c
  · simpa only [if_pos hc] using hx
  · simpa only [if_neg hc] using hy

/-- A larger budget never changes an answer. -/
def Stable (x : ℕ → Prog σ α) : Prop :=
  ∀ n m s a t, n ≤ m → (x n).run s = .ok a t → (x m).run s = .ok a t

/-- A routine without a budget. -/
theorem Stable.const (x : Prog σ α) : Stable fun _ => x := fun _ _ _ _ _ _ h => h

/-- Sequencing of stable routines. -/
theorem Stable.bind {x : ℕ → Prog σ α} {f : ℕ → α → Prog σ β} (hx : Stable x)
    (hf : ∀ a, Stable fun n => f n a) : Stable fun n => x n >>= f n :=
  fun n m _ _ _ hnm h => Answers.bind (fun s a t => hx n m s a t hnm)
    (fun a s b u => hf a n m s b u hnm) h

/-- A branch of stable routines. -/
theorem Stable.ite {c : Prop} [Decidable c] {x y : ℕ → Prog σ α} (hx : Stable x)
    (hy : Stable y) : Stable fun n => if c then x n else y n :=
  fun n m _ _ _ hnm h => Answers.ite (fun s a t => hx n m s a t hnm) (fun s a t => hy n m s a t hnm) h

/-- One answer of a stable routine is its answer. -/
theorem Stable.returns {x : ℕ → Prog σ α} (hx : Stable x) {n : ℕ} {s t : σ} {a : α}
    (h : (x n).run s = .ok a t) : Returns x s a t :=
  ⟨n, fun m hm => hx n m s a t hm h⟩

/-- What a run answers, unless it halts. -/
def answer : EStateM.Result Halt σ α → Option α
  | .ok a _ => some a
  | .error _ _ => none

/-- The result of a program that answers. -/
theorem eq_ok_of_answer {r : EStateM.Result Halt σ α} {a : α} (h : answer r = some a) :
    r = .ok a (final r) := by
  cases r with
  | ok b s =>
    injection h with h
    rw [h]
    rfl
  | error e s => cases h

/-- The answer of one run of a stable routine. -/
theorem Stable.returns_of_answer {x : ℕ → Prog σ α} (hx : Stable x) {n : ℕ} {s : σ} {a : α}
    (h : answer ((x n).run s) = some a) : Returns x s a (final ((x n).run s)) :=
  hx.returns (eq_ok_of_answer h)

end Stable

section Driven

variable {σ β ξ π : Type}

/-- A loop that is driven by positions: unless it stops where it is, it goes on at the next position,
or never leaves the round it is in. -/
structure Driven (loop : ℕ → ξ → Prog σ β) (position : ξ → π) (next : π → π) (stop : π → Prop)
    (alive : Prop) (Inv : σ → Prop) : Prop where
  zero : ∀ x s b t, (loop 0 x).run s ≠ .ok b t
  goes : ∀ x s, Inv s → ¬ stop (position x) → alive →
    ∃ y t, Inv t ∧ position y = next (position x) ∧ ∀ n, (loop (n + 1) x).run s = (loop n y).run t
  stuck : ¬ alive → ∀ n x s b t, Inv s → ¬ stop (position x) → (loop (n + 1) x).run s ≠ .ok b t

variable {loop : ℕ → ξ → Prog σ β} {position : ξ → π} {next : π → π} {stop : π → Prop} {alive : Prop}
  {Inv : σ → Prop} (h : Driven loop position next stop alive Inv) {x : ξ} {s : σ} (hs : Inv s)
include h hs

/-- A driven loop comes to the position behind those where it does not stop. -/
theorem Driven.reaches {k : ℕ} (halive : k = 0 ∨ alive) (hgo : ∀ j < k, ¬ stop (next^[j] (position x))) :
    ∃ y t, Inv t ∧ position y = next^[k] (position x) ∧
      ∀ n, (loop (n + k) x).run s = (loop n y).run t := by
  induction k generalizing x s with
  | zero => exact ⟨x, s, hs, rfl, fun _ => rfl⟩
  | succ k ih =>
    have halive : alive := halive.resolve_left (Nat.succ_ne_zero k)
    obtain ⟨y, t, ht, hnext, hstep⟩ := h.goes x s hs (hgo 0 (Nat.succ_pos k)) halive
    obtain ⟨z, u, hu, hlast, hrest⟩ := ih ht (Or.inr halive) fun j hj => by
      rw [hnext]
      exact hgo (j + 1) (by omega)
    refine ⟨z, u, hu, by rw [hlast, hnext, Function.iterate_succ_apply], fun n => ?_⟩
    rw [← hrest n]
    exact hstep (n + k)

/-- A driven loop that returns stops at one of its positions. -/
theorem Driven.exists_stop {n : ℕ} {b : β} {t : σ} (hrun : (loop n x).run s = .ok b t) :
    ∃ k, (k = 0 ∨ alive) ∧ stop (next^[k] (position x)) := by
  induction n generalizing x s with
  | zero => exact absurd hrun (h.zero x s b t)
  | succ n ih =>
    by_cases hstop : stop (position x)
    · exact ⟨0, Or.inl rfl, hstop⟩
    by_cases halive : alive
    · obtain ⟨y, u, hu, hnext, hstep⟩ := h.goes x s hs hstop halive
      obtain ⟨k, -, hk⟩ := ih hu (hstep n ▸ hrun)
      refine ⟨k + 1, Or.inr halive, ?_⟩
      rwa [Function.iterate_succ_apply, ← hnext]
    · exact absurd hrun (h.stuck halive n x s b t hs hstop)

/-- A driven loop that returns wherever it stops returns exactly if it stops somewhere. -/
theorem Driven.exists_ok_iff
    (hstops : ∀ x s, Inv s → stop (position x) → ∃ n b t, (loop n x).run s = .ok b t) :
    (∃ n b t, (loop n x).run s = .ok b t) ↔ ∃ k, (k = 0 ∨ alive) ∧ stop (next^[k] (position x)) := by
  constructor
  · rintro ⟨n, b, t, hrun⟩
    exact h.exists_stop hs hrun
  · intro hex
    classical
    obtain ⟨halive, hstop⟩ := Nat.find_spec hex
    have hgo : ∀ j < Nat.find hex, ¬ stop (next^[j] (position x)) := fun j hj hj' =>
      Nat.find_min hex hj ⟨Or.inr (halive.resolve_left (by omega)), hj'⟩
    obtain ⟨y, t, ht, hlast, hreach⟩ := h.reaches hs halive hgo
    obtain ⟨n, b, u, hrun⟩ := hstops y t ht (by rwa [hlast])
    exact ⟨n + Nat.find hex, b, u, (hreach n).trans hrun⟩

end Driven

end Vsos.Lib
