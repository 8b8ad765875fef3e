import Vsos.Lib.Program

/-!
# What a routine ensures

A routine ensures a postcondition for the runs that return and a condition for the runs that
halt. The rules follow the constructors of a program.
-/

namespace Vsos.Lib

variable {σ α β : Type} {s t : σ} {post : α → σ → Prop} {halt : σ → Prop} {x : Prog σ α} {a : α}
  {g : σ → σ} {c : Prop} {post' : α → σ → Prop} {f : Unit → Prog σ β}

/-- From the state `s`, the routine returns with `post` or halts with `halt`. -/
def Ensures (x : Prog σ α) (s : σ) (post : α → σ → Prop) (halt : σ → Prop) : Prop :=
  match x.run s with
  | .ok a t => post a t
  | .error _ t => halt t

namespace Ensures

/-- What holds after a return. -/
theorem of_ok (h : Ensures x s post halt) (hrun : x.run s = .ok a t) :
    post a t := by
  rwa [Ensures, hrun] at h

/-- What holds after a halt. -/
theorem of_error {e : Halt} (h : Ensures x s post halt) (hrun : x.run s = .error e t) : halt t := by
  rwa [Ensures, hrun] at h

/-- A run that returns. -/
theorem of_run (hrun : x.run s = .ok a t) (h : post a t) :
    Ensures x s post halt := by
  rwa [Ensures, hrun]

/-- The rule for a value. -/
theorem pure (h : post a s) : Ensures (Pure.pure a) s post halt := h

/-- The rule for a halt. -/
theorem throw {e : Halt} (h : halt s) : Ensures (MonadExceptOf.throw e) s post halt := h

/-- The rule for a change of the state. -/
theorem change {post : Unit → σ → Prop} (h : post () (g s)) :
    Ensures (Lib.change g) s post halt := h

/-- The rule for a read of the state. -/
theorem look {g : σ → α} (h : post (g s) s) : Ensures (Lib.look g) s post halt := h

/-- An assertion that holds. -/
theorem ensure {post : Unit → σ → Prop} [Decidable c] (hc : c) (h : post () s) :
    Ensures (Lib.ensure c) s post halt := of_run (ensure_run hc s) h

/-- Weakening of both conditions. -/
theorem mono {halt' : σ → Prop} (h : Ensures x s post halt) (hpost : ∀ a t, post a t → post' a t)
    (hhalt : ∀ t, halt t → halt' t) :
    Ensures x s post' halt' := by
  rw [Ensures] at h ⊢
  cases hrun : x.run s with
  | ok a t =>
    rw [hrun] at h
    exact hpost a t h
  | error e t =>
    rw [hrun] at h
    exact hhalt t h

/-- Weakening of the postcondition for the run at hand. -/
theorem mono_of_run (h : Ensures x s post halt)
    (hpost : ∀ a t, x.run s = .ok a t → post a t → post' a t) : Ensures x s post' halt := by
  rw [Ensures] at h ⊢
  cases hrun : x.run s with
  | ok a t =>
    rw [hrun] at h
    exact hpost a t hrun h
  | error e t =>
    rw [hrun] at h
    exact h

/-- Only the run counts. -/
theorem congr_run {y : Prog σ α} (h : x.run s = y.run s) :
    Ensures x s post halt = Ensures y s post halt := by rw [Ensures, Ensures, h]

/-- Sequencing: the continuation starts from what the first part ensures. -/
theorem bind {f : α → Prog σ β} {mid : α → σ → Prop} {post : β → σ → Prop}
    (hx : Ensures x s mid halt) (hf : ∀ a t, mid a t → Ensures (f a) t post halt) :
    Ensures (x >>= f) s post halt := by
  rw [Ensures] at hx ⊢
  cases hrun : x.run s with
  | ok a t =>
    rw [hrun] at hx
    rw [bind_of_ok hrun]
    exact hf a t hx
  | error e t =>
    rw [hrun] at hx
    rwa [bind_of_error hrun]

/-- A look at the state is a value for the continuation. -/
theorem bind_look {g : σ → α} {f : α → Prog σ β} {post : β → σ → Prop}
    (h : Ensures (f (g s)) s post halt) : Ensures (Lib.look g >>= f) s post halt := h

/-- A change of the state precedes the continuation. -/
theorem bind_change {post : β → σ → Prop} (h : Ensures (f ()) (g s) post halt) :
    Ensures (Lib.change g >>= f) s post halt := h

/-- An assertion that holds can be skipped. -/
theorem bind_ensure [Decidable c] {post : β → σ → Prop} (hc : c) (h : Ensures (f ()) s post halt) :
    Ensures (Lib.ensure c >>= f) s post halt := by
  have hskip : Ensures (Lib.ensure c) s (fun _ t => t = s) halt := ensure hc rfl
  exact bind hskip fun _ _ ht => ht ▸ h

/-- A check that may fail holds in the rest. -/
theorem bind_check [Decidable c] {post : β → σ → Prop} (h : c → Ensures (f ()) s post halt)
    (hhalt : halt s) :
    Ensures (Lib.ensure c >>= f) s post halt := by
  by_cases hc : c
  · exact bind_ensure hc (h hc)
  · have hthrow : Ensures (Lib.ensure c) s (fun _ _ => False) halt := by
      rw [Lib.ensure, if_neg hc]
      exact throw hhalt
    exact bind hthrow fun _ _ => False.elim

end Ensures

-- The rules are the interface; unfolding a statement about a concrete run would evaluate it.
attribute [irreducible] Ensures

/-- From the state `s`, the routine returns with `post` or one of its checks fails. It does not
run for ever. -/
def Settles (x : Prog σ α) (s : σ) (post : α → σ → Prop) : Prop :=
  match x.run s with
  | .ok a t => post a t
  | .error e _ => e = .fault

namespace Settles

/-- A program that settles does not use up its budget. -/
theorem not_diverged (h : Settles x s post) (t : σ) :
    x.run s ≠ .error .diverged t := by
  intro hrun
  rw [Settles, hrun] at h
  cases h

/-- What holds after a return. -/
theorem of_ok (h : Settles x s post) (hrun : x.run s = .ok a t) :
    post a t := by
  rwa [Settles, hrun] at h

/-- A run that returns. -/
theorem of_run (hrun : x.run s = .ok a t) (h : post a t) :
    Settles x s post := by
  rwa [Settles, hrun]

/-- The rule for a value. -/
theorem pure (h : post a s) : Settles (Pure.pure a) s post := h

/-- A fault settles. -/
theorem fault : Settles (MonadExceptOf.throw Halt.fault) s post := rfl

/-- The rule for a change of the state. -/
theorem change {post : Unit → σ → Prop} (h : post () (g s)) :
    Settles (Lib.change g) s post := h

/-- A failed check settles everything, so the check holds in the rest. -/
theorem ensure {post : Unit → σ → Prop} [Decidable c] (h : c → post () s) :
    Settles (Lib.ensure c) s post := by
  by_cases hc : c
  · exact of_run (ensure_run hc s) (h hc)
  · rw [Lib.ensure, if_neg hc]
    exact fault

/-- A weaker property holds as well. -/
theorem mono (h : Settles x s post) (hpost : ∀ a t, post a t → post' a t) : Settles x s post' := by
  rw [Settles] at h ⊢
  cases hrun : x.run s with
  | ok a t =>
    rw [hrun] at h
    exact hpost a t h
  | error e t =>
    rw [hrun] at h
    exact h

/-- The rule for two programs in a row. -/
theorem bind {f : α → Prog σ β} {mid : α → σ → Prop} {post : β → σ → Prop} (hx : Settles x s mid)
    (hf : ∀ a t, mid a t → Settles (f a) t post) :
    Settles (x >>= f) s post := by
  rw [Settles] at hx ⊢
  cases hrun : x.run s with
  | ok a t =>
    rw [hrun] at hx
    rw [bind_of_ok hrun]
    exact hf a t hx
  | error e t =>
    rw [hrun] at hx
    rwa [bind_of_error hrun]

/-- The rule for a read in front. -/
theorem bind_look {g : σ → α} {f : α → Prog σ β} {post : β → σ → Prop}
    (h : Settles (f (g s)) s post) : Settles (Lib.look g >>= f) s post := h

/-- The rule for a change in front. -/
theorem bind_change {post : β → σ → Prop} (h : Settles (f ()) (g s) post) :
    Settles (Lib.change g >>= f) s post := h

/-- The rule for an assertion in front. -/
theorem bind_ensure [Decidable c] {post : β → σ → Prop} (h : c → Settles (f ()) s post) :
    Settles (Lib.ensure c >>= f) s post := by
  have hcheck : Settles (Lib.ensure c) s fun _ t => c ∧ t = s := ensure fun hc => ⟨hc, rfl⟩
  refine bind hcheck fun _ t ht => ?_
  obtain ⟨hc, rfl⟩ := ht
  exact h hc

end Settles

attribute [irreducible] Settles

end Vsos.Lib
