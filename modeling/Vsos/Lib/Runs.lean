import Vsos.Lib.Program

/-!
# Sequences of calls

A caller performs one call after the other on a common state, until one of them halts. A
history notes what the calls returned. Properties of every call of a sequence, and of the
history at its end, follow from what one call preserves.
-/

namespace Vsos.Lib

variable {σ η κ α : Type} {t : σ} {V : η → σ → κ → Prop}

/-- At every call of a sequence, `P` holds of the history, the state before the call and the
call. -/
def EachCall (step : κ → Prog σ α) (note : η → κ → α → η) (P : η → σ → κ → Prop) :
    List κ → η → σ → Prop
  | [], _, _ => True
  | call :: rest, h, s =>
    P h s call ∧
      match (step call).run s with
      | .ok r t => EachCall step note P rest (note h call r) t
      | .error _ _ => True

/-- The history after a sequence of calls, or up to the one that halts. -/
def history (step : κ → Prog σ α) (note : η → κ → α → η) : List κ → η → σ → η
  | [], h, _ => h
  | call :: rest, h, s =>
    match (step call).run s with
    | .ok r t => history step note rest (note h call r) t
    | .error _ _ => h

instance EachCall.decidable (step : κ → Prog σ α) (note : η → κ → α → η) (P : η → σ → κ → Prop)
    [∀ h s call, Decidable (P h s call)] : ∀ calls h s, Decidable (EachCall step note P calls h s)
  | [], _, _ => isTrue trivial
  | call :: rest, h, s =>
    have : Decidable (match (step call).run s with
        | .ok r t => EachCall step note P rest (note h call r) t
        | .error _ _ => True) :=
      match (step call).run s with
      | .ok _ t => EachCall.decidable step note P rest _ t
      | .error _ _ => isTrue trivial
    inferInstanceAs (Decidable (_ ∧ _))

variable {step : κ → Prog σ α} {note : η → κ → α → η} {P Q : η → σ → κ → Prop} {I : η → σ → Prop}
  {h : η} {s : σ}

/-- After a call that returns, the rest of the sequence runs from the state it leaves. -/
theorem eachCall_cons_of_ok {call : κ} {rest : List κ} {r : α}
    (hrun : (step call).run s = .ok r t) :
    EachCall step note P (call :: rest) h s ↔
      P h s call ∧ EachCall step note P rest (note h call r) t := by
  rw [EachCall, hrun]

/-- Two properties agree along a sequence of admissible calls if they agree under an invariant
that the calls with the second property keep. -/
theorem EachCall.congr_of_admissible
    (hagree : ∀ h s call, I h s → V h s call → (P h s call ↔ Q h s call))
    (hkeeps : ∀ h s call r t, I h s → V h s call → Q h s call → (step call).run s = .ok r t →
      I (note h call r) t) (hI : I h s) {calls : List κ} (hV : EachCall step note V calls h s) :
    EachCall step note P calls h s ↔ EachCall step note Q calls h s := by
  induction calls generalizing h s with
  | nil => rfl
  | cons call rest ih =>
    rw [EachCall, hagree h s call hI hV.1]
    apply and_congr_right
    intro hQ
    cases hrun : (step call).run s with
    | ok r t => exact ih (hkeeps h s call r t hI hV.1 hQ hrun) (by simpa [hrun] using hV.2)
    | error e t => rfl

/-- What holds of every call of a sequence holds along it. -/
theorem EachCall.of_forall_mem {calls : List κ} (hP : ∀ call ∈ calls, ∀ h s, P h s call) (h : η)
    (s : σ) : EachCall step note P calls h s := by
  induction calls generalizing h s with
  | nil => trivial
  | cons call rest ih =>
    refine ⟨hP call List.mem_cons_self h s, ?_⟩
    cases (step call).run s with
    | ok r t => exact ih (fun call hcall => hP call (List.mem_cons_of_mem _ hcall)) _ t
    | error e t => trivial

/-- What holds of every call holds along every sequence. -/
theorem EachCall.of_forall (hP : ∀ h s call, P h s call) (calls : List κ) (h : η) (s : σ) :
    EachCall step note P calls h s :=
  EachCall.of_forall_mem (fun call _ h s => hP h s call) h s

/-- Two properties along one sequence. -/
theorem EachCall.and {calls : List κ} (hP : EachCall step note P calls h s)
    (hQ : EachCall step note Q calls h s) :
    EachCall step note (fun h s call => P h s call ∧ Q h s call) calls h s := by
  induction calls generalizing h s with
  | nil => trivial
  | cons call rest ih =>
    rw [EachCall] at hP hQ ⊢
    refine ⟨⟨hP.1, hQ.1⟩, ?_⟩
    cases hrun : (step call).run s with
    | ok r t =>
      rw [hrun] at hP hQ
      exact ih hP.2 hQ.2
    | error e t => trivial

/-- Two properties agree along every sequence if they agree under an invariant that the calls
with the second property keep. -/
theorem EachCall.congr_of_invariant (hagree : ∀ h s call, I h s → (P h s call ↔ Q h s call))
    (hkeeps : ∀ h s call r t, I h s → Q h s call → (step call).run s = .ok r t →
      I (note h call r) t) (hI : I h s) (calls : List κ) :
    EachCall step note P calls h s ↔ EachCall step note Q calls h s :=
  EachCall.congr_of_admissible (fun h s call hI _ => hagree h s call hI)
    (fun h s call r t hI _ => hkeeps h s call r t hI) hI
    (EachCall.of_forall (fun _ _ _ => trivial) calls h s)

/-- What an invariant gives for one admissible call holds at every call of a sequence. -/
theorem EachCall.of_admissible (hP : ∀ h s call, I h s → V h s call → P h s call)
    (hkeeps : ∀ h s call r t, I h s → V h s call → (step call).run s = .ok r t →
      I (note h call r) t) (hI : I h s) {calls : List κ} (hV : EachCall step note V calls h s) :
    EachCall step note P calls h s := by
  have hagree := EachCall.congr_of_admissible
    (fun h s call hI hV => iff_true_intro (hP h s call hI hV))
    (fun h s call r t hI hV _ => hkeeps h s call r t hI hV) hI hV
  exact hagree.mpr (EachCall.of_forall (fun _ _ _ => trivial) calls h s)

/-- An invariant that admissible calls keep holds of the history, up to the call that halts. -/
theorem history_of_admissible
    (hkeeps : ∀ h s call r t, I h s → V h s call → (step call).run s = .ok r t →
      I (note h call r) t) (hI : I h s) {calls : List κ} (hV : EachCall step note V calls h s) :
    ∃ t, I (history step note calls h s) t := by
  induction calls generalizing h s with
  | nil => exact ⟨s, hI⟩
  | cons call rest ih =>
    rw [EachCall] at hV
    rw [history]
    cases hrun : (step call).run s with
    | ok r t =>
      rw [hrun] at hV
      exact ih (hkeeps h s call r t hI hV.1 hrun) hV.2
    | error e t => exact ⟨s, hI⟩

/-- A property of the history that each call extends by `Q` holds at the end just when it holds
at the start and `Q` holds at every call. -/
theorem history_iff_eachCall {R : η → Prop}
    (hkeeps : ∀ h s call r t, I h s → (step call).run s = .ok r t → I (note h call r) t)
    (hok : ∀ h s call r t, I h s → (step call).run s = .ok r t →
      (R (note h call r) ↔ R h ∧ Q h s call))
    (herror : ∀ h s call e t, I h s → (step call).run s = .error e t → Q h s call)
    (hI : I h s) (calls : List κ) :
    R (history step note calls h s) ↔ R h ∧ EachCall step note Q calls h s := by
  induction calls generalizing h s with
  | nil => simp [history, EachCall]
  | cons call rest ih =>
    rw [history, EachCall]
    cases hrun : (step call).run s with
    | ok r t =>
      rw [ih (hkeeps h s call r t hI hrun), hok h s call r t hI hrun, and_assoc]
    | error e t =>
      rw [and_true, iff_self_and]
      exact fun _ => herror h s call e t hI hrun

/-- The calls of a sequence, one after the other. -/
def callAll (step : κ → Prog σ α) : List κ → Prog σ Unit
  | [] => return ()
  | call :: rest => do
    let _ ← step call
    callAll step rest

/-- What every call keeps holds after a sequence of calls. -/
theorem invariant_of_callAll {I : σ → Prop}
    (hkeeps : ∀ s call r t, I s → (step call).run s = .ok r t → I t) {calls : List κ} {u : Unit}
    (hI : I s) (hrun : (callAll step calls).run s = .ok u t) : I t := by
  induction calls generalizing s with
  | nil =>
    cases hrun
    exact hI
  | cons call rest ih =>
    obtain ⟨r, s', hcall, hrest⟩ := bind_eq_ok.mp hrun
    exact ih (hkeeps s call r s' hI hcall) hrest

/-- An invariant that admissible calls keep holds after a sequence of them. -/
theorem invariant_of_admissible
    (hkeeps : ∀ h s call r t, I h s → V h s call → (step call).run s = .ok r t →
      I (note h call r) t) (hI : I h s) {calls : List κ} (hV : EachCall step note V calls h s)
    {u : Unit} (hrun : (callAll step calls).run s = .ok u t) :
    I (history step note calls h s) t := by
  induction calls generalizing h s with
  | nil =>
    cases hrun
    exact hI
  | cons call rest ih =>
    obtain ⟨r, s', hcall, hrest⟩ := bind_eq_ok.mp hrun
    rw [EachCall, hcall] at hV
    rw [history, hcall]
    exact ih (hkeeps h s call r s' hI hV.1 hcall) hV.2 hrest

/-- A sequence of calls ends for a reason just when one of its calls does. -/
theorem callAll_ne_error_iff {e : Halt} (note : η → κ → α → η) (calls : List κ) (h : η) (s : σ) :
    (∀ t, (callAll step calls).run s ≠ .error e t) ↔
      EachCall step note (fun _ s call => ∀ t, (step call).run s ≠ .error e t) calls h s := by
  induction calls generalizing h s with
  | nil => simp [callAll, EachCall]
  | cons call rest ih =>
    rw [callAll, EachCall]
    cases hrun : (step call).run s with
    | ok r t =>
      rw [bind_of_ok hrun, ih (note h call r)]
      simp
    | error e' t =>
      rw [bind_of_error hrun]
      simp

end Vsos.Lib
