import Vsos.Sched.Waits

/-!
# Signals are neither lost nor duplicated

A semaphore holds as many signals as its value says, an event that resets itself holds one while
it is set. Every wait that is answered with `Signaled` takes one of them, on the short way of
`ObjectWait` as well as in the second pass of `Schedule`, where several threads may look at one
object. What an object holds and what was taken from it is constant but for new signals.
-/

namespace Vsos.Sched

open Vsos.Lib

/-- The two kinds of objects that count their signals. -/
inductive Kind where
  | semaphore
  | event
  deriving DecidableEq, Repr

/-- The object of a kind that holds `n` signals. -/
def Kind.object : Kind → ℕ → SignalObject
  | .semaphore, n => .semaphore n
  | .event, n => .event false (decide (0 < n))

/-- An event holds one signal at most. -/
def Kind.Fits : Kind → ℕ → Prop
  | .semaphore, _ => True
  | .event, n => n ≤ 1

/-- The number of waits for an object that were answered with `Signaled`. -/
def SchedState.grants (s : SchedState) (object : ℕ) : ℕ := s.granted.countP fun e => e.2 = object

/-- The object holds what is left of `total` signals. -/
def Stock (kind : Kind) (object total : ℕ) (s : SchedState) : Prop :=
  ∃ n, s.signal object = kind.object n ∧ kind.Fits n ∧ n + s.grants object = total

variable {kind : Kind} {object total : ℕ} {s t : SchedState}

/-- The rest of the state does not matter. -/
theorem Stock.congr (h : Stock kind object total s) (hsignal : t.signal = s.signal)
    (hgranted : t.granted = s.granted) : Stock kind object total t := by
  rw [Stock, SchedState.grants, hsignal, hgranted]
  exact h

/-- A signalled object has something to give. -/
theorem Kind.pos_of_isSignalled {n : ℕ} (h : (kind.object n).isSignalled = true) : 0 < n := by
  cases kind with
  | semaphore => simpa [Kind.object, SignalObject.isSignalled] using h
  | event => simpa [Kind.object, SignalObject.isSignalled] using h

/-- `Observed` takes one signal. -/
theorem observed_run {n : ℕ} (hobject : s.signal object = kind.object (n + 1))
    (hfits : kind.Fits (n + 1)) :
    (observed object).run s =
      .ok () { s with signal := Function.update s.signal object (kind.object n) } := by
  rw [observed, bind_look, hobject]
  cases kind with
  | semaphore =>
    have hvalue : ((n + 1 : ℕ) : ℤ) - 1 = n := by omega
    simp only [Kind.object]
    rw [bind_ensure (by omega), hvalue]
    rfl
  | event =>
    obtain rfl : n = 0 := by
      rw [Kind.Fits] at hfits
      omega
    rfl

section

variable (h : Stock kind object total s)
include h

/-- A wait that is answered takes its signal from its object. -/
theorem Stock.grant {x other : ℕ} (hsignalled : (s.signal other).isSignalled = true) :
    Ensures (grant x other) s (fun _ t => Stock kind object total t) fun _ => True := by
  obtain ⟨n, hobject, hfits, htotal⟩ := h
  by_cases hother : other = object
  · subst hother
    rw [hobject] at hsignalled
    obtain ⟨m, rfl⟩ := Nat.exists_eq_succ_of_ne_zero (Nat.ne_of_gt (Kind.pos_of_isSignalled hsignalled))
    let s₁ := { s with granted := (x, other) :: s.granted }
    have hobserved : (observed other).run s₁ =
        .ok () { s₁ with signal := Function.update s.signal other (kind.object m) } :=
      observed_run hobject hfits
    refine Ensures.bind_change (Ensures.of_run hobserved ⟨m, Function.update_self .., ?_, ?_⟩)
    · cases kind with
      | semaphore => trivial
      | event => exact (Nat.le_succ m).trans hfits
    · rw [SchedState.grants, List.countP_cons_of_pos (by simp)]
      rw [SchedState.grants] at htotal
      omega
  · refine (grant_ensures x other s).mono ?_ fun _ => id
    rintro _ t ⟨value, rfl⟩
    refine ⟨n, ?_, hfits, ?_⟩
    · exact (Function.update_of_ne (Ne.symm hother) ..).trans hobject
    · rw [SchedState.grants, List.countP_cons_of_neg (by simpa using hother)]
      exact htotal

/-- The second pass takes signals for the waits that it answers. -/
theorem Stock.updateStatus (now x : ℕ) :
    Ensures (updateStatus now x) s (fun _ t => Stock kind object total t) fun _ => True := by
  refine Ensures.bind_look ?_
  cases (s.thread x).state with
  | ready => exact Ensures.pure h
  | running => exact Ensures.pure h
  | terminated => exact Ensures.pure h
  | sleeping =>
    refine Ensures.bind_check (fun _ => ?_) trivial
    split
    · exact Ensures.change (h.congr rfl rfl)
    · exact Ensures.pure h
  | signalWait =>
    cases (s.thread x).signal with
    | none => exact Ensures.throw trivial
    | some other =>
      simp only
      split
      · exact Ensures.change (h.congr rfl rfl)
      refine Ensures.bind_look ?_
      split
      · next hsignalled =>
        refine Ensures.bind_change ?_
        have hwoken : Stock kind object total (s.setThread x fun thread => { thread with
            timeout := 0, signal := none, state := .ready, waitStatus := .signaled }) :=
          h.congr rfl rfl
        exact hwoken.grant hsignalled
      · exact Ensures.pure h

/-- The second pass keeps the stock. -/
theorem Stock.updateStatuses (now : ℕ) (l : List ℕ) :
    Ensures (updateStatuses now l) s (fun _ t => Stock kind object total t) fun _ => True := by
  induction l generalizing s with
  | nil => exact Ensures.pure h
  | cons x rest ih => exact (h.updateStatus now x).bind fun _ t ht => ih ht

/-- `Schedule` keeps the stock. -/
theorem Stock.schedule (hrun : schedule.run s = .ok () t) :
    Stock kind object total t := by
  obtain ⟨c, s₁, k, next, hschedule⟩ := schedule_eq_ok hrun
  have hbefore : Stock kind object total { s with threads := s.remaining c } := h.congr rfl rfl
  have hwoken := (hbefore.updateStatuses _ _).of_ok hschedule.update
  refine hwoken.congr ?_ ?_
  · rw [hschedule.final]
    exact markReady_signal
  · rw [hschedule.final]
    exact markReady_granted

/-- No event but a signal of its own changes what the object holds and has given. -/
theorem Stock.perform {event : Event} {r : Option WaitStatus}
    (hsignal : event ≠ .semaphoreSignal object) (hwrite : ∀ state, event ≠ .eventWrite object state)
    (hchange : ∀ value, event ≠ .signal object value) (hrun : (performEvent event).run s = .ok r t) :
    Stock kind object total t := by
  have hother {other : ℕ} {value : SignalObject} (hne : other ≠ object) :
      Stock kind object total { s with signal := Function.update s.signal other value } := by
    obtain ⟨n, hobject, hrest⟩ := h
    exact ⟨n, (Function.update_of_ne (Ne.symm hne) ..).trans hobject, hrest⟩
  cases event with
  | addReady x =>
    obtain ⟨_, hadd, rfl⟩ := bind_pure_eq_ok.mp hrun
    obtain ⟨-, rfl⟩ := addReady_eq_ok hadd
    exact h.congr rfl rfl
  | tick =>
    obtain ⟨_, htick, rfl⟩ := bind_pure_eq_ok.mp hrun
    have hlater : Stock kind object total { s with ticks := wrap64 (s.ticks + 1) } := h.congr rfl rfl
    obtain ⟨-, hschedule⟩ | ⟨-, rfl⟩ := timerTick_eq_ok htick
    · exact hlater.schedule hschedule
    · exact hlater
  | schedule =>
    obtain ⟨_, hschedule, rfl⟩ := bind_pure_eq_ok.mp hrun
    exact h.schedule hschedule
  | sleep value =>
    obtain ⟨_, hsleep, rfl⟩ := bind_pure_eq_ok.mp hrun
    obtain ⟨c, -, hschedule⟩ := sleep_eq_ok hsleep
    have hrest : Stock kind object total (s.rest c value) := h.congr rfl rfl
    exact hrest.schedule hschedule
  | objectWait other timeout =>
    obtain ⟨c, -, -, -, ⟨hsignalled, -, hgrant⟩ | ⟨-, -, hschedule⟩⟩ := objectWait_eq_ok hrun
    · exact (h.grant hsignalled).of_ok hgrant
    · have hblocked : Stock kind object total (s.block c other timeout) := h.congr rfl rfl
      exact hblocked.schedule hschedule
  | killThread x =>
    obtain ⟨_, hkill, rfl⟩ := bind_pure_eq_ok.mp hrun
    obtain ⟨deleted, rfl⟩ := killThread_eq_ok hkill
    exact h.congr rfl rfl
  | semaphoreSignal other =>
    obtain ⟨_, hother', rfl⟩ := bind_pure_eq_ok.mp hrun
    obtain ⟨value, -, rfl⟩ := semaphoreSignal_eq_ok hother'
    exact hother fun heq => hsignal (heq ▸ rfl)
  | eventWrite other state =>
    obtain ⟨_, hother', rfl⟩ := bind_pure_eq_ok.mp hrun
    obtain ⟨manualReset, before, -, rfl⟩ := eventWrite_eq_ok hother'
    exact hother fun heq => hwrite state (heq ▸ rfl)
  | signal other value =>
    cases hrun
    exact hother fun heq => hchange value (heq ▸ rfl)
  | enable on =>
    cases hrun
    exact h.congr rfl rfl

end

section Tally

/-- The calls of `Signal` or `Set` so far, the waits that were answered with `Signaled` before the
last of these calls, and all waits that were answered so. -/
structure Tally where
  calls : ℕ
  mark : ℕ
  granted : ℕ

/-- An event with the answers up to its end. -/
def observe (event : Event) : SchedM (List (ℕ × ℕ)) := do
  let _ ← performEvent event
  look SchedState.granted

def noteTally (object : ℕ) (call : Event) (tally : Tally) (event : Event)
    (granted : List (ℕ × ℕ)) : Tally :=
  let count := granted.countP fun e => e.2 = object
  if event = call then ⟨tally.calls + 1, tally.granted, count⟩ else { tally with granted := count }

/-- The tally of a semaphore counts the calls of `Signal`. -/
def noteSemaphore (object : ℕ) : Tally → Event → List (ℕ × ℕ) → Tally :=
  noteTally object (.semaphoreSignal object)

/-- The tally of an event counts the calls of `Set`. -/
def noteEvent (object : ℕ) : Tally → Event → List (ℕ × ℕ) → Tally :=
  noteTally object (.eventWrite object true)

/-- The value of the semaphore is what it started with and was signalled, without the answers. -/
def SemaphoreExact (object n : ℕ) (tally : Tally) (s : SchedState) (event : Event) : Prop :=
  ∀ granted t, (observe event).run s = .ok granted t →
    ∃ value : ℤ, t.signal object = .semaphore value ∧ 0 ≤ value ∧
      value = n + (noteSemaphore object tally event granted).calls -
        (noteSemaphore object tally event granted).granted

/-- The event has not given more than it was set, and not twice since it was set. -/
def EventExact (object : ℕ) (set : Bool) (tally : Tally) (s : SchedState) (event : Event) : Prop :=
  ∀ granted t, (observe event).run s = .ok granted t →
    (noteEvent object tally event granted).granted ≤
        (noteEvent object tally event granted).calls + set.toNat ∧
      (noteEvent object tally event granted).granted ≤
        (noteEvent object tally event granted).mark + 1

/-- The object changes by its own calls only. -/
def Untouched (object : ℕ) (event : Event) : Prop := ∀ value, event ≠ .signal object value

variable {tally : Tally} {event : Event} {granted : List (ℕ × ℕ)} {n : ℕ} {set : Bool}

/-- What is observed of an event. -/
theorem observe_eq_ok (hrun : (observe event).run s = .ok granted t) :
    (∃ r, (performEvent event).run s = .ok r t) ∧ granted = t.granted := by
  obtain ⟨r, _, hperform, hlook⟩ := bind_eq_ok.mp hrun
  cases hlook
  exact ⟨⟨r, hperform⟩, rfl⟩

/-- The tally counts the grants of the object. -/
theorem noteTally_granted {call : Event} :
    (noteTally object call tally event granted).granted = granted.countP fun e => e.2 = object := by
  rw [noteTally]
  split <;> rfl

/-- What the tally of a semaphore says. -/
structure SemaphoreTally (object n : ℕ) (tally : Tally) (s : SchedState) : Prop where
  granted : tally.granted = s.grants object
  stock : Stock .semaphore object (n + tally.calls) s

/-- `Signal` adds one to the value, as long as it does not overflow. -/
theorem SemaphoreTally.observe (h : SemaphoreTally object n tally s) (hevent : Untouched object event)
    (hroom : event = .semaphoreSignal object → n + tally.calls + 1 < 2 ^ 31)
    (hrun : (observe event).run s = .ok granted t) :
    SemaphoreTally object n (noteSemaphore object tally event granted) t := by
  obtain ⟨⟨r, hperform⟩, rfl⟩ := observe_eq_ok hrun
  refine ⟨noteTally_granted, ?_⟩
  by_cases hsignal : event = .semaphoreSignal object
  · subst hsignal
    obtain ⟨_, hcall, rfl⟩ := bind_pure_eq_ok.mp hperform
    obtain ⟨value, hvalue, rfl⟩ := semaphoreSignal_eq_ok hcall
    obtain ⟨m, hobject, -, htotal⟩ := h.stock
    obtain rfl : value = m := by
      rw [hobject] at hvalue
      injection hvalue with hvalue
      exact hvalue.symm
    have hnext : Int.bmod (m + 1) (2 ^ 32) = ((m + 1 : ℕ) : ℤ) := by
      have hlt := hroom rfl
      rw [Int.bmod_eq_of_le] <;> omega
    rw [noteSemaphore, noteTally, if_pos rfl]
    refine ⟨m + 1, ?_, trivial, ?_⟩
    · rw [hnext]
      exact Function.update_self ..
    · change m + 1 + s.grants object = n + (tally.calls + 1)
      omega
  · have hwrite (state : Bool) : event ≠ .eventWrite object state := by
      rintro rfl
      obtain ⟨_, _, hcall, -⟩ := bind_eq_ok.mp hperform
      obtain ⟨manualReset, before, hbefore, -⟩ := eventWrite_eq_ok hcall
      obtain ⟨m, hobject, -⟩ := h.stock
      cases hobject.symm.trans hbefore
    rw [noteSemaphore, noteTally, if_neg hsignal]
    exact h.stock.perform hsignal hwrite hevent hperform

/-- What the tally of an event says. -/
structure EventTally (object : ℕ) (set : Bool) (tally : Tally) (s : SchedState) : Prop where
  granted : tally.granted = s.grants object
  stock : ∃ total, Stock .event object total s ∧ total ≤ tally.calls + set.toNat ∧
    total ≤ tally.mark + 1

/-- The tally stays right while the object changes by its own calls only. -/
theorem EventTally.observe (h : EventTally object set tally s) (hevent : Untouched object event)
    (hrun : (observe event).run s = .ok granted t) :
    EventTally object set (noteEvent object tally event granted) t := by
  obtain ⟨⟨r, hperform⟩, rfl⟩ := observe_eq_ok hrun
  refine ⟨noteTally_granted, ?_⟩
  obtain ⟨total, hstock, hcalls, hmark⟩ := h.stock
  have hsignal : event ≠ .semaphoreSignal object := by
    rintro rfl
    obtain ⟨_, _, hcall, -⟩ := bind_eq_ok.mp hperform
    obtain ⟨value, hvalue, -⟩ := semaphoreSignal_eq_ok hcall
    obtain ⟨m, hobject, -⟩ := hstock
    cases hobject.symm.trans hvalue
  by_cases hwrite : ∃ state, event = .eventWrite object state
  · obtain ⟨state, rfl⟩ := hwrite
    obtain ⟨_, hcall, rfl⟩ := bind_pure_eq_ok.mp hperform
    obtain ⟨manualReset, before, hbefore, rfl⟩ := eventWrite_eq_ok hcall
    obtain ⟨m, hobject, -, htotal⟩ := hstock
    obtain rfl : manualReset = false := by
      rw [hobject] at hbefore
      injection hbefore with hreset
      exact hreset.symm
    refine ⟨state.toNat + s.grants object, ⟨state.toNat, ?_, ?_, rfl⟩, ?_⟩
    · refine (Function.update_self ..).trans ?_
      cases state <;> rfl
    · exact Bool.toNat_le state
    · have hgranted := h.granted
      cases state with
      | true =>
        rw [noteEvent, noteTally, if_pos rfl]
        simp only [Bool.toNat_true]
        omega
      | false =>
        rw [noteEvent, noteTally, if_neg (by simp)]
        simp only [Bool.toNat_false]
        omega
  · have hnot (state : Bool) : event ≠ .eventWrite object state := fun heq => hwrite ⟨state, heq⟩
    rw [noteEvent, noteTally, if_neg (hnot true)]
    exact ⟨total, hstock.perform hsignal hnot hevent hperform, hcalls, hmark⟩

/-- With few enough signals, none overflows the semaphore. -/
theorem eachCall_room {events : List Event}
    (hroom : n + tally.calls + events.count (.semaphoreSignal object) < 2 ^ 31) :
    EachCall observe (noteSemaphore object) (fun tally _ event =>
      event = .semaphoreSignal object → n + tally.calls + 1 < 2 ^ 31) events tally s := by
  induction events generalizing tally s with
  | nil => trivial
  | cons event rest ih =>
    rw [List.count_cons] at hroom
    refine ⟨fun hsignal => ?_, ?_⟩
    · rw [hsignal, if_pos (beq_self_eq_true _)] at hroom
      omega
    · cases (observe event).run s with
      | error e t => trivial
      | ok granted t =>
        refine ih ?_
        rw [noteSemaphore, noteTally]
        by_cases hsignal : event = .semaphoreSignal object
        · rw [if_pos hsignal]
          rw [if_pos (beq_iff_eq.mpr hsignal)] at hroom
          simp only
          omega
        · rw [if_neg hsignal]
          simp only
          omega

end Tally

/-- From any state on, whatever the threads do: the value of a semaphore is always what it started
with and was signalled, without the waits that were answered with `Signaled`, and not negative.
An event that resets itself answers no more waits so than it was set, and one at most between two
calls of `Set`. -/
theorem signals_exact (object : ℕ) (hgranted : s.granted = []) (events : List Event)
    (huntouched : ∀ event ∈ events, Untouched object event) :
    (∀ n : ℕ, s.signal object = .semaphore n →
        n + events.count (.semaphoreSignal object) < 2 ^ 31 →
        EachCall observe (noteSemaphore object) (SemaphoreExact object n) events ⟨0, 0, 0⟩ s) ∧
      ∀ set, s.signal object = .event false set →
        EachCall observe (noteEvent object) (EventExact object set) events ⟨0, 0, 0⟩ s := by
  have hnone : s.grants object = 0 := by rw [SchedState.grants, hgranted]; rfl
  constructor
  · intro n hobject hroom
    have htally : SemaphoreTally object n ⟨0, 0, 0⟩ s :=
      ⟨hnone.symm, n, hobject, trivial, by rw [hnone]⟩
    have hcalls : EachCall observe (noteSemaphore object) (fun _ _ event => Untouched object event)
        events ⟨0, 0, 0⟩ s := EachCall.of_forall_mem (fun event hevent _ _ => huntouched event hevent) _ _
    refine EachCall.of_admissible ?_ ?_ htally
      (hcalls.and (eachCall_room hroom))
    · intro tally s event h hevent granted t hrun
      obtain ⟨hcount, m, hvalue, -, htotal⟩ := h.observe hevent.1 hevent.2 hrun
      refine ⟨m, hvalue, Int.natCast_nonneg m, ?_⟩
      omega
    · exact fun tally s event granted t h hevent hrun => h.observe hevent.1 hevent.2 hrun
  · intro set hobject
    have htally : EventTally object set ⟨0, 0, 0⟩ s := by
      refine ⟨hnone.symm, set.toNat, ⟨set.toNat, ?_, Bool.toNat_le set, by rw [hnone]; rfl⟩, ?_, ?_⟩
      · rw [hobject]
        cases set <;> rfl
      · exact Nat.le_add_left _ _
      · exact (Bool.toNat_le set).trans (Nat.le_add_left _ _)
    refine EachCall.of_admissible ?_ ?_ htally
      (EachCall.of_forall_mem (fun event hevent _ _ => huntouched event hevent) _ _)
    · intro tally s event h hevent granted t hrun
      obtain ⟨hcount, total, ⟨m, -, -, htotal⟩, hcalls, hmark⟩ := h.observe hevent hrun
      omega
    · exact fun tally s event granted t h hevent hrun => h.observe hevent hrun

/-- A wait for a semaphore without signals, which is signalled before the next tick. -/
theorem signals_exact_semaphore :
    EachCall observe (noteSemaphore 0) (SemaphoreExact 0 0)
      [.objectWait 0 1000, .semaphoreSignal 0, .tick, .tick] ⟨0, 0, 0⟩
      { twoThreads 0 with signal := fun _ => .semaphore 0 } :=
  (signals_exact 0 rfl _ (by simp [Untouched])).1 0 rfl (by decide)

end Vsos.Sched
