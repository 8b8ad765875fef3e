import Vsos.Lib.Runs

/-!
# The end of an interrupt

The local APIC delivers no further interrupt until its EOI register is written. Whether that is
still to be done is one flag for all handlers, also for those that lie suspended with their
threads: the scheduler writes the register before it switches the context, and the rest of a
handler that is resumed later finds the flag cleared. The flag is not set for the vector 32.
-/

namespace Vsos.Apic

open Vsos.Lib

/-- Where a thread was when it lost the processor: in its own code, or in the handler of the
timer. -/
inductive Activation where
  | thread
  | handler
  deriving DecidableEq, Repr

/-- What the local APIC sees. -/
inductive ApicEvent where
  | delivered (vector : UInt8)
  | eoi
  deriving DecidableEq, Repr

/-- The processor, with the threads that wait for it. -/
structure Cpu where
  eoiRequired : Bool := false
  lastInterrupt : UInt8 := 0
  enabled : Bool := false
  suspended : List Activation := []
  trace : List ApicEvent := []
  deriving DecidableEq, Repr

/-- `X64_INTERRUPT_VECTOR::Timer0`. -/
def timer0 : UInt8 := 0x80

/-- `LocalAPIC::NotifyEOIRequired`. -/
def notifyEOIRequired (vector : UInt8) : Prog Cpu Unit :=
  change fun s => { s with eoiRequired := true, lastInterrupt := vector }

/-- `LocalAPIC::EOIPending`. -/
def eoiPending : Prog Cpu UInt8 := look fun s => if s.eoiRequired then s.lastInterrupt else 0

/-- `LocalAPIC::SignalEOI`. -/
def signalEOI : Prog Cpu Unit :=
  change fun s => { s with eoiRequired := false, trace := s.trace ++ [.eoi] }

/-- `APIC::EOI`. -/
def apicEOI : Prog Cpu Unit := do
  if (← eoiPending) ≠ 0 then signalEOI

/-- What is left to do of an activation: the end of `HandleInterrupt` behind the handler of the
timer, or nothing. -/
def resume : Activation → Prog Cpu Unit
  | .thread => return ()
  | .handler => apicEOI

/-- `Scheduler::Schedule`, with the thread that is selected. The current thread is suspended where
it is, unless it is selected again. -/
def switchTo (current : Activation) : Option ℕ → Prog Cpu Unit
  | none => resume current
  | some i => do
    match ← look fun s => s.suspended[i]? with
    | none => resume current
    | some next => do
      change fun s => { s with suspended := s.suspended.eraseIdx i ++ [current] }
      resume next

/-- `Scheduler::onTimerTick`, and what follows it in the handler. -/
def onTimerTick (next : Option ℕ) : Prog Cpu Unit := do
  if ← look Cpu.enabled then do
    if (← eoiPending) ≠ 0 then apicEOI
    switchTo .handler next
  else resume .handler

/-- `HAL::HandleInterrupt` for a vector with a handler. -/
def handleInterrupt (vector : UInt8) (next : Option ℕ) : Prog Cpu Unit := do
  change fun s => { s with trace := s.trace ++ [.delivered vector] }
  if 32 < vector then notifyEOIRequired vector
  if vector = timer0 then onTimerTick next else apicEOI

/-- What happens on the processor: an interrupt, with the thread that the scheduler selects at a
tick; a thread that gives the processor away; a new thread; or the scheduler is switched. -/
inductive Move where
  | interrupt (vector : UInt8) (next : Option ℕ)
  | yield (next : Option ℕ)
  | spawn
  | enable (on : Bool)
  deriving DecidableEq, Repr

/-- Make a move. -/
def Move.perform : Move → Prog Cpu Unit
  | .interrupt vector next => handleInterrupt vector next
  | .yield next => switchTo .thread next
  | .spawn => change fun s => { s with suspended := s.suspended ++ [.thread] }
  | .enable on => change fun s => { s with enabled := on }

/-- The vector of an interrupt. -/
def Move.vector : Move → Option UInt8
  | .interrupt vector _ => some vector
  | _ => none

/-- The register is written once between an interrupt and the next one. -/
def OncePerInterrupt (trace : List ApicEvent) : Prop :=
  ∀ before v between w after, trace = before ++ .delivered v :: (between ++ .delivered w :: after) →
    (∀ e ∈ between, e = .eoi) → between.length = 1

/-- What the local APIC sees of an interrupt that is handled with the flag cleared. -/
def seen (vector : UInt8) : List ApicEvent :=
  if 32 < vector then [.delivered vector, .eoi] else [.delivered vector]

section Moves

variable {s t : Cpu}

/-- With the flag cleared, nothing is written. -/
theorem apicEOI_cleared (h : s.eoiRequired = false) : apicEOI.run s = .ok () s := by
  rw [apicEOI, eoiPending, bind_look, h]
  rfl

/-- With the flag set, the register is written and the flag cleared. -/
theorem apicEOI_required (h : s.eoiRequired = true) (hvector : s.lastInterrupt ≠ 0) :
    apicEOI.run s = .ok () { s with eoiRequired := false, trace := s.trace ++ [.eoi] } := by
  rw [apicEOI, eoiPending, bind_look, h, if_pos rfl, if_pos hvector]
  rfl

/-- A thread that is resumed writes nothing once the flag is cleared. -/
theorem resume_cleared (h : s.eoiRequired = false) (a : Activation) : (resume a).run s = .ok () s := by
  cases a with
  | thread => rfl
  | handler => exact apicEOI_cleared h

/-- Without a request a switch signals nothing. -/
theorem switchTo_cleared (h : s.eoiRequired = false) (current : Activation) (next : Option ℕ) :
    ∃ t, (switchTo current next).run s = .ok () t ∧ t.eoiRequired = false ∧ t.trace = s.trace := by
  cases next with
  | none => exact ⟨s, resume_cleared h current, h, rfl⟩
  | some i =>
    rw [switchTo, bind_look]
    cases s.suspended[i]? with
    | none => exact ⟨s, resume_cleared h current, h, rfl⟩
    | some a =>
      refine ⟨{ s with suspended := s.suspended.eraseIdx i ++ [current] }, ?_, h, rfl⟩
      refine resume_cleared ?_ a
      exact h

/-- The handler of the timer with the flag cleared. -/
theorem onTimerTick_cleared (h : s.eoiRequired = false) (next : Option ℕ) :
    ∃ t, (onTimerTick next).run s = .ok () t ∧ t.eoiRequired = false ∧ t.trace = s.trace := by
  rw [onTimerTick, bind_look]
  cases s.enabled with
  | false => exact ⟨s, resume_cleared h .handler, h, rfl⟩
  | true =>
    rw [if_pos rfl, eoiPending, bind_look, h]
    exact switchTo_cleared h .handler next

/-- With the flag set, the register is written before the context is switched. -/
theorem onTimerTick_required (h : s.eoiRequired = true) (hvector : s.lastInterrupt ≠ 0)
    (next : Option ℕ) :
    ∃ t, (onTimerTick next).run s = .ok () t ∧ t.eoiRequired = false ∧
      t.trace = s.trace ++ [.eoi] := by
  rw [onTimerTick, bind_look]
  cases s.enabled with
  | false => exact ⟨_, apicEOI_required h hvector, rfl, rfl⟩
  | true =>
    rw [if_pos rfl, eoiPending, bind_look, h, if_pos rfl, if_pos hvector,
      bind_of_ok (apicEOI_required h hvector)]
    exact switchTo_cleared rfl .handler next

/-- An interrupt is seen with its end, but for the vectors that do not set the flag. -/
theorem handleInterrupt_run (h : s.eoiRequired = false) (vector : UInt8) (next : Option ℕ) :
    ∃ t, (handleInterrupt vector next).run s = .ok () t ∧ t.eoiRequired = false ∧
      t.trace = s.trace ++ seen vector := by
  let delivered : Cpu := { s with trace := s.trace ++ [.delivered vector] }
  rw [handleInterrupt, seen]
  by_cases hvector : 32 < vector
  · have hne : vector ≠ 0 := by
      rintro rfl
      exact absurd hvector (by decide)
    let notified : Cpu := { delivered with eoiRequired := true, lastInterrupt := vector }
    have hended : ∃ t, (if vector = timer0 then onTimerTick next else apicEOI).run notified =
        .ok () t ∧ t.eoiRequired = false ∧ t.trace = notified.trace ++ [.eoi] := by
      split
      · exact onTimerTick_required rfl hne next
      · exact ⟨_, apicEOI_required rfl hne, rfl, rfl⟩
    obtain ⟨t, hrun, hcleared, htrace⟩ := hended
    rw [if_pos hvector, if_pos hvector]
    refine ⟨t, hrun, hcleared, htrace.trans ?_⟩
    exact List.append_assoc _ _ _
  · have hended : ∃ t, (if vector = timer0 then onTimerTick next else apicEOI).run delivered =
        .ok () t ∧ t.eoiRequired = false ∧ t.trace = delivered.trace := by
      have hdelivered : delivered.eoiRequired = false := h
      split
      · exact onTimerTick_cleared hdelivered next
      · exact ⟨_, apicEOI_cleared hdelivered, h, rfl⟩
    rw [if_neg hvector, if_neg hvector]
    exact hended

/-- What the local APIC sees of a move. -/
theorem perform_run (h : s.eoiRequired = false) (move : Move) :
    ∃ t, move.perform.run s = .ok () t ∧ t.eoiRequired = false ∧
      t.trace = s.trace ++ (move.vector.map seen).getD [] := by
  cases move with
  | interrupt vector next => exact handleInterrupt_run h vector next
  | yield next =>
    obtain ⟨t, hrun, hcleared, htrace⟩ := switchTo_cleared h .thread next
    exact ⟨t, hrun, hcleared, htrace.trans (List.append_nil _).symm⟩
  | spawn => exact ⟨_, rfl, h, (List.append_nil _).symm⟩
  | enable on => exact ⟨_, rfl, h, (List.append_nil _).symm⟩

/-- What it sees of a run. -/
theorem callAll_perform_run (h : s.eoiRequired = false) (moves : List Move) :
    ∃ t, (callAll Move.perform moves).run s = .ok () t ∧ t.eoiRequired = false ∧
      t.trace = s.trace ++ (moves.filterMap Move.vector).flatMap seen := by
  induction moves generalizing s with
  | nil => exact ⟨s, rfl, h, (List.append_nil _).symm⟩
  | cons move rest ih =>
    obtain ⟨t, hmove, hcleared, htrace⟩ := perform_run h move
    obtain ⟨u, hrest, hlast, htrace'⟩ := ih hcleared
    refine ⟨u, (bind_of_ok hmove).trans hrest, hlast, ?_⟩
    rw [htrace', htrace, List.append_assoc, List.filterMap_cons]
    cases move.vector <;> rfl

end Moves

section Trace

variable {vectors : List UInt8} {trace : List ApicEvent}

/-- What is seen of an interrupt begins with its delivery. -/
theorem seen_eq_cons (v : UInt8) : ∃ rest, seen v = .delivered v :: rest := by
  rw [seen]
  split <;> exact ⟨_, rfl⟩

/-- One interrupt alone has no next one. -/
theorem oncePerInterrupt_seen (v : UInt8) : OncePerInterrupt (seen v) := by
  intro before u between w after htrace _
  rw [seen] at htrace
  have hcount := congrArg (List.countP fun e => e ≠ .eoi) htrace
  split at hcount <;> simp at hcount <;> omega

/-- An interrupt and its end in front of another interrupt. -/
theorem oncePerInterrupt_cons (v y : UInt8) :
    OncePerInterrupt (.delivered v :: .eoi :: .delivered y :: trace) ↔
      OncePerInterrupt (.delivered y :: trace) := by
  constructor
  · intro h before u between w after htrace
    refine h (.delivered v :: .eoi :: before) u between w after ?_
    rw [htrace]
    rfl
  · intro h before u between w after htrace heoi
    match before, htrace with
    | [], htrace =>
      -- The first interrupt: the next one comes right behind its end.
      match between, htrace, heoi with
      | [], htrace, _ => cases htrace
      | [e], _, _ => rfl
      | e :: e' :: rest, htrace, heoi =>
        have hnext : e' = .delivered y := by
          injection htrace with _ htrace
          injection htrace with _ htrace
          injection htrace with hnext _
          exact hnext.symm
        have := heoi e' (by simp)
        rw [hnext] at this
        cases this
    | [_], htrace => cases htrace
    | _ :: _ :: before, htrace =>
      injection htrace with _ htrace
      injection htrace with _ htrace
      exact h before u between w after htrace heoi

/-- An interrupt without an end in front of another one. -/
theorem not_oncePerInterrupt_cons (v y : UInt8) :
    ¬ OncePerInterrupt (.delivered v :: .delivered y :: trace) := by
  intro h
  have := h [] v [] y trace rfl (by simp)
  cases this

/-- Between two interrupts there is what was seen of the first one. -/
theorem oncePerInterrupt_flatMap_iff :
    OncePerInterrupt (vectors.flatMap seen) ↔ ∀ v ∈ vectors.dropLast, 32 < v := by
  induction vectors with
  | nil =>
    refine iff_of_true (fun before _ _ _ _ htrace => ?_) (by simp)
    simp at htrace
  | cons v rest ih =>
    cases rest with
    | nil => simpa using oncePerInterrupt_seen v
    | cons y rest =>
      obtain ⟨later, hlater⟩ := seen_eq_cons y
      rw [List.dropLast_cons_cons, List.forall_mem_cons, ← ih]
      simp only [List.flatMap_cons, hlater]
      by_cases hv : 32 < v
      · rw [seen, if_pos hv, and_iff_right hv]
        exact oncePerInterrupt_cons v y
      · rw [seen, if_neg hv]
        exact iff_of_false (not_oncePerInterrupt_cons v y) fun h => hv h.1

end Trace

/-- The register is written once for each interrupt just when none but the last one has a vector
that does not set the flag. -/
theorem oncePerInterrupt_iff (moves : List Move) :
    OncePerInterrupt (final ((callAll Move.perform moves).run {})).trace ↔
      ∀ v ∈ (moves.filterMap Move.vector).dropLast, 32 < v := by
  obtain ⟨t, hrun, -, htrace⟩ := callAll_perform_run (s := {}) rfl moves
  rw [hrun, final_ok, htrace]
  exact oncePerInterrupt_flatMap_iff

/-- The interrupt of the first line of the controllers, followed by a key. -/
theorem not_oncePerInterrupt : ¬ ∀ moves : List Move,
    (∀ v ∈ moves.filterMap Move.vector, 32 ≤ v) →
      OncePerInterrupt (final ((callAll Move.perform moves).run {})).trace := by
  intro h
  have hline := h [.interrupt 32 none, .interrupt 33 none] (by decide +kernel)
  exact not_oncePerInterrupt_cons 32 33 hline

end Vsos.Apic
