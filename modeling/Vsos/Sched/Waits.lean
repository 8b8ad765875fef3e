import Vsos.Lib.Runs
import Vsos.Sched.Passes

/-!
# The waits of a thread

A thread that waits for an object is answered by a later execution of `Schedule`: with `Timeout`
from its deadline on, before that with `Signaled`. The deadline is computed modulo `2 ^ 64`, and
the pointer to the object is not cleared by a timeout.
-/

namespace Vsos.Sched

open Vsos.Lib

variable {s t : SchedState} {event : Event} {r : Option WaitStatus} {start timeout : ℕ}

/-- The states that the scheduler can get into. -/
inductive Reach : SchedState → Prop
  | init {boot id ticks : ℕ} {thread : ℕ → KThread} {signal : ℕ → SignalObject} {deleted : ℕ → Bool}
      {s : SchedState} : (init boot id).run (construct ticks thread signal deleted) = .ok () s → Reach s
  | event {s t : SchedState} {event : Event} {r : Option WaitStatus} : Reach s →
      (performEvent event).run s = .ok r t → Reach t

section Answers

variable {c k next x : ℕ} {s₁ : SchedState}

/-- How the second pass treats a waiting thread. -/
theorem KThread.wake_signalWait {y : KThread} (hstate : y.state = .signalWait) (now : ℕ)
    (signalled : Bool) :
    y.timeout ≤ now ∧
        y.wake now signalled = { y with timeout := 0, state := .ready, waitStatus := .timeout } ∨
      now < y.timeout ∧
        (y.wake now signalled = y ∨ y.wake now signalled =
          { y with timeout := 0, signal := none, state := .ready, waitStatus := .signaled }) := by
  rw [KThread.wake, hstate]
  by_cases hdue : y.timeout ≤ now
  · exact Or.inl ⟨hdue, if_pos hdue⟩
  · refine Or.inr ⟨not_le.mp hdue, ?_⟩
    cases signalled with
    | false => exact Or.inl (if_neg hdue)
    | true => exact Or.inr (if_neg hdue)

/-- A waiting thread goes on waiting, or is answered by its deadline. -/
theorem ScheduleRun.waiting (h : ScheduleRun s t c s₁ k next)
    (hx : (s.thread x).state = .signalWait) :
    t.thread x = s.thread x ∧ (x ∈ s.remaining c → s.ticks < (s.thread x).timeout) ∨
      (s.thread x).timeout ≤ s.ticks ∧ (t.thread x).state ≠ .signalWait ∧
        (t.thread x).waitStatus = .timeout ∧ (t.thread x).signal = (s.thread x).signal ∨
      s.ticks < (s.thread x).timeout ∧ (t.thread x).state ≠ .signalWait ∧
        (t.thread x).waitStatus = .signaled ∧ (t.thread x).signal = none := by
  have hturned := h.turned x
  have hblocked (heq : s₁.thread x = s.thread x) : t.thread x = s.thread x := by
    rw [heq] at hturned
    refine hturned.of_blocked ?_ ?_ <;> rw [hx] <;> nofun
  by_cases hmem : x ∈ s.remaining c
  · obtain ⟨signalled, hwake⟩ := h.woken.woken x hmem
    obtain ⟨hdue, htimeout⟩ | ⟨hdue, hsame | hsignalled⟩ :=
      KThread.wake_signalWait hx s.ticks signalled
    · obtain ⟨state, hfinal, hstate⟩ := hwake.trans htimeout ▸ hturned
      rw [hfinal]
      refine Or.inr (Or.inl ⟨hdue, ?_, rfl, rfl⟩)
      obtain rfl | ⟨-, rfl | rfl⟩ := hstate <;> nofun
    · exact Or.inl ⟨hblocked (hwake.trans hsame), fun _ => hdue⟩
    · obtain ⟨state, hfinal, hstate⟩ := hwake.trans hsignalled ▸ hturned
      rw [hfinal]
      refine Or.inr (Or.inr ⟨hdue, ?_, rfl, rfl⟩)
      obtain rfl | ⟨-, rfl | rfl⟩ := hstate <;> nofun
  · exact Or.inl ⟨hblocked (h.woken.others x hmem), fun hin => absurd hin hmem⟩

end Answers

section Timeout

variable {x : ℕ}

/-- The wait of a thread, which may start with the event, is answered with `Timeout`. -/
def TimesOut (x : ℕ) (s : SchedState) (event : Event) (r : Option WaitStatus) (t : SchedState) :
    Prop :=
  ((s.thread x).state = .signalWait ∨
      s.current = some x ∧ r = none ∧ ∃ object timeout, event = .objectWait object timeout) ∧
    (t.thread x).state ≠ .signalWait ∧ (t.thread x).waitStatus = .timeout

/-- A wait that started at the tick `start` is not answered with `Timeout` too early. -/
def NotEarly (x start timeout : ℕ) (_ : Unit) (s : SchedState) (event : Event) : Prop :=
  ∀ r t, (performEvent event).run s = .ok r t → TimesOut x s event r t →
    timeout ≤ (t.ticks - start) * msPerTick

/-- What follows a wait: ticks and executions of `Schedule`. -/
def Event.passes (event : Event) : Prop := event = .tick ∨ event = .schedule

/-- The wait of the thread has the deadline, as long as it lasts. -/
def WaitsUntil (x limit : ℕ) (_ : Unit) (s : SchedState) : Prop :=
  (s.thread x).state = .signalWait → (s.thread x).timeout = limit

/-- A tick or an execution of `Schedule` executes `Schedule` at the tick that it ends at, or
leaves the threads alone. -/
theorem passes_eq_ok (hevent : event.passes) (hrun : (performEvent event).run s = .ok r t) :
    ∃ u, u.thread = s.thread ∧ (schedule.run u = .ok () t ∨ t = u) := by
  rcases hevent with rfl | rfl
  · obtain ⟨_, htick, rfl⟩ := bind_pure_eq_ok.mp hrun
    exact ⟨{ s with ticks := wrap64 (s.ticks + 1) }, rfl, (timerTick_eq_ok htick).imp And.right And.right⟩
  · obtain ⟨_, hschedule, rfl⟩ := bind_pure_eq_ok.mp hrun
    exact ⟨s, rfl, Or.inl hschedule⟩

/-- An execution of `Schedule` keeps the deadline of a wait, and times it out from then on. -/
theorem WaitsUntil.schedule {limit : ℕ} (h : WaitsUntil x limit () s)
    (hrun : schedule.run s = .ok () t) :
    WaitsUntil x limit () t ∧ ((s.thread x).state = .signalWait →
      (t.thread x).state ≠ .signalWait → (t.thread x).waitStatus = .timeout → limit ≤ t.ticks) := by
  obtain ⟨c, s₁, k, next, hschedule⟩ := schedule_eq_ok hrun
  constructor
  · intro hwaits
    have hbefore : (s.thread x).state = .signalWait := by
      obtain hstate | hstate | hstate := hschedule.state x
      · exact hstate.symm.trans hwaits
      · cases hstate.symm.trans hwaits
      · cases hstate.symm.trans hwaits
    obtain ⟨hsame, -⟩ | ⟨-, hnot, -⟩ | ⟨-, hnot, -⟩ := hschedule.waiting hbefore
    · rw [hsame]
      exact h hbefore
    · exact absurd hwaits hnot
    · exact absurd hwaits hnot
  · intro hbefore hafter hstatus
    obtain ⟨hsame, -⟩ | ⟨hdue, -⟩ | ⟨-, -, hsignaled, -⟩ := hschedule.waiting hbefore
    · exact absurd (hsame ▸ hbefore) hafter
    · rw [hschedule.ticks, ← h hbefore]
      exact hdue
    · cases hsignaled.symm.trans hstatus

/-- Ticks and executions of `Schedule` keep the deadline of a wait. -/
theorem WaitsUntil.passes {limit : ℕ} (h : WaitsUntil x limit () s) (hevent : event.passes)
    (hrun : (performEvent event).run s = .ok r t) :
    WaitsUntil x limit () t ∧ (TimesOut x s event r t → limit ≤ t.ticks) := by
  obtain ⟨u, hthread, hschedule | rfl⟩ := passes_eq_ok hevent hrun
  · have hu : WaitsUntil x limit () u := by rwa [WaitsUntil, hthread]
    obtain ⟨hkeeps, hlate⟩ := hu.schedule hschedule
    refine ⟨hkeeps, fun htimes => ?_⟩
    obtain ⟨hwaits | ⟨-, -, object, timeout, rfl⟩, hafter, hstatus⟩ := htimes
    · exact hlate (hthread ▸ hwaits) hafter hstatus
    · rcases hevent with hevent | hevent <;> cases hevent
  · refine ⟨by rwa [WaitsUntil, hthread], fun htimes => ?_⟩
    obtain ⟨hwaits | ⟨-, -, object, timeout, rfl⟩, hafter, -⟩ := htimes
    · exact absurd (hthread ▸ hwaits) hafter
    · rcases hevent with hevent | hevent <;> cases hevent

/-- Rounded up to ticks, a timeout that does not overflow is not shortened. -/
theorem le_of_deadline_le {now : ℕ} (hround : timeout + (msPerTick - 1) < 2 ^ 64)
    (hsum : start + (timeout + (msPerTick - 1)) / msPerTick < 2 ^ 64)
    (hdue : deadline start timeout ≤ now) : timeout ≤ (now - start) * msPerTick := by
  rw [deadline, wrap64_of_lt hround, wrap64_of_lt hsum] at hdue
  simp only [msPerTick] at hdue ⊢
  omega

/-- An overflow puts the deadline into the past. -/
theorem deadline_le_of_overflow (htimeout : timeout < 2 ^ 64)
    (hoverflow : ¬ (timeout + (msPerTick - 1) < 2 ^ 64 ∧
      start + (timeout + (msPerTick - 1)) / msPerTick < 2 ^ 64)) :
    deadline start timeout ≤ start := by
  rw [deadline]
  by_cases hround : timeout + (msPerTick - 1) < 2 ^ 64
  · simp only [wrap64, msPerTick] at *
    omega
  · have hzero : wrap64 (timeout + (msPerTick - 1)) / msPerTick = 0 := by
      simp only [wrap64, msPerTick] at *
      omega
    rw [hzero]
    exact Nat.mod_le _ _

/-- The first event of a wait. -/
theorem objectWait_notEarly {object : ℕ} (hticks : s.ticks = start) (hcurrent : s.current = some x)
    (hrun : (performEvent (.objectWait object timeout)).run s = .ok r t) :
    WaitsUntil x (deadline start timeout) () t ∧
      (TimesOut x s (.objectWait object timeout) r t → deadline start timeout ≤ t.ticks) := by
  obtain ⟨c, hc, hrunning, -, hcases⟩ := objectWait_eq_ok hrun
  cases hcurrent.symm.trans hc
  obtain ⟨-, rfl, hgrant⟩ | ⟨-, rfl, hschedule⟩ := hcases
  · obtain ⟨value, rfl⟩ := (grant_ensures x object s).of_ok hgrant
    constructor
    · intro hwaits
      cases hrunning.symm.trans hwaits
    · rintro ⟨hwaits | ⟨-, hnone, -⟩, -⟩
      · cases hrunning.symm.trans hwaits
      · cases hnone
  · have hblocked : (s.block x object timeout).thread x = { s.thread x with
        state := .signalWait, signal := some object, timeout := deadline s.ticks timeout } :=
      setThread_self
    have hwaits : WaitsUntil x (deadline start timeout) () (s.block x object timeout) := by
      intro _
      rw [hblocked, hticks]
    obtain ⟨hkeeps, hlate⟩ := hwaits.schedule hschedule
    exact ⟨hkeeps, fun htimes => hlate (by rw [hblocked]) htimes.2.1 htimes.2.2⟩

/-- A boot thread and an idle thread, with nothing signalled. -/
def twoThreads (ticks : ℕ) : SchedState where
  enabled := true
  threadIndex := 0
  threads := [0, 1]
  cpuThread := none
  ticks := ticks
  thread := Function.update (Function.update (fun x => .construct (x + 1)) 0
    { KThread.construct 1 with state := .running }) 1 (.construct 2)
  signal := fun _ => .predicate false
  deleted := fun _ => false
  granted := []

/-- The state with two threads is reached. -/
theorem reach_twoThreads (ticks : ℕ) : Reach (twoThreads ticks) := by
  let s₁ : SchedState := { twoThreads ticks with
    enabled := false
    threads := [0]
    thread := Function.update (fun x => .construct (x + 1)) 0
      { KThread.construct 1 with state := .running } }
  have hinit : (init 0 1).run (construct ticks (fun x => .construct (x + 1))
      (fun _ => .predicate false) fun _ => false) = .ok () s₁ := rfl
  have hidle : (performEvent (.addReady 1)).run s₁ =
      .ok none { twoThreads ticks with enabled := false } := rfl
  have henable : (performEvent (.enable true)).run { twoThreads ticks with enabled := false } =
      .ok none (twoThreads ticks) := rfl
  exact ((Reach.init hinit).event hidle).event henable

/-- A deadline that is not in the future ends the wait at once. -/
theorem exists_timesOut (hdue : deadline start timeout ≤ start) :
    ∃ t, (performEvent (.objectWait 0 timeout)).run (twoThreads start) = .ok none t ∧
      t.ticks = start ∧ TimesOut 0 (twoThreads start) (.objectWait 0 timeout) none t := by
  let s := (twoThreads start).block 0 0 timeout
  let s₁ := s.setThread 0 fun x => { x with timeout := 0, state := .ready, waitStatus := .timeout }
  let t : SchedState := { s₁ with
    threadIndex := 1
    cpuThread := some 1
    thread := Function.update s₁.thread 1 { KThread.construct 2 with state := .running } }
  have hupdate : (updateStatus start 0).run s = .ok () s₁ := by
    change (if deadline start timeout ≤ start then _ else _ : SchedM Unit).run s = _
    rw [if_pos hdue]
    rfl
  have hschedule : schedule.run s = .ok () t := by
    have hpass : (updateStatuses start [0, 1]).run s = .ok () s₁ := by
      rw [updateStatuses, bind_of_ok hupdate]
      rfl
    change (updateStatuses start [0, 1] >>= fun _ => markReady 0 >>= fun _ =>
      selectLoop 2 >>= fun _ => runNext 1).run s = _
    rw [bind_of_ok hpass]
    rfl
  refine ⟨t, ?_, rfl, Or.inr ⟨rfl, rfl, 0, timeout, rfl⟩, nofun, rfl⟩
  change (schedule >>= fun _ => pure none).run s = _
  rw [bind_of_ok hschedule]
  rfl

/-- A wait that starts at the tick `start` in any state is never answered with `Timeout` too
early, over all later ticks and executions of `Schedule`, just when neither the rounding of its
timeout to ticks nor its deadline overflows. -/
theorem wait_notEarly_iff {start timeout : ℕ} (hstart : start + 2 ^ 60 < 2 ^ 64)
    (htimeout : timeout < 2 ^ 64) :
    (∀ s x object later, Reach s → s.ticks = start → s.current = some x →
        (∀ event ∈ later, event.passes) →
        EachCall performEvent (fun _ _ _ => ()) (NotEarly x start timeout)
          (.objectWait object timeout :: later) () s) ↔
      timeout + (msPerTick - 1) < 2 ^ 64 ∧
        start + (timeout + (msPerTick - 1)) / msPerTick < 2 ^ 64 := by
  constructor
  · intro hclaim
    by_contra hoverflow
    have hdue := deadline_le_of_overflow htimeout hoverflow
    obtain ⟨t, hrun, hticks, htimes⟩ := exists_timesOut hdue
    have hearly := (hclaim (twoThreads start) 0 0 [] (reach_twoThreads start) rfl rfl nofun).1
      none t hrun htimes
    rw [hticks, Nat.sub_self] at hearly
    simp only [msPerTick] at hoverflow
    omega
  · rintro ⟨hround, hsum⟩ s x object later - hticks hcurrent hlater
    constructor
    · intro r t hrun htimes
      exact le_of_deadline_le hround hsum ((objectWait_notEarly hticks hcurrent hrun).2 htimes)
    · cases hrun : (performEvent (.objectWait object timeout)).run s with
      | error e t => trivial
      | ok r t =>
        have hwaits := (objectWait_notEarly hticks hcurrent hrun).1
        refine EachCall.of_admissible ?_ ?_ hwaits
          (EachCall.of_forall_mem (fun event hevent _ _ => hlater event hevent) () t)
        · intro _ s event h hevent r t hrun htimes
          exact le_of_deadline_le hround hsum ((h.passes hevent hrun).2 htimes)
        · exact fun _ s event r t h hevent hrun => (h.passes hevent hrun).1

/-- A wait of a second is not cut short by two ticks. -/
theorem wait_notEarly_second :
    EachCall performEvent (fun _ _ _ => ()) (NotEarly 0 5 1000)
      [.objectWait 0 1000, .tick, .tick] () (twoThreads 5) :=
  (wait_notEarly_iff (by decide) (by decide)).mpr ⟨by decide, by decide⟩ (twoThreads 5) 0 0
    [.tick, .tick] (reach_twoThreads 5) rfl rfl (by simp [Event.passes])

/-- With the default timeout, which is the largest number of milliseconds, the wait ends at once. -/
theorem not_wait_notEarly :
    ¬ ∀ start timeout, start + 2 ^ 60 < 2 ^ 64 → timeout < 2 ^ 64 →
      ∀ s x object later, Reach s → s.ticks = start → s.current = some x →
        (∀ event ∈ later, Event.passes event) →
        EachCall performEvent (fun _ _ _ => ()) (NotEarly x start timeout)
          (.objectWait object timeout :: later) () s := by
  intro hclaim
  obtain ⟨t, hrun, hticks, htimes⟩ := exists_timesOut (by decide : deadline 0 (2 ^ 64 - 1) ≤ 0)
  have hearly := (hclaim 0 (2 ^ 64 - 1) (by decide) (by decide) (twoThreads 0) 0 0 []
    (reach_twoThreads 0) rfl rfl nofun).1 none t hrun htimes
  rw [hticks] at hearly
  exact absurd hearly (by decide)

end Timeout

end Vsos.Sched
