import Vsos.Sched.Selection
import Vsos.Sched.Waits

/-!
# The sleep of a thread

`Sleep` turns a duration into ticks by a division that rounds down, and the thread wakes up in the
first execution of `Schedule` from the tick of its deadline on. A duration that is not a multiple
of a tick ends early for that reason. A deadline of zero, which a short sleep in the first tick
has, fails an assertion in the next execution of `Schedule`.
-/

namespace Vsos.Sched

open Vsos.Lib

variable {s t u : SchedState} {event : Event} {r : Option WaitStatus} {x limit : ℕ} {now : ℕ}

/-- An event, and whether a thread sleeps after it. -/
def watchSleep (x : ℕ) (event : Event) : SchedM Bool := do
  let _ ← performEvent event
  look fun s => (s.thread x).state = .sleeping

/-- The sleep lasts until an event after which the thread does not sleep. -/
def noteSleep (asleep : Bool) (_ : Event) (sleeping : Bool) : Bool := asleep && sleeping

/-- As long as the sleep lasts, which started at the tick `start`, no assertion of `Schedule` fails
for the thread, and the thread gets ready in an execution of `Schedule` only, at a tick at which
the duration is over. -/
def NotCutShort (x start value : ℕ) (asleep : Bool) (s : SchedState) (event : Event) : Prop :=
  asleep = true →
    (∀ u ∈ event.scheduleFrom s, (u.thread x).state = .sleeping →
      ∃ t, (updateStatus u.ticks x).run u = .ok () t) ∧
    ∀ r t, (performEvent event).run s = .ok r t →
      (t.thread x).state = .ready ∨ (t.thread x).state = .running →
      ∃ u ∈ event.scheduleFrom s, value ≤ (u.ticks - start) * nsPerTick

section Step

/-- A thread of the vector that is not the current one sleeps until a deadline. -/
structure Sleeps (x limit : ℕ) (s : SchedState) : Prop where
  state : (s.thread x).state = .sleeping
  timeout : (s.thread x).timeout = limit
  mem : x ∈ s.threads
  not_current : s.current ≠ some x

/-- A sleeping thread goes on sleeping, or its deadline has come. -/
theorem ScheduleRun.sleeping {c k next : ℕ} {s₁ : SchedState} (h : ScheduleRun s t c s₁ k next)
    (hx : (s.thread x).state = .sleeping) :
    t.thread x = s.thread x ∨ (s.thread x).timeout ≤ s.ticks ∧ (t.thread x).state ≠ .sleeping := by
  have hturned := h.turned x
  have hblocked (heq : s₁.thread x = s.thread x) : t.thread x = s.thread x := by
    rw [heq] at hturned
    refine hturned.of_blocked ?_ ?_ <;> rw [hx] <;> simp
  by_cases hmem : x ∈ s.remaining c
  · obtain ⟨signalled, hwake⟩ := h.woken.woken x hmem
    rw [KThread.wake, hx] at hwake
    by_cases hdue : (s.thread x).timeout ≤ s.ticks
    · obtain ⟨state, hfinal, hstate⟩ := hwake.trans (if_pos hdue) ▸ hturned
      rw [hfinal]
      refine Or.inr ⟨hdue, ?_⟩
      obtain rfl | ⟨-, rfl | rfl⟩ := hstate <;> simp
    · exact Or.inl (hblocked (hwake.trans (if_neg hdue)))
  · exact Or.inl (hblocked (h.woken.others x hmem))

/-- An execution of `Schedule` lets a thread sleep until its deadline. -/
theorem sleeps_schedule (hstate : (s.thread x).state = .sleeping)
    (htimeout : (s.thread x).timeout = limit) (hmem : x ∈ s.threads)
    (hrun : schedule.run s = .ok () t) :
    Sleeps x limit t ∨ limit ≤ s.ticks ∧ (t.thread x).state ≠ .sleeping := by
  obtain ⟨c, s₁, k, next, h⟩ := schedule_eq_ok hrun
  obtain hsame | ⟨hdue, hawake⟩ := h.sleeping hstate
  · left
    have hsleeping : (t.thread x).state = .sleeping := by rw [hsame, hstate]
    refine ⟨hsleeping, by rw [hsame, htimeout], ?_, ?_⟩
    · rw [h.threads]
      simp [SchedState.remaining, SchedState.Remains, hmem, hstate]
    · rw [h.current_eq]
      intro hnext
      cases hnext
      cases hsleeping.symm.trans h.running
  · exact Or.inr ⟨htimeout ▸ hdue, hawake⟩

/-- An event that gets to `Schedule` and returns has executed it. -/
theorem scheduleFrom_run (hu : u ∈ event.scheduleFrom s)
    (hrun : (performEvent event).run s = .ok r t) : schedule.run u = .ok () t := by
  obtain ⟨-, v, hv, hschedule⟩ | ⟨-, hnone, -⟩ := performEvent_eq_ok hrun
  · cases hu.symm.trans hv
    exact hschedule
  · cases hu.symm.trans hnone

/-- The other threads are as before where an event executes `Schedule`. -/
theorem Sleeps.enter (h : Sleeps x limit s) (hu : u ∈ event.scheduleFrom s) :
    u.thread x = s.thread x ∧ u.threads = s.threads := by
  obtain heq | ⟨c, g, hc, rfl, -⟩ := eq_or_block_of_scheduleFrom hu
  · rw [heq]
    exact ⟨rfl, rfl⟩
  · exact ⟨setThread_of_ne fun heq => h.not_current (heq ▸ hc), rfl⟩

/-- An event without `Schedule` lets the thread sleep on, or kills it. It cannot be added to the
vector a second time. -/
theorem Sleeps.quiet (h : Sleeps x limit s) (hnone : event.scheduleFrom s = none)
    (hrun : (performEvent event).run s = .ok r t) :
    Sleeps x limit t ∨ (t.thread x).state = .terminated := by
  obtain ⟨-, u, hu, -⟩ | ⟨-, -, ⟨y, -, hready⟩ | ⟨y, deleted, rfl⟩ | ⟨enabled, ticks, signal,
    granted, rfl⟩⟩ := performEvent_eq_ok hrun
  · cases hu.symm.trans hnone
  · obtain ⟨hnew, rfl⟩ := addReady_eq_ok hready
    have hne : x ≠ y := by
      rintro rfl
      exact hnew x h.mem (by rw [setThread_self])
    have hthread : (s.setThread y fun thread => { thread with state := .ready }).thread x =
        s.thread x := setThread_of_ne hne
    refine Or.inl ⟨hthread.symm ▸ h.state, hthread.symm ▸ h.timeout,
      List.mem_append_left _ h.mem, fun hcurrent => ?_⟩
    have hcurrent : (s.threads ++ [y])[s.threadIndex]? = some x := hcurrent
    rw [List.getElem?_append] at hcurrent
    split at hcurrent
    · exact h.not_current hcurrent
    · exact hne (List.mem_singleton.mp (List.mem_of_getElem? hcurrent))
  · by_cases hne : x = y
    · subst hne
      right
      change ((s.setThread x fun thread => { thread with state := .terminated }).thread x).state = _
      rw [setThread_self]
    · have hthread : (s.setThread y fun thread => { thread with state := .terminated }).thread x =
          s.thread x := setThread_of_ne hne
      exact Or.inl ⟨hthread.symm ▸ h.state, hthread.symm ▸ h.timeout, h.mem, h.not_current⟩
  · exact Or.inl ⟨h.state, h.timeout, h.mem, h.not_current⟩

/-- One event of a run while the thread sleeps. -/
theorem Sleeps.perform (h : Sleeps x limit s) (hrun : (performEvent event).run s = .ok r t) :
    Sleeps x limit t ∨ (t.thread x).state = .terminated ∨
      (t.thread x).state ≠ .sleeping ∧ ∃ u ∈ event.scheduleFrom s, limit ≤ u.ticks := by
  cases hfrom : event.scheduleFrom s with
  | none => exact (h.quiet hfrom hrun).imp_right Or.inl
  | some u =>
    obtain ⟨hthread, hthreads⟩ := h.enter hfrom
    obtain hsleeps | ⟨hdue, hawake⟩ := sleeps_schedule (hthread ▸ h.state) (hthread ▸ h.timeout)
      (hthreads ▸ h.mem) (scheduleFrom_run hfrom hrun)
    · exact Or.inl hsleeps
    · exact Or.inr (Or.inr ⟨hawake, u, rfl, hdue⟩)

end Step

section Runs

variable {start value : ℕ}

/-- A duration in full ticks is over when its ticks are. -/
theorem le_of_full_ticks (hticks : nsPerTick ∣ value) (hdue : start + value / nsPerTick ≤ now) :
    value ≤ (now - start) * nsPerTick := by
  obtain ⟨ticks, rfl⟩ := hticks
  simp only [nsPerTick] at hdue ⊢
  omega

/-- The check of a thread that sleeps until a deadline other than zero. -/
theorem updateStatus_sleeping (hstate : (s.thread x).state = .sleeping)
    (htimeout : (s.thread x).timeout ≠ 0) (tsc : ℕ) :
    ∃ t, (updateStatus tsc x).run s = .ok () t := by
  rw [updateStatus, bind_look, hstate]
  rw [bind_ensure htimeout]
  split
  · exact ⟨_, rfl⟩
  · exact ⟨_, rfl⟩

/-- The sleep goes on as the flag says. -/
def SleepsWhile (x limit : ℕ) (asleep : Bool) (s : SchedState) : Prop :=
  asleep = true → Sleeps x limit s

/-- Whatever leads to a thread that sleeps, or is awake after its deadline. -/
theorem notCutShort_of_cases (hticks : nsPerTick ∣ value)
    (hlimit : start + value / nsPerTick ≠ 0)
    (henter : ∀ u ∈ event.scheduleFrom s, (u.thread x).timeout = start + value / nsPerTick)
    (hcases : ∀ r t, (performEvent event).run s = .ok r t →
      Sleeps x (start + value / nsPerTick) t ∨ (t.thread x).state = .terminated ∨
        (t.thread x).state ≠ .sleeping ∧
          ∃ u ∈ event.scheduleFrom s, start + value / nsPerTick ≤ u.ticks) (asleep : Bool) :
    NotCutShort x start value asleep s event := by
  refine fun _ => ⟨fun u hu hstate => ?_, fun r t hrun hawake => ?_⟩
  · exact updateStatus_sleeping hstate ((henter u hu).trans_ne hlimit) u.ticks
  · obtain hsleeps | hkilled | ⟨-, u, hu, hdue⟩ := hcases r t hrun
    · rw [hsleeps.state] at hawake
      simp at hawake
    · rw [hkilled] at hawake
      simp at hawake
    · exact ⟨u, hu, le_of_full_ticks hticks hdue⟩

/-- A thread sleeps on, is terminated, or is woken after its time. -/
theorem SleepsWhile.note {asleep : Bool}
    (hcases : Sleeps x limit t ∨ (t.thread x).state = .terminated ∨
      (t.thread x).state ≠ .sleeping ∧ ∃ u ∈ event.scheduleFrom s, limit ≤ u.ticks) :
    SleepsWhile x limit (noteSleep asleep event ((t.thread x).state = .sleeping)) t := by
  intro hasleep
  have hsleeping : (t.thread x).state = .sleeping := by
    have hboth := (Bool.and_eq_true ..).mp hasleep
    exact of_decide_eq_true hboth.2
  obtain hsleeps | hkilled | ⟨hnot, -⟩ := hcases
  · exact hsleeps
  · cases hkilled.symm.trans hsleeping
  · exact absurd hsleeping hnot

/-- What is seen of an event. -/
theorem watchSleep_eq_ok {sleeping : Bool} (hrun : (watchSleep x event).run s = .ok sleeping t) :
    (∃ r, (performEvent event).run s = .ok r t) ∧
      sleeping = decide ((t.thread x).state = .sleeping) := by
  obtain ⟨r, _, hperform, hlook⟩ := bind_eq_ok.mp hrun
  cases hlook
  exact ⟨⟨r, hperform⟩, rfl⟩

/-- What `Sleep` does to its thread. -/
theorem sleep_cases (hrange : start + value / nsPerTick < 2 ^ 63) (hstart : s.ticks = start)
    (hx : s.current = some x) (hrun : (performEvent (.sleep value)).run s = .ok r t) :
    Sleeps x (start + value / nsPerTick) t ∨ (t.thread x).state = .terminated ∨
      (t.thread x).state ≠ .sleeping ∧
        ∃ u ∈ Event.scheduleFrom s (.sleep value), start + value / nsPerTick ≤ u.ticks := by
  have hfrom : s.rest x value ∈ Event.scheduleFrom s (.sleep value) := by
    rw [Event.scheduleFrom, hx]
    rfl
  have hself : (s.rest x value).thread x = { s.thread x with
      timeout := wrap64 (s.ticks + value / nsPerTick), state := .sleeping } := setThread_self
  have htimeout : ((s.rest x value).thread x).timeout = start + value / nsPerTick := by
    rw [hself, hstart]
    exact wrap64_of_lt (hrange.trans (by decide))
  obtain hsleeps | ⟨hdue, hawake⟩ := sleeps_schedule (by rw [hself]) htimeout
    (List.mem_of_getElem? hx) (scheduleFrom_run hfrom hrun)
  · exact Or.inl hsleeps
  · exact Or.inr (Or.inr ⟨hawake, _, hfrom, hdue⟩)

/-- A sleep of full ticks whose deadline is not zero is not cut short by any events. -/
theorem notCutShort_of_full_ticks (hrange : start + value / nsPerTick < 2 ^ 63)
    (hticks : nsPerTick ∣ value) (hlimit : start + value / nsPerTick ≠ 0) (hstart : s.ticks = start)
    (hx : s.current = some x) (later : List Event) :
    EachCall (watchSleep x) noteSleep (NotCutShort x start value) (.sleep value :: later) true s := by
  constructor
  · refine notCutShort_of_cases hticks hlimit ?_ (fun r t => sleep_cases hrange hstart hx) true
    intro u hu
    rw [Event.scheduleFrom, hx] at hu
    cases hu
    change ((s.rest x value).thread x).timeout = _
    rw [SchedState.rest, setThread_self, hstart]
    exact wrap64_of_lt (hrange.trans (by decide))
  · cases hrun : (watchSleep x (.sleep value)).run s with
    | error e t => trivial
    | ok sleeping t =>
      obtain ⟨⟨r, hperform⟩, rfl⟩ := watchSleep_eq_ok hrun
      refine EachCall.of_admissible
        ?_ ?_ (SleepsWhile.note (sleep_cases hrange hstart hx hperform))
        (EachCall.of_forall (fun _ _ _ => trivial) later _ _)
      · intro asleep s event h _ hasleep
        have hsleeps := h hasleep
        refine notCutShort_of_cases hticks hlimit ?_ (fun r t => hsleeps.perform) asleep hasleep
        intro u hu
        rw [(hsleeps.enter hu).1, hsleeps.timeout]
      · intro asleep s event sleeping t h _ hrun
        obtain ⟨⟨r, hperform⟩, rfl⟩ := watchSleep_eq_ok hrun
        intro hasleep
        have hbefore := ((Bool.and_eq_true ..).mp hasleep).1
        exact SleepsWhile.note ((h hbefore).perform hperform) hasleep

/-- The boot thread sleeps until a deadline, and the idle thread runs. -/
def resting (now limit : ℕ) : SchedState where
  enabled := true
  threadIndex := 1
  threads := [0, 1]
  cpuThread := some 1
  ticks := now
  thread := Function.update (Function.update (twoThreads now).thread 0
    { KThread.construct 1 with timeout := limit, state := .sleeping }) 1
    { KThread.construct 2 with state := .running }
  signal := fun _ => .predicate false
  deleted := fun _ => false
  granted := []

/-- `Sleep` of the boot thread, whose deadline lies in the future. -/
theorem sleep_twoThreads (hrange : start + value / nsPerTick < 2 ^ 63)
    (hfuture : start < start + value / nsPerTick) :
    (performEvent (.sleep value)).run (twoThreads start) =
      .ok none (resting start (start + value / nsPerTick)) := by
  let s := (twoThreads start).rest 0 value
  have htimeout : wrap64 (start + value / nsPerTick) = start + value / nsPerTick :=
    wrap64_of_lt (hrange.trans (by decide))
  have hupdate : (updateStatus start 0).run s = .ok () s := by
    have hne : wrap64 (start + value / nsPerTick) ≠ 0 := by omega
    change (ensure (wrap64 (start + value / nsPerTick) ≠ 0) >>= fun _ =>
      if wrap64 (start + value / nsPerTick) ≤ start then _ else _ : SchedM Unit).run s = _
    rw [bind_ensure hne, if_neg (by omega)]
    rfl
  have hpass : (updateStatuses start [0, 1]).run s = .ok () s := by
    rw [updateStatuses, bind_of_ok hupdate]
    rfl
  have hschedule : schedule.run s = .ok () (resting start (start + value / nsPerTick)) := by
    change (updateStatuses start [0, 1] >>= fun _ => markReady 0 >>= fun _ =>
      selectLoop 2 >>= fun _ => runNext 1).run s = _
    rw [bind_of_ok hpass, ← htimeout]
    rfl
  change (schedule >>= fun _ => pure none).run s = _
  rw [bind_of_ok hschedule]
  rfl

/-- A tick that executes `Schedule`, in a state that has the time as an argument. -/
theorem tick_run (hnow : now + 1 < 2 ^ 64)
    (hrun : schedule.run (resting (now + 1) limit) = .ok () t) :
    (performEvent .tick).run (resting now limit) = .ok none t := by
  change (schedule >>= fun _ => pure none).run
    { resting now limit with ticks := wrap64 (now + 1) } = _
  rw [wrap64_of_lt hnow]
  change (schedule >>= fun _ => pure none).run (resting (now + 1) limit) = _
  rw [bind_of_ok hrun]
  rfl

/-- A tick in front of the deadline changes nothing but the time. -/
theorem tick_resting (hnow : now + 1 < limit) (hlimit : limit < 2 ^ 63) :
    (performEvent .tick).run (resting now limit) = .ok none (resting (now + 1) limit) := by
  let s := resting (now + 1) limit
  let s₁ := s.setThread 1 fun x => { x with state := .ready }
  have hupdate : (updateStatus (now + 1) 0).run s = .ok () s := by
    have hne : limit ≠ 0 := by omega
    change (ensure (limit ≠ 0) >>= fun _ => if limit ≤ now + 1 then _ else _ : SchedM Unit).run s = _
    rw [bind_ensure hne, if_neg (not_le.mpr hnow)]
    rfl
  have hpass : (updateStatuses (now + 1) [0, 1]).run s = .ok () s := by
    rw [updateStatuses, bind_of_ok hupdate]
    rfl
  have hready : (markReady 1).run s = .ok () s₁ := rfl
  -- the search passes the sleeping thread and comes back to the idle one
  have hselect : (selectLoop 2).run s₁ = .ok () s₁ := by
    have hidle : s₁.ReadyAt ((1 + 1 + 1) % 2) := ⟨1, rfl, rfl⟩
    have hasleep : ∀ j < 1, ¬ s₁.ReadyAt ((1 + j + 1) % 2) := by
      intro j hj
      rw [Nat.lt_one_iff.mp hj]
      rintro ⟨y, hy, hstate⟩
      cases hy
      cases hstate
    have hindex : (s₁.threadIndex + 1 + 1) % s₁.threads.length = 1 := by
      change (1 + 1 + 1) % 2 = 1
      rfl
    rw [@selectLoop_run s₁ 1 2 Nat.one_lt_two hidle hasleep, hindex]
    rfl
  have hback : s₁.setThread 1 (fun x => { x with state := .running }) = s := by
    have hthread : Function.update s₁.thread 1 { s₁.thread 1 with state := .running } = s.thread := by
      change Function.update (Function.update s.thread 1 _) 1 _ = s.thread
      rw [Function.update_idem]
      exact Function.update_idem ..
    rw [SchedState.setThread, hthread]
    rfl
  have hnext : (runNext 2).run s₁ = .ok () s := by
    rw [← hback]
    rfl
  have hschedule : schedule.run s = .ok () s := by
    change (updateStatuses (now + 1) [0, 1] >>= fun _ => markReady 1 >>= fun _ =>
      selectLoop 2 >>= fun _ => runNext 2).run s = _
    rw [bind_of_ok hpass, bind_of_ok hready, bind_of_ok hselect, hnext]
  exact tick_run (by omega) hschedule

/-- The tick of the deadline wakes the boot thread. -/
theorem tick_awake (hnow : now + 1 < 2 ^ 63) :
    ∃ t, (performEvent .tick).run (resting now (now + 1)) = .ok none t ∧
      (t.thread 0).state = .running := by
  let s := resting (now + 1) (now + 1)
  let s₁ := s.setThread 0 fun x => { x with timeout := 0, state := .ready, waitStatus := .none }
  have hupdate : (updateStatus (now + 1) 0).run s = .ok () s₁ := by
    change (ensure (now + 1 ≠ 0) >>= fun _ => if now + 1 ≤ now + 1 then _ else _ : SchedM Unit).run s
      = _
    rw [bind_ensure (Nat.succ_ne_zero now), if_pos le_rfl]
    rfl
  have hpass : (updateStatuses (now + 1) [0, 1]).run s = .ok () s₁ := by
    rw [updateStatuses, bind_of_ok hupdate]
    rfl
  let s₂ := s₁.setThread 1 fun x => { x with state := .ready }
  have hready : (markReady 1).run s₁ = .ok () s₂ := rfl
  have hselect : (selectLoop 2).run s₂ = .ok () { s₂ with threadIndex := 0 } := by
    have hboot : s₂.ReadyAt ((1 + 0 + 1) % 2) := ⟨0, rfl, rfl⟩
    have hindex : (s₂.threadIndex + 0 + 1) % s₂.threads.length = 0 := by
      change (1 + 0 + 1) % 2 = 0
      rfl
    rw [@selectLoop_run s₂ 0 2 Nat.zero_lt_two hboot (by simp), hindex]
  have hnext : (runNext 2).run { s₂ with threadIndex := 0 } =
      .ok () ({ s₂ with threadIndex := 0 }.runNext 2 0) := runNext_run rfl 2
  refine ⟨{ s₂ with threadIndex := 0 }.runNext 2 0, tick_run (by omega) ?_, rfl⟩
  change (updateStatuses (now + 1) [0, 1] >>= fun _ => markReady 1 >>= fun _ =>
    selectLoop 2 >>= fun _ => runNext 2).run s = _
  rw [bind_of_ok hpass, bind_of_ok hready, bind_of_ok hselect, hnext]

/-- A sleep of less than a tick ends at once. -/
theorem sleep_due (hrange : start < 2 ^ 63) (hstart : start ≠ 0) (hshort : value / nsPerTick = 0) :
    ∃ t, (performEvent (.sleep value)).run (twoThreads start) = .ok none t ∧
      (t.thread 0).state = .ready := by
  let s := (twoThreads start).rest 0 value
  let s₁ := s.setThread 0 fun x => { x with timeout := 0, state := .ready, waitStatus := .none }
  have htimeout : wrap64 (start + value / nsPerTick) = start := by
    rw [hshort]
    exact wrap64_of_lt (hrange.trans (by decide))
  have hupdate : (updateStatus start 0).run s = .ok () s₁ := by
    change (ensure (wrap64 (start + value / nsPerTick) ≠ 0) >>= fun _ =>
      if wrap64 (start + value / nsPerTick) ≤ start then _ else _ : SchedM Unit).run s = _
    rw [bind_ensure (htimeout.trans_ne hstart), if_pos htimeout.le]
    rfl
  have hpass : (updateStatuses start [0, 1]).run s = .ok () s₁ := by
    rw [updateStatuses, bind_of_ok hupdate]
    rfl
  let t := { s₁ with threadIndex := 1 }.runNext 1 1
  have hschedule : schedule.run s = .ok () t := by
    change (updateStatuses start [0, 1] >>= fun _ => markReady 0 >>= fun _ =>
      selectLoop 2 >>= fun _ => runNext 1).run s = _
    rw [bind_of_ok hpass]
    rfl
  refine ⟨t, ?_, rfl⟩
  change (schedule >>= fun _ => pure none).run s = _
  rw [bind_of_ok hschedule]
  rfl

/-- An event that returns is seen. -/
theorem watchSleep_run (hrun : (performEvent event).run s = .ok r t) :
    (watchSleep x event).run s = .ok (decide ((t.thread x).state = .sleeping)) t := by
  rw [watchSleep, bind_of_ok hrun]
  rfl

/-- Ticks up to the deadline wake the thread there, so the duration has to be over. -/
theorem le_of_ticks {n : ℕ} (hlimit : now + n + 1 < 2 ^ 63)
    (hsleep : EachCall (watchSleep 0) noteSleep (NotCutShort 0 start value)
      (List.replicate (n + 1) .tick) true (resting now (now + n + 1))) :
    value ≤ (now + n + 1 - start) * nsPerTick := by
  induction n generalizing now with
  | zero =>
    obtain ⟨t, hrun, hstate⟩ := tick_awake hlimit
    obtain ⟨u, hu, hle⟩ := (hsleep.1 rfl).2 none t hrun (Or.inr hstate)
    cases hu
    have hle : value ≤ (wrap64 (now + 1) - start) * nsPerTick := hle
    rwa [wrap64_of_lt (by omega)] at hle
  | succ n ih =>
    have hrun : (performEvent .tick).run (resting now (now + (n + 1) + 1)) =
        .ok none (resting (now + 1) (now + (n + 1) + 1)) := tick_resting (by omega) hlimit
    rw [List.replicate_succ, eachCall_cons_of_ok (watchSleep_run hrun)] at hsleep
    have hsum : now + (n + 1) + 1 = now + 1 + n + 1 := by omega
    rw [hsum] at hsleep hlimit ⊢
    exact ih hlimit hsleep.2

/-- Some run shows that a sleep which is never cut short is one of full ticks whose deadline is not
zero. -/
theorem full_ticks_of_notCutShort (hrange : start + value / nsPerTick < 2 ^ 63)
    (hsleep : ∀ later, EachCall (watchSleep 0) noteSleep (NotCutShort 0 start value)
      (.sleep value :: later) true (twoThreads start)) :
    nsPerTick ∣ value ∧ 0 < start + value / nsPerTick := by
  have hpos : 0 < start + value / nsPerTick := by
    obtain ⟨t, hrun⟩ := ((hsleep []).1 rfl).1 ((twoThreads start).rest 0 value) rfl rfl
    change (ensure (wrap64 (start + value / nsPerTick) ≠ 0) >>= fun _ => _ : SchedM Unit).run _ =
      .ok () t at hrun
    obtain ⟨_, _, hcheck, -⟩ := bind_eq_ok.mp hrun
    have hne := (ensure_eq_ok hcheck).1
    rw [wrap64_of_lt (hrange.trans (by decide))] at hne
    exact Nat.pos_of_ne_zero hne
  refine ⟨?_, hpos⟩
  have hover : value ≤ value / nsPerTick * nsPerTick := by
    cases hticks : value / nsPerTick with
    | zero =>
      rw [hticks] at hpos hrange
      obtain ⟨t, hrun, hstate⟩ := sleep_due hrange hpos.ne' hticks
      obtain ⟨u, hu, hle⟩ := ((hsleep []).1 rfl).2 none t hrun (Or.inl hstate)
      cases hu
      rwa [show ((twoThreads start).rest 0 value).ticks = start from rfl, Nat.sub_self] at hle
    | succ n =>
      have hrun := sleep_twoThreads hrange (by omega)
      have hlater := hsleep (List.replicate (n + 1) .tick)
      rw [hticks] at hrun hrange
      rw [eachCall_cons_of_ok (watchSleep_run hrun)] at hlater
      have hle := le_of_ticks hrange hlater.2
      rwa [Nat.add_assoc, Nat.add_sub_cancel_left] at hle
  exact Nat.dvd_of_mod_eq_zero (by
    have := Nat.mod_add_div' value nsPerTick
    omega)

end Runs

/-- A thread that calls `Sleep` at the tick `start` in any state is never woken before the duration
is over and fails no assertion of `Schedule` by its sleep, over all later events, just when the
duration is a multiple of a tick and the deadline is not the tick zero. -/
theorem sleep_notCutShort_iff {start value : ℕ} (hrange : start + value / nsPerTick < 2 ^ 63) :
    (∀ s x later, Reach s → s.ticks = start → s.current = some x →
        EachCall (watchSleep x) noteSleep (NotCutShort x start value) (.sleep value :: later) true s) ↔
      nsPerTick ∣ value ∧ 0 < start + value / nsPerTick := by
  constructor
  · exact fun hclaim => full_ticks_of_notCutShort hrange fun later =>
      hclaim (twoThreads start) 0 later (reach_twoThreads start) rfl rfl
  · rintro ⟨hticks, hpos⟩ s x later - hstart hx
    exact notCutShort_of_full_ticks hrange hticks hpos.ne' hstart hx later

/-- A sleep of two ticks. -/
theorem sleep_notCutShort_two :
    EachCall (watchSleep 0) noteSleep (NotCutShort 0 5 20000000)
      [.sleep 20000000, .tick, .tick, .tick] true (twoThreads 5) :=
  (sleep_notCutShort_iff (by decide)).mpr ⟨by decide, by decide⟩ (twoThreads 5) 0
    [.tick, .tick, .tick] (reach_twoThreads 5) rfl rfl

/-- A sleep of fifteen milliseconds ends after one tick of ten. -/
theorem not_sleep_notCutShort :
    ¬ ∀ start value, start + value / nsPerTick < 2 ^ 63 →
      ∀ s x later, Reach s → s.ticks = start → s.current = some x →
        EachCall (watchSleep x) noteSleep (NotCutShort x start value) (.sleep value :: later) true
          s := by
  intro hclaim
  have hsleep := hclaim 5 15000000 (by decide) (twoThreads 5) 0 [.tick] (reach_twoThreads 5) rfl rfl
  have hle := le_of_ticks (n := 0) (by decide) hsleep.2
  exact absurd hle (by decide)

end Vsos.Sched
