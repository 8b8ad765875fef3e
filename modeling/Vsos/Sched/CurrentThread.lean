import Vsos.Sched.RoundRobin

/-!
# The two current threads

The processor's block points to the thread that runs, and so does the index of the scheduler. The
pointer is written at a switch alone, and the index at every execution of `Schedule`. Both lead to
the same thread once there has been a switch, since an execution that does not switch leaves the
index at the same thread. Before the first switch the pointer is null.
-/

namespace Vsos.Sched

open Vsos.Lib

/-- `Scheduler::GetThread`, which asserts that the pointer is not null. -/
def getThread : SchedM ℕ := do
  match ← look SchedState.cpuThread with
  | some t => return t
  | none => throw .fault

/-- `GetThread` and `GetCurrentThread` return the same thread. -/
def ThreadsAgree (s : SchedState) : Prop :=
  ∃ x, getThread.run s = .ok x s ∧ getCurrentThread.run s = .ok x s

/-- An event, and the thread at the index after it. -/
def observeCurrent (event : Event) : SchedM (Option ℕ) := do
  let _ ← performEvent event
  look SchedState.current

/-- The threads that have been at the index, the last one first. -/
def noteCurrent (ran : List (Option ℕ)) (_ : Event) (current : Option ℕ) : List (Option ℕ) :=
  current :: ran

variable {s t s₁ : SchedState} {event : Event} {boot c k next : ℕ} {ran : List (Option ℕ)}

/-- The processor and the scheduler name the same thread. -/
theorem threadsAgree_iff_eq :
    ThreadsAgree s ↔ ∃ x, s.cpuThread = some x ∧ s.current = some x := by
  constructor
  · rintro ⟨x, hcpu, hcurrent⟩
    refine ⟨x, ?_, (getCurrentThread_eq_ok hcurrent).1⟩
    rw [getThread, bind_look] at hcpu
    cases hthread : s.cpuThread with
    | none =>
      rw [hthread] at hcpu
      cases hcpu
    | some y =>
      rw [hthread] at hcpu
      cases hcpu
      rfl
  · rintro ⟨x, hcpu, hcurrent⟩
    refine ⟨x, ?_, getCurrentThread_run hcurrent⟩
    rw [getThread, bind_look, hcpu]
    rfl

/-- `Schedule` writes the pointer when it selects a thread with another identifier. -/
theorem ScheduleRun.cpuThread_eq (h : ScheduleRun s t c s₁ k next) :
    t.cpuThread = if (s.thread next).id = (s.thread c).id then s.cpuThread else some next := by
  have hcpu : (s₁.markReady c).cpuThread = s.cpuThread := by
    rw [SchedState.markReady]
    split <;> exact h.woken.cpuThread
  have hid : ((s₁.markReady c).thread next).id = (s.thread next).id := by
    have hself : (t.thread next).id = ((s₁.markReady c).thread next).id := by
      rw [h.final, runNext_self]
    rw [← hself, h.id_eq]
  rw [h.final, ← hcpu, ← hid]
  rfl

/-- The pointer is null as long as the boot thread has been the only one at the index, and leads
to the thread at the index from then on. -/
structure Tracks (boot : ℕ) (ran : List (Option ℕ)) (s : SchedState) : Prop where
  index_lt : s.threadIndex < s.threads.length
  ids : (s.threads.map fun y => (s.thread y).id).Nodup
  seen : s.current ∈ ran
  cpu : (s.cpuThread = none ∧ ∀ c ∈ ran, c = some boot) ∨
    (s.cpuThread = s.current ∧ ∃ c ∈ ran, c ≠ some boot)

section

variable (h : Tracks boot ran s)
include h

/-- There is a current thread. -/
theorem Tracks.exists_current : ∃ c, s.current = some c :=
  ⟨_, List.getElem?_eq_getElem h.index_lt⟩

/-- The two agree as soon as a thread other than the first one has run. -/
theorem Tracks.agree_iff :
    ThreadsAgree s ↔ ∃ c ∈ ran, c ≠ some boot := by
  rw [threadsAgree_iff_eq]
  obtain ⟨c, hc⟩ := h.exists_current
  obtain ⟨hnull, hboot⟩ | ⟨hcpu, hother⟩ := h.cpu
  · refine iff_of_false ?_ fun ⟨x, hx, hne⟩ => hne (hboot x hx)
    rintro ⟨x, hcpu, -⟩
    cases hnull.symm.trans hcpu
  · exact iff_of_true ⟨c, hcpu.trans hc, hc⟩ hother

/-- An event that leaves the index at its thread leaves the pointer alone. -/
theorem Tracks.same (hindex : t.threadIndex < t.threads.length)
    (hids : (t.threads.map fun y => (t.thread y).id).Nodup) (hcurrent : t.current = s.current)
    (hcpu : t.cpuThread = s.cpuThread) : Tracks boot (t.current :: ran) t where
  index_lt := hindex
  ids := hids
  seen := List.mem_cons_self
  cpu := by
    rw [hcurrent, hcpu]
    obtain ⟨hnull, hboot⟩ | ⟨heq, x, hx, hne⟩ := h.cpu
    · exact Or.inl ⟨hnull, List.forall_mem_cons.mpr ⟨hboot _ h.seen, hboot⟩⟩
    · exact Or.inr ⟨heq, x, List.mem_cons_of_mem _ hx, hne⟩

/-- `Schedule` switches to another thread, or stays at the same one. -/
theorem Tracks.schedule (hrun : ScheduleRun s t c s₁ k next) :
    Tracks boot (t.current :: ran) t := by
  have hindex : t.threadIndex < t.threads.length :=
    (List.getElem?_eq_some_iff.mp hrun.current_eq).1
  have hids : (t.threads.map fun y => (t.thread y).id).Nodup := by
    simp only [hrun.threads, hrun.id_eq]
    exact h.ids.sublist (List.filter_sublist.map _)
  have hnext : next ∈ s.threads := List.mem_of_mem_filter (List.mem_of_getElem? hrun.at_index)
  have hc : c ∈ s.threads := List.mem_of_getElem? hrun.current
  have hcpu := hrun.cpuThread_eq
  by_cases hid : (s.thread next).id = (s.thread c).id
  · have hsame : next = c := List.inj_on_of_nodup_map h.ids hnext hc hid
    rw [if_pos hid] at hcpu
    exact h.same hindex hids (by rw [hrun.current_eq, hrun.current, hsame]) hcpu
  · rw [if_neg hid] at hcpu
    refine ⟨hindex, hids, List.mem_cons_self, Or.inr ⟨hcpu.trans hrun.current_eq.symm, ?_⟩⟩
    -- one of the two threads of the switch is not the boot thread
    by_cases hboot : next = boot
    · refine ⟨some c, List.mem_cons_of_mem _ (hrun.current ▸ h.seen), fun heq => hid ?_⟩
      cases heq
      rw [hboot]
    · refine ⟨t.current, List.mem_cons_self, ?_⟩
      rw [hrun.current_eq]
      exact fun heq => hboot (Option.some.inj heq)

/-- Every event keeps track of the threads that ran. -/
theorem Tracks.perform {current : Option ℕ} (hrun : (observeCurrent event).run s = .ok current t) :
    Tracks boot (noteCurrent ran event current) t := by
  obtain ⟨r, _, hperform, hlook⟩ := bind_eq_ok.mp hrun
  cases hlook
  by_cases hruns : Schedules s event
  · obtain ⟨u, hu, hcpu, hschedule⟩ := schedules_eq_ok hruns hperform
    obtain ⟨c, s₁, k, next, hscheduled⟩ := schedule_eq_ok hschedule
    have hentered : Tracks boot ran u := by
      refine ⟨?_, ?_, hu.current_eq ▸ h.seen, hcpu.symm ▸ hu.current_eq.symm ▸ h.cpu⟩
      · rw [hu.threads, hu.threadIndex]
        exact h.index_lt
      · simp only [hu.threads, hu.ids]
        exact h.ids
    exact hentered.schedule hscheduled
  · by_cases hadd : ∃ x, event = .addReady x
    · obtain ⟨x, rfl⟩ := hadd
      obtain ⟨_, hready, rfl⟩ := bind_pure_eq_ok.mp hperform
      obtain ⟨hids, hthreads, hindex, hcurrent, hcpu⟩ := addReady_ids h.index_lt h.ids hready
      refine h.same ?_ hids hcurrent hcpu
      rw [hthreads, hindex, List.length_append]
      exact h.index_lt.trans_le (Nat.le_add_right ..)
    · obtain ⟨hthreads, hindex, hcpu, hids, -⟩ :=
        not_schedules_eq_ok hruns (fun x heq => hadd ⟨x, heq⟩) hperform
      refine h.same ?_ ?_ ?_ hcpu
      · rw [hthreads, hindex]
        exact h.index_lt
      · simp only [hthreads, hids]
        exact h.ids
      · rw [SchedState.current, hthreads, hindex]
        rfl

end

/-- In every state of every run, `GetThread` and `GetCurrentThread` return the same thread just
when a thread other than the boot thread has been at the index before or is so now. -/
theorem threadsAgree_iff (boot id ticks : ℕ) (thread : ℕ → KThread) (signal : ℕ → SignalObject)
    (deleted : ℕ → Bool) :
    ∃ s, (init boot id).run (construct ticks thread signal deleted) = .ok () s ∧
      ∀ events, EachCall observeCurrent noteCurrent
        (fun ran s _ => ThreadsAgree s ↔ ∃ c ∈ ran, c ≠ some boot) events [some boot] s := by
  refine ⟨_, rfl, fun events => ?_⟩
  refine EachCall.of_admissible (I := Tracks boot) ?_ ?_ ?_
    (EachCall.of_forall (fun _ _ _ => trivial) events _ _)
  · exact fun ran s event h _ => h.agree_iff
  · exact fun ran s event current t h _ hrun => h.perform hrun
  · exact ⟨Nat.zero_lt_one, List.nodup_singleton _, List.mem_cons_self,
      Or.inl ⟨rfl, fun _ hc => List.mem_singleton.mp hc⟩⟩

/-- The calls of the scheduler by its threads, and the assignment that enables it. -/
def Event.ofThread : Event → Bool
  | .addReady _ | .schedule | .sleep _ | .objectWait _ _ | .enable _ => true
  | _ => false

/-- With the boot thread alone, `Schedule` returns through the path without a switch, and the
pointer is still null. -/
theorem not_threadsAgree :
    ¬ ∀ (boot id ticks : ℕ) (thread : ℕ → KThread) (signal : ℕ → SignalObject)
      (deleted : ℕ → Bool) (s : SchedState),
      (init boot id).run (construct ticks thread signal deleted) = .ok () s →
      ∀ events : List Event, (∀ event ∈ events, event.ofThread = true) →
        EachCall observeCurrent noteCurrent (fun _ s _ => ThreadsAgree s) events [some boot] s := by
  intro hclaim
  have hagree := hclaim 0 1 0 (fun t => .construct (t + 1)) (fun _ => .predicate false)
    (fun _ => false) _ rfl [.enable true, .schedule, .schedule] (by decide)
  obtain ⟨x, hcpu, -⟩ := threadsAgree_iff_eq.mp hagree.2.2.1
  cases hcpu

end Vsos.Sched
