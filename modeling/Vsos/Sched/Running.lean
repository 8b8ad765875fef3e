import Vsos.Lib.Runs
import Vsos.Sched.Passes

/-!
# One running thread

Along every run, no thread but the current one is in the state `Running`, and a thread stays in
the vector until it is killed. While `Schedule` is at work, the index may point behind the
threads that are left, so the invariant speaks of the current thread and not of the index. An
idle thread that never blocks is always ready or running, and the search for a ready thread ends
at it if not before.
-/

namespace Vsos.Sched

open Vsos.Lib

variable {event : Event} {c x : ℕ} {g : KThread → KThread}

/-- The threads that were added so far, and those that were killed. -/
structure History where
  added : List ℕ
  killed : List ℕ

def note (hist : History) : Event → Option WaitStatus → History
  | .addReady t, _ => { hist with added := t :: hist.added }
  | .killThread t, _ => { hist with killed := t :: hist.killed }
  | _, _ => hist

/-- The idle thread is not killed, and does nothing that blocks it. -/
def SparesIdle (idle : ℕ) (_ : History) (s : SchedState) : Event → Prop
  | .sleep _ => s.current ≠ some idle
  | .objectWait object _ => s.current = some idle → (s.signal object).isSignalled = true
  | .killThread t => t ≠ idle
  | _ => True

instance (idle : ℕ) (hist : History) (s : SchedState) :
    ∀ event, Decidable (SparesIdle idle hist s event)
  | .sleep _ => inferInstanceAs (Decidable (_ ≠ _))
  | .objectWait _ _ => inferInstanceAs (Decidable (_ → _))
  | .killThread _ => inferInstanceAs (Decidable (_ ≠ _))
  | .addReady _ | .tick | .schedule | .semaphoreSignal _ | .eventWrite _ _ | .signal _ _ | .enable _ =>
    isTrue trivial

/-- The event executes `Schedule`. -/
def Schedules (s : SchedState) : Event → Prop
  | .schedule => True
  | .sleep _ => True
  | .tick => s.enabled = true
  | .objectWait object _ => (s.signal object).isSignalled = false
  | _ => False

/-- The state in which an event executes `Schedule`, if it does. -/
def Event.scheduleFrom (s : SchedState) : Event → Option SchedState
  | .tick => if s.enabled then some { s with ticks := wrap64 (s.ticks + 1) } else none
  | .schedule => some s
  | .sleep value => s.current.map fun c => s.rest c value
  | .objectWait object timeout =>
    if (s.signal object).isSignalled then none else s.current.map fun c => s.block c object timeout
  | _ => none

/-- Up to `Schedule`, an event advances the time or blocks the current thread. -/
theorem eq_or_block_of_scheduleFrom {s u : SchedState} (hu : u ∈ event.scheduleFrom s) :
    u = { s with ticks := u.ticks } ∨ ∃ c g, s.current = some c ∧ u = s.setThread c g ∧
      (g (s.thread c)).id = (s.thread c).id ∧
      ((g (s.thread c)).state = .sleeping ∨ (g (s.thread c)).state = .signalWait) := by
  cases event with
  | tick =>
    rw [Event.scheduleFrom] at hu
    split at hu <;> cases hu
    exact Or.inl rfl
  | schedule =>
    cases hu
    exact Or.inl rfl
  | sleep value =>
    obtain ⟨c, hc, rfl⟩ := Option.map_eq_some_iff.mp hu
    exact Or.inr ⟨c, _, hc, rfl, rfl, Or.inl rfl⟩
  | objectWait object timeout =>
    rw [Event.scheduleFrom] at hu
    split at hu
    · cases hu
    · obtain ⟨c, hc, rfl⟩ := Option.map_eq_some_iff.mp hu
      exact Or.inr ⟨c, _, hc, rfl, rfl, Or.inr rfl⟩
  | _ => cases hu

/-- An event that returns has executed `Schedule`, or has added a thread, killed one or left the
threads alone. -/
theorem performEvent_eq_ok {s t : SchedState} {r : Option WaitStatus}
    (hrun : (performEvent event).run s = .ok r t) :
    (Schedules s event ∧ ∃ u ∈ event.scheduleFrom s, schedule.run u = .ok () t) ∨
      ¬ Schedules s event ∧ event.scheduleFrom s = none ∧
        ((∃ x, event = .addReady x ∧ (addReady x).run s = .ok () t) ∨
          (∃ x deleted, t = { s.setThread x (fun thread => { thread with state := .terminated }) with
            deleted }) ∨
          ∃ enabled ticks signal granted, t = { s with enabled, ticks, signal, granted }) := by
  cases event with
  | tick =>
    obtain ⟨_, htick, -⟩ := bind_pure_eq_ok.mp hrun
    obtain ⟨henabled, hschedule⟩ | ⟨hdisabled, rfl⟩ := timerTick_eq_ok htick
    · exact Or.inl ⟨henabled, _, if_pos henabled, hschedule⟩
    · rw [Schedules, Event.scheduleFrom, hdisabled]
      exact Or.inr ⟨nofun, rfl, Or.inr (Or.inr ⟨_, _, _, _, rfl⟩)⟩
  | schedule =>
    obtain ⟨_, hschedule, -⟩ := bind_pure_eq_ok.mp hrun
    exact Or.inl ⟨trivial, s, rfl, hschedule⟩
  | sleep value =>
    obtain ⟨_, hsleep, -⟩ := bind_pure_eq_ok.mp hrun
    obtain ⟨c, hc, hschedule⟩ := sleep_eq_ok hsleep
    exact Or.inl ⟨trivial, _, congrArg (Option.map _) hc, hschedule⟩
  | objectWait object timeout =>
    obtain ⟨c, hc, -, -, ⟨hsignalled, -, hgrant⟩ | ⟨hnot, -, hschedule⟩⟩ := objectWait_eq_ok hrun
    · obtain ⟨value, rfl⟩ := (grant_ensures c object s).of_ok hgrant
      rw [Schedules, Event.scheduleFrom, hsignalled]
      exact Or.inr ⟨nofun, rfl, Or.inr (Or.inr ⟨_, _, _, _, rfl⟩)⟩
    · rw [Schedules, Event.scheduleFrom, hnot, hc]
      exact Or.inl ⟨rfl, _, rfl, hschedule⟩
  | addReady x =>
    obtain ⟨_, hadd, -⟩ := bind_pure_eq_ok.mp hrun
    exact Or.inr ⟨id, rfl, Or.inl ⟨x, rfl, hadd⟩⟩
  | killThread x =>
    obtain ⟨_, hkill, -⟩ := bind_pure_eq_ok.mp hrun
    obtain ⟨deleted, rfl⟩ := killThread_eq_ok hkill
    exact Or.inr ⟨id, rfl, Or.inr (Or.inl ⟨x, deleted, rfl⟩)⟩
  | semaphoreSignal object =>
    obtain ⟨_, hsignal, -⟩ := bind_pure_eq_ok.mp hrun
    obtain ⟨value, -, rfl⟩ := semaphoreSignal_eq_ok hsignal
    exact Or.inr ⟨id, rfl, Or.inr (Or.inr ⟨_, _, _, _, rfl⟩)⟩
  | eventWrite object state =>
    obtain ⟨_, hwrite, -⟩ := bind_pure_eq_ok.mp hrun
    obtain ⟨manualReset, before, -, rfl⟩ := eventWrite_eq_ok hwrite
    exact Or.inr ⟨id, rfl, Or.inr (Or.inr ⟨_, _, _, _, rfl⟩)⟩
  | signal object value =>
    cases hrun
    exact Or.inr ⟨id, rfl, Or.inr (Or.inr ⟨_, _, _, _, rfl⟩)⟩
  | enable on =>
    cases hrun
    exact Or.inr ⟨id, rfl, Or.inr (Or.inr ⟨_, _, _, _, rfl⟩)⟩

/-- After `Schedule`: the thread at the index is the only one that runs, the identifiers are
distinct, and the threads that were added and not killed occur once each. -/
structure Scheduled (hist : History) (s : SchedState) : Prop where
  index_lt : s.threadIndex < s.threads.length
  running_iff : ∀ i t, s.threads[i]? = some t → ((s.thread t).state = .running ↔ i = s.threadIndex)
  ids : (s.threads.map fun t => (s.thread t).id).Nodup
  once : ∀ t ∈ hist.added, t ∉ hist.killed → s.threads.count t = 1

/-- No event runs for ever, and where it executes `Schedule`, it leaves the threads in order. -/
def KeepsOrder (hist : History) (s : SchedState) (event : Event) : Prop :=
  Settles (performEvent event) s fun r t => Schedules s event → Scheduled (note hist event r) t

/-- The threads at any time, with the one that may be running. -/
structure Sound (idle : ℕ) (hist : History) (current : Option ℕ) (s : SchedState) : Prop where
  ids : (s.threads.map fun t => (s.thread t).id).Nodup
  running : ∀ t ∈ s.threads, (s.thread t).state = .running → current = some t
  idle_mem : idle ∈ s.threads
  idle_state : (s.thread idle).state = .ready ∨ (s.thread idle).state = .running
  kept : ∀ t ∈ hist.added, t ∉ hist.killed →
    t ∈ s.threads ∧ (s.thread t).state ≠ .terminated

/-- The invariant between two events. -/
structure Inv (idle : ℕ) (hist : History) (s : SchedState) : Prop where
  index_lt : s.threadIndex < s.threads.length
  sound : Sound idle hist s.current s

variable {idle : ℕ} {hist : History} {current : Option ℕ} {s t : SchedState}

namespace Sound

/-- The rest of the state does not matter. -/
theorem congr (h : Sound idle hist current s) (hthreads : t.threads = s.threads)
    (hthread : t.thread = s.thread) : Sound idle hist current t where
  ids := by rw [hthreads, hthread]; exact h.ids
  running := by rw [hthreads, hthread]; exact h.running
  idle_mem := by rw [hthreads]; exact h.idle_mem
  idle_state := by rw [hthread]; exact h.idle_state
  kept := by rw [hthreads, hthread]; exact h.kept

/-- No thread stands in the vector twice. -/
theorem nodup (h : Sound idle hist current s) : s.threads.Nodup := h.ids.of_map

section

variable (h : Sound idle hist current s) (hid : (g (s.thread x)).id = (s.thread x).id)
include h hid

/-- One thread changes its state. -/
theorem setThread (hrunning : (g (s.thread x)).state = .running → current = some x)
    (hidle : x = idle → (g (s.thread x)).state = .ready ∨ (g (s.thread x)).state = .running)
    (hkept : x ∉ hist.killed → (g (s.thread x)).state ≠ .terminated) :
    Sound idle hist current (s.setThread x g) where
  ids := by
    simp only [setThread_threads, setThread_id hid]
    exact h.ids
  running := by
    intro y hy hstate
    by_cases hyx : y = x
    · rw [hyx, setThread_self] at hstate
      rw [hyx]
      exact hrunning hstate
    · rw [setThread_of_ne hyx] at hstate
      exact h.running y hy hstate
  idle_mem := h.idle_mem
  idle_state := by
    by_cases hx : idle = x
    · rw [hx, setThread_self]
      exact hidle hx.symm
    · rw [setThread_of_ne hx]
      exact h.idle_state
  kept := by
    intro y hadded hkilled
    obtain ⟨hmem, hstate⟩ := h.kept y hadded hkilled
    refine ⟨hmem, ?_⟩
    by_cases hyx : y = x
    · rw [hyx, setThread_self]
      exact hkept (hyx ▸ hkilled)
    · rw [setThread_of_ne hyx]
      exact hstate

/-- A thread becomes ready. -/
theorem wake (hready : (g (s.thread x)).state = .ready) :
    Sound idle hist current (s.setThread x g) := by
  refine h.setThread hid ?_ (fun _ => Or.inl hready) ?_
  · rw [hready]
    nofun
  · rw [hready]
    nofun

/-- A thread that is not the idle one blocks. -/
theorem block (hidle : x ≠ idle)
    (hstate : (g (s.thread x)).state = .sleeping ∨ (g (s.thread x)).state = .signalWait) :
    Sound idle hist current (s.setThread x g) := by
  refine h.setThread hid ?_ (fun hx => absurd hx hidle) ?_
  · rcases hstate with hstate | hstate <;> rw [hstate] <;> nofun
  · rcases hstate with hstate | hstate <;> rw [hstate] <;> nofun

end

/-- Without the current thread in the state `Running`, no thread is. -/
theorem calm (h : Sound idle hist (some c) s) (hstate : (s.thread c).state ≠ .running) :
    Sound idle hist none s where
  ids := h.ids
  running := by
    intro x hx hrunning
    cases h.running x hx hrunning
    exact absurd hrunning hstate
  idle_mem := h.idle_mem
  idle_state := h.idle_state
  kept := h.kept

/-- The next thread starts to run. -/
theorem run (h : Sound idle hist none s) (x : ℕ) :
    Sound idle hist (some x) (s.setThread x fun thread => { thread with state := .running }) := by
  have hcurrent : Sound idle hist (some x) s :=
    ⟨h.ids, fun y hy hrunning => (nomatch h.running y hy hrunning), h.idle_mem, h.idle_state, h.kept⟩
  exact hcurrent.setThread rfl (fun _ => rfl) (fun _ => Or.inr rfl) nofun

/-- The threads that are not dropped. -/
theorem purge (h : Sound idle hist current s) (currentId : ℕ) :
    Sound idle hist current { s with threads := s.threads.filter (s.Remains currentId) } where
  ids := h.ids.sublist (List.filter_sublist.map _)
  running := fun x hx => h.running x (List.mem_of_mem_filter hx)
  idle_mem := by
    have hstate : (s.thread idle).state ≠ .terminated := by
      rcases h.idle_state with hstate | hstate <;> rw [hstate] <;> nofun
    simp [h.idle_mem, SchedState.Remains, hstate]
  idle_state := h.idle_state
  kept := by
    intro x hadded hkilled
    obtain ⟨hmem, hstate⟩ := h.kept x hadded hkilled
    exact ⟨by simp [hmem, SchedState.Remains, hstate], hstate⟩

end Sound

section Passes

/-- The answer to a wait leaves the threads alone. -/
theorem grant_settles (x object : ℕ) (s : SchedState) :
    Settles (grant x object) s fun _ t =>
      t.thread = s.thread ∧ t.threads = s.threads ∧ t.threadIndex = s.threadIndex := by
  refine Settles.bind_change ?_
  refine Settles.bind_look ?_
  cases s.signal object with
  | predicate value => exact Settles.pure ⟨rfl, rfl, rfl⟩
  | semaphore value => exact Settles.bind_ensure fun _ => Settles.change ⟨rfl, rfl, rfl⟩
  | event manualReset state =>
    refine Settles.bind_ensure fun _ => ?_
    cases manualReset with
    | false => exact Settles.change ⟨rfl, rfl, rfl⟩
    | true => exact Settles.pure ⟨rfl, rfl, rfl⟩

/-- The second pass wakes one thread or leaves it alone. -/
theorem Sound.updateStatus_settles (h : Sound idle hist current s) (tsc x : ℕ) :
    Settles (updateStatus tsc x) s fun _ t =>
      Sound idle hist current t ∧ t.threads = s.threads ∧ t.threadIndex = s.threadIndex := by
  refine Settles.bind_look ?_
  cases (s.thread x).state with
  | ready => exact Settles.pure ⟨h, rfl, rfl⟩
  | running => exact Settles.pure ⟨h, rfl, rfl⟩
  | terminated => exact Settles.pure ⟨h, rfl, rfl⟩
  | sleeping =>
    refine Settles.bind_ensure fun _ => ?_
    split
    · exact Settles.change ⟨h.wake rfl rfl, rfl, rfl⟩
    · exact Settles.pure ⟨h, rfl, rfl⟩
  | signalWait =>
    cases (s.thread x).signal with
    | none => exact Settles.fault
    | some object =>
      simp only
      split
      · exact Settles.change ⟨h.wake rfl rfl, rfl, rfl⟩
      refine Settles.bind_look ?_
      split
      · refine Settles.bind_change ((grant_settles x object _).mono ?_)
        rintro _ t ⟨hthread, hthreads, hindex⟩
        exact ⟨Sound.congr (h.wake rfl rfl) hthreads hthread, hthreads, hindex⟩
      · exact Settles.pure ⟨h, rfl, rfl⟩

/-- The second pass keeps the threads sound. -/
theorem Sound.updateStatuses_settles (h : Sound idle hist current s) (tsc : ℕ) (l : List ℕ) :
    Settles (updateStatuses tsc l) s fun _ t =>
      Sound idle hist current t ∧ t.threads = s.threads ∧ t.threadIndex = s.threadIndex := by
  induction l generalizing s with
  | nil => exact Settles.pure ⟨h, rfl, rfl⟩
  | cons x rest ih =>
    refine (h.updateStatus_settles tsc x).bind fun _ t ht => (ih ht.1).mono ?_
    rintro _ u ⟨hu, hthreads, hindex⟩
    exact ⟨hu, hthreads.trans ht.2.1, hindex.trans ht.2.2⟩

end Passes

section Select

/-- Without a running thread, the idle thread ends the search within one round. -/
theorem Sound.selectLoop_run (h : Sound idle hist none s) :
    ∃ i x, s.threads[i]? = some x ∧ ∀ fuel ≥ s.threads.length,
      (selectLoop fuel).run s = .ok () { s with threadIndex := i } := by
  classical
  have hidle : (s.thread idle).state = .ready :=
    h.idle_state.resolve_right fun hrunning => nomatch h.running idle h.idle_mem hrunning
  obtain ⟨j, hj⟩ := List.mem_iff_getElem?.mp h.idle_mem
  obtain ⟨hlt, -⟩ := List.getElem?_eq_some_iff.mp hj
  have hexists : ∃ k, s.ReadyAt ((s.threadIndex + k + 1) % s.threads.length) := by
    obtain ⟨k, -, hk⟩ := exists_round s.threadIndex hlt
    exact ⟨k, idle, hk ▸ hj, hidle⟩
  have hround : Nat.find hexists < s.threads.length := by
    obtain ⟨k, hk, hjk⟩ := exists_round s.threadIndex hlt
    exact (Nat.find_min' hexists ⟨idle, hjk ▸ hj, hidle⟩).trans_lt hk
  obtain ⟨x, hx, -⟩ := Nat.find_spec hexists
  exact ⟨_, x, hx, fun fuel hfuel => Sched.selectLoop_run (hround.trans_le hfuel)
    (Nat.find_spec hexists) fun j hj => Nat.find_min hexists hj⟩

/-- The third pass ends at a thread of the vector. -/
theorem Sound.selectLoop_settles (h : Sound idle hist none s) :
    Settles (selectLoop s.threads.length) s fun _ t =>
      ∃ i x, t = { s with threadIndex := i } ∧ s.threads[i]? = some x := by
  obtain ⟨i, x, hx, hrun⟩ := h.selectLoop_run
  exact Settles.of_run (hrun _ le_rfl) ⟨i, x, rfl, hx⟩

end Select

section Events

/-- The invariant depends on the vector, the index and the threads. -/
theorem Inv.congr (h : Inv idle hist s) (hthreads : t.threads = s.threads)
    (hindex : t.threadIndex = s.threadIndex) (hthread : t.thread = s.thread) : Inv idle hist t where
  index_lt := by rw [hthreads, hindex]; exact h.index_lt
  sound := by
    have hcurrent : t.current = s.current := by rw [SchedState.current, hthreads, hindex]; rfl
    exact hcurrent ▸ h.sound.congr hthreads hthread

/-- There is a current thread. -/
theorem Inv.exists_current (h : Inv idle hist s) : ∃ c, s.current = some c :=
  ⟨_, List.getElem?_eq_getElem h.index_lt⟩

/-- The call returns the current thread. -/
theorem getCurrentThread_settles (h : s.current = some c) :
    Settles getCurrentThread s fun x t => x = c ∧ t = s :=
  Settles.of_run (getCurrentThread_run h) ⟨rfl, rfl⟩

/-- The current thread stops running, whatever state it is in. -/
theorem Sound.markReady_settles (h : Sound idle hist (some c) s) :
    Settles (markReady c) s fun _ t => Sound idle hist none t ∧ t.threads = s.threads := by
  refine Settles.bind_look ?_
  split
  · have hready : ((s.setThread c fun x => { x with state := .ready }).thread c).state ≠ .running := by
      rw [setThread_self]
      nofun
    exact Settles.change ⟨(h.wake rfl rfl).calm hready, rfl⟩
  · next hstate => exact Settles.pure ⟨h.calm hstate, rfl⟩

/-- After the switch the selected thread runs. -/
theorem Sound.runNext_settles (h : Sound idle hist none s) {next : ℕ} (hnext : s.current = some next)
    (currentId : ℕ) :
    Settles (runNext currentId) s fun _ t =>
      Inv idle hist t ∧ t.current = some next ∧ (t.thread next).state = .running := by
  obtain ⟨hlt, -⟩ := List.getElem?_eq_some_iff.mp hnext
  have hat : Settles (threadAt s.threadIndex) s fun x t => x = next ∧ t = s :=
    Settles.of_run (threadAt_run hnext) ⟨rfl, rfl⟩
  have hsound := h.run next
  rw [← hnext] at hsound
  refine Settles.bind_look (hat.bind ?_)
  rintro _ _ ⟨rfl, rfl⟩
  refine Settles.bind_change (Settles.bind_look ?_)
  split
  · exact Settles.pure ⟨⟨hlt, hsound⟩, hnext, by simp⟩
  · exact Settles.change ⟨⟨hlt, hsound.congr rfl rfl⟩, hnext, by simp⟩

/-- The threads are in order when the current one runs. -/
theorem Inv.scheduled (h : Inv idle hist s) {next : ℕ} (hnext : s.current = some next)
    (hrunning : (s.thread next).state = .running) : Scheduled hist s where
  index_lt := h.index_lt
  running_iff := by
    intro i x hx
    constructor
    · intro hstate
      have hcurrent := h.sound.running x (List.mem_of_getElem? hx) hstate
      obtain ⟨hlt, -⟩ := List.getElem?_eq_some_iff.mp hx
      exact (List.getElem?_inj hlt h.sound.nodup).mp (hx.trans hcurrent.symm)
    · rintro rfl
      cases hx.symm.trans hnext
      exact hrunning
  ids := h.sound.ids
  once := fun x hadded hkilled =>
    List.count_eq_one_of_mem h.sound.nodup (h.sound.kept x hadded hkilled).1

/-- `Schedule` up to the search for the next thread: the identifier of the current thread and the
vector that is searched. -/
def beforeSelection : SchedM (ℕ × List ℕ) := do
  ensure ((← look SchedState.enabled) = true)
  let tsc ← look SchedState.ticks
  let current ← getCurrentThread
  let currentId ← look fun s => (s.thread current).id
  let kept ← purge currentId (← look SchedState.threads)
  change fun s => { s with threads := kept }
  updateStatuses tsc kept
  markReady current
  return (currentId, kept)

/-- `Schedule` is what comes before the selection, the selection and the switch. -/
theorem schedule_eq_bind :
    schedule = beforeSelection >>= fun r => selectLoop r.2.length >>= fun _ => runNext r.1 := by
  simp only [schedule, beforeSelection, bind_assoc, pure_bind]

/-- The search starts without a running thread. -/
theorem Inv.beforeSelection_settles (h : Inv idle hist s) :
    Settles beforeSelection s fun r t => Sound idle hist none t ∧ t.threads = r.2 := by
  obtain ⟨c, hc⟩ := h.exists_current
  have hsound := (hc ▸ h.sound).purge (s.thread c).id
  refine Settles.bind_look (Settles.bind_ensure fun _ => Settles.bind_look ?_)
  refine (getCurrentThread_settles hc).bind ?_
  rintro _ _ ⟨rfl, rfl⟩
  refine Settles.bind_look (Settles.bind_look ((purge_settles _ _ _).bind ?_))
  rintro kept _ ⟨rfl, hkept⟩
  rw [← hkept] at hsound
  refine Settles.bind_change ((hsound.updateStatuses_settles _ _).bind ?_)
  rintro _ s₁ ⟨hsound₁, hthreads₁, -⟩
  refine hsound₁.markReady_settles.bind ?_
  rintro _ s₂ ⟨hsound₂, hthreads₂⟩
  exact Settles.pure ⟨hsound₂, hthreads₂.trans hthreads₁⟩

/-- `Schedule` ends with the threads in order, or at a failed check. -/
theorem Inv.schedule_settles (h : Inv idle hist s) :
    Settles schedule s fun _ t => Inv idle hist t ∧ Scheduled hist t := by
  rw [schedule_eq_bind]
  refine h.beforeSelection_settles.bind ?_
  rintro ⟨currentId, kept⟩ s₁ ⟨hsound₁, rfl⟩
  refine hsound₁.selectLoop_settles.bind ?_
  rintro _ _ ⟨i, next, rfl, hnext⟩
  have hsound₂ : Sound idle hist none { s₁ with threadIndex := i } := hsound₁.congr rfl rfl
  refine (hsound₂.runNext_settles hnext _).mono ?_
  rintro _ t ⟨hinv, hcurrent, hrunning⟩
  exact ⟨hinv, hinv.scheduled hcurrent hrunning⟩

/-- A ready thread with a new identifier joins the others. -/
theorem Sound.push (h : Sound idle hist current s) (hready : (s.thread x).state = .ready)
    (hnew : ∀ y ∈ s.threads, (s.thread y).id ≠ (s.thread x).id) :
    Sound idle { hist with added := x :: hist.added } current
      { s with threads := s.threads ++ [x] } where
  ids := by
    rw [List.map_append, List.map_singleton, List.nodup_append']
    refine ⟨h.ids, List.nodup_singleton _, ?_⟩
    rw [List.disjoint_singleton, List.mem_map]
    exact fun hmem => hnew _ hmem.choose_spec.1 hmem.choose_spec.2
  running := by
    intro y hy hrunning
    rcases List.mem_append.mp hy with hy | hy
    · exact h.running y hy hrunning
    · rw [List.mem_singleton.mp hy, hready] at hrunning
      cases hrunning
  idle_mem := List.mem_append_left _ h.idle_mem
  idle_state := h.idle_state
  kept := by
    intro y hadded hkilled
    rcases List.mem_cons.mp hadded with rfl | hadded
    · refine ⟨List.mem_append_right _ List.mem_cons_self, ?_⟩
      rw [hready]
      nofun
    · obtain ⟨hmem, hstate⟩ := h.kept y hadded hkilled
      exact ⟨List.mem_append_left _ hmem, hstate⟩

section

variable (h : Inv idle hist s)
include h

/-- `AddReady` keeps the invariant. -/
theorem Inv.addReady_settles (x : ℕ) :
    Settles (addReady x) s fun _ t => Inv idle { hist with added := x :: hist.added } t := by
  have hsound : Sound idle hist s.current (s.setThread x fun thread => { thread with state := .ready }) :=
    h.sound.wake rfl rfl
  refine Settles.bind_change (Settles.bind_look (Settles.bind_look ((ensureNew_settles _ _ _).bind ?_)))
  rintro _ _ ⟨rfl, hnew⟩
  have hpush := hsound.push (by simp) hnew
  have hcurrent : s.current = (s.threads ++ [x])[s.threadIndex]? :=
    (List.getElem?_append_left h.index_lt).symm
  rw [hcurrent] at hpush
  refine Settles.change ⟨?_, hpush⟩
  rw [List.length_append]
  exact h.index_lt.trans_le (Nat.le_add_right _ _)

/-- A killed thread is not kept. -/
theorem Inv.killThread_settles (hx : x ≠ idle) :
    Settles (killThread x) s fun _ t => Inv idle { hist with killed := x :: hist.killed } t := by
  have hfewer : Sound idle { hist with killed := x :: hist.killed } s.current s :=
    { h.sound with
      kept := fun y hadded hkilled =>
        h.sound.kept y hadded fun hy => hkilled (List.mem_cons_of_mem _ hy) }
  have hsound : Sound idle { hist with killed := x :: hist.killed } s.current
      (s.setThread x fun thread => { thread with state := .terminated }) :=
    hfewer.setThread rfl nofun (fun hidle => absurd hidle hx)
      fun hkilled => absurd List.mem_cons_self hkilled
  refine Settles.bind_change (Settles.bind_look ?_)
  cases ((s.setThread x fun thread => { thread with state := .terminated }).thread x).userThread with
  | none => exact Settles.pure ⟨h.index_lt, hsound⟩
  | some user => exact Settles.change ⟨h.index_lt, hsound.congr rfl rfl⟩

/-- The current thread blocks, and another one is scheduled. -/
theorem Inv.block_settles (hidle : c ≠ idle) (hid : (g (s.thread c)).id = (s.thread c).id)
    (hstate : (g (s.thread c)).state = .sleeping ∨ (g (s.thread c)).state = .signalWait) :
    Settles schedule (s.setThread c g) fun _ t => Inv idle hist t ∧ Scheduled hist t := by
  have hblocked : Inv idle hist (s.setThread c g) := ⟨h.index_lt, h.sound.block hid hidle hstate⟩
  exact hblocked.schedule_settles

/-- `Sleep` keeps the invariant. -/
theorem Inv.sleep_settles (hc : s.current = some c) (hidle : c ≠ idle) (value : ℕ) :
    Settles (sleep value) s fun _ t => Inv idle hist t ∧ Scheduled hist t := by
  refine (getCurrentThread_settles hc).bind ?_
  rintro _ _ ⟨rfl, rfl⟩
  exact Settles.bind_look (Settles.bind_change (h.block_settles hidle rfl (Or.inl rfl)))

/-- Only a thread that has to wait blocks. -/
theorem Inv.objectWait_settles {object timeout : ℕ} (hc : s.current = some c)
    (hidle : c = idle → (s.signal object).isSignalled = true) :
    Settles (objectWait object timeout) s fun _ t =>
      Inv idle hist t ∧ ((s.signal object).isSignalled = false → Scheduled hist t) := by
  refine (getCurrentThread_settles hc).bind ?_
  rintro _ _ ⟨rfl, rfl⟩
  refine Settles.bind_look (Settles.bind_ensure fun _ => Settles.bind_look
    (Settles.bind_ensure fun _ => Settles.bind_look ?_))
  split
  · next hsignalled =>
    refine (grant_settles _ object _).bind ?_
    rintro _ t ⟨hthread, hthreads, hindex⟩
    refine Settles.pure ⟨h.congr hthreads hindex hthread, fun hnot => ?_⟩
    rw [hsignalled] at hnot
    cases hnot
  · next hnot =>
    refine Settles.bind_look (Settles.bind_change ?_)
    refine (h.block_settles (fun hc => hnot (hidle hc)) rfl (Or.inr rfl)).bind ?_
    exact fun _ t ht => Settles.pure ⟨ht.1, fun _ => ht.2⟩

/-- A tick keeps the invariant. -/
theorem Inv.timerTick_settles :
    Settles timerTick s fun _ t => Inv idle hist t ∧ (s.enabled = true → Scheduled hist t) := by
  have hlater : Inv idle hist { s with ticks := wrap64 (s.ticks + 1) } := h.congr rfl rfl rfl
  refine Settles.bind_change (Settles.bind_look ?_)
  split
  · exact hlater.schedule_settles.mono fun _ t ht => ⟨ht.1, fun _ => ht.2⟩
  · next hdisabled => exact Settles.pure ⟨hlater, fun henabled => absurd henabled hdisabled⟩

/-- `Signal` keeps the invariant. -/
theorem Inv.semaphoreSignal_settles (object : ℕ) :
    Settles (semaphoreSignal object) s fun _ t => Inv idle hist t := by
  refine Settles.bind_look ?_
  cases s.signal object with
  | predicate value => exact Settles.fault
  | semaphore value => exact Settles.change (h.congr rfl rfl rfl)
  | event manualReset state => exact Settles.fault

/-- `Set` and `Reset` keep the invariant. -/
theorem Inv.eventWrite_settles (object : ℕ) (state : Bool) :
    Settles (eventWrite object state) s fun _ t => Inv idle hist t := by
  refine Settles.bind_look ?_
  cases s.signal object with
  | predicate value => exact Settles.fault
  | semaphore value => exact Settles.fault
  | event manualReset state => exact Settles.change (h.congr rfl rfl rfl)

/-- What one event does. -/
theorem Inv.perform_settles (hspares : SparesIdle idle hist s event) :
    Settles (performEvent event) s fun r t =>
      Inv idle (note hist event r) t ∧ (Schedules s event → Scheduled (note hist event r) t) := by
  cases event with
  | addReady x =>
    exact (h.addReady_settles x).bind fun _ t ht => Settles.pure ⟨ht, nofun⟩
  | tick => exact h.timerTick_settles.bind fun _ t ht => Settles.pure ht
  | schedule =>
    exact h.schedule_settles.bind fun _ t ht => Settles.pure ⟨ht.1, fun _ => ht.2⟩
  | sleep value =>
    obtain ⟨c, hc⟩ := h.exists_current
    have hidle : c ≠ idle := fun hidle => hspares (hidle ▸ hc)
    exact (h.sleep_settles hc hidle value).bind fun _ t ht => Settles.pure ⟨ht.1, fun _ => ht.2⟩
  | objectWait object timeout =>
    obtain ⟨c, hc⟩ := h.exists_current
    exact h.objectWait_settles hc fun hidle => hspares (hidle ▸ hc)
  | killThread x =>
    exact (h.killThread_settles hspares).bind fun _ t ht => Settles.pure ⟨ht, nofun⟩
  | semaphoreSignal object =>
    exact (h.semaphoreSignal_settles object).bind fun _ t ht => Settles.pure ⟨ht, nofun⟩
  | eventWrite object state =>
    exact (h.eventWrite_settles object state).bind fun _ t ht => Settles.pure ⟨ht, nofun⟩
  | signal object value =>
    exact Settles.bind_change (Settles.pure ⟨h.congr rfl rfl rfl, nofun⟩)
  | enable on =>
    exact Settles.bind_change (Settles.pure ⟨h.congr rfl rfl rfl, nofun⟩)

end

end Events

/-- A run starts with the boot thread and the idle thread. -/
def start (boot id idle : ℕ) : SchedM Unit := do
  init boot id
  addReady idle

/-- The boot thread runs, and the idle thread is ready. -/
theorem start_settles (boot id idle ticks : ℕ) (thread : ℕ → KThread) (signal : ℕ → SignalObject)
    (deleted : ℕ → Bool) :
    Settles (start boot id idle) (construct ticks thread signal deleted) fun _ t =>
      Inv idle ⟨[idle, boot], []⟩ t := by
  let s₁ := (construct ticks thread signal deleted).setThread boot fun _ =>
    { KThread.construct id with state := .running }
  let s₂ := { s₁ with threads := [boot] }.setThread idle fun x => { x with state := .ready }
  refine Settles.bind_change (Settles.bind_change (Settles.bind_look (Settles.bind_look ?_)))
  refine (ensureNew_settles (s₂.thread idle).id [boot] s₂).bind ?_
  rintro _ _ ⟨rfl, hnew⟩
  have hids := hnew boot List.mem_cons_self
  have hne : boot ≠ idle := fun heq => hids (heq ▸ rfl)
  have hboot : (s₂.thread boot).state = .running := by
    have hself : s₁.thread boot = { KThread.construct id with state := .running } := setThread_self
    rw [setThread_of_ne hne, hself]
  have hidle : (s₂.thread idle).state = .ready := by rw [setThread_self]
  refine Settles.change ⟨Nat.zero_lt_succ 1, ?_, ?_, ?_, Or.inl hidle, ?_⟩
  · change [(s₂.thread boot).id, (s₂.thread idle).id].Nodup
    simpa using hids
  · intro x hx hrunning
    rcases List.mem_pair.mp hx with rfl | rfl
    · rfl
    · cases hidle.symm.trans hrunning
  · exact List.mem_cons_of_mem _ List.mem_cons_self
  · intro x hadded _
    rcases List.mem_pair.mp hadded with rfl | rfl
    · refine ⟨List.mem_cons_of_mem _ List.mem_cons_self, fun hstate => ?_⟩
      cases hidle.symm.trans hstate
    · refine ⟨List.mem_cons_self, fun hstate => ?_⟩
      cases hboot.symm.trans hstate

end Vsos.Sched
