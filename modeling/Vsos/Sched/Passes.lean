import Vsos.Lib.Triple
import Vsos.Sched.Scheduler

/-!
# What an execution of `Schedule` does

The passes over the vector, each with the state it leaves: the threads that remain, the threads
that are woken, and the first ready thread behind the index. An execution that returns is cut
into them once, and every statement about `Schedule` starts from there.
-/

namespace Vsos.Sched

open Vsos.Lib

variable {signalled : Bool} {object : ℕ}

/-- The entry of the vector at the index of the scheduler. -/
def SchedState.current (s : SchedState) : Option ℕ := s.threads[s.threadIndex]?

/-- A thread remains in the vector unless it is terminated and not the current one. -/
def SchedState.Remains (s : SchedState) (currentId x : ℕ) : Prop :=
  ¬ ((s.thread x).state = .terminated ∧ (s.thread x).id ≠ currentId)

instance (s : SchedState) (currentId x : ℕ) : Decidable (s.Remains currentId x) :=
  inferInstanceAs (Decidable (¬ _))

/-- The vector after the first pass. -/
def SchedState.remaining (s : SchedState) (c : ℕ) : List ℕ :=
  s.threads.filter (s.Remains (s.thread c).id)

variable {s t : SchedState}

section Threads

variable {x y : ℕ} {g : KThread → KThread}

/-- Storing to a thread does not change the vector. -/
@[simp] theorem setThread_threads : (s.setThread x g).threads = s.threads := rfl

/-- The thread that is stored to. -/
@[simp] theorem setThread_self : (s.setThread x g).thread x = g (s.thread x) :=
  Function.update_self ..

/-- The other threads. -/
theorem setThread_of_ne (h : y ≠ x) : (s.setThread x g).thread y = s.thread y :=
  Function.update_of_ne h ..

/-- Storing to a thread. -/
theorem setThread_run (x : ℕ) (g : KThread → KThread) (s : SchedState) :
    (setThread x g).run s = .ok () (s.setThread x g) := rfl

/-- A change that keeps the identifier of its thread keeps all identifiers. -/
theorem setThread_id (h : (g (s.thread x)).id = (s.thread x).id) (y : ℕ) :
    ((s.setThread x g).thread y).id = (s.thread y).id := by
  by_cases hy : y = x
  · rw [hy, setThread_self, h]
  · rw [setThread_of_ne hy]

end Threads

section Passes

/-- The first pass drops the terminated threads except for the current one. -/
theorem purge_settles (currentId : ℕ) (l : List ℕ) (s : SchedState) :
    Settles (purge currentId l) s fun kept t => t = s ∧ kept = l.filter (s.Remains currentId) := by
  induction l with
  | nil => exact Settles.pure ⟨rfl, rfl⟩
  | cons x rest ih =>
    refine Settles.bind_look ?_
    by_cases hdrop : (s.thread x).state = .terminated ∧ (s.thread x).id ≠ currentId
    · rw [if_pos hdrop, List.filter_cons_of_neg (by simpa [SchedState.Remains] using hdrop)]
      have hdeleted : Settles (ensureDeleted (s.thread x).userThread) s fun _ t => t = s := by
        cases (s.thread x).userThread with
        | none => exact Settles.pure rfl
        | some user => exact Settles.bind_look (Settles.ensure fun _ => rfl)
      exact hdeleted.bind fun _ t ht => ht ▸ ih
    · have hremains : s.Remains currentId x := hdrop
      rw [if_neg hdrop, List.filter_cons_of_pos (by simpa using hremains)]
      refine ih.bind fun kept t ht => Settles.pure ?_
      obtain ⟨rfl, rfl⟩ := ht
      exact ⟨rfl, rfl⟩

/-- The second pass for one thread, which may find its object signalled. -/
def KThread.wake (now : ℕ) (signalled : Bool) (x : KThread) : KThread :=
  match x.state with
  | .sleeping =>
    if x.timeout ≤ now then { x with timeout := 0, state := .ready, waitStatus := .none } else x
  | .signalWait =>
    if x.timeout ≤ now then { x with timeout := 0, state := .ready, waitStatus := .timeout }
    else if signalled then
      { x with timeout := 0, signal := none, state := .ready, waitStatus := .signaled }
    else x
  | _ => x

/-- The second pass wakes threads of a list, and leaves the rest of the scheduler alone. -/
structure Woken (l : List ℕ) (s t : SchedState) : Prop where
  enabled : t.enabled = s.enabled
  threadIndex : t.threadIndex = s.threadIndex
  threads : t.threads = s.threads
  cpuThread : t.cpuThread = s.cpuThread
  ticks : t.ticks = s.ticks
  woken : ∀ x ∈ l, ∃ signalled, t.thread x = (s.thread x).wake s.ticks signalled
  others : ∀ x ∉ l, t.thread x = s.thread x

/-- A thread that was woken is not woken again. -/
theorem KThread.wake_wake (now : ℕ) (a b : Bool) (x : KThread) :
    ∃ signalled, (x.wake now a).wake now b = x.wake now signalled := by
  by_cases hsame : x.wake now a = x
  · exact ⟨b, by rw [hsame]⟩
  · have hready : (x.wake now a).state = .ready := by
      unfold KThread.wake at hsame ⊢
      grind
    exact ⟨a, by rw [KThread.wake, hready]⟩

/-- A thread stays as it is or becomes ready. -/
theorem KThread.wake_state (now : ℕ) (signalled : Bool) (x : KThread) :
    (x.wake now signalled).state = x.state ∨ (x.wake now signalled).state = .ready := by
  rw [KThread.wake]
  grind

/-- A thread keeps its number. -/
theorem KThread.wake_id (now : ℕ) (signalled : Bool) (x : KThread) :
    (x.wake now signalled).id = x.id := by
  rw [KThread.wake]
  grind

/-- Only the answer to a wait clears the pointer to its object. -/
theorem KThread.wake_signal {x : KThread} (hx : x.state ≠ .signalWait) {now : ℕ} :
    (x.wake now signalled).signal = x.signal := by
  rw [KThread.wake]
  grind

/-- The answer to a wait changes its object only. -/
theorem grant_ensures (x object : ℕ) (s : SchedState) :
    Ensures (grant x object) s (fun _ t => ∃ value, t =
      { s with signal := Function.update s.signal object value
               granted := (x, object) :: s.granted }) fun _ => True := by
  have hsame : Function.update s.signal object (s.signal object) = s.signal :=
    Function.update_eq_self ..
  refine Ensures.bind_change ?_
  refine Ensures.bind_look ?_
  cases hobject : s.signal object with
  | predicate value => exact Ensures.pure ⟨_, by rw [hsame]⟩
  | semaphore value => exact Ensures.bind_check (fun _ => Ensures.change ⟨_, rfl⟩) trivial
  | event manualReset state =>
    refine Ensures.bind_check (fun _ => ?_) trivial
    cases manualReset with
    | false => exact Ensures.change ⟨_, rfl⟩
    | true => exact Ensures.pure ⟨_, by rw [hsame]⟩

/-- One thread is woken. -/
theorem Woken.single {x : ℕ} {y : KThread} (hy : y = (s.thread x).wake s.ticks signalled)
    (signal : ℕ → SignalObject) (granted : List (ℕ × ℕ)) :
    Woken [x] s { s with thread := Function.update s.thread x y, signal, granted } where
  enabled := rfl
  threadIndex := rfl
  threads := rfl
  cpuThread := rfl
  ticks := rfl
  woken := by
    intro z hz
    rw [List.mem_singleton.mp hz]
    exact ⟨signalled, (Function.update_self ..).trans hy⟩
  others := fun z hz => Function.update_of_ne (fun heq => hz (List.mem_singleton.mpr heq)) ..

/-- Nothing happens to a thread that is not woken. -/
theorem Woken.unchanged {x : ℕ} (hx : s.thread x = (s.thread x).wake s.ticks signalled) :
    Woken [x] s s := by
  have hwoken := Woken.single hx s.signal s.granted
  rwa [Function.update_eq_self] at hwoken

/-- The threads are woken one after the other. -/
theorem Woken.trans {x : ℕ} {l : List ℕ} {u : SchedState} (h : Woken [x] s t) (hl : Woken l t u) :
    Woken (x :: l) s u where
  enabled := hl.enabled.trans h.enabled
  threadIndex := hl.threadIndex.trans h.threadIndex
  threads := hl.threads.trans h.threads
  cpuThread := hl.cpuThread.trans h.cpuThread
  ticks := hl.ticks.trans h.ticks
  woken := by
    intro y hy
    by_cases hyl : y ∈ l
    · obtain ⟨b, hlater⟩ := hl.woken y hyl
      rw [hlater, h.ticks]
      by_cases hyx : y = x
      · obtain ⟨a, hfirst⟩ := h.woken y (List.mem_singleton.mpr hyx)
        rw [hfirst]
        exact KThread.wake_wake s.ticks a b (s.thread y)
      · exact ⟨b, by rw [h.others y fun hmem => hyx (List.mem_singleton.mp hmem)]⟩
    · have hyx : y = x := (List.mem_cons.mp hy).resolve_right hyl
      rw [hl.others y hyl]
      exact h.woken y (List.mem_singleton.mpr hyx)
  others := by
    intro y hy
    rw [hl.others y fun hmem => hy (List.mem_cons_of_mem _ hmem),
      h.others y fun hmem => hy (List.mem_cons.mpr (Or.inl (List.mem_singleton.mp hmem)))]

/-- One step of the second pass. -/
theorem updateStatus_ensures (x : ℕ) (s : SchedState) :
    Ensures (updateStatus s.ticks x) s (fun _ t => Woken [x] s t) fun _ => True := by
  have hunchanged (h : s.thread x = (s.thread x).wake s.ticks false) :
      Ensures (pure () : SchedM Unit) s (fun _ t => Woken [x] s t) fun _ => True :=
    Ensures.pure (Woken.unchanged h)
  refine Ensures.bind_look ?_
  cases hstate : (s.thread x).state with
  | ready => exact hunchanged (by rw [KThread.wake, hstate])
  | running => exact hunchanged (by rw [KThread.wake, hstate])
  | terminated => exact hunchanged (by rw [KThread.wake, hstate])
  | sleeping =>
    have hwake : (s.thread x).wake s.ticks false = if (s.thread x).timeout ≤ s.ticks then
        { s.thread x with timeout := 0, state := .ready, waitStatus := .none } else s.thread x := by
      rw [KThread.wake, hstate]
    refine Ensures.bind_check (fun _ => ?_) trivial
    split
    · next hdue =>
      rw [if_pos hdue] at hwake
      refine Ensures.change ?_
      exact Woken.single hwake.symm s.signal s.granted
    · next hdue =>
      rw [if_neg hdue] at hwake
      exact hunchanged hwake.symm
  | signalWait =>
    have hwake (signalled : Bool) : (s.thread x).wake s.ticks signalled =
        if (s.thread x).timeout ≤ s.ticks then
          { s.thread x with timeout := 0, state := .ready, waitStatus := .timeout }
        else if signalled then
          { s.thread x with
            timeout := 0, signal := none, state := .ready, waitStatus := .signaled }
        else s.thread x := by
      rw [KThread.wake, hstate]
    cases (s.thread x).signal with
    | none => exact Ensures.throw trivial
    | some object =>
      simp only
      split
      · next hdue =>
        have htimeout := hwake false
        rw [if_pos hdue] at htimeout
        refine Ensures.change ?_
        exact Woken.single htimeout.symm s.signal s.granted
      next hdue =>
      refine Ensures.bind_look ?_
      split
      · have hsignalled := hwake true
        rw [if_neg hdue] at hsignalled
        refine Ensures.bind_change ((grant_ensures x object _).mono ?_ fun _ => id)
        rintro _ t ⟨value, rfl⟩
        exact Woken.single hsignalled.symm _ _
      · have hwaits := hwake false
        rw [if_neg hdue] at hwaits
        exact hunchanged hwaits.symm

/-- The second pass. -/
theorem updateStatuses_ensures (l : List ℕ) (s : SchedState) :
    Ensures (updateStatuses s.ticks l) s (fun _ t => Woken l s t) fun _ => True := by
  induction l generalizing s with
  | nil => exact Ensures.pure ⟨rfl, rfl, rfl, rfl, rfl, by simp, fun _ _ => rfl⟩
  | cons x rest ih =>
    refine (updateStatus_ensures x s).bind fun _ t ht => ?_
    rw [← ht.ticks]
    exact (ih t).mono (fun _ u hu => ht.trans hu) fun _ => id

end Passes

section Select

/-- A ready thread stands at the position. -/
def SchedState.ReadyAt (s : SchedState) (i : ℕ) : Prop :=
  ∃ x, s.threads[i]? = some x ∧ (s.thread x).state = .ready

/-- The thread at an index of the vector. -/
theorem threadAt_run {i x : ℕ} (h : s.threads[i]? = some x) : (threadAt i).run s = .ok x s := by
  rw [threadAt, bind_look, h]
  rfl

/-- One step of the search. -/
theorem selectLoop_succ {x : ℕ} (hx : s.threads[(s.threadIndex + 1) % s.threads.length]? = some x)
    (fuel : ℕ) :
    (selectLoop (fuel + 1)).run s =
      (if (s.thread x).state = .ready then pure () else selectLoop fuel).run
        { s with threadIndex := (s.threadIndex + 1) % s.threads.length } := by
  let s' : SchedState := { s with threadIndex := (s.threadIndex + 1) % s.threads.length }
  have hat : (threadAt s'.threadIndex).run s' = .ok x s' := threadAt_run hx
  rw [selectLoop, bind_change, bind_look, bind_of_ok hat,
    bind_look]

/-- A position counted from the next index. -/
theorem shift_mod (i j n : ℕ) : ((i + 1) % n + j + 1) % n = (i + (j + 1) + 1) % n := by
  rw [Nat.add_assoc, Nat.mod_add_mod]
  congr 1
  omega

/-- The search stops at the first ready thread behind the index. -/
theorem selectLoop_run {k fuel : ℕ} (hk : k < fuel)
    (hready : s.ReadyAt ((s.threadIndex + k + 1) % s.threads.length))
    (hfirst : ∀ j < k, ¬ s.ReadyAt ((s.threadIndex + j + 1) % s.threads.length)) :
    (selectLoop fuel).run s =
      .ok () { s with threadIndex := (s.threadIndex + k + 1) % s.threads.length } := by
  induction k generalizing s fuel with
  | zero =>
    obtain ⟨fuel, rfl⟩ := Nat.exists_eq_succ_of_ne_zero (Nat.ne_of_gt hk)
    obtain ⟨x, hx, hstate⟩ := hready
    rw [selectLoop_succ hx, if_pos hstate]
    rfl
  | succ k ih =>
    obtain ⟨fuel, rfl⟩ := Nat.exists_eq_succ_of_ne_zero (Nat.ne_of_gt (Nat.zero_lt_of_lt hk))
    obtain ⟨hlt, -⟩ := List.getElem?_eq_some_iff.mp hready.choose_spec.1
    have hne : (s.threadIndex + 1) % s.threads.length < s.threads.length :=
      Nat.mod_lt _ (Nat.zero_lt_of_lt hlt)
    have hx := List.getElem?_eq_getElem hne
    have hstate : ¬ (s.thread s.threads[(s.threadIndex + 1) % s.threads.length]).state = .ready :=
      fun hstate => hfirst 0 (Nat.succ_pos k) ⟨_, hx, hstate⟩
    rw [selectLoop_succ hx, if_neg hstate, ← shift_mod]
    refine ih (Nat.lt_of_succ_lt_succ hk) ?_ ?_
    · exact (shift_mod ..).symm ▸ hready
    · intro j hj
      exact (shift_mod ..).symm ▸ hfirst (j + 1) (Nat.succ_lt_succ hj)

/-- One round meets every position. -/
theorem exists_round (i : ℕ) {j n : ℕ} (hj : j < n) : ∃ k < n, (i + k + 1) % n = j := by
  have hn : 0 < n := Nat.zero_lt_of_lt hj
  refine ⟨(j + (n - (i + 1) % n)) % n, Nat.mod_lt _ hn, ?_⟩
  have hle := (Nat.mod_lt (i + 1) hn).le
  have hsum : i + 1 + (j + (n - (i + 1) % n)) = j + n * ((i + 1) / n + 1) := by
    have hdiv := Nat.div_add_mod (i + 1) n
    rw [Nat.mul_add]
    omega
  rw [Nat.add_right_comm, Nat.add_mod_mod, hsum, Nat.add_mul_mod_self_left, Nat.mod_eq_of_lt hj]

/-- An index that is read is in the vector. -/
theorem threadAt_eq_ok {i x : ℕ} (h : (threadAt i).run s = .ok x t) :
    s.threads[i]? = some x ∧ s = t := by
  rw [threadAt, bind_look] at h
  cases hx : s.threads[i]? with
  | none =>
    rw [hx] at h
    cases h
  | some y =>
    rw [hx] at h
    cases h
    exact ⟨rfl, rfl⟩

/-- A search that ends has found the first ready thread behind the index. -/
theorem selectLoop_eq_ok {fuel : ℕ} (hrun : (selectLoop fuel).run s = .ok () t) :
    ∃ k < fuel, s.ReadyAt ((s.threadIndex + k + 1) % s.threads.length) ∧
      (∀ j < k, ¬ s.ReadyAt ((s.threadIndex + j + 1) % s.threads.length)) ∧
      t = { s with threadIndex := (s.threadIndex + k + 1) % s.threads.length } := by
  induction fuel generalizing s with
  | zero => cases hrun
  | succ fuel ih =>
    let s' : SchedState := { s with threadIndex := (s.threadIndex + 1) % s.threads.length }
    have hstep : (threadAt s'.threadIndex >>= fun x => do
        if (← look fun s => (s.thread x).state) = .ready then return () else selectLoop fuel).run s' =
          .ok () t := hrun
    obtain ⟨x, _, hat, hrest⟩ := bind_eq_ok.mp hstep
    obtain ⟨hx, rfl⟩ := threadAt_eq_ok hat
    rw [bind_look] at hrest
    by_cases hready : (s.thread x).state = .ready
    · rw [if_pos hready] at hrest
      injection hrest with _ hend
      exact ⟨0, Nat.succ_pos fuel, ⟨x, hx, hready⟩, nofun, hend.symm⟩
    · rw [if_neg hready] at hrest
      obtain ⟨k, hk, hat, hfirst, rfl⟩ := ih hrest
      refine ⟨k + 1, Nat.succ_lt_succ hk, ?_, ?_, ?_⟩
      · exact shift_mod .. ▸ hat
      · intro j hj
        cases j with
        | zero =>
          rintro ⟨y, hy, hstate⟩
          cases hx.symm.trans hy
          exact hready hstate
        | succ j => exact shift_mod .. ▸ hfirst j (Nat.lt_of_succ_lt_succ hj)
      · rw [← shift_mod]

end Select

/-- The current thread. -/
theorem getCurrentThread_run {c : ℕ} (h : s.current = some c) :
    getCurrentThread.run s = .ok c s := by
  obtain ⟨hlt, -⟩ := List.getElem?_eq_some_iff.mp h
  rw [getCurrentThread, bind_look, bind_look,
    bind_ensure hlt, threadAt_run h]

/-- The current thread stops running if it has not blocked. -/
def SchedState.markReady (s : SchedState) (c : ℕ) : SchedState :=
  if (s.thread c).state = .running then s.setThread c fun x => { x with state := .ready } else s

/-- The vector stays. -/
@[simp] theorem markReady_threads {c : ℕ} : (s.markReady c).threads = s.threads := by
  rw [SchedState.markReady]
  split <;> rfl

/-- The index stays. -/
@[simp] theorem markReady_threadIndex {c : ℕ} : (s.markReady c).threadIndex = s.threadIndex := by
  rw [SchedState.markReady]
  split <;> rfl

/-- The time stays. -/
@[simp] theorem markReady_ticks {c : ℕ} : (s.markReady c).ticks = s.ticks := by
  rw [SchedState.markReady]
  split <;> rfl

/-- The signal objects stay. -/
theorem markReady_signal {c : ℕ} : (s.markReady c).signal = s.signal := by
  rw [SchedState.markReady]
  split <;> rfl

/-- The grants stay. -/
theorem markReady_granted {c : ℕ} : (s.markReady c).granted = s.granted := by
  rw [SchedState.markReady]
  split <;> rfl

/-- What is done to the thread that ran until now. -/
theorem markReady_run (c : ℕ) (s : SchedState) : (markReady c).run s = .ok () (s.markReady c) := by
  rw [markReady, bind_look, SchedState.markReady]
  split <;> rfl

/-- The next thread runs. -/
def SchedState.runNext (s : SchedState) (currentId next : ℕ) : SchedState :=
  { s.setThread next (fun x => { x with state := .running }) with
    cpuThread := if (s.thread next).id = currentId then s.cpuThread else some next }

/-- The next thread runs. -/
theorem runNext_self {currentId next : ℕ} :
    (s.runNext currentId next).thread next = { s.thread next with state := .running } :=
  Function.update_self ..

/-- The switch to the next thread. -/
theorem runNext_run {next : ℕ} (h : s.current = some next) (currentId : ℕ) :
    (runNext currentId).run s = .ok () (s.runNext currentId next) := by
  have hid : ((s.setThread next fun x => { x with state := .running }).thread next).id =
      (s.thread next).id := by rw [setThread_self]
  rw [runNext, bind_look, bind_of_ok (threadAt_run h), bind_of_ok (setThread_run _ _ s),
    bind_look, hid, SchedState.runNext]
  split <;> rfl

/-- An execution of `Schedule` with the current thread `c`: the state `s₁` after the second pass,
the number `k` of threads that are skipped, and the thread that runs next. -/
structure ScheduleRun (s t : SchedState) (c : ℕ) (s₁ : SchedState) (k next : ℕ) : Prop where
  enabled : s.enabled = true
  current : s.current = some c
  update : (updateStatuses s.ticks (s.remaining c)).run { s with threads := s.remaining c } =
    .ok () s₁
  round : k < (s.remaining c).length
  at_index : (s.remaining c)[(s.threadIndex + k + 1) % (s.remaining c).length]? = some next
  ready : ((s₁.markReady c).thread next).state = .ready
  first : ∀ j < k, ¬ (s₁.markReady c).ReadyAt ((s.threadIndex + j + 1) % (s.remaining c).length)
  final : t = { s₁.markReady c with
    threadIndex := (s.threadIndex + k + 1) % (s.remaining c).length }.runNext (s.thread c).id next

/-- There is a current thread where the call returns. -/
theorem getCurrentThread_eq_ok {c : ℕ} (h : getCurrentThread.run s = .ok c t) :
    s.current = some c ∧ s = t := by
  obtain ⟨_, _, hlook, hrest⟩ := bind_eq_ok.mp h
  cases hlook
  obtain ⟨_, _, hlook, hrest⟩ := bind_eq_ok.mp hrest
  cases hlook
  obtain ⟨-, hat⟩ := bind_ensure_eq_ok.mp hrest
  exact threadAt_eq_ok hat

/-- Every execution of `Schedule` that returns is of this form. -/
theorem schedule_eq_ok (hrun : schedule.run s = .ok () t) :
    ∃ c s₁ k next, ScheduleRun s t c s₁ k next := by
  obtain ⟨henabled, hrun⟩ := bind_ensure_eq_ok.mp hrun
  rw [bind_look] at hrun
  obtain ⟨c, _, hcurrent, hrun⟩ := bind_eq_ok.mp hrun
  obtain ⟨hc, hsame⟩ := getCurrentThread_eq_ok hcurrent
  subst hsame
  rw [bind_look, bind_look] at hrun
  obtain ⟨kept, _, hpurge, hrun⟩ := bind_eq_ok.mp hrun
  obtain ⟨hsame, rfl⟩ := (purge_settles _ _ _).of_ok hpurge
  rw [hsame, bind_change] at hrun
  obtain ⟨_, s₁, hupdate, hrun⟩ := bind_eq_ok.mp hrun
  have hwoken : Woken (s.remaining c) { s with threads := s.remaining c } s₁ :=
    (updateStatuses_ensures (s.remaining c) { s with threads := s.remaining c }).of_ok hupdate
  rw [bind_of_ok (markReady_run c s₁)] at hrun
  obtain ⟨_, _, hselect, hrun⟩ := bind_eq_ok.mp hrun
  obtain ⟨k, hk, ⟨next, hnext, hready⟩, hfirst, rfl⟩ := selectLoop_eq_ok hselect
  have hthreads : (s₁.markReady c).threads = s.remaining c := by
    rw [markReady_threads]
    exact hwoken.threads
  have hindex : (s₁.markReady c).threadIndex = s.threadIndex := by
    rw [markReady_threadIndex]
    exact hwoken.threadIndex
  rw [hthreads, hindex] at hnext hfirst hrun
  rw [runNext_run (show SchedState.current _ = some next from hthreads ▸ hnext)] at hrun
  cases hrun
  refine ⟨c, s₁, k, next, henabled, hc, hupdate, hk, hnext, hready, hfirst, ?_⟩
  simp only [hthreads]

/-- A thread that is ready or runs may start or stop to run; nothing else of it changes. -/
def KThread.Turned (x y : KThread) : Prop :=
  ∃ state, y = { x with state } ∧ (state = x.state ∨
    (x.state = .ready ∨ x.state = .running) ∧ (state = .ready ∨ state = .running))

/-- A thread that is as it was. -/
theorem KThread.Turned.refl (x : KThread) : x.Turned x := ⟨x.state, rfl, Or.inl rfl⟩

/-- The switch changes no blocked thread. -/
theorem KThread.Turned.of_blocked {x y : KThread} (h : x.Turned y) (hready : x.state ≠ .ready)
    (hrunning : x.state ≠ .running) : y = x := by
  obtain ⟨state, rfl, rfl | ⟨hstate, -⟩⟩ := h
  · rfl
  · exact absurd hstate (not_or.mpr ⟨hready, hrunning⟩)

/-- The thread that ran until now becomes ready. -/
theorem markReady_turned (s : SchedState) (c x : ℕ) :
    (s.thread x).Turned ((s.markReady c).thread x) := by
  rw [SchedState.markReady]
  split
  · next hrunning =>
    by_cases hx : x = c
    · rw [hx, setThread_self]
      exact ⟨.ready, rfl, Or.inr ⟨Or.inr hrunning, Or.inl rfl⟩⟩
    · rw [setThread_of_ne hx]
      exact KThread.Turned.refl _
  · exact KThread.Turned.refl _

/-- Two changes of the switch in a row. -/
theorem KThread.Turned.trans {x y z : KThread} (hxy : x.Turned y) (hyz : y.Turned z) :
    x.Turned z := by
  obtain ⟨state, rfl, hstate⟩ := hxy
  obtain ⟨state', rfl, hstate'⟩ := hyz
  refine ⟨state', rfl, ?_⟩
  grind

namespace ScheduleRun

variable {c k next x : ℕ} {s₁ : SchedState}

section

variable (h : ScheduleRun s t c s₁ k next)
include h

/-- The second pass wakes the threads that remain. -/
theorem woken :
    Woken (s.remaining c) { s with threads := s.remaining c } s₁ :=
  (updateStatuses_ensures (s.remaining c) { s with threads := s.remaining c }).of_ok h.update

/-- The time does not pass. -/
theorem ticks : t.ticks = s.ticks := by
  rw [h.final]
  change (s₁.markReady c).ticks = s.ticks
  rw [markReady_ticks]
  exact h.woken.ticks

/-- The terminated threads are dropped from the vector. -/
theorem threads : t.threads = s.remaining c := by
  rw [h.final]
  change (s₁.markReady c).threads = s.remaining c
  rw [markReady_threads]
  exact h.woken.threads

/-- What happens to a thread after the second pass. -/
theorem turned (x : ℕ) : (s₁.thread x).Turned (t.thread x) := by
  refine (markReady_turned s₁ c x).trans ?_
  rw [h.final]
  change ((s₁.markReady c).thread x).Turned (((s₁.markReady c).setThread next
    fun x => { x with state := .running }).thread x)
  by_cases hx : x = next
  · rw [hx, setThread_self]
    exact ⟨.running, rfl, Or.inr ⟨Or.inl h.ready, Or.inr rfl⟩⟩
  · rw [setThread_of_ne hx]
    exact KThread.Turned.refl _

/-- The selected thread is the current one. -/
theorem current_eq : t.current = some next := by
  have hindex : t.threadIndex = (s.threadIndex + k + 1) % (s.remaining c).length := by
    rw [h.final]
    rfl
  rw [SchedState.current, h.threads, hindex]
  exact h.at_index

/-- The selected thread runs. -/
theorem running : (t.thread next).state = .running := by
  rw [h.final, runNext_self]

/-- No thread blocks in `Schedule`. -/
theorem state (x : ℕ) :
    (t.thread x).state = (s.thread x).state ∨ (t.thread x).state = .ready ∨
      (t.thread x).state = .running := by
  have hwake : (s₁.thread x).state = (s.thread x).state ∨ (s₁.thread x).state = .ready := by
    by_cases hmem : x ∈ s.remaining c
    · obtain ⟨signalled, hwake⟩ := h.woken.woken x hmem
      rw [hwake]
      exact KThread.wake_state ..
    · rw [h.woken.others x hmem]
      exact Or.inl rfl
  obtain ⟨state, hfinal, hstate | ⟨-, hstate⟩⟩ := h.turned x
  · rw [hfinal, hstate]
    exact hwake.imp_right Or.inl
  · rw [hfinal]
    exact Or.inr hstate

end

end ScheduleRun

section Calls

/-- The check for a number that no thread has. -/
theorem ensureNew_settles (id : ℕ) (l : List ℕ) (s : SchedState) :
    Settles (ensureNew id l) s fun _ t => t = s ∧ ∀ x ∈ l, (s.thread x).id ≠ id := by
  induction l with
  | nil => exact Settles.pure ⟨rfl, by simp⟩
  | cons x rest ih =>
    refine Settles.bind_look (Settles.bind_ensure fun hx => ih.mono ?_)
    rintro _ t ⟨rfl, hrest⟩
    exact ⟨rfl, List.forall_mem_cons.mpr ⟨hx, hrest⟩⟩

/-- `AddReady` puts a ready thread with a new identifier at the end. -/
theorem addReady_eq_ok {x : ℕ} (hrun : (addReady x).run s = .ok () t) :
    (∀ y ∈ s.threads, ((s.setThread x fun thread => { thread with state := .ready }).thread y).id ≠
        (s.thread x).id) ∧
      t = { s.setThread x (fun thread => { thread with state := .ready }) with
        threads := s.threads ++ [x] } := by
  rw [addReady, bind_of_ok (setThread_run _ _ s), bind_look,
    bind_look] at hrun
  obtain ⟨_, _, hnew, hend⟩ := bind_eq_ok.mp hrun
  obtain ⟨rfl, hids⟩ := (ensureNew_settles _ _ _).of_ok hnew
  rw [setThread_self] at hids
  cases hend
  exact ⟨hids, rfl⟩

/-- A tick schedules if the scheduler is enabled. -/
theorem timerTick_eq_ok (hrun : timerTick.run s = .ok () t) :
    s.enabled = true ∧ schedule.run { s with ticks := wrap64 (s.ticks + 1) } = .ok () t ∨
      s.enabled = false ∧ t = { s with ticks := wrap64 (s.ticks + 1) } := by
  rw [timerTick, bind_change, bind_look] at hrun
  split at hrun
  · next henabled => exact Or.inl ⟨henabled, hrun⟩
  · next hdisabled =>
    cases hrun
    exact Or.inr ⟨Bool.eq_false_of_not_eq_true hdisabled, rfl⟩

/-- The thread `c` sleeps. -/
def SchedState.rest (s : SchedState) (c value : ℕ) : SchedState :=
  s.setThread c fun x =>
    { x with timeout := wrap64 (s.ticks + value / nsPerTick), state := .sleeping }

/-- `Sleep` schedules with the current thread asleep. -/
theorem sleep_eq_ok {value : ℕ} (hrun : (sleep value).run s = .ok () t) :
    ∃ c, s.current = some c ∧ schedule.run (s.rest c value) = .ok () t := by
  obtain ⟨c, _, hcurrent, hrun⟩ := bind_eq_ok.mp hrun
  obtain ⟨hc, hsame⟩ := getCurrentThread_eq_ok hcurrent
  subst hsame
  exact ⟨c, hc, hrun⟩

/-- The deadline of a wait that starts at the tick `now`. -/
def deadline (now timeout : ℕ) : ℕ :=
  wrap64 (now + wrap64 (timeout + (msPerTick - 1)) / msPerTick)

/-- The thread `c` waits for an object. -/
def SchedState.block (s : SchedState) (c object timeout : ℕ) : SchedState :=
  s.setThread c fun x =>
    { x with state := .signalWait, signal := some object, timeout := deadline s.ticks timeout }

/-- `ObjectWait` answers at once, or blocks its thread and schedules another one. -/
theorem objectWait_eq_ok {timeout : ℕ} {r : Option WaitStatus}
    (hrun : (objectWait object timeout).run s = .ok r t) :
    ∃ c, s.current = some c ∧ (s.thread c).state = .running ∧ (s.thread c).signal = none ∧
      ((s.signal object).isSignalled = true ∧ r = some .signaled ∧
          (grant c object).run s = .ok () t ∨
        (s.signal object).isSignalled = false ∧ r = none ∧
          schedule.run (s.block c object timeout) = .ok () t) := by
  obtain ⟨c, _, hcurrent, hrun⟩ := bind_eq_ok.mp hrun
  obtain ⟨hc, hsame⟩ := getCurrentThread_eq_ok hcurrent
  subst hsame
  obtain ⟨hrunning, hrun⟩ := bind_ensure_eq_ok.mp hrun
  obtain ⟨hnone, hrun⟩ := bind_ensure_eq_ok.mp hrun
  refine ⟨c, hc, hrunning, hnone, ?_⟩
  rw [bind_look] at hrun
  split at hrun
  · next hsignalled =>
    obtain ⟨_, hgrant, rfl⟩ := bind_pure_eq_ok.mp hrun
    exact Or.inl ⟨hsignalled, rfl, hgrant⟩
  · next hnot =>
    obtain ⟨_, hschedule, rfl⟩ := bind_pure_eq_ok.mp hrun
    exact Or.inr ⟨Bool.eq_false_of_not_eq_true hnot, rfl, hschedule⟩

/-- `KillThread` marks the thread as terminated. -/
theorem killThread_eq_ok {x : ℕ} (hrun : (killThread x).run s = .ok () t) :
    ∃ deleted, t = { s.setThread x (fun thread => { thread with state := .terminated }) with
      deleted } := by
  rw [killThread, bind_of_ok (setThread_run _ _ s), bind_look] at hrun
  split at hrun
  · cases hrun
    exact ⟨_, rfl⟩
  · cases hrun
    exact ⟨s.deleted, rfl⟩

/-- `Signal` increments a semaphore. -/
theorem semaphoreSignal_eq_ok (hrun : (semaphoreSignal object).run s = .ok () t) :
    ∃ value, s.signal object = .semaphore value ∧ t = { s with
      signal := Function.update s.signal object (.semaphore (Int.bmod (value + 1) (2 ^ 32))) } := by
  rw [semaphoreSignal, bind_look] at hrun
  cases hobject : s.signal object with
  | semaphore value =>
    rw [hobject] at hrun
    cases hrun
    exact ⟨value, rfl, rfl⟩
  | predicate value =>
    rw [hobject] at hrun
    cases hrun
  | event manualReset state =>
    rw [hobject] at hrun
    cases hrun

/-- `Set` and `Reset` store to an event. -/
theorem eventWrite_eq_ok {state : Bool} (hrun : (eventWrite object state).run s = .ok () t) :
    ∃ manualReset before, s.signal object = .event manualReset before ∧
      t = { s with signal := Function.update s.signal object (.event manualReset state) } := by
  rw [eventWrite, bind_look] at hrun
  cases hobject : s.signal object with
  | semaphore value =>
    rw [hobject] at hrun
    cases hrun
  | predicate value =>
    rw [hobject] at hrun
    cases hrun
  | event manualReset before =>
    rw [hobject] at hrun
    cases hrun
    exact ⟨manualReset, before, rfl, rfl⟩

end Calls

end Vsos.Sched
