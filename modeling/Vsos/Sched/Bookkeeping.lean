import Vsos.Sched.Waits

/-!
# The object that a thread waits for

A thread should point to an object just while it waits for it. `ObjectWait` sets the pointer, and
the answer `Signaled` clears it. The answer `Timeout` does not, and the next wait of the thread
fails at the check of the pointer.
-/

namespace Vsos.Sched

open Vsos.Lib

variable {s t : SchedState} {event : Event} {r : Option WaitStatus} {c k next x : ℕ}
  {s₁ : SchedState}

/-- A thread points to an object just while it waits for it. -/
def Bookkept (s : SchedState) : Prop :=
  ∀ x ∈ s.threads, (s.thread x).signal ≠ none ↔ (s.thread x).state = .signalWait

/-- The bookkeeping is right after the event, and the check of the pointer holds in `ObjectWait`. -/
def KeepsBooks (_ : Unit) (s : SchedState) (event : Event) : Prop :=
  (∀ object timeout c, event = .objectWait object timeout → s.current = some c →
      (s.thread c).signal = none) ∧
    ∀ r t, (performEvent event).run s = .ok r t → Bookkept t

/-- All waits have their deadline behind the tick. -/
def WaitsAhead (s : SchedState) (now : ℕ) : Prop :=
  ∀ x ∈ s.threads, (s.thread x).state = .signalWait → now < (s.thread x).timeout

instance (s : SchedState) (now : ℕ) : Decidable (WaitsAhead s now) :=
  inferInstanceAs (Decidable (∀ x ∈ _, _))

/-- No wait times out in the event. -/
def InTime (_ : Unit) (s : SchedState) : Event → Prop
  | .schedule | .sleep _ => WaitsAhead s s.ticks
  | .tick => s.enabled = true → WaitsAhead s (wrap64 (s.ticks + 1))
  | .objectWait object timeout => (s.signal object).isSignalled = false →
      WaitsAhead s s.ticks ∧ s.ticks < deadline s.ticks timeout
  | _ => True

/-- No check fails in the event. -/
def Returns (_ : Unit) (s : SchedState) (event : Event) : Prop :=
  ∃ r t, (performEvent event).run s = .ok r t

/-- The threads while none is killed. -/
structure Books (s : SchedState) : Prop where
  kept : Bookkept s
  outside : ∀ x ∉ s.threads, (s.thread x).signal = none
  alive : ∀ x ∈ s.threads, (s.thread x).state ≠ .terminated

/-- Between two events, the current thread runs. -/
structure InBooks (_ : Unit) (s : SchedState) : Prop where
  books : Books s
  running : ∃ c, s.current = some c ∧ (s.thread c).state = .running

/-- Without killed threads, the first pass drops none. -/
theorem Books.remaining (h : Books s) (c : ℕ) : s.remaining c = s.threads :=
  List.filter_eq_self.mpr fun x hx => by simp [SchedState.Remains, h.alive x hx]

section

variable (h : ScheduleRun s t c s₁ k next)
include h

/-- The pointer of a thread that does not wait stays as it is. -/
theorem ScheduleRun.signal_eq (hx : (s.thread x).state ≠ .signalWait ∨ x ∉ s.remaining c) :
    (t.thread x).signal = (s.thread x).signal := by
  have hwake : (s₁.thread x).signal = (s.thread x).signal := by
    by_cases hmem : x ∈ s.remaining c
    · obtain ⟨signalled, hwake⟩ := h.woken.woken x hmem
      rw [hwake]
      exact KThread.wake_signal (hx.resolve_right (not_not_intro hmem))
    · rw [h.woken.others x hmem]
  obtain ⟨state, hfinal, -⟩ := h.turned x
  rw [hfinal]
  exact hwake

/-- `Schedule` keeps the books just when no wait times out. -/
theorem ScheduleRun.bookkept_iff (hbooks : Books s) :
    Bookkept t ↔ WaitsAhead s s.ticks := by
  have hthreads : t.threads = s.threads := h.threads.trans (hbooks.remaining c)
  constructor
  · intro hkept x hx hwaits
    obtain ⟨-, hahead⟩ | ⟨-, hafter, -, hsignal⟩ | ⟨hahead, -⟩ := h.waiting hwaits
    · exact hahead (hbooks.remaining c ▸ hx)
    · have hstale := (hbooks.kept x hx).mpr hwaits
      rw [← hsignal] at hstale
      exact absurd ((hkept x (hthreads ▸ hx)).mp hstale) hafter
    · exact hahead
  · intro hahead x hx
    rw [hthreads] at hx
    by_cases hwaits : (s.thread x).state = .signalWait
    · obtain ⟨hsame, -⟩ | ⟨hdue, -⟩ | ⟨-, hafter, -, hnone⟩ := h.waiting hwaits
      · rw [hsame]
        exact hbooks.kept x hx
      · exact absurd hdue (not_le.mpr (hahead x hx hwaits))
      · rw [hnone]
        exact ⟨fun hsome => absurd rfl hsome, fun hstate => absurd hstate hafter⟩
    · rw [h.signal_eq (Or.inl hwaits)]
      constructor
      · exact fun hsome => absurd ((hbooks.kept x hx).mp hsome) hwaits
      · intro hstate
        obtain hsame | hready | hrunning := h.state x
        · exact absurd (hsame.symm.trans hstate) hwaits
        · cases hready.symm.trans hstate
        · cases hrunning.symm.trans hstate

/-- After `Schedule` with the books kept, the next thread runs. -/
theorem ScheduleRun.inBooks (hbooks : Books s) (hkept : Bookkept t) : InBooks () t := by
  have hthreads : t.threads = s.threads := h.threads.trans (hbooks.remaining c)
  refine ⟨⟨hkept, ?_, ?_⟩, next, h.current_eq, h.running⟩
  · intro x hx
    rw [hthreads] at hx
    rw [h.signal_eq (Or.inr (hbooks.remaining c ▸ hx))]
    exact hbooks.outside x hx
  · intro x hx hstate
    obtain hsame | hready | hrunning := h.state x
    · exact hbooks.alive x (hthreads ▸ hx) (hsame.symm.trans hstate)
    · cases hready.symm.trans hstate
    · cases hrunning.symm.trans hstate

end

section Events

/-- The rest of the state does not matter. -/
theorem Books.congr (h : Books s) (hthreads : t.threads = s.threads) (hthread : t.thread = s.thread) :
    Books t where
  kept := by rw [Bookkept, hthreads, hthread]; exact h.kept
  outside := by rw [hthreads, hthread]; exact h.outside
  alive := by rw [hthreads, hthread]; exact h.alive

/-- The books depend on the vector, the index and the threads. -/
theorem InBooks.congr (h : InBooks () s) (hthreads : t.threads = s.threads)
    (hindex : t.threadIndex = s.threadIndex) (hthread : t.thread = s.thread) : InBooks () t where
  books := h.books.congr hthreads hthread
  running := by rw [SchedState.current, hthreads, hindex, hthread]; exact h.running

/-- A thread of the vector changes its state and its pointer together. -/
theorem Books.setThread (h : Books s) (hc : c ∈ s.threads) {g : KThread → KThread}
    (hkept : (g (s.thread c)).signal ≠ none ↔ (g (s.thread c)).state = .signalWait)
    (halive : (g (s.thread c)).state ≠ .terminated) : Books (s.setThread c g) where
  kept := by
    intro x hx
    by_cases hxc : x = c
    · rw [hxc, setThread_self]
      exact hkept
    · rw [setThread_of_ne hxc]
      exact h.kept x hx
  outside := by
    intro x hx
    have hxc : x ≠ c := fun heq => hx (heq ▸ hc)
    rw [setThread_of_ne hxc]
    exact h.outside x hx
  alive := by
    intro x hx
    by_cases hxc : x = c
    · rw [hxc, setThread_self]
      exact halive
    · rw [setThread_of_ne hxc]
      exact h.alive x hx

/-- A thread that begins to wait must wait into the future. -/
theorem waitsAhead_setThread (hc : c ∈ s.threads) (hstate : (s.thread c).state ≠ .signalWait)
    {g : KThread → KThread} {now : ℕ} :
    WaitsAhead (s.setThread c g) now ↔ WaitsAhead s now ∧
      ((g (s.thread c)).state = .signalWait → now < (g (s.thread c)).timeout) := by
  constructor
  · intro hahead
    refine ⟨fun x hx hwaits => ?_, ?_⟩
    · have hxc : x ≠ c := fun heq => hstate (heq ▸ hwaits)
      have hx' := hahead x hx
      rw [setThread_of_ne hxc] at hx'
      exact hx' hwaits
    · have hc' := hahead c hc
      rwa [setThread_self] at hc'
  · rintro ⟨hahead, hself⟩ x hx
    by_cases hxc : x = c
    · rw [hxc, setThread_self]
      exact hself
    · rw [setThread_of_ne hxc]
      exact hahead x hx

/-- A new thread joins the books. -/
theorem InBooks.addReady (h : InBooks () s) (hrun : (addReady x).run s = .ok () t) : InBooks () t := by
  obtain ⟨hids, rfl⟩ := addReady_eq_ok hrun
  have hnew : x ∉ s.threads := fun hmem => hids x hmem (by rw [setThread_self])
  have hother (y : ℕ) (hy : y ∈ s.threads) :
      (s.setThread x fun thread => { thread with state := .ready }).thread y = s.thread y :=
    setThread_of_ne fun heq => hnew (heq ▸ hy)
  refine ⟨⟨?_, ?_, ?_⟩, ?_⟩
  · intro y hy
    rcases List.mem_append.mp hy with hy | hy
    · rw [hother y hy]
      exact h.books.kept y hy
    · rw [List.mem_singleton.mp hy, setThread_self]
      exact ⟨fun hsome => absurd (h.books.outside x hnew) hsome, nofun⟩
  · intro y hy
    obtain ⟨hmem, hne⟩ := not_or.mp (mt List.mem_append.mpr hy)
    have hyx : y ≠ x := fun heq => hne (List.mem_singleton.mpr heq)
    rw [setThread_of_ne hyx]
    exact h.books.outside y hmem
  · intro y hy
    rcases List.mem_append.mp hy with hy | hy
    · rw [hother y hy]
      exact h.books.alive y hy
    · rw [List.mem_singleton.mp hy, setThread_self]
      nofun
  · obtain ⟨c, hc, hrunning⟩ := h.running
    obtain ⟨hlt, -⟩ := List.getElem?_eq_some_iff.mp hc
    refine ⟨c, (List.getElem?_append_left hlt).trans hc, ?_⟩
    rw [hother c (List.mem_of_getElem? hc)]
    exact hrunning

/-- `Schedule` after the current thread has changed. -/
theorem Books.schedule (h : Books s) (hrun : schedule.run s = .ok () t) :
    (Bookkept t ↔ WaitsAhead s s.ticks) ∧ (Bookkept t → InBooks () t) := by
  obtain ⟨c, s₁, k, next, hschedule⟩ := schedule_eq_ok hrun
  exact ⟨hschedule.bookkept_iff h, hschedule.inBooks h⟩

/-- The books after an event, and whether they are kept. -/
theorem InBooks.perform (h : InBooks () s) (hkill : ∀ x, event ≠ .killThread x)
    (hrun : (performEvent event).run s = .ok r t) :
    (Bookkept t ↔ InTime () s event) ∧ (Bookkept t → InBooks () t) := by
  have hkeeps (ht : InBooks () t) (htime : InTime () s event) :
      (Bookkept t ↔ InTime () s event) ∧ (Bookkept t → InBooks () t) :=
    ⟨iff_of_true ht.books.kept htime, fun _ => ht⟩
  obtain ⟨c, hc, hrunning⟩ := h.running
  have hmem : c ∈ s.threads := List.mem_of_getElem? hc
  have hnotWaiting : (s.thread c).state ≠ .signalWait := by rw [hrunning]; nofun
  have hnone : (s.thread c).signal = none := not_not.mp (mt (h.books.kept c hmem).mp hnotWaiting)
  cases event with
  | killThread x => exact absurd rfl (hkill x)
  | addReady x =>
    obtain ⟨_, hadd, rfl⟩ := bind_pure_eq_ok.mp hrun
    exact hkeeps (h.addReady hadd) trivial
  | tick =>
    obtain ⟨_, htick, rfl⟩ := bind_pure_eq_ok.mp hrun
    obtain ⟨henabled, hschedule⟩ | ⟨hdisabled, rfl⟩ := timerTick_eq_ok htick
    · have hbooks : Books { s with ticks := wrap64 (s.ticks + 1) } := h.books.congr rfl rfl
      rw [InTime, forall_prop_of_true henabled]
      exact hbooks.schedule hschedule
    · exact hkeeps (h.congr rfl rfl rfl) fun henabled => nomatch hdisabled.symm.trans henabled
  | schedule =>
    obtain ⟨_, hschedule, rfl⟩ := bind_pure_eq_ok.mp hrun
    exact h.books.schedule hschedule
  | sleep value =>
    obtain ⟨_, hsleep, rfl⟩ := bind_pure_eq_ok.mp hrun
    obtain ⟨c', hc', hschedule⟩ := sleep_eq_ok hsleep
    cases hc.symm.trans hc'
    have hbooks : Books (s.rest c value) :=
      h.books.setThread hmem ⟨fun hsome => absurd hnone hsome, nofun⟩ nofun
    obtain ⟨hiff, hin⟩ := hbooks.schedule hschedule
    refine ⟨hiff.trans ((waitsAhead_setThread hmem hnotWaiting).trans ?_), hin⟩
    exact and_iff_left nofun
  | objectWait object timeout =>
    obtain ⟨c', hc', -, -, hcases⟩ := objectWait_eq_ok hrun
    cases hc.symm.trans hc'
    obtain ⟨hsignalled, -, hgrant⟩ | ⟨hnot, -, hschedule⟩ := hcases
    · obtain ⟨value, rfl⟩ := (grant_ensures c object s).of_ok hgrant
      exact hkeeps (h.congr rfl rfl rfl) fun hnot => nomatch hsignalled.symm.trans hnot
    · have hbooks : Books (s.block c object timeout) :=
        h.books.setThread hmem ⟨fun _ => rfl, fun _ => nofun⟩ nofun
      obtain ⟨hiff, hin⟩ := hbooks.schedule hschedule
      refine ⟨hiff.trans ((waitsAhead_setThread hmem hnotWaiting).trans ?_), hin⟩
      rw [InTime, forall_prop_of_true hnot]
      exact and_congr_right fun _ => forall_prop_of_true rfl
  | semaphoreSignal object =>
    obtain ⟨_, hsignal, rfl⟩ := bind_pure_eq_ok.mp hrun
    obtain ⟨value, -, rfl⟩ := semaphoreSignal_eq_ok hsignal
    exact hkeeps (h.congr rfl rfl rfl) trivial
  | eventWrite object state =>
    obtain ⟨_, hwrite, rfl⟩ := bind_pure_eq_ok.mp hrun
    obtain ⟨manualReset, before, -, rfl⟩ := eventWrite_eq_ok hwrite
    exact hkeeps (h.congr rfl rfl rfl) trivial
  | signal object value =>
    cases hrun
    exact hkeeps (h.congr rfl rfl rfl) trivial
  | enable on =>
    cases hrun
    exact hkeeps (h.congr rfl rfl rfl) trivial

/-- After `Init`, the boot thread runs. -/
theorem inBooks_init {boot id ticks : ℕ} {thread : ℕ → KThread} {signal : ℕ → SignalObject}
    {deleted : ℕ → Bool} (hthreads : ∀ x, (thread x).signal = none)
    (hinit : (init boot id).run (construct ticks thread signal deleted) = .ok () s) :
    InBooks () s := by
  cases hinit
  have hself : ((construct ticks thread signal deleted).setThread boot fun _ =>
      { KThread.construct id with state := .running }).thread boot =
        { KThread.construct id with state := .running } := setThread_self
  refine ⟨⟨?_, ?_, ?_⟩, boot, rfl, congrArg KThread.state hself⟩
  · intro x hx
    rw [List.mem_singleton.mp hx, hself]
    exact ⟨fun hsome => absurd rfl hsome, nofun⟩
  · intro x hx
    have hne : x ≠ boot := fun heq => hx (List.mem_singleton.mpr heq)
    rw [setThread_of_ne hne]
    exact hthreads x
  · intro x hx
    rw [List.mem_singleton.mp hx, hself]
    nofun

/-- If no wait times out in the event, the books are kept. -/
theorem InBooks.keepsBooks (h : InBooks () s) (hkill : ∀ x, event ≠ .killThread x)
    (htime : InTime () s event) : KeepsBooks () s event := by
  refine ⟨?_, fun r t hrun => (h.perform hkill hrun).1.mpr htime⟩
  rintro object timeout c - hc
  obtain ⟨c', hc', hrunning⟩ := h.running
  cases hc.symm.trans hc'
  by_contra hsome
  cases hrunning.symm.trans ((h.books.kept c (List.mem_of_getElem? hc)).mp hsome)

end Events

/-- From `Init` on, over every sequence of events without `KillThread`: the pointers to the
objects are right after every event, and the check of the pointer in `ObjectWait` holds, if no
wait times out. If no check fails otherwise, a wait that times out breaks them. -/
theorem keepsBooks_iff {boot id ticks : ℕ} {thread : ℕ → KThread} {signal : ℕ → SignalObject}
    {deleted : ℕ → Bool} (hthreads : ∀ x, (thread x).signal = none)
    (hinit : (init boot id).run (construct ticks thread signal deleted) = .ok () s)
    {events : List Event} (hkill : ∀ event ∈ events, ∀ x, event ≠ .killThread x) :
    (EachCall performEvent (fun _ _ _ => ()) InTime events () s →
        EachCall performEvent (fun _ _ _ => ()) KeepsBooks events () s) ∧
      (EachCall performEvent (fun _ _ _ => ()) Returns events () s →
        EachCall performEvent (fun _ _ _ => ()) KeepsBooks events () s →
        EachCall performEvent (fun _ _ _ => ()) InTime events () s) := by
  have hin := inBooks_init hthreads hinit
  have hcalls : EachCall performEvent (fun _ _ _ => ()) (fun _ _ event => ∀ x, event ≠ .killThread x)
      events () s := EachCall.of_forall_mem (fun event hevent _ _ => hkill event hevent) () s
  constructor
  · intro htime
    refine EachCall.of_admissible ?_ ?_ hin (hcalls.and htime)
    · exact fun _ s event h hevent => h.keepsBooks hevent.1 hevent.2
    · intro _ s event r t h hevent hrun
      obtain ⟨hiff, hkeeps⟩ := h.perform hevent.1 hrun
      exact hkeeps (hiff.mpr hevent.2)
  · intro hreturns hkeeps
    refine (EachCall.congr_of_admissible ?_ ?_ hin (hcalls.and hreturns)).mp hkeeps
    · rintro _ s event h ⟨hevent, r, t, hrun⟩
      exact ⟨fun hkept => (h.perform hevent hrun).1.mp (hkept.2 r t hrun), h.keepsBooks hevent⟩
    · rintro _ s event r t h ⟨hevent, -⟩ htime hrun
      obtain ⟨hiff, hbooks⟩ := h.perform hevent hrun
      exact hbooks (hiff.mpr htime)

/-- A wait of the boot thread that is signalled before its deadline. -/
theorem keepsBooks_signalled :
    ∃ s, (init 0 1).run (construct 0 (fun x => .construct (x + 1)) (fun _ => .predicate false)
        fun _ => false) = .ok () s ∧
      EachCall performEvent (fun _ _ _ => ()) KeepsBooks
        [.addReady 1, .enable true, .objectWait 0 1000, .signal 0 (.predicate true), .tick] () s :=
  ⟨_, rfl, (keepsBooks_iff (fun _ => rfl) rfl (by simp)).1
    ⟨trivial, trivial, fun _ => by decide +kernel, trivial, fun _ => by decide +kernel, trivial⟩⟩

/-- The boot thread waits with the timeout zero, and is answered with `Timeout` at once: it is ready
and still points to the object. -/
theorem not_keepsBooks :
    ¬ ∀ (boot id ticks : ℕ) (thread : ℕ → KThread) (signal : ℕ → SignalObject) (deleted : ℕ → Bool)
      (s : SchedState), (∀ x, (thread x).signal = none) →
      (init boot id).run (construct ticks thread signal deleted) = .ok () s →
      ∀ events : List Event, (∀ event ∈ events, ∀ x, event ≠ .killThread x) →
        EachCall performEvent (fun _ _ _ => ()) KeepsBooks events () s := by
  intro hclaim
  have hkeeps := hclaim 0 1 0 (fun x => .construct (x + 1)) (fun _ => .predicate false)
    (fun _ => false) _ (fun _ => rfl) rfl [.addReady 1, .enable true, .objectWait 0 0] (by simp)
  have hkept := hkeeps.2.2.1.2 _ _ rfl 0 List.mem_cons_self
  exact absurd (hkept.mp (by decide)) (by decide)

end Vsos.Sched
