import Vsos.Sched.Running

/-!
# The search for the next thread ends

The search of `Schedule` has no bound of its own. After the threads have been woken and the
current one has stopped running, an idle thread that never blocks is ready, so the search meets a
ready thread within one round over the vector. This holds in every state of every run, also where
the thread that was current has just blocked, was killed or leaves the vector.
-/

namespace Vsos.Sched

open Vsos.Lib

variable {idle : ℕ} {hist : History} {s u : SchedState} {event : Event}

/-- The event does not run for ever, and wherever it gets to the search for the next thread, the
search stops after at most as many steps as the vector has entries: with that many or more steps
allowed, its result is the same. -/
def SelectionEnds (_ : History) (s : SchedState) (event : Event) : Prop :=
  (∀ t, (performEvent event).run s ≠ .error .diverged t) ∧
    ∀ u ∈ event.scheduleFrom s, ∀ r v, beforeSelection.run u = .ok r v →
      ∃ t, ∀ fuel ≥ v.threads.length, (selectLoop fuel).run v = .ok () t

/-- The invariant still holds where `Schedule` is executed: the idle thread has not blocked. -/
theorem Inv.scheduleFrom (h : Inv idle hist s) (hspares : SparesIdle idle hist s event)
    (hu : u ∈ event.scheduleFrom s) : Inv idle hist u := by
  cases event with
  | tick =>
    rw [Event.scheduleFrom] at hu
    split at hu
    · cases hu
      exact h.congr rfl rfl rfl
    · cases hu
  | schedule =>
    cases hu
    exact h
  | sleep value =>
    obtain ⟨c, hc, rfl⟩ := Option.map_eq_some_iff.mp hu
    exact ⟨h.index_lt, h.sound.block rfl (fun hidle => hspares (hidle ▸ hc)) (Or.inl rfl)⟩
  | objectWait object timeout =>
    rw [Event.scheduleFrom] at hu
    split at hu
    · cases hu
    · next hnot =>
      obtain ⟨c, hc, rfl⟩ := Option.map_eq_some_iff.mp hu
      exact ⟨h.index_lt, h.sound.block rfl (fun hidle => hnot (hspares (hidle ▸ hc))) (Or.inr rfl)⟩
  | _ => cases hu

/-- The search ends in every event that spares the idle thread. -/
theorem Inv.selectionEnds (h : Inv idle hist s) (hspares : SparesIdle idle hist s event) :
    SelectionEnds hist s event := by
  refine ⟨(h.perform_settles hspares).not_diverged, ?_⟩
  intro u hu r v hrun
  have hsound := ((h.scheduleFrom hspares hu).beforeSelection_settles.of_ok hrun).1
  obtain ⟨i, x, -, hselect⟩ := hsound.selectLoop_run
  exact ⟨_, hselect⟩

/-- In every run of the scheduler with an idle thread that never blocks and is not killed, the
search for the next thread stops within one round over the vector. -/
theorem selection_terminates (boot id idle ticks : ℕ) (thread : ℕ → KThread)
    (signal : ℕ → SignalObject) (deleted : ℕ → Bool)
    (hstart : (start boot id idle).run (construct ticks thread signal deleted) = .ok () s)
    {events : List Event}
    (hevents : EachCall performEvent note (SparesIdle idle) events ⟨[idle, boot], []⟩ s) :
    EachCall performEvent note SelectionEnds events ⟨[idle, boot], []⟩ s := by
  have hinv := (start_settles boot id idle ticks thread signal deleted).of_ok hstart
  refine EachCall.of_admissible ?_ ?_ hinv hevents
  · exact fun hist s event h hspares => h.selectionEnds hspares
  · exact fun hist s event r t h hspares hrun => ((h.perform_settles hspares).of_ok hrun).1

/-- All threads but the idle one block or are killed. -/
theorem selection_terminates_blocked :
    ∃ s, (start 0 1 1).run (construct 0 (fun t => .construct (t + 1)) (fun _ => .predicate false)
        fun _ => false) = .ok () s ∧
      EachCall performEvent note SelectionEnds
        [.enable true, .addReady 2, .addReady 3, .sleep 50000000, .schedule, .objectWait 7 1000,
          .killThread 3, .tick, .schedule] ⟨[1, 0], []⟩ s :=
  ⟨_, rfl, selection_terminates 0 1 1 0 (fun t => .construct (t + 1)) (fun _ => .predicate false)
    (fun _ => false) rfl (by decide +kernel)⟩

end Vsos.Sched
