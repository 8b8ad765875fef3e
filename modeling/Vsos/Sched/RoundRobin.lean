import Vsos.Sched.Running
import Vsos.Sched.Waits
import Mathlib.Data.List.Rotate

/-!
# The order of turns

The threads take turns in the order of the vector, from the one behind the current thread round
to the current thread itself. `Schedule` counts from the index of the current thread, and keeps
that index while the first pass drops terminated threads. The turns come in order as long as no
dropped thread stands in front of the current one. Then a thread that stays ready waits for every
other thread once at most: the threads ahead of it only become fewer, except for new ones.
-/

namespace Vsos.Sched

open Vsos.Lib

variable {s t : SchedState} {event : Event} {r : Option WaitStatus} {c k next x y : ℕ}
  {s₁ : SchedState}

/-- No terminated thread stands in front of the current one. -/
def NothingInFront (s : SchedState) : Prop :=
  ∀ x ∈ s.threads.take s.threadIndex, (s.thread x).state ≠ .terminated

/-- The thread that `Schedule` selects is the first ready one of those that remain, from the one
behind the current thread round to the current thread. The threads that it passes over are not
ready, before the switch as after it. -/
def SelectsFirst (s t : SchedState) : Prop :=
  ∃ c next l₁ l₂ passed rest, s.current = some c ∧ t.current = some next ∧
    s.remaining c = l₁ ++ c :: l₂ ∧ l₂ ++ l₁ ++ [c] = passed ++ next :: rest ∧
    (t.thread next).state = .running ∧ ∀ y ∈ passed, (t.thread y).state ≠ .ready

/-- The threads in the order of their turns. -/
def SchedState.turns (s : SchedState) : List ℕ := s.threads.rotate (s.threadIndex + 1)

section Turns

/-- Every thread has a turn. -/
theorem SchedState.mem_turns : x ∈ s.turns ↔ x ∈ s.threads := List.mem_rotate

/-- The round from behind an element ends with the element. -/
theorem rotate_split (l₁ l₂ : List ℕ) (c : ℕ) :
    (l₁ ++ c :: l₂).rotate (l₁.length + 1) = l₂ ++ l₁ ++ [c] := by
  have hlist : l₁ ++ c :: l₂ = (l₁ ++ [c]) ++ l₂ := by rw [List.append_assoc]; rfl
  have hlength : l₁.length + 1 = (l₁ ++ [c]).length := by simp
  rw [hlist, hlength, List.rotate_append_length_eq, List.append_assoc]

/-- The current thread has the last turn. -/
theorem turns_of_split {l₁ l₂ : List ℕ} (hthreads : s.threads = l₁ ++ c :: l₂)
    (hindex : s.threadIndex = l₁.length) : s.turns = l₂ ++ l₁ ++ [c] := by
  rw [SchedState.turns, hthreads, hindex, rotate_split]

/-- The vector around the current thread. -/
theorem split_of_current (hcurrent : s.current = some c) :
    ∃ l₁ l₂, s.threads = l₁ ++ c :: l₂ ∧ s.threadIndex = l₁.length ∧
      s.threads.take s.threadIndex = l₁ := by
  obtain ⟨hlt, hc⟩ := List.getElem?_eq_some_iff.mp hcurrent
  refine ⟨s.threads.take s.threadIndex, s.threads.drop (s.threadIndex + 1), ?_, ?_, rfl⟩
  · rw [← hc, ← List.drop_eq_getElem_cons hlt, List.take_append_drop]
  · rw [List.length_take, Nat.min_eq_left hlt.le]

/-- With nothing in front, the threads that remain keep their turns. -/
theorem remaining_of_nothingInFront (hfront : NothingInFront s) (hcurrent : s.current = some c) :
    ∃ l₁ l₂, s.remaining c = l₁ ++ c :: l₂ ∧ s.threadIndex = l₁.length ∧
      l₂ ++ l₁ ++ [c] = s.turns.filter (s.Remains (s.thread c).id) := by
  obtain ⟨l₁, l₂, hthreads, hindex, htake⟩ := split_of_current hcurrent
  rw [NothingInFront, htake] at hfront
  have hkeep : l₁.filter (s.Remains (s.thread c).id) = l₁ :=
    List.filter_eq_self.mpr fun y hy => by simp [SchedState.Remains, hfront y hy]
  have hself : s.Remains (s.thread c).id c := fun hdrop => hdrop.2 rfl
  refine ⟨l₁, l₂.filter (s.Remains (s.thread c).id), ?_, hindex, ?_⟩
  · rw [SchedState.remaining, hthreads, List.filter_append, hkeep,
      List.filter_cons_of_pos (by simpa using hself)]
  · rw [turns_of_split hthreads hindex, List.filter_append, List.filter_append, hkeep,
      List.filter_cons_of_pos (by simpa using hself), List.filter_nil]

end Turns

section Selection

section

variable (h : ScheduleRun s t c s₁ k next)
include h

/-- A thread that is not selected is left as it was for the search. -/
theorem ScheduleRun.thread_of_ne (hx : x ≠ next) :
    t.thread x = (s₁.markReady c).thread x := by
  rw [h.final]
  exact Function.update_of_ne hx ..

/-- The turns after the first pass, up to the selected thread and from it on. -/
theorem ScheduleRun.turns :
    ∃ passed rest, (s.remaining c).rotate (s.threadIndex + 1) = passed ++ next :: rest ∧
      t.turns = rest ++ passed ++ [next] ∧ ∀ y ∈ passed, (t.thread y).state ≠ .ready := by
  let order := (s.remaining c).rotate (s.threadIndex + 1)
  have hget (j : ℕ) (hj : j < (s.remaining c).length) :
      order[j]? = (s.remaining c)[(s.threadIndex + j + 1) % (s.remaining c).length]? := by
    rw [List.getElem?_rotate hj, ← Nat.add_assoc, Nat.add_comm j]
  have hnext : order[k]? = some next := (hget k h.round).trans h.at_index
  obtain ⟨hlt, hk⟩ := List.getElem?_eq_some_iff.mp hnext
  have horder : order = order.take k ++ next :: order.drop (k + 1) := by
    rw [← hk, ← List.drop_eq_getElem_cons hlt, List.take_append_drop]
  refine ⟨order.take k, order.drop (k + 1), horder, ?_, ?_⟩
  · have hindex : t.threadIndex = (s.threadIndex + k + 1) % (s.remaining c).length := by
      rw [h.final]
      rfl
    have hrotate : t.turns = order.rotate (k + 1) := by
      rw [SchedState.turns, h.threads, hindex, ← List.rotate_rotate, List.rotate_mod,
        List.rotate_rotate, List.rotate_rotate]
      congr 1
      omega
    have hcount : k = (order.take k).length := by rw [List.length_take, Nat.min_eq_left hlt.le]
    calc t.turns = order.rotate (k + 1) := hrotate
      _ = (order.take k ++ next :: order.drop (k + 1)).rotate ((order.take k).length + 1) := by
        rw [← horder, ← hcount]
      _ = order.drop (k + 1) ++ order.take k ++ [next] := rotate_split ..
  · intro y hy
    obtain ⟨j, hj, hyj⟩ := List.mem_take_iff_getElem.mp hy
    have hjk : j < k := hj.trans_le (Nat.min_le_left ..)
    by_cases hyn : y = next
    · rw [hyn, h.running]
      nofun
    · rw [h.thread_of_ne hyn]
      intro hready
      refine h.first j hjk ⟨y, ?_, hready⟩
      rw [markReady_threads, h.woken.threads]
      exact (hget j (hjk.trans h.round)).symm.trans (List.getElem?_eq_some_iff.mpr ⟨_, hyj⟩)

/-- With nothing in front of the current thread, the turns come in order. -/
theorem ScheduleRun.selectsFirst (hfront : NothingInFront s) :
    SelectsFirst s t := by
  obtain ⟨l₁, l₂, hremaining, hindex, -⟩ := remaining_of_nothingInFront hfront h.current
  obtain ⟨passed, rest, horder, -, hpassed⟩ := h.turns
  refine ⟨c, next, l₁, l₂, passed, rest, h.current, h.current_eq, hremaining, ?_, h.running, hpassed⟩
  rw [← horder, hremaining, hindex, rotate_split]

end

end Selection

section Entry

variable {u : SchedState}

/-- The state in which an event executes `Schedule`: the current thread may have blocked. -/
structure Enters (s u : SchedState) : Prop where
  threads : u.threads = s.threads
  threadIndex : u.threadIndex = s.threadIndex
  ids : ∀ x, (u.thread x).id = (s.thread x).id
  states : ∀ x, (u.thread x).state = (s.thread x).state ∨
    s.current = some x ∧ ((u.thread x).state = .sleeping ∨ (u.thread x).state = .signalWait)

/-- An event that changes no thread before `Schedule`. -/
theorem Enters.of_same (hthreads : u.threads = s.threads) (hindex : u.threadIndex = s.threadIndex)
    (hthread : u.thread = s.thread) : Enters s u :=
  ⟨hthreads, hindex, fun x => by rw [hthread], fun x => Or.inl (by rw [hthread])⟩

/-- An event that blocks the current thread before `Schedule`. -/
theorem Enters.of_block (hcurrent : s.current = some c) {g : KThread → KThread}
    (hid : (g (s.thread c)).id = (s.thread c).id)
    (hstate : (g (s.thread c)).state = .sleeping ∨ (g (s.thread c)).state = .signalWait) :
    Enters s (s.setThread c g) where
  threads := rfl
  threadIndex := rfl
  ids := setThread_id hid
  states := by
    intro x
    by_cases hx : x = c
    · rw [hx, setThread_self]
      exact Or.inr ⟨hcurrent, hstate⟩
    · rw [setThread_of_ne hx]
      exact Or.inl rfl

/-- An event that executes `Schedule` ends with it. -/
theorem schedules_eq_ok (hruns : Schedules s event) (hrun : (performEvent event).run s = .ok r t) :
    ∃ u, Enters s u ∧ u.cpuThread = s.cpuThread ∧ schedule.run u = .ok () t := by
  obtain ⟨-, u, hu, hschedule⟩ | ⟨hnot, -⟩ := performEvent_eq_ok hrun
  · obtain heq | ⟨c, g, hc, rfl, hid, hstate⟩ := eq_or_block_of_scheduleFrom hu
    · exact ⟨u, Enters.of_same (by rw [heq]) (by rw [heq]) (by rw [heq]), by rw [heq], hschedule⟩
    · exact ⟨_, Enters.of_block hc hid hstate, rfl, hschedule⟩
  · exact absurd hruns hnot

/-- Any other event leaves the vector alone, unless it adds a thread, and kills one thread at
most. -/
theorem not_schedules_eq_ok (hruns : ¬ Schedules s event) (hadd : ∀ x, event ≠ .addReady x)
    (hrun : (performEvent event).run s = .ok r t) :
    t.threads = s.threads ∧ t.threadIndex = s.threadIndex ∧ t.cpuThread = s.cpuThread ∧
      (∀ x, (t.thread x).id = (s.thread x).id) ∧
      ∀ x, (t.thread x).state = (s.thread x).state ∨ (t.thread x).state = .terminated := by
  obtain ⟨hschedules, -⟩ | ⟨-, -, ⟨x, heq, -⟩ | ⟨x, deleted, rfl⟩ | ⟨enabled, ticks, signal, granted,
    rfl⟩⟩ := performEvent_eq_ok hrun
  · exact absurd hschedules hruns
  · exact absurd heq (hadd x)
  · let u := s.setThread x fun thread => { thread with state := .terminated }
    have hstate (y : ℕ) :
        (u.thread y).state = (s.thread y).state ∨ (u.thread y).state = .terminated := by
      by_cases hy : y = x
      · exact Or.inr (by rw [hy, setThread_self])
      · exact Or.inl (by rw [setThread_of_ne hy])
    exact ⟨rfl, rfl, rfl, @setThread_id s x (fun thread => { thread with state := .terminated }) rfl, hstate⟩
  · exact ⟨rfl, rfl, rfl, fun _ => rfl, fun _ => Or.inl rfl⟩

/-- The current thread stays the current one. -/
theorem Enters.current_eq (h : Enters s u) : u.current = s.current := by
  rw [SchedState.current, h.threads, h.threadIndex]
  rfl

/-- No thread in front of the current one is terminated on the way to `Schedule`. -/
theorem Enters.nothingInFront (h : Enters s u) (hfront : NothingInFront s) : NothingInFront u := by
  intro x hx
  rw [h.threads, h.threadIndex] at hx
  obtain hsame | ⟨-, hblocked | hblocked⟩ := h.states x
  · rw [hsame]
    exact hfront x hx
  · rw [hblocked]
    nofun
  · rw [hblocked]
    nofun

/-- A thread that blocks is the current one, which remains anyway. -/
theorem Enters.remaining_eq (h : Enters s u) (hcurrent : s.current = some c) :
    u.remaining c = s.remaining c := by
  rw [SchedState.remaining, h.threads, h.ids c]
  refine List.filter_congr fun x _ => ?_
  obtain hsame | ⟨hx, -⟩ := h.states x
  · have hremains : u.Remains (s.thread c).id x ↔ s.Remains (s.thread c).id x := by
      rw [SchedState.Remains, SchedState.Remains, hsame, h.ids x]
    exact decide_eq_decide.mpr hremains
  · cases hx.symm.trans hcurrent
    simp [SchedState.Remains, h.ids]

/-- The selection counts from the state before the event. -/
theorem Enters.selectsFirst (h : Enters s u) (hselects : SelectsFirst u t) : SelectsFirst s t := by
  obtain ⟨c, next, l₁, l₂, passed, rest, hc, hnext, hremaining, hrest⟩ := hselects
  rw [h.current_eq] at hc
  exact ⟨c, next, l₁, l₂, passed, rest, hc, hnext, h.remaining_eq hc ▸ hremaining, hrest⟩

end Entry

section Orderly

/-- The vector between two events; `added` are the threads that were put into it. -/
structure Orderly (added : List ℕ) (s : SchedState) : Prop where
  index_lt : s.threadIndex < s.threads.length
  ids : (s.threads.map fun y => (s.thread y).id).Nodup
  current : ∀ c, s.current = some c → (s.thread c).state ≠ .ready
  added : ∀ y ∈ s.threads, y ∈ added

variable {added : List ℕ} {u : SchedState}

/-- No thread stands in the vector twice. -/
theorem Orderly.nodup (h : Orderly added s) : s.threads.Nodup := h.ids.of_map

/-- No thread has two turns. -/
theorem Orderly.turns_nodup (h : Orderly added s) : s.turns.Nodup := List.nodup_rotate.mpr h.nodup

/-- The way to `Schedule` keeps the order. -/
theorem Orderly.enter (h : Orderly added s) (hu : Enters s u) : Orderly added u where
  index_lt := by rw [hu.threads, hu.threadIndex]; exact h.index_lt
  ids := by simp only [hu.threads, hu.ids]; exact h.ids
  current := by
    intro c hc
    rw [hu.current_eq] at hc
    obtain hsame | ⟨-, hblocked | hblocked⟩ := hu.states c
    · rw [hsame]
      exact h.current c hc
    · rw [hblocked]
      nofun
    · rw [hblocked]
      nofun
  added := by rw [hu.threads]; exact h.added

/-- Threads keep their numbers. -/
theorem ScheduleRun.id_eq (h : ScheduleRun s t c s₁ k next) (x : ℕ) :
    (t.thread x).id = (s.thread x).id := by
  have hwake : (s₁.thread x).id = (s.thread x).id := by
    by_cases hmem : x ∈ s.remaining c
    · obtain ⟨signalled, hwake⟩ := h.woken.woken x hmem
      rw [hwake]
      exact KThread.wake_id ..
    · rw [h.woken.others x hmem]
  obtain ⟨state, hfinal, -⟩ := h.turned x
  rw [hfinal]
  exact hwake

/-- `Schedule` keeps the order. -/
theorem Orderly.schedule (h : Orderly added s) (hrun : ScheduleRun s t c s₁ k next) :
    Orderly added t where
  index_lt := (List.getElem?_eq_some_iff.mp hrun.current_eq).1
  ids := by
    simp only [hrun.threads, hrun.id_eq]
    exact h.ids.sublist (List.filter_sublist.map _)
  current := by
    intro c' hc'
    cases hrun.current_eq.symm.trans hc'
    rw [hrun.running]
    nofun
  added := by
    intro y hy
    rw [hrun.threads] at hy
    exact h.added y (List.mem_of_mem_filter hy)

/-- An event that terminates threads at most keeps the order. -/
theorem Orderly.stay (h : Orderly added s) (hthreads : t.threads = s.threads)
    (hindex : t.threadIndex = s.threadIndex) (hids : ∀ x, (t.thread x).id = (s.thread x).id)
    (hstates : ∀ x, (t.thread x).state = (s.thread x).state ∨ (t.thread x).state = .terminated) :
    Orderly added t where
  index_lt := by rw [hthreads, hindex]; exact h.index_lt
  ids := by simp only [hthreads, hids]; exact h.ids
  current := by
    intro c hc
    rw [SchedState.current, hthreads, hindex] at hc
    obtain hsame | hkilled := hstates c
    · rw [hsame]
      exact h.current c hc
    · rw [hkilled]
      simp
  added := by rw [hthreads]; exact h.added

/-- `AddReady` keeps the identifiers distinct, and the thread at the index. -/
theorem addReady_ids (hindex : s.threadIndex < s.threads.length)
    (hids : (s.threads.map fun y => (s.thread y).id).Nodup)
    (hrun : (addReady x).run s = .ok () t) :
    (t.threads.map fun y => (t.thread y).id).Nodup ∧ t.threads = s.threads ++ [x] ∧
      t.threadIndex = s.threadIndex ∧ t.current = s.current ∧ t.cpuThread = s.cpuThread := by
  obtain ⟨hnew, rfl⟩ := addReady_eq_ok hrun
  refine ⟨?_, rfl, rfl, List.getElem?_append_left hindex, rfl⟩
  change ((s.threads ++ [x]).map fun y =>
    ((s.setThread x fun thread => { thread with state := .ready }).thread y).id).Nodup
  have hid := @setThread_id s x (fun thread => { thread with state := .ready }) rfl
  simp only [hid] at hnew ⊢
  rw [List.map_append]
  refine List.Nodup.append hids (List.nodup_singleton _) ?_
  intro id hmem hself
  obtain ⟨y, hy, rfl⟩ := List.mem_map.mp hmem
  exact hnew y hy (List.mem_singleton.mp hself)

/-- A new thread goes to the end of the vector. -/
theorem Orderly.addReady (h : Orderly added s) (hnew : x ∉ added)
    (hrun : (addReady x).run s = .ok () t) :
    Orderly (x :: added) t ∧ t.threads = s.threads ++ [x] ∧ t.threadIndex = s.threadIndex := by
  obtain ⟨hids, hthreads, hindex, hcurrent, -⟩ := addReady_ids h.index_lt h.ids hrun
  obtain ⟨-, ht⟩ := addReady_eq_ok hrun
  have hthread : t.thread = (s.setThread x fun thread => { thread with state := .ready }).thread := by
    rw [ht]
  have hkeep (y : ℕ) (hy : y ∈ s.threads) : t.thread y = s.thread y := by
    rw [hthread]
    exact setThread_of_ne fun heq => hnew (heq ▸ h.added y hy)
  refine ⟨⟨?_, hids, ?_, ?_⟩, hthreads, hindex⟩
  · rw [hthreads, hindex, List.length_append]
    exact h.index_lt.trans_le (Nat.le_add_right ..)
  · intro c hc
    rw [hcurrent] at hc
    rw [hkeep c (List.mem_of_getElem? hc)]
    exact h.current c hc
  · intro y hy
    rw [hthreads] at hy
    obtain hold | hself := List.mem_append.mp hy
    · exact List.mem_cons_of_mem x (h.added y hold)
    · rw [List.mem_singleton.mp hself]
      exact List.mem_cons_self

end Orderly

section Window

/-- The threads `selected` since thread `x` is ready: none of them is ahead of `x` any more. -/
structure Window (x : ℕ) (added selected : List ℕ) (s : SchedState) : Prop where
  ahead : ∃ before behind, s.turns = before ++ x :: behind ∧ ∀ y ∈ selected, y ∉ before
  nodup : selected.Nodup
  added : selected ⊆ added

variable {added selected : List ℕ}

/-- A thread has been waiting for nobody at first. -/
theorem Window.of_mem (hx : x ∈ s.threads) : Window x added [] s := by
  obtain ⟨before, behind, hturns⟩ := List.append_of_mem (SchedState.mem_turns.mpr hx)
  exact ⟨⟨before, behind, hturns, nofun⟩, List.nodup_nil, List.nil_subset _⟩

/-- A thread that is passed over neither by the search nor selected stands behind the selected
thread. -/
theorem behind_of_split {before behind passed rest : List ℕ}
    (horder : before ++ x :: behind = passed ++ next :: rest) (hnext : x ≠ next)
    (hpassed : x ∉ passed) :
    ∃ between, before = passed ++ next :: between ∧ rest = between ++ x :: behind := by
  obtain ⟨between, hpassed', hrest⟩ | ⟨between, hbefore, hrest⟩ := List.append_eq_append_iff.mp horder
  · cases between with
    | nil => exact absurd (List.cons.inj hrest).1 hnext
    | cons y between =>
      rw [(List.cons.inj hrest).1, hpassed'] at hpassed
      exact absurd (List.mem_append_right _ List.mem_cons_self) hpassed
  · cases between with
    | nil => exact absurd (List.cons.inj hrest).1.symm hnext
    | cons y between =>
      obtain ⟨rfl, rfl⟩ := List.cons.inj hrest
      exact ⟨between, hbefore, rfl⟩

/-- The selected thread was ahead of every thread that stays ready, and is behind it now. -/
theorem Window.schedule (h : Window x added selected s) (horderly : Orderly added s)
    (hfront : NothingInFront s) (hrun : ScheduleRun s t c s₁ k next) (hx : x ∈ t.threads)
    (hready : (t.thread x).state = .ready) : Window x added (next :: selected) t := by
  obtain ⟨before, behind, hturns, hahead⟩ := h.ahead
  obtain ⟨l₁, l₂, hremaining, hindex, hfilter⟩ := remaining_of_nothingInFront hfront hrun.current
  obtain ⟨passed, rest, horder, hafter, hpassed⟩ := hrun.turns
  have hnodup : t.turns.Nodup := (horderly.schedule hrun).turns_nodup
  let keep : ℕ → Bool := fun y => s.Remains (s.thread c).id y
  have hx' : keep x := by
    rw [hrun.threads] at hx
    exact (List.mem_filter.mp hx).2
  have hsplit : before.filter keep ++ x :: behind.filter keep = passed ++ next :: rest := by
    rw [← horder, hremaining, hindex, rotate_split, hfilter, hturns, List.filter_append,
      List.filter_cons_of_pos hx']
  have hne : x ≠ next := fun heq => by
    rw [heq, hrun.running] at hready
    cases hready
  obtain ⟨between, hbefore, hrest⟩ := behind_of_split hsplit hne fun hmem => hpassed x hmem hready
  have hsub {y : ℕ} (hy : y ∈ passed ++ next :: between) : y ∈ before :=
    List.mem_of_mem_filter (hbefore ▸ hy)
  have hnext : next ∉ selected := fun hmem => hahead next hmem (hsub (by simp))
  rw [hrest, List.append_assoc, List.append_assoc, List.cons_append] at hafter
  refine ⟨⟨between, _, hafter, ?_⟩, List.nodup_cons.mpr ⟨hnext, h.nodup⟩, ?_⟩
  · intro y hy hbetween
    obtain rfl | hmem := List.mem_cons.mp hy
    · rw [hafter] at hnodup
      exact List.disjoint_of_nodup_append hnodup hbetween (by simp)
    · exact hahead y hmem (hsub (by simp [hbetween]))
  · have hmem : next ∈ s.threads :=
      List.mem_of_mem_filter (hrun.threads ▸ List.mem_of_getElem? hrun.current_eq)
    exact List.cons_subset.mpr ⟨horderly.added next hmem, h.added⟩

/-- A new thread may come ahead of `x`, but was not selected yet. -/
theorem Window.addReady (h : Window x added selected s) (hindex : s.threadIndex < s.threads.length)
    (hnew : y ∉ added) (hthreads : t.threads = s.threads ++ [y])
    (hsame : t.threadIndex = s.threadIndex) : Window x (y :: added) selected t := by
  obtain ⟨before, behind, hturns, hahead⟩ := h.ahead
  have hcurrent : s.current = some (s.threads.get ⟨_, hindex⟩) := List.getElem?_eq_getElem hindex
  obtain ⟨l₁, l₂, hsplit, hlength, -⟩ := split_of_current hcurrent
  have hturns' := turns_of_split hsplit hlength
  have hafter : t.turns = l₂ ++ y :: (l₁ ++ [s.threads.get ⟨_, hindex⟩]) := by
    rw [hsplit, List.append_assoc] at hthreads
    rw [turns_of_split hthreads (hsame.trans hlength)]
    simp
  rw [hturns, List.append_assoc] at hturns'
  have hsel : y ∉ selected := fun hmem => hnew (h.added hmem)
  refine ⟨?_, h.nodup, List.subset_cons_of_subset y h.added⟩
  obtain ⟨between, hl₂, hrest⟩ | ⟨between, hbefore, hrest⟩ := List.append_eq_append_iff.mp hturns'
  · cases between with
    | nil =>
      rw [List.append_nil] at hl₂
      rw [List.nil_append] at hrest
      refine ⟨before ++ [y], behind, by rw [hafter, hl₂, ← hrest, List.append_assoc]; rfl, ?_⟩
      intro z hz hmem
      obtain hmem | hmem := List.mem_append.mp hmem
      · exact hahead z hz hmem
      · exact hsel (List.mem_singleton.mp hmem ▸ hz)
    | cons z between =>
      obtain ⟨rfl, rfl⟩ := List.cons.inj hrest
      exact ⟨before, _, by rw [hafter, hl₂, List.append_assoc]; rfl, hahead⟩
  · refine ⟨l₂ ++ y :: between, behind, by rw [hafter, hrest, List.append_assoc]; rfl, ?_⟩
    intro z hz hmem
    have hz' := hahead z hz
    rw [hbefore] at hz'
    obtain hmem | hmem := List.mem_append.mp hmem
    · exact hz' (List.mem_append_left _ hmem)
    · obtain rfl | hmem := List.mem_cons.mp hmem
      · exact hsel hz
      · exact hz' (List.mem_append_right _ hmem)

end Window

section Runs

instance (s : SchedState) : ∀ event, Decidable (Schedules s event)
  | .tick => inferInstanceAs (Decidable (_ = _))
  | .objectWait _ _ => inferInstanceAs (Decidable (_ = _))
  | .schedule | .sleep _ => isTrue trivial
  | .addReady _ | .killThread _ | .semaphoreSignal _ | .eventWrite _ _ | .signal _ _ | .enable _ =>
    isFalse id

instance (s : SchedState) : Decidable (NothingInFront s) :=
  inferInstanceAs (Decidable (∀ x ∈ s.threads.take s.threadIndex, _))

/-- The threads that were added, and those that were selected since the watched thread is ready,
the last one first. -/
structure Watch where
  added : List ℕ
  window : Option (List ℕ)

/-- What an event shows to one who watches `x`: the thread that `Schedule` selects in it, and
whether `x` is ready after it. -/
def watch (x : ℕ) (event : Event) : SchedM (Option ℕ × Bool) := do
  let before ← look id
  let _ ← performEvent event
  look fun after => (if Schedules before event then after.current else none,
    decide (x ∈ after.threads ∧ (after.thread x).state = .ready))

def Event.joins : Event → Option ℕ
  | .addReady y => some y
  | _ => none

def noteWatch (hist : Watch) (event : Event) (seen : Option ℕ × Bool) : Watch where
  added := event.joins.toList ++ hist.added
  window := if seen.2 then some (seen.1.toList ++ hist.window.getD []) else none

/-- `Schedule` selects in order, and selects no thread twice while `x` stays ready. -/
def RoundRobin (x : ℕ) (hist : Watch) (s : SchedState) (event : Event) : Prop :=
  ∀ seen t, (watch x event).run s = .ok seen t →
    (Schedules s event → SelectsFirst s t) ∧
      ∀ selected, (noteWatch hist event seen).window = some selected → selected.Nodup

/-- A thread that joins was not there before. -/
def JoinsNew (hist : Watch) (_ : SchedState) (event : Event) : Prop :=
  ∀ y ∈ event.joins, y ∉ hist.added

instance (hist : Watch) (s : SchedState) (event : Event) : Decidable (JoinsNew hist s event) :=
  inferInstanceAs (Decidable (∀ y ∈ event.joins, _))

/-- No terminated thread stands in front of the current one when `Schedule` is executed. -/
def InTurn (hist : Watch) (s : SchedState) (event : Event) : Prop :=
  JoinsNew hist s event ∧ (Schedules s event → NothingInFront s)

instance (hist : Watch) (s : SchedState) (event : Event) : Decidable (InTurn hist s event) :=
  inferInstanceAs (Decidable (_ ∧ _))

variable {hist : Watch} {seen : Option ℕ × Bool}

/-- What is seen of an event. -/
theorem watch_eq_ok (hrun : (watch x event).run s = .ok seen t) :
    (∃ r, (performEvent event).run s = .ok r t) ∧
      seen.1 = (if Schedules s event then t.current else none) ∧
      (seen.2 = true ↔ x ∈ t.threads ∧ (t.thread x).state = .ready) := by
  rw [watch, bind_look] at hrun
  obtain ⟨r, u, hperform, hlook⟩ := bind_eq_ok.mp hrun
  cases hlook
  exact ⟨⟨r, hperform⟩, rfl, decide_eq_true_iff⟩

/-- What is kept between two events. -/
structure Watched (x : ℕ) (hist : Watch) (s : SchedState) : Prop where
  orderly : Orderly hist.added s
  window : ∀ selected, hist.window = some selected → Window x hist.added selected s

/-- The window so far, which is empty when `x` was not ready. -/
theorem Watched.window_getD (h : Watched x hist s) (hx : x ∈ s.threads) :
    Window x hist.added (hist.window.getD []) s := by
  cases hwindow : hist.window with
  | none => exact Window.of_mem hx
  | some selected => exact h.window selected hwindow

/-- The history after an event. -/
theorem Watched.note (horderly : Orderly (event.joins.toList ++ hist.added) t)
    (hwindow : seen.2 = true →
      Window x (event.joins.toList ++ hist.added) (seen.1.toList ++ hist.window.getD []) t) :
    Watched x (noteWatch hist event seen) t := by
  refine ⟨horderly, fun selected hselected => ?_⟩
  rw [noteWatch] at hselected
  by_cases hready : seen.2 = true
  · rw [if_pos hready] at hselected
    cases hselected
    exact hwindow hready
  · rw [if_neg hready] at hselected
    cases hselected

/-- An event that schedules adds no thread. -/
theorem joins_of_schedules (hruns : Schedules s event) : event.joins = none := by
  cases event with
  | addReady y => exact hruns.elim
  | _ => rfl

section

variable (h : Watched x hist s)
include h

/-- An event that executes `Schedule` takes the next turn. -/
theorem Watched.schedules (hfront : NothingInFront s) (hruns : Schedules s event)
    (hrun : (watch x event).run s = .ok seen t) :
    Watched x (noteWatch hist event seen) t ∧ SelectsFirst s t := by
  obtain ⟨⟨r, hperform⟩, hselected, hready⟩ := watch_eq_ok hrun
  obtain ⟨u, hu, -, hschedule⟩ := schedules_eq_ok hruns hperform
  obtain ⟨c, s₁, k, next, hstep⟩ := schedule_eq_ok hschedule
  have horderly : Orderly hist.added u := h.orderly.enter hu
  refine ⟨Watched.note ?_ fun hseen => ?_, hu.selectsFirst (hstep.selectsFirst (hu.nothingInFront hfront))⟩
  · rw [joins_of_schedules hruns]
    exact horderly.schedule hstep
  · obtain ⟨hx, hstate⟩ := hready.mp hseen
    have hmem : x ∈ s.threads := by
      rw [hstep.threads] at hx
      exact hu.threads ▸ List.mem_of_mem_filter hx
    have hwindow : Window x hist.added (hist.window.getD []) u := by
      obtain ⟨hahead, hnodup, hadded⟩ := h.window_getD hmem
      refine ⟨?_, hnodup, hadded⟩
      rw [SchedState.turns, hu.threads, hu.threadIndex]
      exact hahead
    rw [joins_of_schedules hruns, hselected, if_pos hruns, hstep.current_eq]
    exact hwindow.schedule horderly (hu.nothingInFront hfront) hstep hx hstate

/-- A thread that joins does not change the order of the others. -/
theorem Watched.addReady (hnew : y ∉ hist.added) (hrun : (watch x (.addReady y)).run s = .ok seen t) :
    Watched x (noteWatch hist (.addReady y) seen) t := by
  obtain ⟨⟨r, hperform⟩, hselected, hready⟩ := watch_eq_ok hrun
  obtain ⟨_, hadd, rfl⟩ := bind_pure_eq_ok.mp hperform
  obtain ⟨horderly, hthreads, hindex⟩ := h.orderly.addReady hnew hadd
  refine Watched.note horderly fun hseen => ?_
  have hnone : ¬ Schedules s (.addReady y) := id
  rw [hselected]
  cases hwindow : hist.window with
  | none => exact Window.of_mem (hready.mp hseen).1
  | some selected =>
    exact (h.window selected hwindow).addReady h.orderly.index_lt hnew hthreads hindex

/-- Any other event leaves the turns alone. -/
theorem Watched.stay (hruns : ¬ Schedules s event) (hadd : ∀ y, event ≠ .addReady y)
    (hrun : (watch x event).run s = .ok seen t) :
    Watched x (noteWatch hist event seen) t := by
  obtain ⟨⟨r, hperform⟩, hselected, hready⟩ := watch_eq_ok hrun
  obtain ⟨hthreads, hindex, -, hids, hstates⟩ := not_schedules_eq_ok hruns hadd hperform
  have hjoins : event.joins = none := by
    cases event with
    | addReady y => exact absurd rfl (hadd y)
    | _ => rfl
  refine Watched.note ?_ fun hseen => ?_
  · rw [hjoins]
    exact h.orderly.stay hthreads hindex hids hstates
  · have hx : x ∈ s.threads := hthreads ▸ (hready.mp hseen).1
    obtain ⟨hahead, hnodup, hadded⟩ := h.window_getD hx
    rw [hjoins, hselected, if_neg hruns]
    refine ⟨?_, hnodup, hadded⟩
    rw [SchedState.turns, hthreads, hindex]
    exact hahead

/-- Every event in turn keeps the window and selects the first thread. -/
theorem Watched.perform (hturn : InTurn hist s event) (hrun : (watch x event).run s = .ok seen t) :
    Watched x (noteWatch hist event seen) t ∧ (Schedules s event → SelectsFirst s t) := by
  by_cases hruns : Schedules s event
  · obtain ⟨hwatched, hselects⟩ := h.schedules (hturn.2 hruns) hruns hrun
    exact ⟨hwatched, fun _ => hselects⟩
  · refine ⟨?_, fun hschedules => absurd hschedules hruns⟩
    by_cases hadd : ∃ y, event = .addReady y
    · obtain ⟨y, rfl⟩ := hadd
      exact h.addReady (hturn.1 y rfl) hrun
    · exact h.stay hruns (fun y heq => hadd ⟨y, heq⟩) hrun

end

/-- The window after `Init`. -/
theorem Watched.init (boot id ticks : ℕ) (thread : ℕ → KThread) (signal : ℕ → SignalObject)
    (deleted : ℕ → Bool)
    (hinit : (init boot id).run (construct ticks thread signal deleted) = .ok () s) :
    Watched x ⟨[boot], none⟩ s := by
  cases hinit
  refine ⟨⟨Nat.zero_lt_one, List.nodup_singleton _, ?_, fun _ hy => hy⟩, nofun⟩
  intro c hc
  cases hc
  have hboot : (Function.update thread boot { KThread.construct id with state := .running } boot).state =
      .running := by rw [Function.update_self]
  exact fun hready => nomatch hboot.symm.trans hready

end Runs

/-- In every run in which no terminated thread stands in front of the current one when `Schedule`
is executed, `Schedule` selects the first ready thread behind the current one in the vector, and
selects no thread twice while another one stays ready. -/
theorem roundRobin_of_inTurn (x boot id ticks : ℕ) (thread : ℕ → KThread)
    (signal : ℕ → SignalObject) (deleted : ℕ → Bool)
    (hinit : (init boot id).run (construct ticks thread signal deleted) = .ok () s)
    {events : List Event} (hturn : EachCall (watch x) noteWatch InTurn events ⟨[boot], none⟩ s) :
    EachCall (watch x) noteWatch (RoundRobin x) events ⟨[boot], none⟩ s := by
  have hwatched : Watched x ⟨[boot], none⟩ s :=
    Watched.init boot id ticks thread signal deleted hinit
  refine EachCall.of_admissible ?_ ?_ hwatched hturn
  · intro hist s event h hturn seen t hrun
    obtain ⟨hafter, hselects⟩ := h.perform hturn hrun
    exact ⟨hselects, fun selected hselected => (hafter.window selected hselected).nodup⟩
  · exact fun hist s event seen t h hturn hrun => (h.perform hturn hrun).1

/-- Five threads, of which one is killed that stands behind the current one. -/
theorem roundRobin_of_inTurn_five :
    ∃ s, (init 0 1).run (construct 0 (fun t => .construct (t + 1)) (fun _ => .predicate false)
        fun _ => false) = .ok () s ∧
      EachCall (watch 4) noteWatch (RoundRobin 4)
        [.enable true, .addReady 1, .addReady 2, .addReady 3, .addReady 4, .schedule, .schedule,
          .killThread 3, .schedule, .schedule, .schedule] ⟨[0], none⟩ s :=
  ⟨_, rfl, roundRobin_of_inTurn 4 0 1 0 (fun t => .construct (t + 1)) (fun _ => .predicate false)
    (fun _ => false) rfl (by decide +kernel)⟩

/-- A ready thread directly behind the current one is not passed over. -/
theorem SelectsFirst.not_ready {l₁ l₂ : List ℕ} (h : SelectsFirst s t) (hcurrent : s.current = some c)
    (hremaining : s.remaining c = l₁ ++ c :: y :: l₂) (hnodup : (s.remaining c).Nodup) :
    (t.thread y).state ≠ .ready := by
  obtain ⟨c', next, l₁', l₂', passed, rest, hc, -, hsplit, horder, hrunning, hpassed⟩ := h
  cases hc.symm.trans hcurrent
  rw [hremaining] at hsplit hnodup
  have hfront : c ∉ l₁ := fun hmem => List.disjoint_of_nodup_append hnodup hmem List.mem_cons_self
  have hbehind : c ∉ y :: l₂ := (List.nodup_cons.mp (List.nodup_append.mp hnodup).2.1).1
  obtain ⟨rfl, -, rfl⟩ := (List.append_cons_inj_of_notMem hfront hbehind).mp hsplit
  cases passed with
  | nil =>
    rw [(List.cons.inj horder).1, hrunning]
    nofun
  | cons z passed =>
    rw [(List.cons.inj horder).1]
    exact hpassed z List.mem_cons_self

/-- A thread in front of the current one is killed. The index of the current thread then stands for
the thread behind it, and the search starts one thread too far. -/
theorem not_roundRobin :
    ¬ ∀ (x boot id ticks : ℕ) (thread : ℕ → KThread) (signal : ℕ → SignalObject)
      (deleted : ℕ → Bool) (s : SchedState),
      (init boot id).run (construct ticks thread signal deleted) = .ok () s →
      ∀ events : List Event, EachCall (watch x) noteWatch JoinsNew events ⟨[boot], none⟩ s →
        EachCall (watch x) noteWatch (RoundRobin x) events ⟨[boot], none⟩ s := by
  intro hclaim
  have hrobin := hclaim 4 0 1 0 (fun t => .construct (t + 1)) (fun _ => .predicate false)
    (fun _ => false) _ rfl [.enable true, .addReady 1, .addReady 2, .addReady 3, .addReady 4,
      .addReady 5, .schedule, .schedule, .schedule, .killThread 2, .schedule] (by decide +kernel)
  have hselects := (hrobin.2.2.2.2.2.2.2.2.2.2.1 _ _ rfl).1 trivial
  have hskipped := @SelectsFirst.not_ready _ _ 3 4 [0, 1] [5] hselects rfl rfl (by decide +kernel)
  exact absurd rfl hskipped

end Vsos.Sched
