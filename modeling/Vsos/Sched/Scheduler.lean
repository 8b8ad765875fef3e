import Vsos.Lib.Memory
import Vsos.Lib.Program

/-!
# The scheduler

The scheduler keeps a vector of pointers to threads and the index of the thread that runs. Each
call of `Schedule` goes over the vector three times: it drops terminated threads, wakes threads
whose time has come or whose object is signalled, and looks for the next ready thread. The switch
of the processor's context is the last thing it does, so a call ends in the next thread.

Every call runs to its end here, with no tick of the timer inside it. `Scheduler.cpp` masks no
interrupts, so this is an assumption about its callers: a tick in the middle of a call would run
`Schedule` on a vector that is about to change. All results about runs of the scheduler rest on it.
-/

namespace Vsos.Sched

open Vsos.Lib

/-- `ThreadState`. -/
inductive ThreadState where
  | ready
  | running
  | signalWait
  | sleeping
  | terminated
  deriving DecidableEq, Repr

/-- `WaitStatus`. -/
inductive WaitStatus where
  | none
  | signaled
  | timeout
  | abandoned
  | brokenPipe
  deriving DecidableEq, Repr

/-- The objects that a thread can wait for. A process and a `KPredicate` are signalled as their
predicate says; the limit of a `KSemaphore` is never read. -/
inductive SignalObject where
  | predicate (value : Bool)
  | semaphore (value : ℤ)
  | event (manualReset state : Bool)
  deriving DecidableEq, Repr

/-- `IsSignalled`. -/
def SignalObject.isSignalled : SignalObject → Bool
  | .predicate value => value
  | .semaphore value => 0 < value
  | .event _ state => state

/-- The fields of a `KThread` that the scheduler uses; `userThread` and `signal` are pointers. -/
structure KThread where
  id : ℕ
  userThread : Option ℕ
  state : ThreadState
  waitStatus : WaitStatus
  timeout : ℕ
  signal : Option ℕ
  deriving DecidableEq, Repr

/-- The constructor of `KThread`. -/
def KThread.construct (id : ℕ) : KThread := ⟨id, Option.none, .ready, .none, 0, Option.none⟩

/-- The scheduler with the objects that its pointers lead to: the threads, the objects they wait
for and the flag `Deleted` of the user threads. The code does not keep `granted`, the waits that
were answered with `Signaled`, each with its thread and its object. -/
structure SchedState where
  enabled : Bool
  threadIndex : ℕ
  threads : List ℕ
  cpuThread : Option ℕ
  ticks : ℕ
  thread : ℕ → KThread
  signal : ℕ → SignalObject
  deleted : ℕ → Bool
  granted : List (ℕ × ℕ)

abbrev SchedM := Prog SchedState

/-- `1000 / APIC_TICKS_PER_SEC`. -/
def msPerTick : ℕ := 10

/-- `Second / APIC_TICKS_PER_SEC`. -/
def nsPerTick : ℕ := 10000000

/-- The constructor of `Scheduler`. -/
def construct (ticks : ℕ) (thread : ℕ → KThread) (signal : ℕ → SignalObject) (deleted : ℕ → Bool) :
    SchedState :=
  ⟨false, 0, [], none, ticks, thread, signal, deleted, []⟩

/-- A change of one thread. -/
def SchedState.setThread (s : SchedState) (t : ℕ) (g : KThread → KThread) : SchedState :=
  { s with thread := Function.update s.thread t (g (s.thread t)) }

def setThread (t : ℕ) (g : KThread → KThread) : SchedM Unit := change fun s => s.setThread t g

def setSignal (object : ℕ) (value : SignalObject) : SchedM Unit :=
  change fun s => { s with signal := Function.update s.signal object value }

/-- The entry of the vector at an index. -/
def threadAt (index : ℕ) : SchedM ℕ := do
  match (← look SchedState.threads)[index]? with
  | some t => return t
  | none => throw .fault

/-- `Scheduler::GetCurrentThread`. -/
def getCurrentThread : SchedM ℕ := do
  let index ← look SchedState.threadIndex
  ensure (index < (← look SchedState.threads).length)
  threadAt index

/-- `Scheduler::Init`, with the pointer and the identifier of the boot thread. -/
def init (boot id : ℕ) : SchedM Unit := do
  setThread boot fun _ => { KThread.construct id with state := .running }
  change fun s => { s with threads := s.threads ++ [boot] }

/-- `Observed`. -/
def observed (object : ℕ) : SchedM Unit := do
  match ← look fun s => s.signal object with
  | .predicate _ => return ()
  | .semaphore value => do
    ensure (0 < value)
    setSignal object (.semaphore (value - 1))
  | .event manualReset state => do
    ensure (state = true)
    if manualReset then return () else setSignal object (.event manualReset false)

/-- The wait of a thread for an object is answered with `Signaled`. -/
def grant (t object : ℕ) : SchedM Unit := do
  change fun s => { s with granted := (t, object) :: s.granted }
  observed object

/-- The check of a user thread before its thread is dropped. -/
def ensureDeleted (user : Option ℕ) : SchedM Unit := do
  match user with
  | some user => ensure ((← look SchedState.deleted) user = true)
  | none => return ()

/-- The terminated threads except for the current one leave the vector. -/
def purge (currentId : ℕ) : List ℕ → SchedM (List ℕ)
  | [] => return []
  | t :: rest => do
    let thread ← look fun s => s.thread t
    if thread.state = .terminated ∧ thread.id ≠ currentId then do
      ensureDeleted thread.userThread
      purge currentId rest
    else do
      let kept ← purge currentId rest
      return t :: kept

/-- Wake a thread whose time has come or whose object is signalled. -/
def updateStatus (tsc t : ℕ) : SchedM Unit := do
  let thread ← look fun s => s.thread t
  match thread.state with
  | .sleeping => do
    ensure (thread.timeout ≠ 0)
    if thread.timeout ≤ tsc then
      setThread t fun x => { x with timeout := 0, state := .ready, waitStatus := .none }
    else return ()
  | .signalWait => do
    match thread.signal with
    | none => throw .fault
    | some object =>
      if thread.timeout ≤ tsc then
        setThread t fun x => { x with timeout := 0, state := .ready, waitStatus := .timeout }
      else if ← look fun s => (s.signal object).isSignalled then do
        setThread t fun x =>
          { x with timeout := 0, signal := none, state := .ready, waitStatus := .signaled }
        grant t object
      else return ()
  | _ => return ()

def updateStatuses (tsc : ℕ) : List ℕ → SchedM Unit
  | [] => return ()
  | t :: rest => do
    updateStatus tsc t
    updateStatuses tsc rest

/-- The current thread stops running if it has not blocked. -/
def markReady (current : ℕ) : SchedM Unit := do
  if (← look fun s => (s.thread current).state) = .running then
    setThread current fun x => { x with state := .ready }
  else return ()

/-- The search for the next ready thread. Nothing else changes in it, so it goes on for ever if it
has not ended after one round. -/
def selectLoop : ℕ → SchedM Unit
  | 0 => throw .diverged
  | fuel + 1 => do
    change fun s => { s with threadIndex := (s.threadIndex + 1) % s.threads.length }
    let t ← threadAt (← look SchedState.threadIndex)
    if (← look fun s => (s.thread t).state) = .ready then return () else selectLoop fuel

/-- The thread at the index runs. Of the switch of the processor, only the pointer to the thread
in the processor's block is kept. -/
def runNext (currentId : ℕ) : SchedM Unit := do
  let next ← threadAt (← look SchedState.threadIndex)
  setThread next fun x => { x with state := .running }
  if (← look fun s => (s.thread next).id) = currentId then return ()
  else change fun s => { s with cpuThread := some next }

/-- `Scheduler::Schedule`. -/
def schedule : SchedM Unit := do
  ensure ((← look SchedState.enabled) = true)
  let tsc ← look SchedState.ticks
  let current ← getCurrentThread
  let currentId ← look fun s => (s.thread current).id
  let kept ← purge currentId (← look SchedState.threads)
  change fun s => { s with threads := kept }
  updateStatuses tsc kept
  markReady current
  selectLoop kept.length
  runNext currentId

/-- `Scheduler::KillThread`. -/
def killThread (t : ℕ) : SchedM Unit := do
  setThread t fun x => { x with state := .terminated }
  match ← look fun s => (s.thread t).userThread with
  | some user => change fun s => { s with deleted := Function.update s.deleted user true }
  | none => return ()

/-- No thread of the vector has the identifier. -/
def ensureNew (id : ℕ) : List ℕ → SchedM Unit
  | [] => return ()
  | t :: rest => do
    ensure ((← look fun s => (s.thread t).id) ≠ id)
    ensureNew id rest

/-- `Scheduler::AddReady`. -/
def addReady (t : ℕ) : SchedM Unit := do
  setThread t fun x => { x with state := .ready }
  ensureNew (← look fun s => (s.thread t).id) (← look SchedState.threads)
  change fun s => { s with threads := s.threads ++ [t] }

/-- `Scheduler::Sleep`. -/
def sleep (value : ℕ) : SchedM Unit := do
  let current ← getCurrentThread
  let tscStart ← look SchedState.ticks
  let deadline := wrap64 (tscStart + value / nsPerTick)
  setThread current fun x => { x with timeout := deadline, state := .sleeping }
  schedule

/-- `Scheduler::ObjectWait`. A thread that has to wait gets its status when it runs again. -/
def objectWait (object timeout : ℕ) : SchedM (Option WaitStatus) := do
  let current ← getCurrentThread
  ensure ((← look fun s => (s.thread current).state) = .running)
  ensure ((← look fun s => (s.thread current).signal) = none)
  if ← look fun s => (s.signal object).isSignalled then do
    grant current object
    return some .signaled
  else do
    let tscStart ← look SchedState.ticks
    let roundedTicks := wrap64 (timeout + (msPerTick - 1)) / msPerTick
    let deadline := wrap64 (tscStart + roundedTicks)
    setThread current fun x =>
      { x with state := .signalWait, signal := some object, timeout := deadline }
    schedule
    return none

/-- `Clock::OnAPICTimerTick` with `Scheduler::onTimerTick`. -/
def timerTick : SchedM Unit := do
  change fun s => { s with ticks := wrap64 (s.ticks + 1) }
  if ← look SchedState.enabled then schedule else return ()

/-- `KSemaphore::Signal`. -/
def semaphoreSignal (object : ℕ) : SchedM Unit := do
  match ← look fun s => s.signal object with
  | .semaphore value => setSignal object (.semaphore (Int.bmod (value + 1) (2 ^ 32)))
  | _ => throw .fault

/-- `KEvent::Set` and `KEvent::Reset`. -/
def eventWrite (object : ℕ) (state : Bool) : SchedM Unit := do
  match ← look fun s => s.signal object with
  | .event manualReset _ => setSignal object (.event manualReset state)
  | _ => throw .fault

/-- What happens to the scheduler. Next to the calls on its objects, `signal` is any other change
of one of them. -/
inductive Event where
  | addReady (t : ℕ)
  | tick
  | schedule
  | sleep (value : ℕ)
  | objectWait (object timeout : ℕ)
  | killThread (t : ℕ)
  | semaphoreSignal (object : ℕ)
  | eventWrite (object : ℕ) (state : Bool)
  | signal (object : ℕ) (value : SignalObject)
  | enable (on : Bool)
  deriving DecidableEq, Repr

def performEvent : Event → SchedM (Option WaitStatus)
  | .addReady t => do addReady t; return none
  | .tick => do timerTick; return none
  | .schedule => do schedule; return none
  | .sleep value => do sleep value; return none
  | .objectWait object timeout => objectWait object timeout
  | .killThread t => do killThread t; return none
  | .semaphoreSignal object => do semaphoreSignal object; return none
  | .eventWrite object state => do eventWrite object state; return none
  | .signal object value => do setSignal object value; return none
  | .enable on => do change fun s => { s with enabled := on }; return none

end Vsos.Sched
