import MyPthread.Sched.State

/-!
# Threads calling the library

One processor, any number of threads, and the calls of `my_pthread.c` statement
by statement.  Each thread has a program counter; the thread that executes takes
the next statement, or enters a call, or is interrupted by the timer.  A call of
`scheduler`, by a thread or by the signal handler, is one step, after which the
thread in `current` executes.

The library runs its allocations under `mem_flag`, where a tick stores `TIMER` in `fc`,
rearms the timer and lets the thread go on; as every request stores its own `fc` before it
calls `scheduler`, such a tick is no step here.  Everywhere else `mem_flag` is 0 and a tick
may come between any two steps.  The body of the loop of `my_pthread_exit` is one step.
-/

namespace MyPthread.Api

open MyPthread.Sched Function

/-- `my_pthread_mutex_t`.  The owner `-1` is no `tid`. -/
structure Mutex where
  mid : ℤ
  locked : ℤ
  tid : ℤ
  readyWaiting : ℤ
deriving DecidableEq, Repr

/-- `exit_node`, and the arguments of a call of `my_pthread_exit`: the `tid` that
exits and its `value_ptr`. -/
abbrev ExitNode := ℕ × ℕ

/-- Statements of `my_pthread_create`. -/
inductive CreatePc where
  | node
  | enqueue (n : ℕ)
  | count
  | call
deriving DecidableEq, Repr

/-- Statements of `my_pthread_yield`. -/
inductive YieldPc where
  | test
  | flag
  | call
deriving DecidableEq, Repr

/-- Statements of `my_pthread_exit`. -/
inductive ExitPc where
  | node (valuePtr : ℕ)
  | flag (e : ExitNode)
  | loop (e : ExitNode) (i : ℕ)
  | push (e : ExitNode)
  | call
  | ret
deriving DecidableEq, Repr

/-- Statements of `my_pthread_join`. -/
inductive JoinPc where
  | list
  | bound (temp : List ExitNode)
  | search (temp : List ExitNode)
  | store
  | flag
  | call
  | ret
deriving DecidableEq, Repr

/-- Statements of `my_pthread_mutex_lock`. -/
inductive LockPc where
  | test
  | flag
  | mid
  | call
  | set
  | tid
  | ready
  | ret
deriving DecidableEq, Repr

/-- Statements of `my_pthread_mutex_unlock`. -/
inductive UnlockPc where
  | test
  | owner
  | clear
  | tid
  | front
  | loop (temp : Option ℕ)
  | found (temp : ℕ)
  | next (temp : ℕ)
  | mid (temp : ℕ)
  | priority (temp : ℕ)
  | ready
  | move
  | ret
deriving DecidableEq, Repr

/-- Where a thread stands: in its own code, or before a statement of a call. -/
inductive Pc where
  | user
  | create (p : CreatePc)
  | yield (p : YieldPc)
  | exit (p : ExitPc)
  | join (thread : ℕ) (p : JoinPc)
  | lock (mutex : ℕ) (p : LockPc)
  | unlock (mutex : ℕ) (p : UnlockPc)
deriving DecidableEq, Repr

/-- The process: the globals of the library and the threads.

The last four fields are history: the calls of `my_pthread_exit` made, the results
of the `my_pthread_join`s that returned 0, the mutexes held (locked by a call that
returned 0 and not unlocked since), and the threads whose `my_pthread_exit` has
called `scheduler`. -/
structure Machine where
  sched : State
  firstThread : Bool
  threadCount : ℕ
  /-- The nodes allocated are those below; node `0` is for the first thread. -/
  nodeCount : ℕ
  exitList : List ExitNode
  mutexes : ℕ → Mutex
  mutexCount : ℕ
  /-- The node of the thread that executes. -/
  running : ℕ
  pc : ℕ → Pc
  exits : List ExitNode
  joins : List ExitNode
  holders : List (ℕ × ℕ)
  gone : List ℕ

namespace Machine

/-- The process before its first `my_pthread_create`.  The queues are empty; in the source
they are made by `createScheduler`, in the first create, and are `NULL` until then. -/
def init : Machine where
  sched := {
    nodes := fun _ ↦ ⟨⟨0, 0, -1, 0, -1⟩, none⟩
    queues := fun _ ↦ ⟨none, none⟩
    current := none
    fc := .first
    maintenanceCount := 0
    memFlag := 0
    itv := 0 }
  firstThread := true
  threadCount := 1
  nodeCount := 1
  exitList := []
  mutexes := fun _ ↦ ⟨-1, 0, -1, 0⟩
  mutexCount := 0
  running := 0
  pc := fun _ ↦ .user
  exits := []
  joins := []
  holders := []
  gone := []

/-- The statement the executing thread is at. -/
abbrev here (m : Machine) : Pc := m.pc m.running

/-- The executing thread goes on at `p`. -/
def goto (p : Pc) (m : Machine) : Machine := { m with pc := update m.pc m.running p }

/-- Change the state of the scheduler. -/
def withSched (m : Machine) (s : State) : Machine := { m with sched := s }

/-- `fc = f`. -/
def setFc (f : FlagCalled) (m : Machine) : Machine := m.withSched { m.sched with fc := f }

/-- Change a mutex. -/
def modifyMutex (k : ℕ) (f : Mutex → Mutex) (m : Machine) : Machine :=
  { m with mutexes := update m.mutexes k (f (m.mutexes k)) }

/-- `setitimer` fails with `EINVAL` for a `tv_usec` of a second or more. -/
def setitimer (usec : ℕ) : ℤ := if usec < 1000000 then 0 else -1

/-- `scheduler()`; afterwards the thread in `current` executes. -/
def callScheduler (m : Machine) : Option Machine := do
  let s ← scheduler setitimer m.nodeCount m.sched
  return { m with sched := s, running := s.current.getD m.running }

/-- `timer_triggered`. -/
def timerTriggered (m : Machine) : Option Machine := (m.setFc .timer).callScheduler

/-- A new `context_node`, in no queue, for a thread with this `tid`. -/
def newNode (n tid : ℕ) (m : Machine) : Machine :=
  m.withSched { m.sched with
    nodes := update m.sched.nodes n ⟨⟨tid, 0, -1, 0, -1⟩, none⟩ }

/-- A statement of `my_pthread_create`.  The first call makes a node for its
caller as well; nothing interrupts it, as the timer has not been set before. -/
def stepCreate (m : Machine) : CreatePc → Option Machine
  | .node =>
    if m.firstThread then do
      let m := (m.newNode m.nodeCount 1).newNode 0 0
      let s ← enqueuee (some m.nodeCount) (.rqs 0) m.sched
      let s ← enqueuee (some 0) (.rqs 0) { s with current := some 0 }
      return ({ m.withSched s with
        firstThread := false, nodeCount := m.nodeCount + 1 }).goto (.create .count)
    else
      let n := m.nodeCount
      some (({ m.newNode n m.threadCount with nodeCount := n + 1 }).goto (.create (.enqueue n)))
  | .enqueue n => do
    let s ← enqueuee (some n) (.rqs 0) m.sched
    return (m.withSched s).goto (.create .count)
  | .count => some ({ m with threadCount := m.threadCount + 1 }.goto (.create .call))
  | .call => (m.goto .user).callScheduler

/-- A statement of `my_pthread_yield`. -/
def stepYield (m : Machine) : YieldPc → Option Machine
  | .test => do
    let c ← m.sched.current
    let f ← (m.sched.queues (.rqs (m.sched.tcb c).threadPriority)).front
    if m.sched.next f = none then return m.goto .user
    else return m.goto (.yield .flag)
  | .flag => some ((m.setFc .yield).goto (.yield .call))
  | .call => (m.goto .user).callScheduler

/-- The body of the loop of `my_pthread_exit`. -/
def exitBody (e : ExitNode) (s : State) : Option State := do
  let (temp, s) := dequeuee .joinQueue s
  let n ← temp
  let c ← s.current
  if (s.tcb n).joinId = (s.tcb c).tid then
    let s := s.modifyTcb n fun t ↦ { t with valuePtr := e.2 }
    enqueuee (some n) (.rqs 0) (s.setPriority n 0)
  else enqueuee (some n) .joinQueue s

/-- A statement of `my_pthread_exit`. -/
def stepExit (m : Machine) : ExitPc → Option Machine
  | .node valuePtr => do
    let c ← m.sched.current
    let e := ((m.sched.tcb c).tid, valuePtr)
    return { m with exits := e :: m.exits }.goto (.exit (.flag e))
  | .flag e => some ((m.setFc .pexit).goto (.exit (.loop e 0)))
  | .loop e i => do
    let count ← getSpecificCount m.nodeCount .joinQueue m.sched
    if i < count then
      let s ← exitBody e m.sched
      return (m.withSched s).goto (.exit (.loop e (i + 1)))
    else return m.goto (.exit (.push e))
  | .push e => some ({ m with exitList := e :: m.exitList }.goto (.exit .call))
  | .call => ({ m with gone := m.running :: m.gone }.goto (.exit .ret)).callScheduler
  | .ret => some (m.goto .user)

/-- `my_pthread_join(thread, &v)` returns 0 with `v`. -/
def joinReturns (thread v : ℕ) (m : Machine) : Machine :=
  { m with joins := (thread, v) :: m.joins }.goto .user

/-- A statement of `my_pthread_join`. -/
def stepJoin (m : Machine) (thread : ℕ) : JoinPc → Option Machine
  | .list => some (m.goto (.join thread (.bound m.exitList)))
  | .bound temp =>
    if m.threadCount - 1 < thread then some (m.goto .user)
    else some (m.goto (.join thread (.search temp)))
  | .search [] => some (m.goto (.join thread .store))
  | .search (e :: temp) =>
    if e.1 = thread then some (m.joinReturns thread e.2)
    else some (m.goto (.join thread (.search temp)))
  | .store => do
    let c ← m.sched.current
    return (m.withSched (m.sched.modifyTcb c fun t ↦ { t with joinId := thread })).goto
      (.join thread .flag)
  | .flag => some ((m.setFc .join).goto (.join thread .call))
  | .call => (m.goto (.join thread .ret)).callScheduler
  | .ret => do
    let c ← m.sched.current
    return m.joinReturns thread (m.sched.tcb c).valuePtr

/-- A statement of `my_pthread_mutex_lock`. -/
def stepLock (m : Machine) (k : ℕ) : LockPc → Option Machine
  | .test =>
    if (m.mutexes k).locked ≠ 0 then some (m.goto (.lock k .flag)) else some (m.goto (.lock k .set))
  | .flag => some ((m.setFc .blocked).goto (.lock k .mid))
  | .mid => do
    let c ← m.sched.current
    return (m.withSched (m.sched.modifyTcb c fun t ↦ { t with mid := (m.mutexes k).mid })).goto
      (.lock k .call)
  | .call => (m.goto (.lock k .test)).callScheduler
  | .set => some ((m.modifyMutex k fun x ↦ { x with locked := 1 }).goto (.lock k .tid))
  | .tid => do
    let c ← m.sched.current
    return (m.modifyMutex k fun x ↦ { x with tid := (m.sched.tcb c).tid }).goto (.lock k .ready)
  | .ready => some ((m.modifyMutex k fun x ↦ { x with readyWaiting := 0 }).goto (.lock k .ret))
  | .ret => some ({ m with holders := (k, m.running) :: m.holders }.goto .user)

/-- A statement of `my_pthread_mutex_unlock`.  The mutex is given up at the store
to `locked`. -/
def stepUnlock (m : Machine) (k : ℕ) : UnlockPc → Option Machine
  | .test =>
    if (m.mutexes k).locked = 0 then some (m.goto .user) else some (m.goto (.unlock k .owner))
  | .owner => do
    let c ← m.sched.current
    if (m.mutexes k).tid ≠ (m.sched.tcb c).tid then return m.goto .user
    else return m.goto (.unlock k .clear)
  | .clear =>
    some ({ m.modifyMutex k (fun x ↦ { x with locked := 0 }) with
      holders := m.holders.filter (· ≠ (k, m.running)) }.goto (.unlock k .tid))
  | .tid => some ((m.modifyMutex k fun x ↦ { x with tid := -1 }).goto (.unlock k .front))
  | .front => some (m.goto (.unlock k (.loop (m.sched.queues .waitingQueue).front)))
  | .loop none => some (m.goto .user)
  | .loop (some n) => some (m.goto (.unlock k (.found n)))
  | .found n =>
    if (m.mutexes k).mid = (m.sched.tcb n).mid then some (m.goto (.unlock k (.mid n)))
    else some (m.goto (.unlock k (.next n)))
  | .next n => some (m.goto (.unlock k (.loop (m.sched.next n))))
  | .mid n =>
    some ((m.withSched (m.sched.modifyTcb n fun t ↦ { t with mid := -1 })).goto
      (.unlock k (.priority n)))
  | .priority n => some ((m.withSched (m.sched.setPriority n 0)).goto (.unlock k .ready))
  | .ready => some ((m.modifyMutex k fun x ↦ { x with readyWaiting := 1 }).goto (.unlock k .move))
  | .move => do
    let s ← requeue .waitingQueue (.rqs 0) m.sched
    return (m.withSched s).goto (.unlock k .ret)
  | .ret => some (m.goto .user)

/-- The next statement of the executing thread. -/
def next (m : Machine) : Option Machine :=
  match m.here with
  | .user => none
  | .create p => m.stepCreate p
  | .yield p => m.stepYield p
  | .exit p => m.stepExit p
  | .join thread p => m.stepJoin thread p
  | .lock k p => m.stepLock k p
  | .unlock k p => m.stepUnlock k p

end Machine

/-- The calls a thread can make. -/
inductive Call where
  | create
  | yield
  | exit (valuePtr : ℕ)
  | join (thread : ℕ)
  | lock (mutex : ℕ)
  | unlock (mutex : ℕ)
deriving DecidableEq, Repr

/-- The first statement of a call. -/
def Call.entry : Call → Pc
  | .create => .create .node
  | .yield => .yield .test
  | .exit valuePtr => .exit (.node valuePtr)
  | .join thread => .join thread .list
  | .lock k => .lock k .test
  | .unlock k => .unlock k .test

/-- Locks and unlocks are of mutexes that are initialised. -/
def Call.Valid (m : Machine) : Call → Prop
  | .lock k | .unlock k => k < m.mutexCount
  | _ => True

instance (m : Machine) (c : Call) : Decidable (c.Valid m) := by
  cases c <;> unfold Call.Valid <;> infer_instance

/-- What happens next. -/
inductive Action where
  /-- The executing thread enters a call. -/
  | call (c : Call)
  /-- It initialises one more mutex. -/
  | init
  /-- It takes the next statement of the call it is in. -/
  | next
  /-- The timer goes off. -/
  | tick
deriving DecidableEq, Repr

namespace Machine

/-- `my_pthread_mutex_init`, of the next mutex. -/
def initMutex (m : Machine) : Machine :=
  { m with
    mutexes := update m.mutexes m.mutexCount ⟨m.mutexCount, 0, -1, 0⟩
    mutexCount := m.mutexCount + 1 }

/-- One step.  `none`: the action cannot happen, or the process faults. -/
def step (m : Machine) : Action → Option Machine
  | .call c => if m.here = .user ∧ c.Valid m then some (m.goto c.entry) else none
  | .init => if m.here = .user then some m.initMutex else none
  | .next => m.next
  | .tick => if m.sched.itv ≠ 0 ∧ m.sched.memFlag = 0 then m.timerTriggered else none

/-- The run of given actions, as long as they satisfy `ok`. -/
def run (ok : Machine → Action → Prop) [∀ m a, Decidable (ok m a)] (m : Machine) :
    List Action → Option Machine
  | [] => some m
  | a :: as => if ok m a then (m.step a).bind (run ok · as) else none

end Machine

/-- The states of the runs from `Machine.init` whose steps all satisfy `ok`. -/
inductive Reachable (ok : Machine → Action → Prop) : Machine → Prop where
  | init : Reachable ok Machine.init
  | step {m m' : Machine} {a : Action} : Reachable ok m → ok m a → m.step a = some m' →
      Reachable ok m'

namespace Reachable

variable {ok ok' : Machine → Action → Prop} {m m' : Machine}

/-- A weaker condition on the steps allows more runs. -/
theorem mono (h : Reachable ok m) (hok : ∀ m a, ok m a → ok' m a) : Reachable ok' m := by
  induction h with
  | init => exact .init
  | step _ ha hs ih => exact .step ih (hok _ _ ha) hs

/-- What holds at first and is kept by every step holds in every state. -/
theorem invariant {P : Machine → Prop} (h : Reachable ok m) (hinit : P Machine.init)
    (hstep : ∀ m a m', P m → ok m a → m.step a = some m' → P m') : P m := by
  induction h with
  | init => exact hinit
  | step _ ha hs ih => exact hstep _ _ _ ih ha hs

/-- A given run ends in a reachable state. -/
theorem run [∀ m a, Decidable (ok m a)] {as : List Action} (h : Reachable ok m)
    (hr : m.run ok as = some m') : Reachable ok m' := by
  induction as generalizing m with
  | nil =>
    cases hr
    exact h
  | cons a as ih =>
    rw [Machine.run] at hr
    split at hr
    · rename_i ha
      obtain ⟨m₁, hs, hr⟩ := Option.bind_eq_some_iff.mp hr
      exact ih (.step h ha hs) hr
    · cases hr

/-- The end of a given run, when it exists. -/
theorem exists_of_run (ok : Machine → Action → Prop) [∀ m a, Decidable (ok m a)]
    (as : List Action) {α : Type} (f : Machine → α) {x : α}
    (hr : (Machine.init.run ok as).map f = some x) : ∃ m, Reachable ok m ∧ f m = x := by
  obtain ⟨m, hm, hx⟩ := Option.map_eq_some_iff.mp hr
  exact ⟨m, Reachable.init.run hm, hx⟩

end Reachable

end MyPthread.Api
