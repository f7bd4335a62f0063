import MyPthread.Lib.Links

/-!
# The run queues and `scheduler`

The globals of `my_pthread.c` that the scheduler works on, and the functions
`enqueuee`, `dequeuee`, `get_specific_count`, `updateQueue` and `scheduler` as
they are written.

Nodes are addressed by numbers.  Every node is created with a thread control
block of its own and keeps it, so the block is a field of the node here.  A
function returns `none` where the code dereferences `NULL` or walks a list
without end.
-/

namespace MyPthread.Sched

open MyPthread.Lib Function

/-- `NUM_PRIORITIES`. -/
abbrev numPriorities : ℕ := 10

/-- `MAINT_CYCLE`. -/
abbrev maintCycle : ℕ := 100

/-- `flagCalled`: why the scheduler was called. -/
inductive FlagCalled where
  | none
  | timer
  | yield
  | pexit
  | join
  | first
  | blocked
deriving DecidableEq, Repr

/-- The fields of `tcb` the scheduling code uses. -/
structure Tcb where
  tid : ℕ
  threadPriority : ℕ
  joinId : ℤ
  valuePtr : ℕ
  mid : ℤ
deriving DecidableEq, Repr

/-- `context_node`. -/
structure ContextNode where
  threadBlock : Tcb
  next : Option ℕ
deriving DecidableEq, Repr

/-- `queue`. -/
structure Queue where
  front : Option ℕ
  back : Option ℕ
deriving DecidableEq, Repr

/-- The queues there are: `running_qs->rqs[i]`, `waiting_queue` and
`join_queue`. -/
inductive QueueId where
  | rqs (i : ℕ)
  | waitingQueue
  | joinQueue
deriving DecidableEq, Repr

/-- The globals of the scheduler.  `itv` is the interval, in microseconds, the
timer was last set to (`0` before the first time). -/
structure State where
  nodes : ℕ → ContextNode
  queues : QueueId → Queue
  current : Option ℕ
  fc : FlagCalled
  maintenanceCount : ℕ
  memFlag : ℤ
  itv : ℕ

namespace State

/-- `n->thread_block`. -/
abbrev tcb (s : State) (n : ℕ) : Tcb := (s.nodes n).threadBlock

/-- The links of the nodes. -/
def next (s : State) : ℕ → Option ℕ := fun n ↦ (s.nodes n).next

/-- `n->next = p`. -/
def setNext (s : State) (n : ℕ) (p : Option ℕ) : State :=
  { s with nodes := update s.nodes n { s.nodes n with next := p } }

/-- Change the thread control block of `n`. -/
def modifyTcb (s : State) (n : ℕ) (f : Tcb → Tcb) : State :=
  { s with nodes := update s.nodes n { s.nodes n with threadBlock := f (s.tcb n) } }

/-- `n->thread_block->thread_priority = p`. -/
def setPriority (s : State) (n p : ℕ) : State :=
  s.modifyTcb n fun t ↦ { t with threadPriority := p }

/-- Store the ends of a queue. -/
def setQueue (s : State) (Q : QueueId) (v : Queue) : State :=
  { s with queues := update s.queues Q v }

end State

/-! ## Queues -/

/-- `enqueuee(enter_thread, Q)`.  Both branches dereference `enter_thread` after
storing it. -/
def enqueuee (enterThread : Option ℕ) (Q : QueueId) (s : State) : Option State := do
  let n ← enterThread
  match (s.queues Q).front with
  | none => return (s.setQueue Q ⟨some n, some n⟩).setNext n none
  | some f =>
    let b ← (s.queues Q).back
    return ((s.setNext b (some n)).setQueue Q ⟨some f, some n⟩).setNext n none

/-- `dequeuee(Q)`.  The back of the queue and the link of the node stay. -/
def dequeuee (Q : QueueId) (s : State) : Option ℕ × State :=
  match (s.queues Q).front with
  | none => (none, s)
  | some n => (some n, s.setQueue Q { s.queues Q with front := s.next n })

/-- `enqueuee(dequeuee(src), dst)`. -/
def requeue (src dst : QueueId) (s : State) : Option State :=
  enqueuee (dequeuee src s).1 dst (dequeuee src s).2

/-- The walk of `get_specific_count` from `temp`.  A walk that is not over after
`fuel` nodes never ends. -/
def countFrom (s : State) : ℕ → Option ℕ → Option ℕ
  | _, none => some 0
  | 0, some _ => none
  | fuel + 1, some n => (countFrom s fuel (s.next n)).map (· + 1)

/-- `get_specific_count(Q)`. -/
def getSpecificCount (fuel : ℕ) (Q : QueueId) (s : State) : Option ℕ :=
  countFrom s fuel (s.queues Q).front

/-! ## `updateQueue` -/

/-- `temp->thread_block->thread_priority = 0` for all nodes from `temp`. -/
def resetFrom : ℕ → Option ℕ → State → Option State
  | _, none, s => some s
  | 0, some _, _ => none
  | fuel + 1, some n, s => resetFrom fuel ((s.setPriority n 0).next n) (s.setPriority n 0)

/-- "move oldest (lowest priority) threads to the end of the highest priority
queue". -/
def splice (fuel : ℕ) (s : State) : Option State := do
  let highest := s.queues (.rqs 0)
  let lowest := s.queues (.rqs (numPriorities - 1))
  if lowest.front = none then return s
  let s ←
    if highest.front ≠ none then do
      let b ← highest.back
      pure ((s.setNext b lowest.front).setQueue (.rqs 0) ⟨highest.front, lowest.back⟩)
    else pure (s.setQueue (.rqs 0) ⟨lowest.front, lowest.back⟩)
  let s := s.setQueue (.rqs (numPriorities - 1)) ⟨none, none⟩
  resetFrom fuel (s.queues (.rqs 0)).front s

/-- The end of `updateQueue`, every `MAINT_CYCLE` schedulings. -/
def maintain (fuel : ℕ) (s : State) : Option State :=
  if maintCycle < s.maintenanceCount then splice fuel { s with maintenanceCount := 0 } else some s

/-- The `switch` of `updateQueue` for the requests that move `current`. -/
def serve (s : State) : Option State := do
  let c ← s.current
  let p := (s.tcb c).threadPriority
  match s.fc with
  | .timer =>
    if p < numPriorities - 1 then
      let s ← requeue (.rqs p) (.rqs (p + 1)) (s.setPriority c (p + 1))
      return { s with fc := .none }
    else
      let s ← requeue (.rqs p) (.rqs p) s
      return { s with fc := .none }
  | .yield =>
    let s ← requeue (.rqs p) (.rqs p) s
    return { s with fc := .none }
  | .pexit => return { (dequeuee (.rqs p) s).2 with current := none }
  | .join =>
    let s ← requeue (.rqs p) .joinQueue s
    return { s with fc := .none }
  | .blocked =>
    let s ← requeue (.rqs p) .waitingQueue s
    return { s with fc := .none }
  | .none | .first => return s

/-- `updateQueue()`: whether the current thread should resume, and the queues. -/
def updateQueue (fuel : ℕ) (s : State) : Option (Bool × State) :=
  match s.fc with
  | .none => some (true, s)
  | .first => some (false, s)
  | _ => do
    let s ← serve s
    let s ← maintain fuel s
    return (false, s)

/-! ## `scheduler` -/

/-- `for (; i < NUM_PRIORITIES; i++)` up to the first queue with a front, which
becomes `new_context`.  Returns the index it stopped at; with no round left,
`new_context` is as it was. -/
def scan (s : State) : ℕ → ℕ → Option ℕ → ℕ × Option ℕ
  | 0, i, newContext => (i, newContext)
  | k + 1, i, _ =>
    match (s.queues (.rqs i)).front with
    | some n => (i, some n)
    | none => scan s k (i + 1) none

/-- `(25 + 25 * t) * 1000`. -/
def quantum (t : ℕ) : ℕ := (25 + 25 * t) * 1000

/-- The choice of `scheduler` when the first thread found is the current one:
the next of its level, or the first of a lower one, or itself; and the rotation
of its level. -/
def avoidCurrent (c i newContext : ℕ) (s : State) : Option (ℕ × State) := do
  let found :=
    match s.next newContext with
    | some n => some n
    | none => (scan s (numPriorities - (i + 1)) (i + 1) (some newContext)).2
  let p := (s.tcb c).threadPriority
  let s ← requeue (.rqs p) (.rqs p) s
  return (found.getD c, s)

/-- The switch at the end of `scheduler`.  `swapcontext` needs the context of the
old thread. -/
def switchTo (newContext : ℕ) (s : State) : Option State :=
  if s.fc = .pexit then some { s with fc := .none, current := some newContext }
  else do
    let _ ← s.current
    return { s with current := some newContext }

/-- The thread that runs next when the scan found `newContext` at level `i`. -/
def resolve (i newContext : ℕ) (s : State) : Option (ℕ × State) :=
  match s.current with
  | some c =>
    if (s.tcb newContext).tid = (s.tcb c).tid then avoidCurrent c i newContext s
    else some (newContext, s)
  | none => some (newContext, s)

/-- Set the timer to the quantum of `newContext` and switch to it. -/
def dispatch (setitimer : ℕ → ℤ) (newContext : ℕ) (s : State) : Option State :=
  let s := { s with itv := quantum (s.tcb newContext).threadPriority }
  if setitimer s.itv = -1 then some s else switchTo newContext s

/-- `scheduler` once the queues are updated.  With all queues empty it returns. -/
def select (setitimer : ℕ → ℤ) (s : State) : Option State :=
  match scan s numPriorities 0 none with
  | (_, none) => some s
  | (i, some newContext) => do
    let (newContext, s) ← resolve i newContext s
    dispatch setitimer newContext s

/-- `scheduler()`.  On return `current` is the thread that runs: the caller, if
the code returns or switches to it.  The loop over `rqs[0]` before the selection
has lost its `printf`, but still has to end. -/
def scheduler (setitimer : ℕ → ℤ) (fuel : ℕ) (s : State) : Option State :=
  if s.memFlag ≠ 0 then do
    let c ← s.current
    return { s with itv := quantum (s.tcb c).threadPriority }
  else do
    let (resume, s) ← updateQueue fuel s
    if resume then return s
    let _ ← getSpecificCount fuel (.rqs 0) s
    select setitimer { s with maintenanceCount := (s.maintenanceCount + 1) % 2 ^ 32 }

end MyPthread.Sched
