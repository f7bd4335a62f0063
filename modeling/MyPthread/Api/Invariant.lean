import MyPthread.Api.Flow

/-!
# The queues over a run

Which runs keep the run queues, the waiting queue and the join queue as the
scheduler needs them, and what holds in their states.

`Careful` is the condition on a step.  `Inv m q` says that the queues of `m` are
the lists `q`, where the executing thread is in them (`Mode`), and what each
thread knows at its statement (`ThreadOk`): what a join found or was woken with,
and what an exit has promised.
-/

namespace MyPthread.Api

open MyPthread.Sched Function

namespace Pc

/-- The request stored in `fc` and not yet served. -/
def stored : Pc → Option FlagCalled
  | .yield .call => some .yield
  | .exit (.loop _ _) | .exit (.push _) | .exit .call => some .pexit
  | .join _ .call => some .join
  | .lock _ .mid | .lock _ .call => some .blocked
  | _ => none

/-- The stretches a tick must not cut: from the store to `fc` to the call of
`scheduler` (in a lock, from the test), from reading `threadCount` to incrementing
it, and from the search for a waiter to its move. -/
def uncut : Pc → Bool
  | .create (.enqueue _) | .create .count => true
  | .yield .call => true
  | .exit (.loop _ _) | .exit (.push _) | .exit .call => true
  | .join _ .call => true
  | .lock _ .flag | .lock _ .mid | .lock _ .call => true
  | .unlock _ (.loop _) | .unlock _ (.found _) | .unlock _ (.next _) | .unlock _ (.mid _) => true
  | .unlock _ (.priority _) | .unlock _ .ready | .unlock _ .move => true
  | _ => false

/-- Between the first statement of an exit and its call of `scheduler`. -/
def exiting : Pc → Bool
  | .exit (.flag _) | .exit (.loop _ _) | .exit (.push _) | .exit .call => true
  | _ => false

/-- The statements before a call needs `current`. -/
def early : Pc → Bool
  | .user | .create _ | .yield .test | .exit (.node _) | .exit .ret => true
  | .join _ .list | .join _ (.bound _) | .join _ (.search _) | .join _ .store => true
  | .lock _ .test | .lock _ .flag | .lock _ .mid | .lock _ .set | .lock _ .tid => true
  | .unlock _ .test | .unlock _ .owner => true
  | _ => false

/-- The statements of the loop of a lock. -/
def blocking : Pc → Bool
  | .lock _ .test | .lock _ .flag | .lock _ .mid | .lock _ .call => true
  | _ => false

/-- The statements of `my_pthread_create`. -/
def isCreate : Pc → Bool
  | .create _ => true
  | _ => false

theorem stored_of_uncut {p : Pc} (h : p.uncut = false) : p.stored = none := by
  unfold stored
  split <;> first | rfl | cases h

theorem inCreate_of_uncut {p : Pc} (h : p.uncut = false) : p.inCreate = false := by
  unfold inCreate
  split <;> first | rfl | cases h

end Pc

/-- Some thread other than the executing one is in a run queue. -/
def Machine.hasOther (m : Machine) : Bool :=
  (List.range numPriorities).any fun i ↦
    match (m.sched.queues (.rqs i)).front with
    | none => false
    | some n => decide (n ≠ m.running) || (m.sched.next n).isSome

/-- The condition on a step: a tick cuts no stretch, a join that blocks leaves a
thread to run, and an unlock finds the waiter of its mutex at the front of the
waiting queue. -/
def Careful (m : Machine) : Action → Prop
  | .tick => m.here.uncut = false
  | .next =>
    match m.here with
    | .join _ .call => m.hasOther = true
    | .unlock k (.found n) => (m.mutexes k).mid = (m.sched.tcb n).mid →
        (m.sched.queues .waitingQueue).front = some n
    | _ => True
  | _ => True

/-- What the thread `n` knows at its statement. -/
def ThreadOk (exits : List ExitNode) (q : Mlfq) (s : State) (n : ℕ) : Pc → Prop
  | .join _ (.bound temp) | .join _ (.search temp) => ∀ e ∈ temp, e ∈ exits
  | .join t .flag | .join t .call => (s.tcb n).joinId = t
  | .join t .ret => (n ∈ q .joinQueue → (s.tcb n).joinId = t) ∧
      (n ∉ q .joinQueue → (t, (s.tcb n).valuePtr) ∈ exits)
  | .exit (.flag e) | .exit (.loop e _) | .exit (.push e) => e ∈ exits ∧ e.1 = n
  | _ => True

/-- What the executing thread has read and is about to act on. -/
def Pending (m : Machine) (q : Mlfq) : Pc → Prop
  | .create (.enqueue n) => ¬q.Mem n ∧ (m.sched.tcb n).threadPriority = 0 ∧
      (∀ e ∈ m.exits, e.1 ≠ n) ∧ n ∉ m.gone
  | .lock k .flag | .lock k .mid | .lock k .call => (m.mutexes k).locked ≠ 0
  | .unlock _ (.mid n) | .unlock _ (.priority n) => (q .waitingQueue).head? = some n
  | .unlock _ .ready | .unlock _ .move =>
    ∃ n, (q .waitingQueue).head? = some n ∧ (m.sched.tcb n).threadPriority = 0
  | _ => True

/-- No thread has been created. -/
structure Boot (m : Machine) (q : Mlfq) : Prop where
  first : m.firstThread = true
  current : m.sched.current = none
  early : m.here.early = true
  create : m.here.isCreate = true → m.here = .create .node
  fc : m.sched.fc = .first ∨ ∃ k, m.here = .lock k .mid
  itv : m.sched.itv = 0
  empty : ∀ Q, q Q = []
  exits : m.exits = []
  gone : m.gone = []

/-- The first thread has been created, and the timer is not set. -/
structure Launch (m : Machine) (q : Mlfq) : Prop where
  first : m.firstThread = false
  current : m.sched.current = some m.running
  mem : m.running ∈ q (.rqs 0)
  fc : m.sched.fc = .first
  itv : m.sched.itv = 0
  here : m.here = .create .count ∨ m.here = .create .call

/-- The executing thread is at the front of its level `p`. -/
structure Active (m : Machine) (q : Mlfq) (p : ℕ) : Prop where
  first : m.firstThread = false
  current : m.sched.current = some m.running
  head : (q (.rqs p)).head? = some m.running
  stored : ∀ r, m.here.stored = some r → m.sched.fc = r
  fc : m.here.stored = none → m.sched.fc = .none ∨ m.sched.fc = .first

/-- The executing thread is in the waiting queue of the mutex `k` and about to
block once more; no thread can run. -/
structure Stuck (m : Machine) (q : Mlfq) (k : ℕ) : Prop where
  first : m.firstThread = false
  current : m.sched.current = some m.running
  runnable : ∀ i, q (.rqs i) = []
  waiting : m.running ∈ q .waitingQueue
  locked : (m.mutexes k).locked ≠ 0
  here : m.here = .lock k .test ∨ m.here = .lock k .flag ∨
    (m.here = .lock k .mid ∨ m.here = .lock k .call) ∧ m.sched.fc = .blocked

/-- The executing thread has exited, and no thread is left. -/
structure Finished (m : Machine) (q : Mlfq) : Prop where
  first : m.firstThread = false
  current : m.sched.current = none
  early : m.here.early = true
  fc : m.sched.fc ≠ .none ∧ m.sched.fc ≠ .first
  runnable : (∀ i, q (.rqs i) = []) ∨ m.here.isCreate = true
  gone : m.running ∈ m.gone

/-- Where the executing thread is. -/
inductive Mode (m : Machine) (q : Mlfq) : Prop where
  | boot : Boot m q → Mode m q
  | launch : Launch m q → Mode m q
  | active (p : ℕ) : Active m q p → Mode m q
  | stuck (k : ℕ) : Stuck m q k → Mode m q
  | finished : Finished m q → Mode m q

/-- What holds in the states of careful runs. -/
structure Inv (m : Machine) (q : Mlfq) : Prop where
  flow : Flow m
  linked : Linked m.sched q
  wf : q.WF
  priority : ∀ i, ∀ n ∈ q (.rqs i), (m.sched.tcb n).threadPriority = i
  memFlag : m.sched.memFlag = 0
  alloc : ∀ n, q.Mem n → n < m.nodeCount
  uncut : ∀ n, n ≠ m.running → (m.pc n).uncut = false
  joining : ∀ n ∈ q .joinQueue, ∃ t, m.pc n = .join t .ret
  threads : ∀ n, ThreadOk m.exits q m.sched n (m.pc n)
  pending : Pending m q m.here
  exitList : ∀ e ∈ m.exitList, e ∈ m.exits
  joins : ∀ e ∈ m.joins, e ∈ m.exits
  exits : ∀ e ∈ m.exits, e.1 < m.nodeCount ∧ (q.Mem e.1 → (m.pc e.1).exiting = true)
  nodup : (m.exits.map Prod.fst).Nodup
  gone : ∀ n ∈ m.gone, n < m.nodeCount ∧ ¬q.Mem n
  mode : Mode m q

section Inv

variable {m m' : Machine} {q q' : Mlfq} {p : Pc} {n r : ℕ}

/-- Node `n` is thread `n`, so tids are distinct. -/
theorem Flow.tids (hf : Flow m) (ha : ∀ n, q.Mem n → n < m.nodeCount) :
    ∀ n k, q.Mem n → q.Mem k → (m.sched.tcb n).tid = (m.sched.tcb k).tid → n = k := by
  intro n k hn hk h
  rwa [hf.tid n (ha n hn), hf.tid k (ha k hk)] at h

theorem Inv.rep (hi : Inv m q) : Represents m.sched q :=
  ⟨hi.linked, hi.wf, hi.priority, hi.flow.tids hi.alloc⟩

/-- The executing thread is not one that joins. -/
theorem Inv.running_notMem_joinQueue (hi : Inv m q) : m.running ∉ q .joinQueue := by
  intro hj
  cases hi.mode with
  | boot h =>
    rw [h.empty] at hj
    cases hj
  | launch h => exact nomatch hi.wf.disjoint hj h.mem
  | active p h => exact nomatch hi.wf.disjoint hj (List.mem_of_head? h.head)
  | stuck k h => exact nomatch hi.wf.disjoint hj h.waiting
  | finished h => exact (hi.gone _ h.gone).2 ⟨_, hj⟩

/-- What a thread knows stays true. -/
theorem ThreadOk.mono {exits exits' : List ExitNode} {s s' : State}
    (h : ThreadOk exits q s n p) (he : ∀ e ∈ exits, e ∈ exits')
    (hq : n ∈ q' .joinQueue ↔ n ∈ q .joinQueue)
    (hj : (s'.tcb n).joinId = (s.tcb n).joinId) (hv : (s'.tcb n).valuePtr = (s.tcb n).valuePtr) :
    ThreadOk exits' q' s' n p := by
  unfold ThreadOk at h ⊢
  split <;> simp only at h
  · exact fun e hm ↦ he e (h e hm)
  · exact fun e hm ↦ he e (h e hm)
  · rwa [hj]
  · rwa [hj]
  · rw [hj, hv, hq]
    exact ⟨h.1, fun hn ↦ he _ (h.2 hn)⟩
  · exact ⟨he _ h.1, h.2⟩
  · exact ⟨he _ h.1, h.2⟩
  · exact ⟨he _ h.1, h.2⟩
  · trivial

theorem pending_of_uncut (h : p.uncut = false) : Pending m q p := by
  unfold Pending
  split <;> trivial

/-- A statement that needs `current` finds its thread active, or stuck in the loop
of a lock. -/
theorem Inv.active_or_stuck (hi : Inv m q)
    (h : m.here.early = false ∨ m.sched.current ≠ none ∧ m.here.isCreate = false) :
    (∃ p, Active m q p) ∨ ∃ k, Stuck m q k := by
  cases hi.mode with
  | boot hm =>
    rcases h with h | h
    · rw [hm.early] at h
      cases h
    · exact absurd hm.current h.1
  | launch hm =>
    rcases h with h | h <;> rcases hm.here with hh | hh <;> rw [hh] at h
    · cases h
    · cases h
    · cases h.2
    · cases h.2
  | active p hm => exact .inl ⟨p, hm⟩
  | stuck k hm => exact .inr ⟨k, hm⟩
  | finished hm =>
    rcases h with h | h
    · rw [hm.early] at h
      cases h
    · exact absurd hm.current h.1

theorem Inv.exists_active (hi : Inv m q)
    (h : m.here.early = false ∨ m.sched.current ≠ none ∧ m.here.isCreate = false)
    (hb : m.here.blocking = false) : ∃ p, Active m q p := by
  rcases hi.active_or_stuck h with h | ⟨k, h⟩
  · exact h
  · rcases h.here with hh | hh | ⟨hh | hh, -⟩ <;> rw [hh] at hb <;> cases hb

/-- What no statement changes but a call of `scheduler` and the creation of a
thread; the executing thread goes on at `p`. -/
structure Statement (m m' : Machine) (p : Pc) : Prop where
  pc : m'.pc = update m.pc m.running p
  running : m'.running = m.running
  firstThread : m'.firstThread = m.firstThread
  nodeCount : m.nodeCount ≤ m'.nodeCount
  current : m'.sched.current = m.sched.current
  memFlag : m'.sched.memFlag = m.sched.memFlag
  itv : m'.sched.itv = m.sched.itv
  gone : m'.gone = m.gone

theorem Statement.here (h : Statement m m' p) : m'.here = p := by
  rw [Machine.here, h.running, h.pc, update_self]

theorem Statement.pc_of_ne (h : Statement m m' p) (hn : n ≠ m.running) : m'.pc n = m.pc n := by
  rw [h.pc, update_of_ne hn]

/-- The executing thread stays active at its next statement. -/
theorem Active.step (h : Active m q r) (hs : Statement m m' p)
    (hhead : (q' (.rqs r)).head? = (q (.rqs r)).head?) (hst : m.here.stored = p.stored)
    (hfc : m'.sched.fc = m.sched.fc) : Active m' q' r := by
  refine ⟨hs.firstThread.trans h.first, ?_, ?_, ?_, ?_⟩
  · rw [hs.current, hs.running]
    exact h.current
  · rw [hs.running, hhead]
    exact h.head
  · rw [hs.here, ← hst, hfc]
    exact h.stored
  · rw [hs.here, ← hst, hfc]
    exact h.fc

/-- The executing thread stays active when it stores its request. -/
theorem Active.store {f : FlagCalled} (h : Active m q r) (hs : Statement m m' p)
    (hst : p.stored = some f) (hfc : m'.sched.fc = f) : Active m' q r := by
  refine ⟨hs.firstThread.trans h.first, ?_, ?_, ?_, ?_⟩
  · rw [hs.current, hs.running]
    exact h.current
  · rw [hs.running]
    exact h.head
  · rw [hs.here, hst, hfc]
    exact fun _ h ↦ Option.some.inj h
  · rw [hs.here, hst]
    exact fun h ↦ nomatch h

/-- A statement that reads no `current`, outside creations and the loops of locks. -/
theorem Mode.step (h : Mode m q) (hs : Statement m m' p) (hst : m.here.stored = p.stored)
    (hfc : m'.sched.fc = m.sched.fc) (hexits : m'.exits = m.exits)
    (hb : m.here.blocking = false) (hc : m.here.isCreate = false)
    (he : m.here.early = true → p.early = true ∧ (p.isCreate = true → p = .create .node)) :
    Mode m' q := by
  cases h with
  | boot h =>
    obtain ⟨hp, hn⟩ := he h.early
    refine .boot ⟨hs.firstThread.trans h.first, hs.current.trans h.current, by rwa [hs.here],
      by rwa [hs.here], ?_, hs.itv.trans h.itv, h.empty, hexits.trans h.exits,
      hs.gone.trans h.gone⟩
    rw [hfc]
    rcases h.fc with hf | ⟨k, hk⟩
    · exact .inl hf
    · rw [hk] at hb
      cases hb
  | launch h => rcases h.here with hh | hh <;> rw [hh] at hc <;> cases hc
  | active r h => exact .active r (h.step hs rfl hst hfc)
  | stuck k h =>
    rcases h.here with hh | hh | ⟨hh | hh, -⟩ <;> rw [hh] at hb <;> cases hb
  | finished h =>
    obtain ⟨hp, -⟩ := he h.early
    refine .finished ⟨hs.firstThread.trans h.first, hs.current.trans h.current, by rwa [hs.here],
      by rw [hfc]; exact h.fc, ?_, by rw [hs.running, hs.gone]; exact h.gone⟩
    rcases h.runnable with hrun | hcr
    · exact .inl hrun
    · rw [hc] at hcr
      cases hcr

/-- A statement that moves threads between queues, and makes none exit. -/
theorem Inv.move (hi : Inv m q) (hf : Flow m') (hs : Statement m m' p) (hl : Linked m'.sched q')
    (hwf : q'.WF) (hprio : ∀ i, ∀ n ∈ q' (.rqs i), (m'.sched.tcb n).threadPriority = i)
    (hmem : ∀ n, q'.Mem n → q.Mem n ∨ n < m'.nodeCount ∧ (∀ e ∈ m.exits, e.1 ≠ n) ∧ n ∉ m.gone)
    (hjoin : ∀ n ∈ q' .joinQueue, n ∈ q .joinQueue)
    (hthreads : ∀ n, n ≠ m.running → ThreadOk m.exits q' m'.sched n (m.pc n))
    (ht : ThreadOk m.exits q' m'.sched m.running p) (hp : Pending m' q' p)
    (hexits : m'.exits = m.exits) (hlist : ∀ e ∈ m'.exitList, e ∈ m.exits)
    (hjoins : ∀ e ∈ m'.joins, e ∈ m.exits) (hx : m.here.exiting = true → p.exiting = true)
    (hmode : Mode m' q') : Inv m' q' := by
  refine ⟨hf, hl, hwf, hprio, hs.memFlag.trans hi.memFlag, ?_, ?_, ?_, ?_, ?_, ?_, ?_, ?_, ?_, ?_,
    hmode⟩
  · intro n hn
    rcases hmem n hn with h | h
    · exact (hi.alloc n h).trans_le hs.nodeCount
    · exact h.1
  · intro n hn
    rw [hs.running] at hn
    rw [hs.pc_of_ne hn]
    exact hi.uncut n hn
  · intro n hn
    have hne : n ≠ m.running := fun h ↦ hi.running_notMem_joinQueue (h ▸ hjoin n hn)
    rw [hs.pc_of_ne hne]
    exact hi.joining n (hjoin n hn)
  · intro n
    rw [hexits]
    by_cases hn : n = m.running
    · rw [hs.pc, hn, update_self]
      exact ht
    · rw [hs.pc_of_ne hn]
      exact hthreads n hn
  · rw [hs.here]
    exact hp
  · rw [hexits]
    exact hlist
  · rw [hexits]
    exact hjoins
  · rw [hexits]
    intro e he
    refine ⟨(hi.exits e he).1.trans_le hs.nodeCount, fun hme ↦ ?_⟩
    rcases hmem e.1 hme with h | h
    · have hex := (hi.exits e he).2 h
      by_cases hn : e.1 = m.running
      · rw [hs.pc, hn, update_self]
        rw [hn] at hex
        exact hx hex
      · rwa [hs.pc_of_ne hn]
    · exact absurd rfl (h.2.1 e he)
  · rw [hexits]
    exact hi.nodup
  · rw [hs.gone]
    intro n hn
    refine ⟨(hi.gone n hn).1.trans_le hs.nodeCount, fun hm ↦ ?_⟩
    rcases hmem n hm with h | h
    · exact (hi.gone n hn).2 h
    · exact h.2.2 hn

/-- A statement that moves no thread between queues. -/
theorem Inv.local (hi : Inv m q) (hf : Flow m') (hs : Statement m m' p) (hl : Linked m'.sched q)
    (hprio : ∀ i, ∀ n ∈ q (.rqs i), (m'.sched.tcb n).threadPriority = i)
    (htcb : ∀ n, n ≠ m.running → (m'.sched.tcb n).joinId = (m.sched.tcb n).joinId ∧
      (m'.sched.tcb n).valuePtr = (m.sched.tcb n).valuePtr)
    (ht : ThreadOk m.exits q m'.sched m.running p) (hp : Pending m' q p)
    (hexits : m'.exits = m.exits) (hlist : ∀ e ∈ m'.exitList, e ∈ m.exits)
    (hjoins : ∀ e ∈ m'.joins, e ∈ m.exits) (hx : m.here.exiting = true → p.exiting = true)
    (hmode : Mode m' q) : Inv m' q :=
  hi.move hf hs hl hi.wf hprio (fun _ ↦ .inl) (fun _ hn ↦ hn)
    (fun n hn ↦ (hi.threads n).mono (fun _ he ↦ he) Iff.rfl (htcb n hn).1 (htcb n hn).2) ht hp
    hexits hlist hjoins hx hmode

/-- A statement that changes neither the queues nor the threads. -/
theorem Inv.goto (hi : Inv m q) (hf : Flow m') (hs : Statement m m' p)
    (hn : m'.sched.nodes = m.sched.nodes) (hq : m'.sched.queues = m.sched.queues)
    (ht : ThreadOk m.exits q m.sched m.running p) (hp : Pending m' q p)
    (hexits : m'.exits = m.exits) (hlist : ∀ e ∈ m'.exitList, e ∈ m.exits)
    (hjoins : ∀ e ∈ m'.joins, e ∈ m.exits) (hx : m.here.exiting = true → p.exiting = true)
    (hmode : Mode m' q) : Inv m' q := by
  have htcb : ∀ n, m'.sched.tcb n = m.sched.tcb n := fun n ↦ by rw [State.tcb, State.tcb, hn]
  refine hi.local hf hs (hi.linked.congr ?_ hq) (fun i n hni ↦ ?_)
    (fun n _ ↦ by rw [htcb]; exact ⟨rfl, rfl⟩) (ht.mono (fun _ he ↦ he) Iff.rfl (by rw [htcb])
    (by rw [htcb])) hp hexits hlist hjoins hx hmode
  · funext n
    rw [State.next, State.next, hn]
  · rw [htcb]
    exact hi.priority i n hni

end Inv

end MyPthread.Api
