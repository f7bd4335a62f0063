import MyPthread.Api.Join

/-!
# Threads that wait for a mutex

The waiters of all mutexes share one queue.  An unlock looks for the first thread
that waits for its mutex and prepares it, but moves the front of the queue, so a
waiter is safe only where the thread found is the front.  Then a thread in the
waiting queue always waits for a mutex that is locked, or was unlocked for a thread
that has been woken and has not locked it yet.
-/

namespace MyPthread.Api

open MyPthread.Lib MyPthread.Sched Function

/-- An unlock finds the waiter of its mutex at the front of the waiting queue. -/
def FindsFront (m : Machine) (a : Action) : Prop :=
  ∀ k n, m.here = .unlock k (.found n) → a = .next → (m.mutexes k).mid = (m.sched.tcb n).mid →
    (m.sched.queues .waitingQueue).front = some n

/-- A thread that waits for this mutex can still be woken. -/
def Mutex.Live (x : Mutex) : Prop := x.locked ≠ 0 ∨ x.readyWaiting = 1

/-- The thread `n` waits for a mutex, and can still be woken. -/
def Waits (m : Machine) (n : ℕ) : Prop :=
  ∃ k, k < m.mutexCount ∧ (m.sched.tcb n).mid = k ∧ (m.mutexes k).Live

/-- What is known of the waiting queue: an unlock of the mutex `k` puts the threads
that wait for it at risk, until it has looked at them. -/
def Waiters (m : Machine) (q : Mlfq) : Pc → Prop
  | .lock k .call => (∀ n ∈ q .waitingQueue, Waits m n) ∧ (m.sched.tcb m.running).mid = k
  | .lock k .tid | .lock k .ready =>
    (∀ n ∈ q .waitingQueue, Waits m n) ∧ (m.mutexes k).locked ≠ 0
  | .unlock k .tid | .unlock k .front | .unlock k (.mid _) =>
    ∀ n ∈ q .waitingQueue, Waits m n ∨ (m.sched.tcb n).mid = k
  | .unlock k (.loop temp) => ∃ pre suf, q .waitingQueue = pre ++ suf ∧ suf.head? = temp ∧
      (∀ n ∈ pre, Waits m n) ∧ ∀ n ∈ suf, Waits m n ∨ (m.sched.tcb n).mid = k
  | .unlock k (.found t) => ∃ pre suf, q .waitingQueue = pre ++ t :: suf ∧
      (∀ n ∈ pre, Waits m n) ∧ ∀ n ∈ t :: suf, Waits m n ∨ (m.sched.tcb n).mid = k
  | .unlock k (.next t) => ∃ pre suf, q .waitingQueue = pre ++ t :: suf ∧
      (∀ n ∈ pre ++ [t], Waits m n) ∧ ∀ n ∈ suf, Waits m n ∨ (m.sched.tcb n).mid = k
  | .unlock k (.priority _) | .unlock k .ready =>
    ∀ n ∈ (q .waitingQueue).tail, Waits m n ∨ (m.sched.tcb n).mid = k
  | .unlock _ .move => ∀ n ∈ (q .waitingQueue).tail, Waits m n
  | _ => ∀ n ∈ q .waitingQueue, Waits m n

/-- What holds in the runs of atomic calls. -/
structure WaitInv (m : Machine) (q : Mlfq) : Prop where
  inv : Inv m q
  others : ∀ n, n ≠ m.running → (m.pc n).quiescent = true
  mids : ∀ k, k < m.mutexCount → (m.mutexes k).mid = k
  waiters : Waiters m q m.here

section Waiters

variable {m m' : Machine} {q : Mlfq} {p : Pc} {k n : ℕ} {a : Action}

theorem Waits.mono (h : Waits m n) (hmid : (m'.sched.tcb n).mid = (m.sched.tcb n).mid)
    (hcount : m.mutexCount ≤ m'.mutexCount)
    (hlive : ∀ k, k < m.mutexCount → (m.mutexes k).Live → (m'.mutexes k).Live) : Waits m' n := by
  obtain ⟨k, hk, hn, hl⟩ := h
  exact ⟨k, hk.trans_le hcount, hmid.trans hn, hlive k hk hl⟩

/-- Nothing changes for a thread that waits. -/
theorem Waits.congr (h : Waits m n) (hmid : (m'.sched.tcb n).mid = (m.sched.tcb n).mid)
    (hcount : m'.mutexCount = m.mutexCount) (hm : m'.mutexes = m.mutexes) : Waits m' n := by
  apply h.mono hmid hcount.ge
  intro k _ hl
  rwa [hm]

theorem waiters_of_mutex (h : p.mutex? = none ∨ p.quiescent = true) :
    Waiters m q p ↔ ∀ n ∈ q .waitingQueue, Waits m n := by
  unfold Waiters
  split <;> first | rfl | (rcases h with h | h <;> cases h)

/-- A waiter is an allocated node. -/
theorem WaitInv.lt_nodeCount (hi : WaitInv m q) (hn : n ∈ q .waitingQueue) : n < m.nodeCount :=
  hi.inv.alloc n ⟨_, hn⟩

theorem mid_of_priorityOnly {s s' : State} (h : PriorityOnly s s') (n : ℕ) :
    (s'.tcb n).mid = (s.tcb n).mid := by
  rw [h n]

theorem exitBody_mid {s s' : State} {e : ExitNode} {N : ℕ} (hv : Valid N s)
    (h : Machine.exitBody e s = some s') : (s'.tcb n).mid = (s.tcb n).mid := by
  have hd : Evolves N s (dequeuee .joinQueue s).2 := dequeuee_evolves hv
  have hfst : (dequeuee .joinQueue s).1 = (s.queues .joinQueue).front := dequeuee_fst
  simp only [Machine.exitBody, Option.bind_eq_bind, Option.bind_eq_some_iff] at h
  obtain ⟨j, hj, c, -, h⟩ := h
  have hjN : ∀ i, some j = some i → i < N := by
    intro i hi
    cases hi
    exact hv.front .joinQueue j (hfst ▸ hj)
  split at h
  · obtain ⟨t, ht⟩ : ∃ t, t = (dequeuee .joinQueue s).2.modifyTcb j
        fun u ↦ { u with valuePtr := e.2 } := ⟨_, rfl⟩
    have hvt : Valid N t := by
      rw [ht]
      exact hd.valid.congr rfl State.next_modifyTcb rfl
    have hmid : (t.tcb n).mid = ((dequeuee .joinQueue s).2.tcb n).mid := by
      rw [ht]
      by_cases hn : n = j
      · rw [hn, State.tcb_modifyTcb_self]
      · rw [State.tcb_modifyTcb_of_ne hn]
    have h₁ : Evolves N t (t.setPriority j 0) := .setPriority hvt 0
    rw [← ht] at h
    have h₂ := h₁.trans (enqueuee_evolves h₁.valid hjN h)
    exact (mid_of_priorityOnly h₂.priorityOnly n).trans
      (hmid.trans (mid_of_priorityOnly hd.priorityOnly n))
  · have h₂ := hd.trans (enqueuee_evolves hd.valid hjN h)
    exact mid_of_priorityOnly h₂.priorityOnly n

/-- A call of `scheduler` changes no `mid` and no mutex. -/
theorem callScheduler_mid (hf : Flow m) (h : m.callScheduler = some m') :
    (∀ n, (m'.sched.tcb n).mid = (m.sched.tcb n).mid) ∧ m'.mutexes = m.mutexes ∧
      m'.mutexCount = m.mutexCount ∧ m'.pc = m.pc := by
  simp only [Machine.callScheduler, Option.bind_eq_bind, Option.bind_eq_some_iff, Option.pure_def,
    Option.some.injEq] at h
  obtain ⟨s, hs, rfl⟩ := h
  exact ⟨mid_of_priorityOnly (scheduler_evolves hf.valid hs).priorityOnly, rfl, rfl, rfl⟩

theorem enqueuee_mid {s s' : State} {Q : QueueId} {j N : ℕ} (hv : Valid N s) (hj : j < N)
    (h : enqueuee (some j) Q s = some s') : (s'.tcb n).mid = (s.tcb n).mid := by
  apply mid_of_priorityOnly
  apply (enqueuee_evolves hv _ h).priorityOnly
  intro i hi
  cases hi
  exact hj

/-- Outside lock and unlock, no statement changes a mutex or what a thread waits
for. -/
theorem WaitInv.mid_of_mutex (hi : WaitInv m q) (hm : m.here.mutex? = none)
    (h : m.next = some m') : (∀ n ∈ q .waitingQueue, (m'.sched.tcb n).mid = (m.sched.tcb n).mid) ∧
      m'.mutexes = m.mutexes ∧ m'.mutexCount = m.mutexCount := by
  have hv := hi.inv.flow.valid
  -- a call of the scheduler, whatever the caller has written before
  have hcall : ∀ {g p}, Flow ({ m with gone := g }.goto p) →
      ({ m with gone := g }.goto p).callScheduler = some m' →
      (∀ n ∈ q .waitingQueue, (m'.sched.tcb n).mid = (m.sched.tcb n).mid) ∧
        m'.mutexes = m.mutexes ∧ m'.mutexCount = m.mutexCount := by
    intro g p hf hs
    obtain ⟨h₁, h₂, h₃, -⟩ := callScheduler_mid hf hs
    exact ⟨fun n _ ↦ h₁ n, h₂, h₃⟩
  unfold Machine.next at h
  cases hhere : m.here with
  | user =>
    rw [hhere] at h
    cases h
  | create c =>
    rw [hhere] at h
    cases c with
    | node =>
      simp only [Machine.stepCreate] at h
      split at h
      · rename_i hfirst
        simp only [Option.bind_eq_bind, Option.bind_eq_some_iff, Option.pure_def,
          Option.some.injEq] at h
        obtain ⟨s₁, -, s₂, -, rfl⟩ := h
        refine ⟨fun n hn ↦ ?_, rfl, rfl⟩
        rw [(hi.inv.boot_of_first hfirst).empty] at hn
        cases hn
      · cases h
        refine ⟨fun n hn ↦ ?_, rfl, rfl⟩
        have hne : n ≠ m.nodeCount := (hi.lt_nodeCount hn).ne
        exact congrArg Tcb.mid (tcb_newNode_of_ne hne : (m.newNode _ m.threadCount).sched.tcb n = _)
    | enqueue j =>
      simp only [Machine.stepCreate, Option.bind_eq_bind, Option.bind_eq_some_iff, Option.pure_def,
        Option.some.injEq] at h
      obtain ⟨s, hs, rfl⟩ := h
      exact ⟨fun n _ ↦ enqueuee_mid hv (hi.inv.flow.enqueue j hhere) hs, rfl, rfl⟩
    | count =>
      cases h
      exact ⟨fun _ _ ↦ rfl, rfl, rfl⟩
    | call => exact hcall (hi.inv.flow.gotoAfter (by rw [hhere]; rfl) (.inl rfl) rfl) h
  | yield y =>
    rw [hhere] at h
    cases y with
    | test =>
      simp only [Machine.stepYield, Option.bind_eq_bind, Option.bind_eq_some_iff] at h
      obtain ⟨c, -, f, -, h⟩ := h
      split at h <;> cases h
      · exact ⟨fun _ _ ↦ rfl, rfl, rfl⟩
      · exact ⟨fun _ _ ↦ rfl, rfl, rfl⟩
    | flag =>
      cases h
      exact ⟨fun _ _ ↦ rfl, rfl, rfl⟩
    | call => exact hcall (hi.inv.flow.gotoAfter (by rw [hhere]; rfl) (.inl rfl) rfl) h
  | exit x =>
    rw [hhere] at h
    cases x with
    | node v =>
      simp only [Machine.stepExit, Option.bind_eq_bind, Option.bind_eq_some_iff, Option.pure_def,
        Option.some.injEq] at h
      obtain ⟨c, -, rfl⟩ := h
      exact ⟨fun _ _ ↦ rfl, rfl, rfl⟩
    | loop e i =>
      simp only [Machine.stepExit, Option.bind_eq_bind, Option.bind_eq_some_iff] at h
      obtain ⟨count, -, h⟩ := h
      split at h
      · simp only [Option.bind_eq_some_iff, Option.pure_def, Option.some.injEq] at h
        obtain ⟨s, hs, rfl⟩ := h
        exact ⟨fun n _ ↦ exitBody_mid hv hs, rfl, rfl⟩
      · cases h
        exact ⟨fun _ _ ↦ rfl, rfl, rfl⟩
    | call => exact hcall (hi.inv.flow.gotoAfter (by rw [hhere]; rfl) (.inl rfl) rfl) h
    | flag | push | ret =>
      cases h
      exact ⟨fun _ _ ↦ rfl, rfl, rfl⟩
  | join t j =>
    rw [hhere] at h
    cases j with
    | list =>
      cases h
      exact ⟨fun _ _ ↦ rfl, rfl, rfl⟩
    | bound temp =>
      simp only [Machine.stepJoin] at h
      split at h <;> cases h
      · exact ⟨fun _ _ ↦ rfl, rfl, rfl⟩
      · exact ⟨fun _ _ ↦ rfl, rfl, rfl⟩
    | search temp =>
      cases temp with
      | nil =>
        cases h
        exact ⟨fun _ _ ↦ rfl, rfl, rfl⟩
      | cons e temp =>
        simp only [Machine.stepJoin] at h
        split at h <;> cases h
        · exact ⟨fun _ _ ↦ rfl, rfl, rfl⟩
        · exact ⟨fun _ _ ↦ rfl, rfl, rfl⟩
    | store =>
      simp only [Machine.stepJoin, Option.bind_eq_bind, Option.bind_eq_some_iff, Option.pure_def,
        Option.some.injEq] at h
      obtain ⟨c, -, rfl⟩ := h
      refine ⟨fun n _ ↦ ?_, rfl, rfl⟩
      show ((m.sched.modifyTcb c fun u ↦ { u with joinId := t }).tcb n).mid = _
      by_cases hn : n = c
      · rw [hn, State.tcb_modifyTcb_self]
      · rw [State.tcb_modifyTcb_of_ne hn]
    | flag =>
      cases h
      exact ⟨fun _ _ ↦ rfl, rfl, rfl⟩
    | call => exact hcall (hi.inv.flow.gotoAfter (by rw [hhere]; rfl) (.inl rfl) rfl) h
    | ret =>
      simp only [Machine.stepJoin, Option.bind_eq_bind, Option.bind_eq_some_iff, Option.pure_def,
        Option.some.injEq] at h
      obtain ⟨c, -, rfl⟩ := h
      exact ⟨fun _ _ ↦ rfl, rfl, rfl⟩
  | lock k l =>
    rw [hhere] at hm
    cases hm
  | unlock k u =>
    rw [hhere] at hm
    cases hm

/-! ### The waiting queue over a step -/

theorem waitingQueue_afterCall {r : ℕ} (hq : q.WF) (hm : m.running ∈ q (.rqs r))
    (hr : (m.sched.tcb m.running).threadPriority = r) :
    m.afterCall q .waitingQueue =
      if m.sched.fc = .blocked then q .waitingQueue ++ [m.running] else q .waitingQueue := by
  unfold Machine.afterCall
  by_cases h₀ : m.sched.fc = .none
  · rw [if_pos h₀, if_neg (by rw [h₀]; rintro ⟨⟩)]
  · have hwf := hq.requested m.sched.fc m.sched.maintenanceCount hm
    rw [if_neg h₀, hr, Machine.rescheduled, Mlfq.schedule]
    refine Eq.trans ?_ (waitingQueue_requested (q := q) (p := r) m.sched.maintenanceCount)
    unfold Mlfq.rotate
    refine if_neg fun hh ↦ ?_
    -- the front of the waiting queue cannot run
    obtain ⟨i, hi⟩ := (Mlfq.mem_runnable hwf).mp (List.mem_of_head? hh.1)
    cases hwf.disjoint hi (List.mem_of_head? hh.2)

theorem Active.waitingQueue_afterCall {r : ℕ} (hi : Inv m q) (ha : Active m q r) :
    m.afterCall q .waitingQueue =
      if m.sched.fc = .blocked then q .waitingQueue ++ [m.running] else q .waitingQueue :=
  Api.waitingQueue_afterCall hi.wf (List.mem_of_head? ha.head)
    (hi.priority r _ (List.mem_of_head? ha.head))

theorem move_of_ne {src dst Q : QueueId} (hs : Q ≠ src) (hd : Q ≠ dst) :
    q.move src dst n Q = q Q := by
  rw [Mlfq.move, Mlfq.put, update_of_ne hd, Mlfq.take, update_of_ne hs]

theorem put_rqs {i : ℕ} : q.put (.rqs i) n .waitingQueue = q .waitingQueue := by
  have h : QueueId.waitingQueue ≠ .rqs i := nofun
  exact update_of_ne h _ _

/-- Outside lock and unlock, no statement moves a thread into or out of the waiting
queue. -/
theorem Inv.waitingQueue_of_mutex (hi : Inv m q) (hm : m.here.mutex? = none)
    (h : m.next = some m') : m.advance q .next .waitingQueue = q .waitingQueue := by
  have hcall : ∀ f : FlagCalled, f ≠ .blocked → m.here.stored = some f → m.here.early = false →
      m.here.blocking = false → m.afterCall q .waitingQueue = q .waitingQueue := by
    intro f hf hs he hb
    obtain ⟨r, ha⟩ := hi.exists_active (.inl he) hb
    rw [ha.waitingQueue_afterCall hi, ha.stored f hs, if_neg hf]
  unfold Machine.next at h
  cases hhere : m.here with
  | user => rw [Machine.advance, hhere]
  | create c =>
    cases c with
    | node =>
      rw [Machine.advance, hhere]
      simp only
      split
      · rw [put_rqs, put_rqs]
      · rfl
    | enqueue j =>
      rw [Machine.advance, hhere]
      exact put_rqs
    | count => rw [Machine.advance, hhere]
    | call =>
      have hq : m.advance q .next = m.afterCall q := by rw [Machine.advance, hhere]
      rw [hq]
      rw [hhere] at h
      cases hi.mode with
      | boot hb => cases hhere.symm.trans (hb.create (by rw [hhere]; rfl))
      | launch hl =>
        rw [Api.waitingQueue_afterCall hi.wf hl.mem (hi.priority 0 _ hl.mem), hl.fc,
          if_neg (by rintro ⟨⟩)]
      | active r ha =>
        rw [ha.waitingQueue_afterCall hi]
        rcases ha.fc (by rw [hhere]; rfl) with hfc | hfc
        · rw [hfc, if_neg (by rintro ⟨⟩)]
        · rw [hfc, if_neg (by rintro ⟨⟩)]
      | stuck j hs => rcases hs.here with hh | hh | ⟨hh | hh, -⟩ <;> cases hhere.symm.trans hh
      | finished hf =>
        have hnone := callScheduler_of_current_none (m := m.goto .user) hi.memFlag hf.current
          hf.fc.1 hf.fc.2
        cases hnone.symm.trans h
  | yield y =>
    cases y with
    | call =>
      have hq : m.advance q .next = m.afterCall q := by rw [Machine.advance, hhere]
      rw [hq]
      exact hcall .yield (by rintro ⟨⟩) (by rw [hhere]; rfl) (by rw [hhere]; rfl)
        (by rw [hhere]; rfl)
    | test | flag => rw [Machine.advance, hhere]
  | exit x =>
    cases x with
    | call =>
      have hq : m.advance q .next = m.afterCall q := by rw [Machine.advance, hhere]
      rw [hq]
      exact hcall .pexit (by rintro ⟨⟩) (by rw [hhere]; rfl) (by rw [hhere]; rfl)
        (by rw [hhere]; rfl)
    | loop e i =>
      rw [Machine.advance, hhere]
      simp only
      split
      · cases hj : q .joinQueue with
        | nil => rw [Machine.afterBody, hj]
        | cons j l =>
          rw [Machine.afterBody, hj]
          simp only
          split
          · exact move_of_ne (by rintro ⟨⟩) (by rintro ⟨⟩)
          · exact move_of_ne (by rintro ⟨⟩) (by rintro ⟨⟩)
      · rfl
    | node | flag | push | ret => rw [Machine.advance, hhere]
  | join t j =>
    cases j with
    | call =>
      have hq : m.advance q .next = m.afterCall q := by rw [Machine.advance, hhere]
      rw [hq]
      exact hcall .join (by rintro ⟨⟩) (by rw [hhere]; rfl) (by rw [hhere]; rfl)
        (by rw [hhere]; rfl)
    | list | bound | search | store | flag | ret => rw [Machine.advance, hhere]
  | lock k l =>
    rw [hhere] at hm
    cases hm
  | unlock k u =>
    rw [hhere] at hm
    cases hm

/-- Nor does a tick. -/
theorem Inv.waitingQueue_tick (hi : Inv m q) (hitv : m.sched.itv ≠ 0)
    (h : m.timerTriggered = some m') : m.advance q .tick .waitingQueue = q .waitingQueue := by
  show (m.setFc .timer).afterCall q .waitingQueue = _
  have hfault : m.sched.current = none → (m.setFc .timer).afterCall q .waitingQueue =
      q .waitingQueue := fun hcur ↦ by
    have hnone := callScheduler_of_current_none (m := m.setFc .timer) hi.memFlag hcur nofun nofun
    cases hnone.symm.trans h
  cases hi.mode with
  | boot hm => exact hfault hm.current
  | launch hm => exact absurd hm.itv hitv
  | active r hm =>
    have hmem := List.mem_of_head? hm.head
    exact Api.waitingQueue_afterCall (m := m.setFc .timer) hi.wf hmem (hi.priority r _ hmem)
  | stuck k hm =>
    have hself : m.setFc .timer = { m with
        gone := m.gone, pc := update m.pc m.running m.here,
        sched := { m.sched with fc := .timer } } := by
      rw [update_eq_self]
      rfl
    have hnone := hi.callScheduler_of_stuck hm (.inl rfl) hself
    cases hnone.symm.trans h
  | finished hm => exact hfault hm.current

/-! ### Locks and unlocks -/

/-- A statement of a lock or unlock that only moves the program counter. -/
theorem Waits.goto (h : Waits m n) : Waits (m.goto p) n := h

theorem live_modifyMutex {f : Mutex → Mutex} {j : ℕ}
    (hf : (m.mutexes k).Live → (f (m.mutexes k)).Live)
    (h : (m.mutexes j).Live) : ((m.modifyMutex k f).mutexes j).Live := by
  show (update m.mutexes k (f (m.mutexes k)) j).Live
  by_cases hj : j = k
  · subst hj
    rw [update_self]
    exact hf h
  · rwa [update_of_ne hj]

/-- A store to a mutex that leaves it live. -/
theorem Waits.modifyMutex {f : Mutex → Mutex} (h : Waits m n)
    (hf : (m.mutexes k).Live → (f (m.mutexes k)).Live) : Waits (m.modifyMutex k f) n :=
  h.mono rfl le_rfl fun _ _ ↦ live_modifyMutex hf

/-- A store to the mutex `k` puts only the threads at risk that wait for it. -/
theorem Waits.or_mid {f : Mutex → Mutex} (h : Waits m n) :
    Waits (m.modifyMutex k f) n ∨ (m.sched.tcb n).mid = k := by
  obtain ⟨j, hj, hn, hl⟩ := h
  by_cases hjk : j = k
  · exact .inr (hjk ▸ hn)
  · refine .inl ⟨j, hj, hn, ?_⟩
    show (update m.mutexes k (f (m.mutexes k)) j).Live
    rwa [update_of_ne hjk]

/-- A store to the thread control block of another thread. -/
theorem Waits.modifyTcb {f : Tcb → Tcb} {j : ℕ} (h : Waits m n)
    (hf : n = j → (f (m.sched.tcb n)).mid = (m.sched.tcb n).mid) :
    Waits (m.withSched (m.sched.modifyTcb j f)) n := by
  refine h.mono ?_ le_rfl fun _ _ hl ↦ hl
  show ((m.sched.modifyTcb j f).tcb n).mid = _
  by_cases hn : n = j
  · rw [hn] at hf ⊢
    rw [State.tcb_modifyTcb_self]
    exact hf rfl
  · rw [State.tcb_modifyTcb_of_ne hn]

/-- The statements of `my_pthread_mutex_lock` keep the waiters. -/
theorem WaitInv.lock {l : LockPc} (hi : WaitInv m q) (hhere : m.here = .lock k l) (hl : l ≠ .call)
    (h : m.stepLock k l = some m') :
    ∃ p, m'.pc = update m.pc m.running p ∧ m'.running = m.running ∧ Waiters m' q p := by
  have hw : Waiters m q (.lock k l) := hhere ▸ hi.waiters
  have hk : k < m.mutexCount := hi.inv.flow.mutex m.running k (by
    rw [show m.pc m.running = _ from hhere]
    rfl)
  cases l with
  | test =>
    simp only [Machine.stepLock] at h
    split at h <;> cases h
    · exact ⟨_, rfl, rfl, hw⟩
    · exact ⟨_, rfl, rfl, hw⟩
  | flag =>
    cases h
    exact ⟨_, rfl, rfl, hw⟩
  | mid =>
    simp only [Machine.stepLock, Option.bind_eq_bind, Option.bind_eq_some_iff, Option.pure_def,
      Option.some.injEq] at h
    obtain ⟨c, hcur, rfl⟩ := h
    obtain rfl : c = m.running := hi.inv.flow.current c hcur
    have hlocked : (m.mutexes k).locked ≠ 0 := by
      have hp := hi.inv.pending
      rw [hhere] at hp
      exact hp
    have hself : ((m.sched.modifyTcb m.running
        fun t ↦ { t with mid := (m.mutexes k).mid }).tcb m.running).mid = k := by
      rw [State.tcb_modifyTcb_self]
      exact hi.mids k hk
    refine ⟨_, rfl, rfl, fun n hn ↦ ?_, hself⟩
    by_cases hnr : n = m.running
    · rw [hnr]
      exact ⟨k, hk, hself, .inl hlocked⟩
    · exact ((hw n hn).modifyTcb fun h ↦ absurd h hnr).goto
  | call => exact absurd rfl hl
  | set =>
    cases h
    refine ⟨_, rfl, rfl, fun n hn ↦ ((hw n hn).modifyMutex fun _ ↦ .inl one_ne_zero).goto, ?_⟩
    show (update m.mutexes k _ k).locked ≠ 0
    rw [update_self]
    exact one_ne_zero
  | tid =>
    simp only [Machine.stepLock, Option.bind_eq_bind, Option.bind_eq_some_iff, Option.pure_def,
      Option.some.injEq] at h
    obtain ⟨c, -, rfl⟩ := h
    refine ⟨_, rfl, rfl, fun n hn ↦ ((hw.1 n hn).modifyMutex fun hl ↦ hl).goto, ?_⟩
    show (update m.mutexes k _ k).locked ≠ 0
    rw [update_self]
    exact hw.2
  | ready =>
    cases h
    exact ⟨_, rfl, rfl, fun n hn ↦ ((hw.1 n hn).modifyMutex fun _ ↦ .inl hw.2).goto⟩
  | ret =>
    cases h
    exact ⟨_, rfl, rfl, hw⟩

/-- The statements of `my_pthread_mutex_unlock` keep the waiters. -/
theorem WaitInv.unlock {u : UnlockPc} (hi : WaitInv m q) (hhere : m.here = .unlock k u)
    (h : m.stepUnlock k u = some m') :
    ∃ p, m'.pc = update m.pc m.running p ∧ m'.running = m.running ∧
      Waiters m' (m.advance q .next) p := by
  have hw : Waiters m q (.unlock k u) := hhere ▸ hi.waiters
  have hk : k < m.mutexCount := hi.inv.flow.mutex m.running k (by
    rw [show m.pc m.running = _ from hhere]
    rfl)
  have hp : Pending m q (.unlock k u) := hhere ▸ hi.inv.pending
  have hq : u ≠ .move → m.advance q .next = q := by
    intro hu
    rw [Machine.advance, hhere]
    cases u <;> first | rfl | exact absurd rfl hu
  cases u with
  | test =>
    rw [hq (by rintro ⟨⟩)]
    simp only [Machine.stepUnlock] at h
    split at h <;> cases h
    · exact ⟨_, rfl, rfl, hw⟩
    · exact ⟨_, rfl, rfl, hw⟩
  | owner =>
    rw [hq (by rintro ⟨⟩)]
    simp only [Machine.stepUnlock, Option.bind_eq_bind, Option.bind_eq_some_iff] at h
    obtain ⟨c, -, h⟩ := h
    split at h <;> cases h
    · exact ⟨_, rfl, rfl, hw⟩
    · exact ⟨_, rfl, rfl, hw⟩
  | clear =>
    rw [hq (by rintro ⟨⟩)]
    cases h
    exact ⟨_, rfl, rfl, fun n hn ↦ (hw n hn).or_mid (f := fun x ↦ { x with locked := 0 })⟩
  | tid =>
    rw [hq (by rintro ⟨⟩)]
    cases h
    exact ⟨_, rfl, rfl, fun n hn ↦ (hw n hn).imp_left fun h ↦ (h.modifyMutex fun hl ↦ hl).goto⟩
  | front =>
    rw [hq (by rintro ⟨⟩)]
    cases h
    refine ⟨_, rfl, rfl, [], q .waitingQueue, rfl, ?_, by rintro _ ⟨⟩, hw⟩
    exact (hi.inv.linked.front _).symm
  | loop temp =>
    rw [hq (by rintro ⟨⟩)]
    obtain ⟨pre, suf, hps, hhead, hpre, hsuf⟩ := hw
    cases temp with
    | none =>
      cases h
      refine ⟨_, rfl, rfl, fun n hn ↦ hpre n ?_⟩
      rw [hps, List.head?_eq_none_iff.mp hhead, List.append_nil] at hn
      exact hn
    | some t =>
      cases h
      obtain ⟨suf, rfl⟩ := List.head?_eq_some_iff.mp hhead
      exact ⟨_, rfl, rfl, pre, suf, hps, hpre, hsuf⟩
  | found t =>
    rw [hq (by rintro ⟨⟩)]
    obtain ⟨pre, suf, hps, hpre, hsuf⟩ := hw
    simp only [Machine.stepUnlock] at h
    split at h <;> cases h
    · refine ⟨_, rfl, rfl, fun n hn ↦ ?_⟩
      rw [hps, List.mem_append] at hn
      rcases hn with hn | hn
      · exact .inl (hpre n hn)
      · exact hsuf n hn
    · rename_i hne
      refine ⟨_, rfl, rfl, pre, suf, hps, fun n hn ↦ ?_,
        fun n hn ↦ hsuf n (List.mem_cons_of_mem _ hn)⟩
      rcases List.mem_append.mp hn with hn | hn
      · exact hpre n hn
      · rw [List.mem_singleton.mp hn]
        refine (hsuf t List.mem_cons_self).resolve_right fun hmid ↦ hne ?_
        rw [hmid, hi.mids k hk]
  | next t =>
    rw [hq (by rintro ⟨⟩)]
    obtain ⟨pre, suf, hps, hpre, hsuf⟩ := hw
    cases h
    refine ⟨_, rfl, rfl, pre ++ [t], suf, by rw [hps, List.append_assoc]; rfl, ?_, hpre, hsuf⟩
    -- the link of `t` is to the next waiter
    have hpath := (hi.inv.linked .waitingQueue).path
    rw [hps] at hpath
    exact hpath.head_next.symm
  | mid t =>
    rw [hq (by rintro ⟨⟩)]
    obtain ⟨l, hl⟩ := List.head?_eq_some_iff.mp hp
    have hnd := hi.inv.wf.nodup .waitingQueue
    rw [hl, List.nodup_cons] at hnd
    cases h
    refine ⟨_, rfl, rfl, fun n hn ↦ ?_⟩
    rw [hl, List.tail_cons] at hn
    have hne : n ≠ t := ne_of_mem_of_not_mem hn hnd.1
    have hwn := hw n (by rw [hl]; exact List.mem_cons_of_mem _ hn)
    refine hwn.imp (fun h ↦ (h.modifyTcb fun h ↦ absurd h hne).goto) fun h ↦ ?_
    show ((m.sched.modifyTcb t fun u ↦ { u with mid := -1 }).tcb n).mid = k
    rw [State.tcb_modifyTcb_of_ne hne]
    exact h
  | priority t =>
    rw [hq (by rintro ⟨⟩)]
    cases h
    refine ⟨_, rfl, rfl, fun n hn ↦ ?_⟩
    refine (hw n hn).imp (fun h ↦ (h.modifyTcb fun _ ↦ rfl).goto) fun h ↦ ?_
    show ((m.sched.modifyTcb t fun u ↦ { u with threadPriority := 0 }).tcb n).mid = k
    by_cases hne : n = t
    · rw [hne] at h ⊢
      rw [State.tcb_modifyTcb_self]
      exact h
    · rw [State.tcb_modifyTcb_of_ne hne]
      exact h
  | ready =>
    rw [hq (by rintro ⟨⟩)]
    cases h
    have hlive : ((m.modifyMutex k fun x ↦ { x with readyWaiting := 1 }).mutexes k).Live := by
      show (update m.mutexes k _ k).Live
      rw [update_self]
      exact .inr rfl
    refine ⟨_, rfl, rfl, fun n hn ↦ ?_⟩
    rcases hw n hn with h | h
    · exact (h.modifyMutex fun _ ↦ .inr rfl).goto
    · exact ⟨k, hk, h, hlive⟩
  | move =>
    obtain ⟨t, hhead, -⟩ := hp
    obtain ⟨l, hl⟩ := List.head?_eq_some_iff.mp hhead
    have hadv : m.advance q .next = q.move .waitingQueue (.rqs 0) t := by
      rw [Machine.advance, hhere]
      simp only [hl]
    simp only [Machine.stepUnlock, Option.bind_eq_bind, Option.bind_eq_some_iff, Option.pure_def,
      Option.some.injEq] at h
    obtain ⟨s, hs, rfl⟩ := h
    refine ⟨_, rfl, rfl, fun n hn ↦ ?_⟩
    have hmem : n ∈ (q .waitingQueue).tail := by
      rw [hadv, Mlfq.move, put_rqs, Mlfq.take, update_self, hl, List.erase_cons_head] at hn
      rwa [hl]
    refine (hw n hmem).congr ?_ rfl rfl
    exact mid_of_priorityOnly (requeue_evolves hi.inv.flow.valid hs).priorityOnly n
  | ret =>
    rw [hq (by rintro ⟨⟩)]
    cases h
    exact ⟨_, rfl, rfl, hw⟩

/-! ### Runs -/

/-- Atomic calls that find the front and leave another thread are careful. -/
theorem careful_of_findsFront (hw : Whole m a) (hl : LeavesOther m a) (hf : FindsFront m a) :
    Careful m a := by
  cases a with
  | call c => trivial
  | init => trivial
  | tick => exact Pc.uncut_of_quiescent (hw rfl)
  | next =>
    simp only [Careful]
    split
    · exact hl _ ‹_› rfl
    · exact hf _ _ ‹_› rfl
    · trivial

/-- No statement of a lock or unlock changes the `mid` of a mutex. -/
theorem next_mids (h : m.next = some m') (hm : m.here.mutex? = some k) :
    (∀ j, (m'.mutexes j).mid = (m.mutexes j).mid) ∧ m'.mutexCount = m.mutexCount := by
  have hset : ∀ x : Mutex, x.mid = (m.mutexes k).mid →
      ∀ j, (update m.mutexes k x j).mid = (m.mutexes j).mid := by
    intro x hx j
    by_cases hj : j = k
    · rw [hj, update_self, hx]
    · rw [update_of_ne hj]
  unfold Machine.next at h
  cases hhere : m.here with
  | lock i l =>
    rw [hhere] at h hm
    cases hm
    cases l with
    | test =>
      simp only [Machine.stepLock] at h
      split at h <;> cases h
      · exact ⟨fun _ ↦ rfl, rfl⟩
      · exact ⟨fun _ ↦ rfl, rfl⟩
    | mid =>
      simp only [Machine.stepLock, Option.bind_eq_bind, Option.bind_eq_some_iff, Option.pure_def,
        Option.some.injEq] at h
      obtain ⟨c, -, rfl⟩ := h
      exact ⟨fun _ ↦ rfl, rfl⟩
    | call =>
      simp only [Machine.stepLock, Machine.callScheduler, Option.bind_eq_bind,
        Option.bind_eq_some_iff, Option.pure_def, Option.some.injEq] at h
      obtain ⟨s, -, rfl⟩ := h
      exact ⟨fun _ ↦ rfl, rfl⟩
    | set | ready =>
      cases h
      exact ⟨hset _ rfl, rfl⟩
    | tid =>
      simp only [Machine.stepLock, Option.bind_eq_bind, Option.bind_eq_some_iff, Option.pure_def,
        Option.some.injEq] at h
      obtain ⟨c, -, rfl⟩ := h
      exact ⟨hset _ rfl, rfl⟩
    | flag | ret =>
      cases h
      exact ⟨fun _ ↦ rfl, rfl⟩
  | unlock i u =>
    rw [hhere] at h hm
    cases hm
    cases u with
    | test =>
      simp only [Machine.stepUnlock] at h
      split at h <;> cases h
      · exact ⟨fun _ ↦ rfl, rfl⟩
      · exact ⟨fun _ ↦ rfl, rfl⟩
    | owner =>
      simp only [Machine.stepUnlock, Option.bind_eq_bind, Option.bind_eq_some_iff] at h
      obtain ⟨c, -, h⟩ := h
      split at h <;> cases h
      · exact ⟨fun _ ↦ rfl, rfl⟩
      · exact ⟨fun _ ↦ rfl, rfl⟩
    | loop temp =>
      cases temp with
      | none =>
        cases h
        exact ⟨fun _ ↦ rfl, rfl⟩
      | some t =>
        cases h
        exact ⟨fun _ ↦ rfl, rfl⟩
    | found t =>
      simp only [Machine.stepUnlock] at h
      split at h <;> cases h
      · exact ⟨fun _ ↦ rfl, rfl⟩
      · exact ⟨fun _ ↦ rfl, rfl⟩
    | move =>
      simp only [Machine.stepUnlock, Option.bind_eq_bind, Option.bind_eq_some_iff, Option.pure_def,
        Option.some.injEq] at h
      obtain ⟨s, -, rfl⟩ := h
      exact ⟨fun _ ↦ rfl, rfl⟩
    | clear | tid | ready =>
      cases h
      exact ⟨hset _ rfl, rfl⟩
    | front | next | mid | priority | ret =>
      cases h
      exact ⟨fun _ ↦ rfl, rfl⟩
  | user | create | yield | exit | join =>
    rw [hhere] at hm
    cases hm

/-- The other threads stay between calls. -/
theorem quiescent_next (ho : ∀ n, n ≠ m.running → (m.pc n).quiescent = true)
    (h : m.next = some m') : ∀ n, n ≠ m'.running → (m'.pc n).quiescent = true := by
  obtain ⟨p, hp⟩ := next_pc h
  intro n hn
  by_cases hnr : n = m.running
  · rw [hp.pc, hnr, update_self]
    refine hp.running.resolve_right fun hr ↦ hn ?_
    rw [hnr, hr]
  · rw [hp.pc, update_of_ne hnr]
    exact ho n hnr

/-- The waiting queue after a step that leaves every waiter as it is. -/
theorem WaitInv.waiters_of_eq {q' : Mlfq} (hi : WaitInv m q)
    (hhere : m.here.mutex? = none ∨ m.here.quiescent = true)
    (hhere' : m'.here.mutex? = none ∨ m'.here.quiescent = true)
    (hq : q' .waitingQueue = q .waitingQueue)
    (hmid : ∀ n ∈ q .waitingQueue, (m'.sched.tcb n).mid = (m.sched.tcb n).mid)
    (hm : m'.mutexes = m.mutexes) (hcount : m'.mutexCount = m.mutexCount) :
    Waiters m' q' m'.here := by
  have hw := (waiters_of_mutex hhere).mp hi.waiters
  apply (waiters_of_mutex hhere').mpr
  intro n hn
  rw [hq] at hn
  exact (hw n hn).congr (hmid n hn) hcount hm

/-- After a call of `scheduler` in a lock the caller waits as well. -/
theorem WaitInv.lockCall (hi : WaitInv m q) (hhere : m.here = .lock k .call)
    (h : m.stepLock k .call = some m') : Waiters m' (m.advance q .next) m'.here := by
  have hw : Waiters m q (.lock k .call) := hhere ▸ hi.waiters
  have hp : Pending m q (.lock k .call) := hhere ▸ hi.inv.pending
  have hk : k < m.mutexCount := hi.inv.flow.mutex m.running k (by
    rw [show m.pc m.running = _ from hhere]
    rfl)
  have hadv : m.advance q .next = m.afterCall q := by rw [Machine.advance, hhere]
  have hf : Flow ({ m with gone := m.gone }.goto (.lock k .test)) :=
    hi.inv.flow.gotoAfter (by rw [hhere]; rfl) (.inr (by rw [hhere]; rfl)) rfl
  obtain ⟨hmid, hm, hcount, hpc⟩ := callScheduler_mid hf h
  have hpcall : ∀ n, (m'.pc n).quiescent = true := by
    intro n
    rw [hpc]
    show (update m.pc m.running (.lock k .test) n).quiescent = true
    by_cases hn : n = m.running
    · rw [hn, update_self]
      rfl
    · rw [update_of_ne hn]
      exact hi.others n hn
  have hwaits : ∀ n, Waits m n → Waits m' n := fun n hn ↦ hn.congr (hmid n) hcount hm
  apply (waiters_of_mutex (.inr (hpcall _))).mpr
  rcases hi.inv.active_or_stuck (.inl (by rw [hhere]; rfl)) with ⟨r, ha⟩ | ⟨j, hs⟩
  · rw [hadv, ha.waitingQueue_afterCall hi.inv, if_pos (ha.stored _ (by rw [hhere]; rfl))]
    intro n hn
    rcases List.mem_append.mp hn with hn | hn
    · exact hwaits n (hw.1 n hn)
    · rw [List.mem_singleton.mp hn]
      exact hwaits _ ⟨k, hk, hw.2, .inl hp⟩
  · rcases hs.here with hh | hh | ⟨-, hfc⟩
    · cases hhere.symm.trans hh
    · cases hhere.symm.trans hh
    · have hnone : (m.goto (.lock k .test)).callScheduler = none :=
        hi.inv.callScheduler_of_stuck hs (.inr rfl) (f := .blocked) (g := m.gone)
          (w := .lock k .test) (by rw [← hfc]; rfl)
      cases hnone.symm.trans h

/-- A statement keeps the waiters. -/
theorem WaitInv.waiters_next (hi : WaitInv m q) (h : m.next = some m') :
    Waiters m' (m.advance q .next) m'.here := by
  have hstay : ∀ {q' p}, m'.pc = update m.pc m.running p → m'.running = m.running →
      Waiters m' q' p → Waiters m' q' m'.here := by
    intro q' p hpc hr hw
    rwa [Machine.here, hr, hpc, update_self]
  cases hk : m.here.mutex? with
  | none =>
    obtain ⟨hmid, hm, hcount⟩ := hi.mid_of_mutex hk h
    have hhere' : m'.here.mutex? = none ∨ m'.here.quiescent = true := by
      obtain ⟨p, hp⟩ := next_pc h
      by_cases hr : m'.running = m.running
      · refine .inl ?_
        rw [Machine.here, hr, hp.pc, update_self]
        rcases hp.mutex with hp | hp
        · exact hp
        · exact hp.trans hk
      · refine .inr ?_
        rw [Machine.here, hp.pc, update_of_ne hr]
        exact hi.others _ hr
    exact hi.waiters_of_eq (.inl hk) hhere' (hi.inv.waitingQueue_of_mutex hk h) hmid hm hcount
  | some k =>
    cases hhere : m.here with
    | lock j l =>
      have hl : m.stepLock j l = some m' := by
        rw [Machine.next, hhere] at h
        exact h
      by_cases hc : l = .call
      · subst hc
        exact hi.lockCall hhere hl
      · obtain ⟨p, hpc, hr, hw⟩ := hi.lock hhere hc hl
        have hadv : m.advance q .next = q := by
          rw [Machine.advance, hhere]
          cases l <;> first | rfl | exact absurd rfl hc
        rw [hadv]
        exact hstay hpc hr hw
    | unlock j u =>
      have hu : m.stepUnlock j u = some m' := by
        rw [Machine.next, hhere] at h
        exact h
      obtain ⟨p, hpc, hr, hw⟩ := hi.unlock hhere hu
      exact hstay hpc hr hw
    | user | create | yield | exit | join =>
      rw [hhere] at hk
      cases hk

/-- The step lemma of `WaitInv`. -/
theorem WaitInv.step (hi : WaitInv m q) (hw : Whole m a) (hl : LeavesOther m a)
    (hf : FindsFront m a) (h : m.step a = some m') : WaitInv m' (m.advance q a) := by
  have hinv := hi.inv.step (careful_of_findsFront hw hl hf) h
  cases a with
  | call c =>
    simp only [Machine.step] at h
    split at h
    · rename_i hu
      cases h
      have hbase : Waiters m q c.entry ↔ ∀ n ∈ q .waitingQueue, Waits m n := by cases c <;> rfl
      have hw' := (waiters_of_mutex (.inl (by rw [hu.1]; rfl))).mp hi.waiters
      refine ⟨hinv, fun n hn ↦ ?_, hi.mids, ?_⟩
      · have hne : n ≠ m.running := hn
        show (update m.pc m.running c.entry n).quiescent = true
        rw [update_of_ne hne]
        exact hi.others n hne
      · show Waiters (m.goto c.entry) q (update m.pc m.running c.entry m.running)
        rw [update_self]
        cases c <;> exact hbase.mpr hw'
    · cases h
  | init =>
    simp only [Machine.step] at h
    split at h
    · rename_i hu
      cases h
      have hw' := (waiters_of_mutex (.inl (by rw [hu]; rfl))).mp hi.waiters
      refine ⟨hinv, hi.others, fun k hk ↦ ?_, ?_⟩
      · show (update m.mutexes m.mutexCount ⟨m.mutexCount, 0, -1, 0⟩ k).mid = k
        by_cases hkm : k = m.mutexCount
        · rw [hkm, update_self]
        · rw [update_of_ne hkm]
          refine hi.mids k ?_
          have : k < m.mutexCount + 1 := hk
          omega
      · apply (waiters_of_mutex
          (.inl (by rw [show m.initMutex.here = m.here from rfl, hu]; rfl))).mpr
        intro n hn
        refine (hw' n hn).mono rfl (Nat.le_succ _) fun k hk hl ↦ ?_
        show (update m.mutexes m.mutexCount ⟨m.mutexCount, 0, -1, 0⟩ k).Live
        rwa [update_of_ne hk.ne]
    · cases h
  | next =>
    refine ⟨hinv, quiescent_next hi.others h, ?_, hi.waiters_next h⟩
    cases hk : m.here.mutex? with
    | none =>
      obtain ⟨-, hm, hcount⟩ := hi.mid_of_mutex hk h
      rw [hm, hcount]
      exact hi.mids
    | some k =>
      obtain ⟨hm, hcount⟩ := next_mids h hk
      intro j hj
      rw [hm]
      exact hi.mids j (hcount ▸ hj)
  | tick =>
    simp only [Machine.step] at h
    split at h
    · rename_i ht
      obtain ⟨hmid, hm, hcount, hpc⟩ := callScheduler_mid (hi.inv.flow.setFc .timer) h
      have hquiet : ∀ n, (m'.pc n).quiescent = true := by
        intro n
        rw [hpc]
        by_cases hn : n = m.running
        · rw [hn]
          exact hw rfl
        · exact hi.others n hn
      refine ⟨hinv, fun n _ ↦ hquiet n, ?_, ?_⟩
      · rw [hm, hcount]
        exact hi.mids
      · refine hi.waiters_of_eq (.inr (hw rfl)) (.inr (hquiet _)) ?_ (fun n _ ↦ hmid n) hm hcount
        exact hi.inv.waitingQueue_tick ht.1 h
    · cases h

/-- In the runs of atomic calls, where a join that blocks leaves a thread to run and
an unlock finds its waiter at the front: between calls, a thread in the waiting queue
waits for a mutex that is locked or about to be locked by a woken thread, and a
thread in a run queue has its priority. -/
theorem no_stranded_waiter
    (h : Reachable (fun m a ↦ Whole m a ∧ LeavesOther m a ∧ FindsFront m a) m) :
    (m.here.quiescent = true → ∃ l, Path m.sched.next (m.sched.queues .waitingQueue).front l ∧
      ∀ n ∈ l, ∃ k, k < m.mutexCount ∧ (m.sched.tcb n).mid = (m.mutexes k).mid ∧
        ((m.mutexes k).locked ≠ 0 ∨ (m.mutexes k).readyWaiting = 1)) ∧
      ∀ i, ∃ l, Path m.sched.next (m.sched.queues (.rqs i)).front l ∧
        ∀ n ∈ l, (m.sched.tcb n).threadPriority = i := by
  have hi : ∃ q, WaitInv m q := by
    refine h.invariant (P := fun m ↦ ∃ q, WaitInv m q)
      ⟨_, inv_init, fun _ _ ↦ rfl, fun _ hk ↦ (nomatch hk), nofun⟩ ?_
    rintro m a m' ⟨q, hi⟩ ⟨hw, hl, hf⟩ hs
    exact ⟨_, hi.step hw hl hf hs⟩
  obtain ⟨q, hi⟩ := hi
  constructor
  · intro hq
    refine ⟨_, (hi.inv.linked .waitingQueue).path, fun n hn ↦ ?_⟩
    obtain ⟨k, hk, hmid, hl⟩ := (waiters_of_mutex (.inr hq)).mp hi.waiters n hn
    exact ⟨k, hk, hmid.trans (hi.mids k hk).symm, hl⟩
  · intro i
    exact ⟨_, (hi.inv.linked (.rqs i)).path, hi.inv.priority i⟩

instance (m : Machine) (a : Action) : Decidable (FindsFront m a) :=
  match h : m.here with
  | .unlock k (.found n) => decidable_of_iff (a = .next →
        (m.mutexes k).mid = (m.sched.tcb n).mid →
          (m.sched.queues .waitingQueue).front = some n) <| by
      constructor
      · rintro hf k' n' hh
        cases h.symm.trans hh
        exact hf
      · exact fun hf ↦ hf k n h
  | .user | .create _ | .yield _ | .exit _ | .join _ _ | .lock _ _ | .unlock _ .test
  | .unlock _ .owner | .unlock _ .clear | .unlock _ .tid | .unlock _ .front | .unlock _ (.loop _)
  | .unlock _ (.next _) | .unlock _ (.mid _) | .unlock _ (.priority _) | .unlock _ .ready
  | .unlock _ .move | .unlock _ .ret =>
    .isTrue fun k n hh ↦ by cases h.symm.trans hh

/-- A thread waits for a mutex that another holds. -/
theorem no_stranded_waiter_run : ∃ m : Machine,
    (m.sched.queues .waitingQueue).front = some 1 ∧
      ∃ k, k < m.mutexCount ∧ (m.sched.tcb 1).mid = (m.mutexes k).mid ∧
        ((m.mutexes k).locked ≠ 0 ∨ (m.mutexes k).readyWaiting = 1) := by
  obtain ⟨m, hm, hx⟩ := Reachable.exists_of_run
    (fun m a ↦ Whole m a ∧ LeavesOther m a ∧ FindsFront m a)
    [.init, .call .create, .next, .next, .next, .tick, .call (.lock 0), .next, .next, .next, .next,
      .next, .tick, .call (.lock 0), .next, .next, .next, .next]
    (fun m ↦ (m.here, (m.sched.queues .waitingQueue).front))
      (show _ = some (Pc.user, some 1) by decide)
  obtain ⟨hhere, hfront⟩ := Prod.mk.inj hx
  obtain ⟨l, hpath, hl⟩ := (no_stranded_waiter hm).1 (by rw [hhere]; rfl)
  refine ⟨m, hfront, hl 1 ?_⟩
  rw [hfront] at hpath
  exact List.mem_of_head? hpath.head.symm

/-- Two threads wait for two mutexes.  The unlock of the second one prepares the
second waiter and wakes the first: the second one keeps waiting, for no mutex. -/
theorem not_no_stranded_waiter : ∃ m, Reachable (fun m a ↦ Whole m a) m ∧ m.here = .user ∧
    (m.sched.queues .waitingQueue).front = some 1 ∧ m.mutexCount = 2 ∧
      (m.sched.tcb 1).mid = -1 ∧ (m.mutexes 0).mid = 0 ∧ (m.mutexes 1).mid = 1 := by
  obtain ⟨m, hm, hx⟩ := Reachable.exists_of_run (fun m a ↦ Whole m a)
    [.init, .init, .call .create, .next, .next, .next, .tick,
      -- the first thread locks both, and creates one more
      .call (.lock 0), .next, .next, .next, .next, .next,
      .call (.lock 1), .next, .next, .next, .next, .next,
      .call .create, .next, .next, .next, .next, .tick,
      -- the threads 2 and 1 block on the mutexes 0 and 1
      .call (.lock 0), .next, .next, .next, .next, .call (.lock 1), .next, .next, .next, .next,
      .call (.unlock 1), .next, .next, .next, .next, .next, .next, .next, .next, .next, .next,
      .next, .next, .next, .next, .next]
    (fun m ↦ (m.here, (m.sched.queues .waitingQueue).front, m.mutexCount, (m.sched.tcb 1).mid,
      (m.mutexes 0).mid, (m.mutexes 1).mid))
    (show _ = some (Pc.user, some 1, 2, -1, 0, 1) by decide)
  simp only [Prod.mk.injEq] at hx
  obtain ⟨h₁, h₂, h₃, h₄, h₅, h₆⟩ := hx
  exact ⟨m, hm, h₁, h₂, h₃, h₄, h₅, h₆⟩

end Waiters

end MyPthread.Api
