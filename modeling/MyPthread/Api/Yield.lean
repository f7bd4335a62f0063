import MyPthread.Api.Waiters

/-!
# Yields

`my_pthread_yield` looks at the level of the caller only.  Where another thread is in it, the
processor goes to the first thread of the best level but the caller; where the others are all in
better levels, the caller goes on.  With one mutex an unlock always finds its waiter at the front.
-/

namespace MyPthread.Sched.Mlfq

open Function

variable {q q' : Mlfq} {Q R : QueueId} {c : ℕ} {p : ℕ → Bool}

/-- Where only the place of `c` in its queue has changed, the others are as before. -/
theorem filter_move_self (hq : q.WF) (Q : QueueId) (c : ℕ) :
    (q.move Q Q c R).filter (· ≠ c) = (q R).filter (· ≠ c) := by
  by_cases hR : R = Q
  · subst hR
    have hnodup := hq.nodup R
    rw [move, put, take, update_self, update_self, List.filter_append, hnodup.erase_eq_filter,
      List.filter_filter]
    simp only [List.filter_cons, List.filter_nil, ne_eq, not_true, decide_false,
      Bool.false_eq_true, if_false, List.append_nil]
    refine List.filter_congr fun n _ ↦ ?_
    rcases eq_or_ne n c with rfl | hn
    · simp
    · simp [hn]
  · rw [move, put, take, update_of_ne hR, update_of_ne hR]

theorem find?_runnable (h : ∀ i, (q (.rqs i)).filter p = (q' (.rqs i)).filter p) :
    q.runnable.find? p = q'.runnable.find? p := by
  rw [← List.head?_filter, ← List.head?_filter, runnable, runnable, List.filter_flatMap,
    List.filter_flatMap]
  congr 2
  funext i
  exact h i

theorem filter_age (h : ∀ i, (q (.rqs i)).filter p = (q' (.rqs i)).filter p) (i : ℕ) :
    (q.age (.rqs i)).filter p = (q'.age (.rqs i)).filter p := by
  simp only [age, update_apply]
  split_ifs
  · rfl
  · rw [List.filter_append, List.filter_append, h, h]
  · exact h i

/-- The first of the other threads. -/
theorem choose_of_find? {d : ℕ} (h : q.runnable.find? (· ≠ c) = some d) : q.choose c = some d := by
  rw [choose, h]
  rfl

end MyPthread.Sched.Mlfq

namespace MyPthread.Api

open MyPthread.Lib MyPthread.Sched Function

variable {m m' : Machine} {q : Mlfq} {a : Action} {c d i n k r : ℕ} {p : Pc}

/-! ## One mutex -/

/-- At most one mutex is initialised. -/
def OneMutex (m : Machine) (a : Action) : Prop := a = .init → m.mutexCount = 0

/-- The search for a waiter is at the front of the waiting queue. -/
def Pc.AtFront (front : Option ℕ) : Pc → Prop
  | .unlock _ (.loop temp) => temp = front
  | .unlock _ (.found n) => front = some n
  | .unlock _ (.next _) => False
  | _ => True

theorem Pc.AtFront.findsFront (h : m.here.AtFront (m.sched.queues .waitingQueue).front) :
    FindsFront m a := by
  intro k n hhere _ _
  rwa [hhere] at h

/-- A thread between calls searches no waiter. -/
theorem atFront_of_quiescent {front : Option ℕ} (h : p.quiescent = true) : p.AtFront front := by
  unfold Pc.quiescent at h
  split at h <;> trivial

/-- With one mutex, the waiters are its waiters. -/
theorem WaitInv.mid_front (hi : WaitInv m q) (hone : m.mutexCount ≤ 1)
    (hhere : m.here = .unlock k (.found n)) : (m.mutexes k).mid = (m.sched.tcb n).mid := by
  have hk : k < m.mutexCount := hi.inv.flow.mutex m.running k (by
    rw [show m.pc m.running = _ from hhere]
    rfl)
  obtain rfl : k = 0 := by omega
  have hw := hi.waiters
  rw [hhere] at hw
  obtain ⟨pre, suf, -, -, hsuf⟩ := hw
  rw [hi.mids 0 hk]
  rcases hsuf n List.mem_cons_self with ⟨j, hj, hmid, -⟩ | hmid
  · obtain rfl : j = 0 := by omega
    exact hmid.symm
  · exact hmid.symm

/-- A thread at a statement outside an unlock searches no waiter. -/
theorem atFront_of_mutex {front : Option ℕ} (h : p.mutex? = none) : p.AtFront front := by
  cases p <;> trivial

/-- A lock goes on in the lock, or returns. -/
theorem stepLock_here {l : LockPc} (hr : m'.running = m.running) (h : m.stepLock k l = some m') :
    m'.here = .user ∨ ∃ l', m'.here = .lock k l' := by
  have hself : ∀ {m₁ : Machine} {p : Pc}, m₁.pc = update m.pc m.running p →
      m₁.running = m.running → m₁.here = p := by
    intro m₁ p hpc hrun
    rw [Machine.here, hrun, hpc, update_self]
  cases l with
  | test =>
    simp only [Machine.stepLock] at h
    split at h <;> cases h
    · exact .inr ⟨_, hself rfl rfl⟩
    · exact .inr ⟨_, hself rfl rfl⟩
  | mid | tid =>
    simp only [Machine.stepLock, Option.bind_eq_bind, Option.bind_eq_some_iff, Option.pure_def,
      Option.some.injEq] at h
    obtain ⟨c, -, rfl⟩ := h
    exact .inr ⟨_, hself rfl rfl⟩
  | call =>
    simp only [Machine.stepLock, Machine.callScheduler, Option.bind_eq_bind,
      Option.bind_eq_some_iff, Option.pure_def, Option.some.injEq] at h
    obtain ⟨s, -, rfl⟩ := h
    exact .inr ⟨.test, hself rfl hr⟩
  | ret =>
    cases h
    exact .inl (hself rfl rfl)
  | flag | set | ready =>
    cases h
    exact .inr ⟨_, hself rfl rfl⟩

/-- With one mutex, the search ends where it begins. -/
theorem atFront_unlock {u : UnlockPc} (hi : WaitInv m q) (hone : m.mutexCount ≤ 1)
    (hhere : m.here = .unlock k u) (h : m.here.AtFront (m.sched.queues .waitingQueue).front)
    (hs : m.stepUnlock k u = some m') :
    m'.here.AtFront (m'.sched.queues .waitingQueue).front := by
  have hself : ∀ {m₁ : Machine} {p : Pc} {front : Option ℕ}, m₁.pc = update m.pc m.running p →
      m₁.running = m.running → p.AtFront front → m₁.here.AtFront front := by
    intro m₁ p front hpc hrun hp
    rwa [Machine.here, hrun, hpc, update_self]
  rw [hhere] at h
  cases u with
  | test =>
    simp only [Machine.stepUnlock] at hs
    split at hs <;> cases hs
    · exact hself rfl rfl trivial
    · exact hself rfl rfl trivial
  | owner =>
    simp only [Machine.stepUnlock, Option.bind_eq_bind, Option.bind_eq_some_iff] at hs
    obtain ⟨c, -, hs⟩ := hs
    split at hs <;> cases hs
    · exact hself rfl rfl trivial
    · exact hself rfl rfl trivial
  | front =>
    cases hs
    exact hself rfl rfl rfl
  | loop temp =>
    cases temp with
    | none =>
      cases hs
      exact hself rfl rfl trivial
    | some n =>
      cases hs
      exact hself rfl rfl h.symm
  | found n =>
    -- the thread at the front waits for the mutex
    rw [Machine.stepUnlock, if_pos (hi.mid_front hone hhere)] at hs
    cases hs
    exact hself rfl rfl trivial
  | next n => cases h
  | move =>
    simp only [Machine.stepUnlock, Option.bind_eq_bind, Option.bind_eq_some_iff, Option.pure_def,
      Option.some.injEq] at hs
    obtain ⟨s, -, rfl⟩ := hs
    exact hself rfl rfl trivial
  | clear | tid | mid | priority | ready | ret =>
    cases hs
    exact hself rfl rfl trivial

theorem Pc.AtFront.next (hi : WaitInv m q) (hone : m.mutexCount ≤ 1)
    (h : m.here.AtFront (m.sched.queues .waitingQueue).front) (hs : m.next = some m') :
    m'.here.AtFront (m'.sched.queues .waitingQueue).front := by
  obtain ⟨p, hp⟩ := next_pc hs
  by_cases hr : m'.running = m.running
  · have hhere' : m'.here = p := by rw [Machine.here, hr, hp.pc, update_self]
    cases hk : m.here.mutex? with
    | none =>
      rw [hhere']
      exact atFront_of_mutex (hp.mutex.elim id fun h ↦ h.trans hk)
    | some k =>
      cases hhere : m.here with
      | lock j l =>
        rw [Machine.next, hhere] at hs
        rcases stepLock_here hr hs with h | ⟨l', h⟩
        · rw [h]
          trivial
        · rw [h]
          trivial
      | unlock j u =>
        rw [Machine.next, hhere] at hs
        exact atFront_unlock hi hone hhere h hs
      | user | create | yield | exit | join =>
        rw [hhere] at hk
        cases hk
  · refine atFront_of_quiescent ?_
    rw [Machine.here, hp.pc, update_of_ne hr]
    exact hi.others _ hr

/-- What a run with one mutex keeps. -/
structure OneWaitInv (m : Machine) (q : Mlfq) : Prop extends WaitInv m q where
  one : m.mutexCount ≤ 1
  atFront : m.here.AtFront (m.sched.queues .waitingQueue).front

theorem OneWaitInv.step (hi : OneWaitInv m q) (hw : Whole m a) (hl : LeavesOther m a)
    (ho : OneMutex m a) (h : m.step a = some m') : OneWaitInv m' (m.advance q a) := by
  have hwait := hi.toWaitInv.step hw hl hi.atFront.findsFront h
  cases a with
  | call c =>
    simp only [Machine.step] at h
    split at h <;> cases h
    refine ⟨hwait, hi.one, ?_⟩
    rw [Machine.here,
      show (m.goto c.entry).pc (m.goto c.entry).running = c.entry from update_self ..]
    cases c <;> trivial
  | init =>
    simp only [Machine.step] at h
    split at h <;> cases h
    refine ⟨hwait, ?_, hi.atFront⟩
    show m.mutexCount + 1 ≤ 1
    rw [ho rfl]
  | next =>
    refine ⟨hwait, ?_, hi.atFront.next hi.toWaitInv hi.one h⟩
    cases hk : m.here.mutex? with
    | none => exact (hi.mid_of_mutex hk h).2.2.trans_le hi.one
    | some k => exact (next_mids h hk).2.trans_le hi.one
  | tick =>
    simp only [Machine.step] at h
    split at h
    · obtain ⟨-, -, hcount, hpc⟩ := callScheduler_mid (hi.inv.flow.setFc .timer) h
      refine ⟨hwait, hcount.trans_le hi.one, atFront_of_quiescent ?_⟩
      rw [Machine.here, hpc]
      rcases eq_or_ne m'.running m.running with hn | hn
      · rw [hn]
        exact hw rfl
      · exact hi.others _ hn
    · cases h

theorem exists_oneWaitInv
    (h : Reachable (fun m a ↦ Whole m a ∧ LeavesOther m a ∧ OneMutex m a) m) :
    ∃ q, OneWaitInv m q := by
  refine h.invariant (P := fun m ↦ ∃ q, OneWaitInv m q)
    ⟨_, ⟨inv_init, fun _ _ ↦ rfl, fun _ hk ↦ (nomatch hk), nofun⟩, Nat.zero_le _, trivial⟩ ?_
  rintro m a m' ⟨q, hi⟩ ⟨hw, hl, ho⟩ hs
  exact ⟨_, hi.step hw hl ho hs⟩

/-! ## The call -/

/-- A call of `my_pthread_yield`, up to its own call of `scheduler`. -/
def Machine.yieldCall (m : Machine) : Option Machine := do
  let m ← (m.goto (.yield .test)).stepYield .test
  if m.here = .user then return m
  let m ← m.stepYield .flag
  m.stepYield .call

/-- A thread other than `c` is in `rqs[i]`. -/
def OtherAt (m : Machine) (c i : ℕ) : Prop :=
  ∃ l, Path m.sched.next (m.sched.queues (.rqs i)).front l ∧ ∃ n ∈ l, n ≠ c

/-- The call of `c` switches to another thread, the first of the best level.  Where the
maintenance is due, the levels are those it leaves. -/
def Defers (m : Machine) (c : ℕ) : Prop :=
  ∃ q m' d, Linked m.sched q ∧ m.yieldCall = some m' ∧ m'.sched.current = some d ∧
    m'.running = d ∧ d ≠ c ∧
    (if maintCycle < m.sched.maintenanceCount then q.age else q).runnable.find? (· ≠ c) = some d

@[simp] theorem goto_goto {p p' : Pc} : (m.goto p).goto p' = m.goto p' := by
  simp only [Machine.goto, update_idem]

theorem goto_here (h : m.here = p) : m.goto p = m := by
  rw [Machine.goto, ← h, update_eq_self]

/-- The test of `my_pthread_yield` looks at the link of the first thread of the level. -/
theorem stepYield_test (hc : m.sched.current = some c)
    (hf : (m.sched.queues (.rqs (m.sched.tcb c).threadPriority)).front = some n) :
    m.stepYield .test =
      some (if m.sched.next n = none then m.goto .user else m.goto (.yield .flag)) := by
  simp only [Machine.stepYield, hc, hf, Option.bind_eq_bind, Option.bind_some, Option.pure_def]
  split <;> rfl

/-- The call is a run of its statements. -/
theorem exists_run_of_yieldCall (hu : m.here = .user) (h : m.yieldCall = some m') :
    ∃ as, m.run (fun _ _ ↦ True) (.call .yield :: as) = some m' := by
  have hself : ∀ {m : Machine} {p : Pc}, (m.goto p).here = p := fun {m p} ↦ update_self ..
  have hcall : m.step (.call .yield) = some (m.goto (.yield .test)) := if_pos ⟨hu, trivial⟩
  simp only [Machine.yieldCall, Option.bind_eq_bind, Option.bind_eq_some_iff] at h
  obtain ⟨m₁, h₁, h⟩ := h
  have hnext : (m.goto (.yield .test)).step .next = some m₁ := by
    rw [Machine.step, Machine.next, hself]
    exact h₁
  split at h
  · cases h
    refine ⟨[.next], ?_⟩
    simp only [Machine.run, if_true, hcall, hnext, Option.bind_some]
  · rename_i hne
    have hflag : m₁ = m₁.goto (.yield .flag) := by
      simp only [Machine.stepYield, Option.bind_eq_bind, Option.bind_eq_some_iff] at h₁
      obtain ⟨c, -, f, -, h₁⟩ := h₁
      split at h₁ <;> cases h₁
      · exact absurd hself hne
      · exact goto_goto.symm
    refine ⟨[.next, .next, .next], ?_⟩
    have hnext' : m₁.step .next = m₁.stepYield .flag := by
      rw [Machine.step, Machine.next, hflag, hself]
    have hnext'' : ((m₁.setFc .yield).goto (.yield .call)).step .next = some m' := by
      rw [Machine.step, Machine.next, hself]
      exact h
    simp only [Machine.run, if_true, hcall, hnext, hnext', Machine.stepYield, hnext'',
      Option.bind_some]

/-- A thread alone in its level goes on. -/
theorem yieldCall_of_alone (hu : m.here = .user) (hc : m.sched.current = some c)
    (hf : (m.sched.queues (.rqs (m.sched.tcb c).threadPriority)).front = some n)
    (hn : m.sched.next n = none) : m.yieldCall = some m := by
  have htest : (m.goto (.yield .test)).stepYield .test = some m := by
    refine (stepYield_test (m := m.goto (.yield .test)) hc hf).trans
      (congrArg some ((if_pos hn).trans ?_))
    rw [goto_goto, goto_here hu]
  simp only [Machine.yieldCall, htest, Option.bind_eq_bind, Option.bind_some, if_pos hu,
    Option.pure_def]

/-- Otherwise it calls `scheduler`. -/
theorem yieldCall_of_next (hc : m.sched.current = some c)
    (hf : (m.sched.queues (.rqs (m.sched.tcb c).threadPriority)).front = some n)
    (hn : m.sched.next n ≠ none) : m.yieldCall = ((m.setFc .yield).goto .user).callScheduler := by
  have htest : (m.goto (.yield .test)).stepYield .test = some (m.goto (.yield .flag)) := by
    refine (stepYield_test (m := m.goto (.yield .test)) hc hf).trans
      (congrArg some ((if_neg hn).trans ?_))
    rw [goto_goto]
  have hne : (m.goto (.yield .flag)).here ≠ .user := by
    rw [show (m.goto (.yield .flag)).here = _ from update_self ..]
    exact nofun
  simp only [Machine.yieldCall, htest, Option.bind_eq_bind, Option.bind_some, if_neg hne]
  show ((((m.setFc .yield).goto (.yield .flag)).goto (.yield .call)).goto .user).callScheduler = _
  rw [goto_goto, goto_goto]

/-- In the levels after the request, the first thread but `c` is the one before it. -/
theorem find?_requested (hq : q.WF) (r : ℕ) :
    (q.requested .yield k c r).runnable.find? (· ≠ c) =
      (if maintCycle < k then q.age else q).runnable.find? (· ≠ c) := by
  have hmove : ∀ i, (q.move (.rqs r) (.rqs r) c (.rqs i)).filter (· ≠ c) =
      (q (.rqs i)).filter (· ≠ c) := fun i ↦ Mlfq.filter_move_self hq (.rqs r) c
  rw [Mlfq.requested, if_neg (by rintro ⟨⟩)]
  split
  · exact Mlfq.find?_runnable (Mlfq.filter_age hmove)
  · exact Mlfq.find?_runnable hmove

theorem otherAt_iff {i : ℕ} (hl : Linked m.sched q) :
    OtherAt m c i ↔ ∃ n ∈ q (.rqs i), n ≠ c := by
  constructor
  · rintro ⟨l, hpath, ho⟩
    rwa [hpath.unique (hl (.rqs i)).path] at ho
  · intro ho
    exact ⟨_, (hl (.rqs i)).path, ho⟩

theorem otherAt_of_front {i : ℕ} (hl : Linked m.sched q)
    (hf : (m.sched.queues (.rqs i)).front = some n) (hn : n ≠ c) : OtherAt m c i := by
  refine (otherAt_iff hl).mpr ⟨n, ?_, hn⟩
  exact List.mem_of_head? ((hl.front (.rqs i)).symm.trans hf)

/-- The current thread is the first of its level. -/
theorem Inv.exists_level (hi : Inv m q) (hu : m.here = .user) (hc : m.sched.current = some c) :
    c = m.running ∧ Active m q (m.sched.tcb c).threadPriority ∧
      ∃ l, q (.rqs (m.sched.tcb c).threadPriority) = c :: l ∧ m.sched.next c = l.head? := by
  obtain rfl : c = m.running := hi.flow.current c hc
  obtain ⟨r, ha⟩ := hi.exists_active (.inr ⟨by rw [hc]; exact nofun, by rw [hu]; rfl⟩)
    (by rw [hu]; rfl)
  obtain rfl : (m.sched.tcb m.running).threadPriority = r :=
    hi.priority r m.running (List.mem_of_head? ha.head)
  obtain ⟨l, hl⟩ := List.head?_eq_some_iff.mp ha.head
  refine ⟨rfl, ha, l, hl, ?_⟩
  have hpath := (hi.linked (.rqs (m.sched.tcb m.running).threadPriority)).path
  rw [hl] at hpath
  exact hpath.head_next (l := [])

/-- The switch to the first of the other threads. -/
theorem Inv.defers (hi : Inv m q) (hu : m.here = .user) (hc : m.sched.current = some c)
    (ho : OtherAt m c (m.sched.tcb c).threadPriority) : Defers m c := by
  obtain ⟨rfl, ha, l, hl, hnext⟩ := hi.exists_level hu hc
  obtain ⟨n, hn, hnc⟩ := (otherAt_iff hi.linked).mp ho
  have hmem : n ∈ l := by
    rw [hl] at hn
    exact (List.mem_cons.mp hn).resolve_left hnc
  have hfront := hi.linked.front (.rqs (m.sched.tcb m.running).threadPriority)
  rw [hl] at hfront
  have hcall := yieldCall_of_next hc hfront (by
    rw [hnext]
    intro h
    rw [List.head?_eq_none_iff.mp h] at hmem
    cases hmem)
  have hflow : Flow ((m.setFc .yield).goto .user) := by
    have hpc : (m.setFc .yield).here = .user := hu
    exact (hi.flow.setFc .yield).goto (by rw [hpc]; rfl) (.inl rfl) rfl
  have hr : Ready ((m.setFc .yield).goto .user) q (m.sched.tcb m.running).threadPriority :=
    hi.ready (f := .yield) (g := m.gone) hflow rfl ha.first ha.current
      (List.mem_of_head? ha.head) (fun _ ↦ ha.head) rfl (fun _ ↦ trivial)
      (of_exiting (by rw [hu]; rfl)) (fun _ ↦ .inl) nofun nofun nofun
  obtain ⟨s, hs, hsched⟩ := scheduler_spec hr.calling nofun (fun _ ↦ setitimer_ne)
    hr.length_runnable
  -- the other thread stays in a run queue, so that there is one to choose
  have hstays := mem_runnable_requested .yield m.sched.maintenanceCount hi.wf hr.mem
    ((Mlfq.mem_runnable hi.wf).mpr ⟨_, hn⟩) (.inl hnc)
  obtain ⟨d, hd⟩ := Option.isSome_iff_exists.mp
    (List.find?_isSome (p := (· ≠ m.running)).mpr ⟨n, hstays, by simpa using hnc⟩)
  have hdc : d ≠ m.running := by simpa using List.find?_some hd
  obtain ⟨hcur, -, -, -⟩ := hsched.chosen d (Mlfq.choose_of_find? hd)
  rw [Machine.callScheduler, show scheduler _ _ _ = some s from hs] at hcall
  refine ⟨q, _, d, hi.linked, hcall, hcur, ?_, hdc,
    (find?_requested hi.wf _).symm.trans hd⟩
  show s.current.getD _ = d
  rw [hcur, Option.getD_some]

/-- In the runs of atomic calls with one mutex, where a join that blocks leaves a thread to
run: a yield switches to the first of the best level exactly if a thread other than the
current one is in the same level, whatever threads the better levels have. -/
theorem yield_defers_iff
    (h : Reachable (fun m a ↦ Whole m a ∧ LeavesOther m a ∧ OneMutex m a) m) (hu : m.here = .user)
    (hc : m.sched.current = some c) :
    Defers m c ↔ OtherAt m c (m.sched.tcb c).threadPriority := by
  obtain ⟨q, hi⟩ := exists_oneWaitInv h
  refine ⟨?_, hi.inv.defers hu hc⟩
  rintro ⟨q', m', d, -, hcall, hcur, -, hd, -⟩
  obtain ⟨-, -, l, hl, hnext⟩ := hi.inv.exists_level hu hc
  have hfront := hi.inv.linked.front (.rqs (m.sched.tcb c).threadPriority)
  rw [hl] at hfront
  apply (otherAt_iff hi.inv.linked).mpr
  cases l with
  | nil =>
    -- the test finds no second thread
    rw [yieldCall_of_alone hu hc hfront hnext] at hcall
    cases hcall
    exact absurd (Option.some.inj (hcur.symm.trans hc)) hd
  | cons n l =>
    refine ⟨n, by rw [hl]; exact List.mem_cons_of_mem _ List.mem_cons_self, ?_⟩
    rintro rfl
    have hnd := hi.inv.wf.nodup (.rqs (m.sched.tcb n).threadPriority)
    rw [hl] at hnd
    exact (List.nodup_cons.mp hnd).1 List.mem_cons_self

instance (m : Machine) (a : Action) : Decidable (OneMutex m a) := by
  unfold OneMutex
  infer_instance

/-- The thread of the first call of `my_pthread_create` yields to its caller. -/
theorem yield_defers_first : ∃ m : Machine, m.sched.current = some 1 ∧ Defers m 1 := by
  obtain ⟨m, hm, hx⟩ := Reachable.exists_of_run
    (fun m a ↦ Whole m a ∧ LeavesOther m a ∧ OneMutex m a)
    [.call .create, .next, .next, .next]
    (fun m ↦ decide (m.here = .user ∧ m.sched.current = some 1 ∧
      m.sched.next 1 = some 0))
    (show _ = some true by decide)
  obtain ⟨hu, hc, hnext⟩ := of_decide_eq_true hx
  obtain ⟨q, hi⟩ := exists_oneWaitInv hm
  obtain ⟨-, -, l, hl, hl'⟩ := hi.inv.exists_level hu hc
  have ho : OtherAt m 1 (m.sched.tcb 1).threadPriority := by
    refine (otherAt_iff hi.inv.linked).mpr ⟨0, ?_, by decide⟩
    rw [hl]
    exact List.mem_cons_of_mem _ (List.mem_of_head? (hl'.symm.trans hnext))
  exact ⟨m, hc, (yield_defers_iff hm hu hc).mpr ho⟩

/-- A thread alone in the second level creates a thread: its yield returns, with the new
thread in the first level. -/
theorem not_yield_defers : ∃ m,
    Reachable (fun m a ↦ Whole m a ∧ LeavesOther m a ∧ OneMutex m a) m ∧ m.here = .user ∧
      m.sched.current = some 0 ∧ (m.sched.tcb 0).threadPriority = 1 ∧ OtherAt m 0 0 ∧
      ¬Defers m 0 := by
  obtain ⟨m, hm, hx⟩ := Reachable.exists_of_run
    (fun m a ↦ Whole m a ∧ LeavesOther m a ∧ OneMutex m a)
    [.call .create, .next, .next, .next, .tick, .tick, .tick,
      .call .create, .next, .next, .next, .next]
    (fun m ↦ decide (m.here = .user ∧ m.sched.current = some 0 ∧
      (m.sched.tcb 0).threadPriority = 1 ∧ (m.sched.queues (.rqs 0)).front = some 2 ∧
      (m.sched.queues (.rqs 1)).front = some 0 ∧ m.sched.next 0 = none))
    (show _ = some true by decide)
  obtain ⟨hu, hc, hr, hfront, hown, hnext⟩ := of_decide_eq_true hx
  obtain ⟨q, hi⟩ := exists_oneWaitInv hm
  refine ⟨m, hm, hu, hc, hr, otherAt_of_front hi.inv.linked hfront (by decide), ?_⟩
  rintro ⟨q', m', d, -, hcall, hcur, -, hd, -⟩
  rw [← hr] at hown
  rw [yieldCall_of_alone hu hc hown hnext] at hcall
  cases hcall
  exact absurd (Option.some.inj (hcur.symm.trans hc)) hd

end MyPthread.Api
