import MyPthread.Api.Control

/-!
# What a step leaves alone

A step changes what the executing thread waits for, but of the other threads no
`join_id`, and a `mid` only when an unlock wakes its thread; it stores to the mutex
of its statement only; and what has been said of exits stays said.
-/

namespace MyPthread.Api

open MyPthread.Sched Function

/-- The mutex that a statement stores to. -/
def Pc.writes : Pc → Option ℕ
  | .lock k .set | .lock k .tid | .lock k .ready => some k
  | .unlock k .clear | .unlock k .tid | .unlock k .ready => some k
  | _ => none

variable {m m' : Machine} {n k t : ℕ} {p : Pc} {s s' : State}

/-- The thread `n` waits for what it waited for. -/
def SameWait (s s' : State) (n : ℕ) : Prop :=
  (s'.tcb n).joinId = (s.tcb n).joinId ∧ (s'.tcb n).mid = (s.tcb n).mid

theorem SameWait.of_tcb (h : s'.tcb n = s.tcb n) : SameWait s s' n := by
  rw [SameWait, h]
  exact ⟨rfl, rfl⟩

theorem SameWait.of_priorityOnly (h : PriorityOnly s s') (n : ℕ) : SameWait s s' n := by
  rw [SameWait, h n]
  exact ⟨rfl, rfl⟩

theorem SameWait.trans {s₁ : State} (h : SameWait s s₁ n) (h' : SameWait s₁ s' n) :
    SameWait s s' n :=
  ⟨h'.1.trans h.1, h'.2.trans h.2⟩

/-- What a step leaves of the other threads, of the mutexes and of the exits. -/
structure Frame (m m' : Machine) : Prop where
  tcb : ∀ n, n ≠ m.running → n < m.nodeCount → SameWait m.sched m'.sched n ∨
    ∃ k, m.here = .unlock k (.mid n) ∧ (m'.sched.tcb n).joinId = (m.sched.tcb n).joinId
  mutexes : ∀ k < m.mutexCount, m.here.writes ≠ some k → m'.mutexes k = m.mutexes k
  mutexCount : m.mutexCount ≤ m'.mutexCount
  gone : m'.gone = m.gone ∨ m.here = .exit .call ∧ m'.gone = m.running :: m.gone
  exitList : m'.exitList = m.exitList ∨
    ∃ e, m.here = .exit (.push e) ∧ m'.exitList = e :: m.exitList

theorem Frame.mem_gone (hf : Frame m m') (hn : n ∈ m.gone) : n ∈ m'.gone := by
  rcases hf.gone with h | ⟨-, h⟩
  · rwa [h]
  · rw [h]
    exact List.mem_cons_of_mem _ hn

theorem Frame.mem_exitList {e : ExitNode} (hf : Frame m m') (he : e ∈ m.exitList) :
    e ∈ m'.exitList := by
  rcases hf.exitList with h | ⟨d, -, h⟩
  · rwa [h]
  · rw [h]
    exact List.mem_cons_of_mem _ he

/-- A step that changes the scheduler's state and the program counter. -/
theorem Frame.withSched
    (h : ∀ n, n ≠ m.running → n < m.nodeCount → SameWait m.sched s n)
    (hm : m' = { m with sched := s, pc := m'.pc, running := m'.running }) : Frame m m' := by
  rw [hm]
  exact ⟨fun n hn hlt ↦ .inl (h n hn hlt), fun _ _ _ ↦ rfl, le_rfl, .inl rfl, .inl rfl⟩

/-- A statement that changes neither, nor what is said of exits. -/
theorem Frame.goto : Frame m (m.goto p) :=
  .withSched (fun _ _ _ ↦ .of_tcb rfl) rfl

theorem Frame.setFc {f : FlagCalled} : Frame m ((m.setFc f).goto p) :=
  .withSched (s := { m.sched with fc := f }) (fun _ _ _ ↦ .of_tcb rfl) rfl

theorem Frame.onlyLinks (h : OnlyLinks m.sched s) : Frame m ((m.withSched s).goto p) :=
  .withSched (fun n _ _ ↦ .of_tcb (h.tcb n)) rfl

/-- A store to the mutex of the statement. -/
theorem Frame.modifyMutex {f : Mutex → Mutex} (hw : m.here.writes = some k) :
    Frame m ((m.modifyMutex k f).goto p) := by
  refine ⟨fun n _ _ ↦ .inl (.of_tcb rfl), fun j _ hj ↦ ?_, le_rfl, .inl rfl, .inl rfl⟩
  exact update_of_ne (fun h ↦ hj (hw.trans (congrArg some h.symm))) _ _

/-- A store to the block of the executing thread. -/
theorem Frame.modifyTcb {f : Tcb → Tcb} :
    Frame m ((m.withSched (m.sched.modifyTcb m.running f)).goto p) :=
  .withSched (fun _ hn _ ↦ .of_tcb (State.tcb_modifyTcb_of_ne hn)) rfl

theorem callScheduler_sameWait (hf : Flow m) (h : m.callScheduler = some m') (n : ℕ) :
    SameWait m.sched m'.sched n := by
  simp only [Machine.callScheduler, Option.bind_eq_bind, Option.bind_eq_some_iff, Option.pure_def,
    Option.some.injEq] at h
  obtain ⟨s, hs, rfl⟩ := h
  exact .of_priorityOnly (scheduler_evolves hf.valid hs).priorityOnly n

/-- A call of `scheduler`. -/
theorem Frame.call (hf : Flow m) (hc : m.here.inCreate = false) (hp : p.mutex? = none ∨
    p.mutex? = m.here.mutex?) (hpc : p.inCreate = false)
    (h : (m.goto p).callScheduler = some m') : Frame m m' := by
  have hw := callScheduler_sameWait (hf.goto hc hp hpc) h
  refine .withSched (s := m'.sched) (fun n _ _ ↦ hw n) ?_
  simp only [Machine.callScheduler, Option.bind_eq_bind, Option.bind_eq_some_iff, Option.pure_def,
    Option.some.injEq] at h
  obtain ⟨s, -, rfl⟩ := h
  rfl

theorem exitBody_sameWait {e : ExitNode} (h : Machine.exitBody e s = some s') (n : ℕ) :
    SameWait s s' n := by
  have hd := dequeuee_onlyLinks .joinQueue s
  simp only [Machine.exitBody, Option.bind_eq_bind, Option.bind_eq_some_iff] at h
  obtain ⟨j, -, c, -, h⟩ := h
  refine (SameWait.of_tcb (hd.tcb n)).trans ?_
  split at h
  · refine SameWait.trans ?_ (.of_tcb ((enqueuee_onlyLinks h).tcb n))
    by_cases hn : n = j
    · rw [hn, SameWait, State.tcb_setPriority_self, State.tcb_modifyTcb_self]
      exact ⟨rfl, rfl⟩
    · exact .of_tcb (by rw [State.tcb_setPriority_of_ne hn, State.tcb_modifyTcb_of_ne hn])
  · exact .of_tcb ((enqueuee_onlyLinks h).tcb n)

/-! ### The statements -/

theorem stepCreate_frame {c : CreatePc} (hf : Flow m) (hh : m.here = .create c)
    (h : m.stepCreate c = some m') : Frame m m' := by
  cases c with
  | node =>
    simp only [Machine.stepCreate] at h
    split at h <;> rename_i hfirst
    · simp only [Option.bind_eq_bind, Option.bind_eq_some_iff, Option.pure_def,
        Option.some.injEq] at h
      obtain ⟨s₁, -, s₂, -, rfl⟩ := h
      -- the only node is the one of the thread that executes
      refine ⟨fun n hn hlt ↦ ?_, fun _ _ _ ↦ rfl, le_rfl, .inl rfl, .inl rfl⟩
      have := hf.running
      rw [(hf.first hfirst).1] at hlt this
      omega
    · cases h
      refine ⟨fun n _ hlt ↦ .inl (.of_tcb (tcb_newNode_of_ne hlt.ne)), fun _ _ _ ↦ rfl, le_rfl,
        .inl rfl, .inl rfl⟩
  | enqueue n =>
    simp only [Machine.stepCreate, Option.bind_eq_bind, Option.bind_eq_some_iff, Option.pure_def,
      Option.some.injEq] at h
    obtain ⟨s, hs, rfl⟩ := h
    exact .onlyLinks (enqueuee_onlyLinks hs)
  | count =>
    cases h
    exact ⟨fun _ _ _ ↦ .inl (.of_tcb rfl), fun _ _ _ ↦ rfl, le_rfl, .inl rfl, .inl rfl⟩
  | call => exact .call hf (by rw [hh]; rfl) (.inl rfl) rfl h

theorem stepYield_frame {y : YieldPc} (hf : Flow m) (hh : m.here = .yield y)
    (h : m.stepYield y = some m') : Frame m m' := by
  cases y with
  | test =>
    simp only [Machine.stepYield, Option.bind_eq_bind, Option.bind_eq_some_iff] at h
    obtain ⟨c, -, f, -, h⟩ := h
    split at h <;> cases h <;> exact .goto
  | flag =>
    cases h
    exact .setFc
  | call => exact .call hf (by rw [hh]; rfl) (.inl rfl) rfl h

theorem stepExit_frame {x : ExitPc} (hf : Flow m) (hh : m.here = .exit x)
    (h : m.stepExit x = some m') : Frame m m' := by
  cases x with
  | node v =>
    simp only [Machine.stepExit, Option.bind_eq_bind, Option.bind_eq_some_iff, Option.pure_def,
      Option.some.injEq] at h
    obtain ⟨c, -, rfl⟩ := h
    exact ⟨fun _ _ _ ↦ .inl (.of_tcb rfl), fun _ _ _ ↦ rfl, le_rfl, .inl rfl, .inl rfl⟩
  | flag e =>
    cases h
    exact .setFc
  | loop e i =>
    simp only [Machine.stepExit, Option.bind_eq_bind, Option.bind_eq_some_iff] at h
    obtain ⟨count, -, h⟩ := h
    split at h
    · simp only [Option.bind_eq_some_iff, Option.pure_def, Option.some.injEq] at h
      obtain ⟨s, hs, rfl⟩ := h
      exact .withSched (fun n _ _ ↦ exitBody_sameWait hs n) rfl
    · cases h
      exact .goto
  | push e =>
    cases h
    exact ⟨fun _ _ _ ↦ .inl (.of_tcb rfl), fun _ _ _ ↦ rfl, le_rfl, .inl rfl,
      .inr ⟨e, hh, rfl⟩⟩
  | call =>
    have hf' : Flow ({ m with gone := m.running :: m.gone }.goto (.exit .ret)) :=
      hf.gotoAfter (by rw [hh]; rfl) (.inl rfl) rfl
    have hw := callScheduler_sameWait hf' h
    simp only [Machine.stepExit, Machine.callScheduler, Option.bind_eq_bind,
      Option.bind_eq_some_iff, Option.pure_def, Option.some.injEq] at h
    obtain ⟨s, -, rfl⟩ := h
    exact ⟨fun n _ _ ↦ .inl (hw n), fun _ _ _ ↦ rfl, le_rfl, .inr ⟨hh, rfl⟩, .inl rfl⟩
  | ret =>
    cases h
    exact .goto

theorem stepJoin_frame {j : JoinPc} (hf : Flow m) (hh : m.here = .join t j)
    (h : m.stepJoin t j = some m') : Frame m m' := by
  cases j with
  | list =>
    cases h
    exact .goto
  | bound temp =>
    simp only [Machine.stepJoin] at h
    split at h <;> cases h <;> exact .goto
  | search temp =>
    cases temp with
    | nil =>
      cases h
      exact .goto
    | cons e temp =>
      simp only [Machine.stepJoin] at h
      split at h <;> cases h
      · exact ⟨fun _ _ _ ↦ .inl (.of_tcb rfl), fun _ _ _ ↦ rfl, le_rfl, .inl rfl, .inl rfl⟩
      · exact .goto
  | store =>
    simp only [Machine.stepJoin, Option.bind_eq_bind, Option.bind_eq_some_iff, Option.pure_def,
      Option.some.injEq] at h
    obtain ⟨c, hc, rfl⟩ := h
    obtain rfl := hf.current c hc
    exact .modifyTcb
  | flag =>
    cases h
    exact .setFc
  | call => exact .call hf (by rw [hh]; rfl) (.inl rfl) rfl h
  | ret =>
    simp only [Machine.stepJoin, Option.bind_eq_bind, Option.bind_eq_some_iff, Option.pure_def,
      Option.some.injEq] at h
    obtain ⟨c, -, rfl⟩ := h
    exact ⟨fun _ _ _ ↦ .inl (.of_tcb rfl), fun _ _ _ ↦ rfl, le_rfl, .inl rfl, .inl rfl⟩

theorem stepLock_frame {l : LockPc} (hf : Flow m) (hh : m.here = .lock k l)
    (h : m.stepLock k l = some m') : Frame m m' := by
  cases l with
  | test =>
    simp only [Machine.stepLock] at h
    split at h <;> cases h <;> exact .goto
  | flag =>
    cases h
    exact .setFc
  | mid =>
    simp only [Machine.stepLock, Option.bind_eq_bind, Option.bind_eq_some_iff, Option.pure_def,
      Option.some.injEq] at h
    obtain ⟨c, hc, rfl⟩ := h
    obtain rfl := hf.current c hc
    exact .modifyTcb
  | call => exact .call hf (by rw [hh]; rfl) (.inr (by rw [hh]; rfl)) rfl h
  | tid =>
    simp only [Machine.stepLock, Option.bind_eq_bind, Option.bind_eq_some_iff, Option.pure_def,
      Option.some.injEq] at h
    obtain ⟨c, -, rfl⟩ := h
    exact .modifyMutex (by rw [hh]; rfl)
  | set | ready =>
    cases h
    exact .modifyMutex (by rw [hh]; rfl)
  | ret =>
    cases h
    exact ⟨fun _ _ _ ↦ .inl (.of_tcb rfl), fun _ _ _ ↦ rfl, le_rfl, .inl rfl, .inl rfl⟩

theorem stepUnlock_frame {u : UnlockPc} (hh : m.here = .unlock k u)
    (h : m.stepUnlock k u = some m') : Frame m m' := by
  cases u with
  | test =>
    simp only [Machine.stepUnlock] at h
    split at h <;> cases h <;> exact .goto
  | owner =>
    simp only [Machine.stepUnlock, Option.bind_eq_bind, Option.bind_eq_some_iff] at h
    obtain ⟨c, -, h⟩ := h
    split at h <;> cases h <;> exact .goto
  | clear =>
    cases h
    refine ⟨fun n _ _ ↦ .inl (.of_tcb rfl), fun j _ hj ↦ ?_, le_rfl, .inl rfl, .inl rfl⟩
    exact update_of_ne (fun h ↦ hj (by rw [hh, h]; rfl)) _ _
  | tid | ready =>
    cases h
    exact .modifyMutex (by rw [hh]; rfl)
  | loop temp => cases temp <;> cases h <;> exact .goto
  | found n =>
    simp only [Machine.stepUnlock] at h
    split at h <;> cases h <;> exact .goto
  | mid n =>
    cases h
    refine ⟨fun j _ _ ↦ ?_, fun _ _ _ ↦ rfl, le_rfl, .inl rfl, .inl rfl⟩
    by_cases hj : j = n
    · subst hj
      have htcb : (m.sched.modifyTcb j fun t ↦ { t with mid := -1 }).tcb j =
          { m.sched.tcb j with mid := -1 } := State.tcb_modifyTcb_self
      have hjoin := congrArg Tcb.joinId htcb
      exact .inr ⟨k, hh, hjoin⟩
    · have htcb : (m.sched.modifyTcb n fun t ↦ { t with mid := -1 }).tcb j = m.sched.tcb j :=
        State.tcb_modifyTcb_of_ne hj
      exact .inl (.of_tcb htcb)
  | priority n =>
    cases h
    exact .withSched (s := m.sched.setPriority n 0)
      (fun j _ _ ↦ .of_priorityOnly (.setPriority m.sched n 0) j) rfl
  | move =>
    simp only [Machine.stepUnlock, Option.bind_eq_bind, Option.bind_eq_some_iff, Option.pure_def,
      Option.some.injEq] at h
    obtain ⟨s, hs, rfl⟩ := h
    exact .onlyLinks (requeue_onlyLinks hs)
  | front | next | ret =>
    cases h
    exact .goto

theorem next_frame (hf : Flow m) (h : m.next = some m') : Frame m m' := by
  unfold Machine.next at h
  split at h <;> rename_i hh
  · cases h
  · exact stepCreate_frame hf hh h
  · exact stepYield_frame hf hh h
  · exact stepExit_frame hf hh h
  · exact stepJoin_frame hf hh h
  · exact stepLock_frame hf hh h
  · exact stepUnlock_frame hh h

theorem step_frame {a : Action} (hf : Flow m) (h : m.step a = some m') : Frame m m' := by
  cases a with
  | call c =>
    simp only [Machine.step] at h
    split at h <;> cases h
    exact .goto
  | init =>
    simp only [Machine.step] at h
    split at h <;> cases h
    refine ⟨fun _ _ _ ↦ .inl (.of_tcb rfl), fun k hk _ ↦ ?_, Nat.le_succ _, .inl rfl,
      .inl rfl⟩
    exact update_of_ne hk.ne _ _
  | next => exact next_frame hf h
  | tick =>
    simp only [Machine.step] at h
    split at h
    · have hw := callScheduler_sameWait (hf.setFc .timer) h
      simp only [Machine.timerTriggered, Machine.callScheduler, Option.bind_eq_bind,
        Option.bind_eq_some_iff, Option.pure_def, Option.some.injEq] at h
      obtain ⟨s, -, rfl⟩ := h
      exact .withSched (fun n _ _ ↦ hw n) rfl
    · cases h

end MyPthread.Api
