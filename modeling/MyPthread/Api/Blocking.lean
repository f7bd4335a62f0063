import MyPthread.Api.Statements

/-!
# What locks and unlocks do to the queues

A thread may block on a mutex with no other thread to run: it goes on in the loop
of `my_pthread_mutex_lock`, stuck, and its next call of `scheduler` faults.  An
unlock moves the front of the waiting queue.
-/

namespace MyPthread.Api

open MyPthread.Lib MyPthread.Sched Function

section Statements

variable {m m' m₀ : Machine} {q : Mlfq} {p w : Pc} {n k r t : ℕ} {s : State}

/-! ### `my_pthread_mutex_lock` -/

/-- The test of `locked`: a stuck thread finds it set. -/
theorem Mode.lockTest {l : LockPc} (h : Mode m q) (hhere : m.here = .lock k .test)
    (hl : l = .flag ∨ l = .set ∧ (m.mutexes k).locked = 0) : Mode (m.goto (.lock k l)) q := by
  have hs : Statement m (m.goto (.lock k l)) (.lock k l) := .goto
  have hp : (Pc.lock k l).early = true ∧ (Pc.lock k l).stored = none := by
    rcases hl with rfl | ⟨rfl, -⟩
    · exact ⟨rfl, rfl⟩
    · exact ⟨rfl, rfl⟩
  cases h with
  | boot h =>
    refine .boot
      ⟨h.first, h.current, by rw [hs.here]; exact hp.1, ?_, ?_, h.itv, h.empty, h.exits, h.gone⟩
    · rw [hs.here]
      exact nofun
    · rcases h.fc with hfc | ⟨j, hj⟩
      · exact .inl hfc
      · cases hhere.symm.trans hj
  | launch h => rcases h.here with hh | hh <;> cases hhere.symm.trans hh
  | active r h => exact .active r (h.step hs rfl (by rw [hhere, hp.2]; rfl) rfl)
  | stuck j h =>
    rcases h.here with hh | hh | ⟨hh | hh, -⟩ <;> cases hhere.symm.trans hh
    rcases hl with rfl | ⟨-, hz⟩
    · exact .stuck k ⟨h.first, h.current, h.runnable, h.waiting, h.locked, .inr (.inl hs.here)⟩
    · exact absurd hz h.locked
  | finished h =>
    refine .finished ⟨h.first, h.current, by rw [hs.here]; exact hp.1, h.fc, .inl ?_, h.gone⟩
    refine h.runnable.resolve_right ?_
    rw [hhere]
    exact nofun

/-- The store of `BLOCKED`. -/
theorem Mode.lockFlag (h : Mode m q) (hhere : m.here = .lock k .flag) :
    Mode ((m.setFc .blocked).goto (.lock k .mid)) q := by
  have hs : Statement m ((m.setFc .blocked).goto (.lock k .mid)) (.lock k .mid) := .setFc
  cases h with
  | boot h =>
    refine .boot
      ⟨h.first, h.current, by rw [hs.here]; rfl, ?_, .inr ⟨k, hs.here⟩, h.itv, h.empty, h.exits,
      h.gone⟩
    rw [hs.here]
    exact nofun
  | launch h => rcases h.here with hh | hh <;> cases hhere.symm.trans hh
  | active r h => exact .active r (h.store hs rfl rfl)
  | stuck j h =>
    rcases h.here with hh | hh | ⟨hh | hh, -⟩ <;> cases hhere.symm.trans hh
    exact .stuck k ⟨h.first, h.current, h.runnable, h.waiting, h.locked,
      .inr (.inr ⟨.inl hs.here, rfl⟩)⟩
  | finished h =>
    refine .finished ⟨h.first, h.current, by rw [hs.here]; rfl, ⟨nofun, nofun⟩, .inl ?_, h.gone⟩
    refine h.runnable.resolve_right ?_
    rw [hhere]
    exact nofun

/-- A thread that is stuck cannot block again. -/
theorem Inv.callScheduler_of_stuck (hi : Inv m q) (hs : Stuck m q k) {f : FlagCalled} {g : List ℕ}
    (hf : f = .timer ∨ f = .blocked)
    (h₀ : m₀ = { m with
      gone := g, pc := update m.pc m.running w, sched := { m.sched with fc := f } }) :
    m₀.callScheduler = none := by
  subst h₀
  have hserve : serve { m.sched with fc := f } = none :=
    serve_of_runnable_nil (q := q) hi.linked hs.runnable hf
  have hnone : f ≠ .none ∧ f ≠ .first := by
    rcases hf with rfl | rfl
    · exact ⟨nofun, nofun⟩
    · exact ⟨nofun, nofun⟩
  have : scheduler Machine.setitimer m.nodeCount { m.sched with fc := f } = none :=
    scheduler_of_serve_none hi.memFlag hnone.1 hnone.2 hserve
  simp [Machine.callScheduler, this]

theorem Inv.lock {l : LockPc} (hi : Inv m q) (hf : Flow m') (hhere : m.here = .lock k l)
    (h : m.stepLock k l = some m') : Inv m' (m.advance q .next) := by
  have hx : m.here.exiting = false := by rw [hhere]; rfl
  have hp : Pending m q (.lock k l) := hhere ▸ hi.pending
  cases l with
  | test =>
    have hq : m.advance q .next = q := by rw [Machine.advance, hhere]
    rw [hq]
    simp only [Machine.stepLock] at h
    split at h <;> cases h
    · rename_i hl
      exact hi.goto hf .goto rfl rfl trivial hl rfl hi.exitList hi.joins (of_exiting hx)
        (hi.mode.lockTest hhere (.inl rfl))
    · rename_i hl
      exact hi.goto hf .goto rfl rfl trivial trivial rfl hi.exitList hi.joins (of_exiting hx)
        (hi.mode.lockTest hhere (.inr ⟨rfl, not_not.mp hl⟩))
  | flag =>
    have hq : m.advance q .next = q := by rw [Machine.advance, hhere]
    rw [hq]
    cases h
    exact hi.goto hf .setFc rfl rfl trivial hp rfl hi.exitList hi.joins (of_exiting hx)
      (hi.mode.lockFlag hhere)
  | mid =>
    have hq : m.advance q .next = q := by rw [Machine.advance, hhere]
    rw [hq]
    simp only [Machine.stepLock, Option.bind_eq_bind, Option.bind_eq_some_iff, Option.pure_def,
      Option.some.injEq] at h
    obtain ⟨c, hcur, rfl⟩ := h
    obtain rfl : c = m.running := hi.flow.current c hcur
    refine hi.modifyTcb hf (fun i _ ↦ rfl) (fun h ↦ absurd rfl h) trivial hp (of_exiting hx) ?_
    rcases hi.active_or_stuck
      (.inr ⟨by rw [hcur]; exact Option.some_ne_none _, by rw [hhere]; rfl⟩) with
      ⟨r, ha⟩ | ⟨j, ha⟩
    · exact .active r (ha.step .modifyTcb rfl (by rw [hhere]; rfl) rfl)
    · rcases ha.here with hh | hh | ⟨hh | hh, hfc⟩ <;> cases hhere.symm.trans hh
      exact .stuck k ⟨ha.first, ha.current, ha.runnable, ha.waiting, ha.locked,
        .inr (.inr ⟨.inr Statement.modifyTcb.here, hfc⟩)⟩
  | call =>
    have hq : m.advance q .next = m.afterCall q := by rw [Machine.advance, hhere]
    rw [hq]
    rcases hi.active_or_stuck (.inl (by rw [hhere]; rfl)) with ⟨r, ha⟩ | ⟨j, ha⟩
    · exact hi.call (g := m.gone) (f := .blocked) (w := .lock k .test) ha (by rw [hhere]; rfl)
        (hi.flow.gotoAfter (by rw [hhere]; rfl) (.inr (by rw [hhere]; rfl)) rfl) rfl
        (fun _ ↦ trivial) (of_exiting hx) (fun _ ↦ .inl) (by rintro ⟨⟩) (by rintro ⟨⟩)
          (fun _ ↦ ⟨k, rfl, hp⟩) h
    · rcases ha.here with hh | hh | ⟨-, hfc⟩
      · cases hhere.symm.trans hh
      · cases hhere.symm.trans hh
      · have hnone : (m.goto (.lock k .test)).callScheduler = none :=
          hi.callScheduler_of_stuck ha (.inr rfl) (f := .blocked) (g := m.gone)
            (w := .lock k .test) (by rw [← hfc]; rfl)
        cases hnone.symm.trans h
  | set =>
    have hq : m.advance q .next = q := by rw [Machine.advance, hhere]
    rw [hq]
    cases h
    exact hi.goto hf .modifyMutex rfl rfl trivial trivial rfl hi.exitList hi.joins (of_exiting hx)
      (hi.mode.step .modifyMutex (by rw [hhere]; rfl) rfl rfl (by rw [hhere]; rfl)
        (by rw [hhere]; rfl) fun _ ↦ ⟨rfl, by rintro ⟨⟩⟩)
  | tid =>
    have hq : m.advance q .next = q := by rw [Machine.advance, hhere]
    rw [hq]
    simp only [Machine.stepLock, Option.bind_eq_bind, Option.bind_eq_some_iff, Option.pure_def,
      Option.some.injEq] at h
    obtain ⟨c, hcur, rfl⟩ := h
    obtain ⟨r, ha⟩ :=
      hi.exists_active (.inr ⟨by rw [hcur]; exact Option.some_ne_none _, by rw [hhere]; rfl⟩)
      (by rw [hhere]; rfl)
    exact hi.goto hf .modifyMutex rfl rfl trivial trivial rfl hi.exitList hi.joins (of_exiting hx)
      (.active r (ha.step .modifyMutex rfl (by rw [hhere]; rfl) rfl))
  | ready =>
    have hq : m.advance q .next = q := by rw [Machine.advance, hhere]
    rw [hq]
    obtain ⟨r, ha⟩ := hi.exists_active (.inl (by rw [hhere]; rfl)) (by rw [hhere]; rfl)
    cases h
    exact hi.goto hf .modifyMutex rfl rfl trivial trivial rfl hi.exitList hi.joins (of_exiting hx)
      (.active r (ha.step .modifyMutex rfl (by rw [hhere]; rfl) rfl))
  | ret =>
    have hq : m.advance q .next = q := by rw [Machine.advance, hhere]
    rw [hq]
    obtain ⟨r, ha⟩ := hi.exists_active (.inl (by rw [hhere]; rfl)) (by rw [hhere]; rfl)
    cases h
    have hs : Statement m ({ m with holders := (k, m.running) :: m.holders }.goto .user) .user :=
      ⟨rfl, rfl, rfl, le_rfl, rfl, rfl, rfl, rfl⟩
    exact hi.goto hf hs rfl rfl trivial trivial rfl hi.exitList hi.joins (of_exiting hx)
      (.active r (ha.step hs rfl (by rw [hhere]; rfl) rfl))

/-! ### `my_pthread_mutex_unlock` -/

/-- A statement of an unlock after its test that changes no thread. -/
theorem Inv.unlock_goto {u : UnlockPc} (hi : Inv m q) (hf : Flow m') (hhere : m.here = .unlock k u)
    (hcur : m.here.early = false ∨ m.sched.current ≠ none)
    (hs : Statement m m' p) (hp : p = .user ∨ ∃ u', p = .unlock k u')
    (hsched : m'.sched = m.sched) (hpend : Pending m' q p) (hexits : m'.exits = m.exits)
    (hlist : m'.exitList = m.exitList) (hjoins : m'.joins = m.joins) : Inv m' q := by
  obtain ⟨r, ha⟩ := hi.exists_active (hcur.imp_right fun h ↦ ⟨h, by rw [hhere]; rfl⟩)
    (by rw [hhere]; rfl)
  have hok : ThreadOk m.exits q m.sched m.running p := by
    rcases hp with rfl | ⟨u', rfl⟩ <;> trivial
  have hst : p.stored = none := by
    rcases hp with rfl | ⟨u', rfl⟩ <;> rfl
  refine hi.goto hf hs (by rw [hsched]) (by rw [hsched]) hok hpend hexits ?_ ?_
    (of_exiting (by rw [hhere]; rfl)) (.active r (ha.step hs rfl ?_ (by rw [hsched])))
  · rw [hlist]
    exact hi.exitList
  · rw [hjoins]
    exact hi.joins
  · rw [hst, hhere]
    rfl

/-- The front of the waiting queue is moved to the tail of the first level. -/
theorem Inv.unlockMove (hi : Inv m q) (hf : Flow m') (hhere : m.here = .unlock k .move)
    (h : m.stepUnlock k .move = some m') : Inv m' (m.advance q .next) := by
  obtain ⟨r, ha⟩ := hi.exists_active (.inl (by rw [hhere]; rfl)) (by rw [hhere]; rfl)
  have hp : Pending m q (.unlock k .move) := hhere ▸ hi.pending
  obtain ⟨n, hhead, hprio⟩ := hp
  obtain ⟨l, hl⟩ := List.head?_eq_some_iff.mp hhead
  have hn : n ∈ q .waitingQueue := by simp [hl]
  have hq : m.advance q .next = q.move .waitingQueue (.rqs 0) n := by
    rw [Machine.advance, hhere]
    simp only [hl]
  rw [hq]
  simp only [Machine.stepUnlock, Option.bind_eq_bind, Option.bind_eq_some_iff, Option.pure_def,
    Option.some.injEq] at h
  obtain ⟨s, hs, rfl⟩ := h
  obtain ⟨s', hs', hl', hd⟩ := requeue_spec (.rqs 0) hi.linked hi.wf hl
  obtain rfl : s' = s := Option.some.inj (hs'.symm.trans hs)
  have hmove : ∀ {j R}, j ∈ q.move .waitingQueue (.rqs 0) n R ↔
      (j ∈ q R ∧ j ≠ n) ∨ (R = .rqs 0 ∧ j = n) := Mlfq.mem_move hi.wf hn
  have hst : Statement m ((m.withSched s').goto (.unlock k .ret)) (.unlock k .ret) :=
    ⟨rfl, rfl, rfl, le_rfl, hd.current, hd.memFlag, hd.itv, rfl⟩
  refine hi.move hf hst hl' (hi.wf.move hn fun i hi ↦ by cases hi; decide) (fun i j hj ↦ ?_)
    (fun j hj ↦ .inl ?_) (fun j hj ↦ ?_) (fun j hj ↦ ?_) trivial trivial rfl hi.exitList hi.joins
    (of_exiting (by rw [hhere]; rfl)) (.active r (ha.step hst ?_ (by rw [hhere]; rfl) hd.fc))
  · refine (congrArg Tcb.threadPriority (hd.tcb j)).trans ?_
    rcases hmove.mp hj with ⟨hjq, -⟩ | ⟨hij, rfl⟩
    · exact hi.priority i j hjq
    · rw [QueueId.rqs.inj hij]
      exact hprio
  · obtain ⟨R, hR⟩ := hj
    rcases hmove.mp hR with ⟨hj, -⟩ | ⟨-, rfl⟩
    · exact ⟨R, hj⟩
    · exact ⟨_, hn⟩
  · rcases hmove.mp hj with ⟨hj, -⟩ | ⟨hj, -⟩
    · exact hj
    · cases hj
  · refine (hi.threads j).mono (fun _ he ↦ he) ?_ (congrArg Tcb.joinId (hd.tcb j))
      (congrArg Tcb.valuePtr (hd.tcb j))
    rw [hmove]
    constructor
    · rintro (⟨h, -⟩ | ⟨h, -⟩)
      · exact h
      · cases h
    · intro h
      refine .inl ⟨h, ?_⟩
      rintro rfl
      cases hi.wf.disjoint h hn
  · rw [ha.head]
    exact head_move (by rintro ⟨⟩) ha.head

theorem Inv.unlock {u : UnlockPc} (hi : Inv m q) (hf : Flow m') (hc : Careful m .next)
    (hhere : m.here = .unlock k u) (h : m.stepUnlock k u = some m') :
    Inv m' (m.advance q .next) := by
  have hx : m.here.exiting = false := by rw [hhere]; rfl
  have hp : Pending m q (.unlock k u) := hhere ▸ hi.pending
  by_cases hmv : u = .move
  · subst hmv
    exact hi.unlockMove hf hhere h
  have hq : m.advance q .next = q := by
    rw [Machine.advance, hhere]
    cases u <;> first | rfl | exact absurd rfl hmv
  rw [hq]
  cases u with
  | test =>
    simp only [Machine.stepUnlock] at h
    split at h <;> cases h
    · exact hi.goto hf .goto rfl rfl trivial trivial rfl hi.exitList hi.joins (of_exiting hx)
        (hi.mode.step .goto (by rw [hhere]; rfl) rfl rfl (by rw [hhere]; rfl) (by rw [hhere]; rfl)
          fun _ ↦ ⟨rfl, by rintro ⟨⟩⟩)
    · exact hi.goto hf .goto rfl rfl trivial trivial rfl hi.exitList hi.joins (of_exiting hx)
        (hi.mode.step .goto (by rw [hhere]; rfl) rfl rfl (by rw [hhere]; rfl) (by rw [hhere]; rfl)
          fun _ ↦ ⟨rfl, by rintro ⟨⟩⟩)
  | owner =>
    simp only [Machine.stepUnlock, Option.bind_eq_bind, Option.bind_eq_some_iff] at h
    obtain ⟨c, hcur, h⟩ := h
    have hne : m.sched.current ≠ none := by rw [hcur]; exact Option.some_ne_none _
    split at h <;> cases h
    · exact hi.unlock_goto hf hhere (.inr hne) .goto (.inl rfl) rfl trivial rfl rfl rfl
    · exact hi.unlock_goto hf hhere (.inr hne) .goto (.inr ⟨_, rfl⟩) rfl trivial rfl rfl rfl
  | clear =>
    cases h
    exact hi.unlock_goto hf hhere (.inl (by rw [hhere]; rfl))
      ⟨rfl, rfl, rfl, le_rfl, rfl, rfl, rfl, rfl⟩ (.inr ⟨_, rfl⟩) rfl trivial rfl rfl rfl
  | tid =>
    cases h
    exact hi.unlock_goto hf hhere (.inl (by rw [hhere]; rfl)) .modifyMutex (.inr ⟨_, rfl⟩) rfl
      trivial rfl rfl rfl
  | front =>
    cases h
    exact hi.unlock_goto hf hhere (.inl (by rw [hhere]; rfl)) .goto (.inr ⟨_, rfl⟩) rfl
      trivial rfl rfl rfl
  | loop temp =>
    cases temp with
    | none =>
      cases h
      exact hi.unlock_goto hf hhere (.inl (by rw [hhere]; rfl)) .goto (.inl rfl) rfl
        trivial rfl rfl rfl
    | some n =>
      cases h
      exact hi.unlock_goto hf hhere (.inl (by rw [hhere]; rfl)) .goto (.inr ⟨_, rfl⟩) rfl
        trivial rfl rfl rfl
  | found n =>
    simp only [Machine.stepUnlock] at h
    split at h <;> cases h
    · rename_i hmid
      have hhead : (q .waitingQueue).head? = some n := by
        rw [← hi.linked.front]
        rw [Careful, hhere] at hc
        exact hc hmid
      exact hi.unlock_goto hf hhere (.inl (by rw [hhere]; rfl)) .goto (.inr ⟨_, rfl⟩) rfl
        hhead rfl rfl rfl
    · exact hi.unlock_goto hf hhere (.inl (by rw [hhere]; rfl)) .goto (.inr ⟨_, rfl⟩) rfl
        trivial rfl rfl rfl
  | next n =>
    cases h
    exact hi.unlock_goto hf hhere (.inl (by rw [hhere]; rfl)) .goto (.inr ⟨_, rfl⟩) rfl
      trivial rfl rfl rfl
  | mid n =>
    obtain ⟨r, ha⟩ := hi.exists_active (.inl (by rw [hhere]; rfl)) (by rw [hhere]; rfl)
    cases h
    exact hi.modifyTcb hf (fun i _ ↦ rfl) (fun _ ↦ ⟨rfl, rfl⟩) trivial hp (of_exiting hx)
      (.active r (ha.step .modifyTcb rfl (by rw [hhere]; rfl) rfl))
  | priority n =>
    obtain ⟨r, ha⟩ := hi.exists_active (.inl (by rw [hhere]; rfl)) (by rw [hhere]; rfl)
    cases h
    refine hi.modifyTcb hf (fun i hn ↦ ?_) (fun _ ↦ ⟨rfl, rfl⟩) trivial ⟨n, hp, ?_⟩ (of_exiting hx)
      (.active r (ha.step .modifyTcb rfl (by rw [hhere]; rfl) rfl))
    · cases hi.wf.disjoint hn (List.mem_of_head? hp)
    · show ((m.sched.setPriority n 0).tcb n).threadPriority = 0
      rw [State.tcb_setPriority_self]
  | ready =>
    cases h
    exact hi.unlock_goto hf hhere (.inl (by rw [hhere]; rfl)) .modifyMutex (.inr ⟨_, rfl⟩) rfl
      hp rfl rfl rfl
  | move => exact absurd rfl hmv
  | ret =>
    cases h
    exact hi.unlock_goto hf hhere (.inl (by rw [hhere]; rfl)) .goto (.inl rfl) rfl
      trivial rfl rfl rfl

end Statements

end MyPthread.Api
