import MyPthread.Api.Steps

/-!
# Calls of the scheduler

A step either leaves the processor to the executing thread, and the scheduler's
clock as it is, or calls `scheduler` with a request `f`: then the queues become
those of the abstract scheduler for `f`, and the thread it chooses executes.
-/

namespace MyPthread.Api

open MyPthread.Sched Function

variable {m m' m₀ : Machine} {q : Mlfq} {a : Action} {p : Pc} {f : FlagCalled} {r : ℕ}

/-- The scheduler has not been called. -/
structure Stays (m m' : Machine) : Prop where
  running : m'.running = m.running
  maintenanceCount : m'.sched.maintenanceCount = m.sched.maintenanceCount
  itv : m'.sched.itv = m.sched.itv
  nodeCount : m'.nodeCount = m.nodeCount ∨ m.here = .create .node
  current : m'.sched.current = m.sched.current ∨ m.firstThread = true
  firstThread : m'.firstThread = m.firstThread ∨ m.here = .create .node

theorem Stays.of_onlyLinks {s : State} (hs : OnlyLinks m.sched s) :
    Stays m ((m.withSched s).goto p) :=
  ⟨rfl, hs.maintenanceCount, hs.itv, .inl rfl, .inl hs.current, .inl rfl⟩

theorem enqueuee_onlyLinks {s s' : State} {Q : QueueId} {x : Option ℕ}
    (h : enqueuee x Q s = some s') : OnlyLinks s s' := by
  cases x with
  | none => cases h
  | some n =>
    cases hf : (s.queues Q).front with
    | none =>
      simp only [enqueuee, hf, Option.bind_eq_bind, Option.bind_some, Option.pure_def,
        Option.some.injEq] at h
      subst h
      exact (OnlyLinks.setQueue s Q _).trans (.setNext _ n none)
    | some k =>
      simp only [enqueuee, hf, Option.bind_eq_bind, Option.bind_some, Option.bind_eq_some_iff,
        Option.pure_def, Option.some.injEq] at h
      obtain ⟨b, -, rfl⟩ := h
      exact ((OnlyLinks.setNext s b (some n)).trans (.setQueue _ Q _)).trans (.setNext _ n none)

theorem dequeuee_onlyLinks (Q : QueueId) (s : State) : OnlyLinks s (dequeuee Q s).2 := by
  unfold dequeuee
  split
  · exact .refl s
  · exact .setQueue s Q _

theorem requeue_onlyLinks {s s' : State} {src dst : QueueId} (h : requeue src dst s = some s') :
    OnlyLinks s s' :=
  (dequeuee_onlyLinks src s).trans (enqueuee_onlyLinks h)

theorem exitBody_clock {s s' : State} {e : ExitNode} (h : Machine.exitBody e s = some s') :
    s'.maintenanceCount = s.maintenanceCount ∧ s'.itv = s.itv ∧ s'.current = s.current := by
  have hd := dequeuee_onlyLinks .joinQueue s
  simp only [Machine.exitBody, Option.bind_eq_bind, Option.bind_eq_some_iff] at h
  obtain ⟨n, -, c, -, h⟩ := h
  split at h
  · have he := enqueuee_onlyLinks h
    exact ⟨he.maintenanceCount.trans hd.maintenanceCount, he.itv.trans hd.itv,
      he.current.trans hd.current⟩
  · have he := enqueuee_onlyLinks h
    exact ⟨he.maintenanceCount.trans hd.maintenanceCount, he.itv.trans hd.itv,
      he.current.trans hd.current⟩

/-! ## Statements that do not call the scheduler -/

theorem stepCreate_stays {c : CreatePc} (hhere : m.here = .create c) (hc : c ≠ .call)
    (h : m.stepCreate c = some m') : Stays m m' := by
  cases c with
  | node =>
    simp only [Machine.stepCreate] at h
    split at h
    · rename_i hfirst
      simp only [Option.bind_eq_bind, Option.bind_eq_some_iff, Option.pure_def,
        Option.some.injEq] at h
      obtain ⟨s₁, h₁, s₂, h₂, rfl⟩ := h
      have he₁ := enqueuee_onlyLinks h₁
      have he₂ := enqueuee_onlyLinks h₂
      exact ⟨rfl, he₂.maintenanceCount.trans he₁.maintenanceCount, he₂.itv.trans he₁.itv,
        .inr hhere, .inr hfirst, .inr hhere⟩
    · cases h
      exact ⟨rfl, rfl, rfl, .inr hhere, .inl rfl, .inr hhere⟩
  | enqueue n =>
    simp only [Machine.stepCreate, Option.bind_eq_bind, Option.bind_eq_some_iff, Option.pure_def,
      Option.some.injEq] at h
    obtain ⟨s, hs, rfl⟩ := h
    exact .of_onlyLinks (enqueuee_onlyLinks hs)
  | count =>
    cases h
    exact ⟨rfl, rfl, rfl, .inl rfl, .inl rfl, .inl rfl⟩
  | call => exact absurd rfl hc

theorem stepYield_stays {y : YieldPc} (hy : y ≠ .call) (h : m.stepYield y = some m') :
    Stays m m' := by
  cases y with
  | test =>
    simp only [Machine.stepYield, Option.bind_eq_bind, Option.bind_eq_some_iff] at h
    obtain ⟨c, -, f, -, h⟩ := h
    split at h <;> cases h <;> exact ⟨rfl, rfl, rfl, .inl rfl, .inl rfl, .inl rfl⟩
  | flag =>
    cases h
    exact ⟨rfl, rfl, rfl, .inl rfl, .inl rfl, .inl rfl⟩
  | call => exact absurd rfl hy

theorem stepExit_stays {x : ExitPc} (hx : x ≠ .call) (h : m.stepExit x = some m') :
    Stays m m' := by
  cases x with
  | node v =>
    simp only [Machine.stepExit, Option.bind_eq_bind, Option.bind_eq_some_iff, Option.pure_def,
      Option.some.injEq] at h
    obtain ⟨c, -, rfl⟩ := h
    exact ⟨rfl, rfl, rfl, .inl rfl, .inl rfl, .inl rfl⟩
  | loop e i =>
    simp only [Machine.stepExit, Option.bind_eq_bind, Option.bind_eq_some_iff] at h
    obtain ⟨count, -, h⟩ := h
    split at h
    · simp only [Option.bind_eq_some_iff, Option.pure_def, Option.some.injEq] at h
      obtain ⟨s, hs, rfl⟩ := h
      obtain ⟨hcount, hitv, hcur⟩ := exitBody_clock hs
      exact ⟨rfl, hcount, hitv, .inl rfl, .inl hcur, .inl rfl⟩
    · cases h
      exact ⟨rfl, rfl, rfl, .inl rfl, .inl rfl, .inl rfl⟩
  | call => exact absurd rfl hx
  | flag | push | ret =>
    cases h
    exact ⟨rfl, rfl, rfl, .inl rfl, .inl rfl, .inl rfl⟩

theorem stepJoin_stays {t : ℕ} {j : JoinPc} (hj : j ≠ .call) (h : m.stepJoin t j = some m') :
    Stays m m' := by
  cases j with
  | bound temp =>
    simp only [Machine.stepJoin] at h
    split at h <;> cases h <;> exact ⟨rfl, rfl, rfl, .inl rfl, .inl rfl, .inl rfl⟩
  | search temp =>
    cases temp with
    | nil =>
      cases h
      exact ⟨rfl, rfl, rfl, .inl rfl, .inl rfl, .inl rfl⟩
    | cons e temp =>
      simp only [Machine.stepJoin] at h
      split at h <;> cases h <;> exact ⟨rfl, rfl, rfl, .inl rfl, .inl rfl, .inl rfl⟩
  | store | ret =>
    simp only [Machine.stepJoin, Option.bind_eq_bind, Option.bind_eq_some_iff, Option.pure_def,
      Option.some.injEq] at h
    obtain ⟨c, -, rfl⟩ := h
    exact ⟨rfl, rfl, rfl, .inl rfl, .inl rfl, .inl rfl⟩
  | call => exact absurd rfl hj
  | list | flag =>
    cases h
    exact ⟨rfl, rfl, rfl, .inl rfl, .inl rfl, .inl rfl⟩

theorem stepLock_stays {k : ℕ} {l : LockPc} (hl : l ≠ .call) (h : m.stepLock k l = some m') :
    Stays m m' := by
  cases l with
  | test =>
    simp only [Machine.stepLock] at h
    split at h <;> cases h <;> exact ⟨rfl, rfl, rfl, .inl rfl, .inl rfl, .inl rfl⟩
  | mid | tid =>
    simp only [Machine.stepLock, Option.bind_eq_bind, Option.bind_eq_some_iff, Option.pure_def,
      Option.some.injEq] at h
    obtain ⟨c, -, rfl⟩ := h
    exact ⟨rfl, rfl, rfl, .inl rfl, .inl rfl, .inl rfl⟩
  | call => exact absurd rfl hl
  | flag | set | ready | ret =>
    cases h
    exact ⟨rfl, rfl, rfl, .inl rfl, .inl rfl, .inl rfl⟩

theorem stepUnlock_stays {k : ℕ} {u : UnlockPc} (h : m.stepUnlock k u = some m') :
    Stays m m' := by
  cases u with
  | test =>
    simp only [Machine.stepUnlock] at h
    split at h <;> cases h <;> exact ⟨rfl, rfl, rfl, .inl rfl, .inl rfl, .inl rfl⟩
  | owner =>
    simp only [Machine.stepUnlock, Option.bind_eq_bind, Option.bind_eq_some_iff] at h
    obtain ⟨c, -, h⟩ := h
    split at h <;> cases h <;> exact ⟨rfl, rfl, rfl, .inl rfl, .inl rfl, .inl rfl⟩
  | loop temp =>
    cases temp <;> cases h <;> exact ⟨rfl, rfl, rfl, .inl rfl, .inl rfl, .inl rfl⟩
  | found n =>
    simp only [Machine.stepUnlock] at h
    split at h <;> cases h <;> exact ⟨rfl, rfl, rfl, .inl rfl, .inl rfl, .inl rfl⟩
  | move =>
    simp only [Machine.stepUnlock, Option.bind_eq_bind, Option.bind_eq_some_iff, Option.pure_def,
      Option.some.injEq] at h
    obtain ⟨s, hs, rfl⟩ := h
    exact .of_onlyLinks (requeue_onlyLinks hs)
  | clear | tid | front | next | mid | priority | ready | ret =>
    cases h
    exact ⟨rfl, rfl, rfl, .inl rfl, .inl rfl, .inl rfl⟩

theorem next_stays (hc : m.here.isCall = false) (h : m.next = some m') : Stays m m' := by
  unfold Machine.next at h
  split at h <;> rename_i hh
  · cases h
  · exact stepCreate_stays hh (fun hx ↦ by rw [hh, hx] at hc; cases hc) h
  · exact stepYield_stays (fun hx ↦ by rw [hh, hx] at hc; cases hc) h
  · exact stepExit_stays (fun hx ↦ by rw [hh, hx] at hc; cases hc) h
  · exact stepJoin_stays (fun hx ↦ by rw [hh, hx] at hc; cases hc) h
  · exact stepLock_stays (fun hx ↦ by rw [hh, hx] at hc; cases hc) h
  · exact stepUnlock_stays h

/-! ## Calls -/

/-- `scheduler` has served the request `f` of the executing thread, of level `r`. -/
structure Serves (m : Machine) (q : Mlfq) (f : FlagCalled) (r : ℕ) (m' : Machine) : Prop where
  request : f ≠ .none
  current : m.sched.current = some m.running
  mem : m.running ∈ q (.rqs r)
  head : f ≠ .first → (q (.rqs r)).head? = some m.running
  running : m'.running = m'.sched.current.getD m.running
  nodeCount : m'.nodeCount = m.nodeCount
  scheduled : Scheduled { m.sched with fc := f }
    (q.requested f m.sched.maintenanceCount m.running r) m.running m'.sched

/-- The run queues are no longer than the nodes are many. -/
theorem Inv.length_runnable (hi : Inv m q) : q.runnable.length ≤ m.nodeCount := by
  rw [← List.length_range (n := m.nodeCount)]
  refine (List.Nodup.subperm ?_ fun n hn ↦ ?_).length_le
  · refine List.nodup_flatMap.mpr ⟨fun i _ ↦ hi.wf.nodup _, ?_⟩
    refine (List.nodup_range (n := numPriorities)).imp fun {i j} hij n hi' hj' ↦ hij ?_
    exact QueueId.rqs.inj (hi.wf.disjoint hi' hj')
  · obtain ⟨i, hn⟩ := (Mlfq.mem_runnable hi.wf).mp hn
    exact List.mem_range.mpr (hi.alloc n ⟨_, hn⟩)

/-- A thread that is in its run queue can call `scheduler`. -/
theorem Inv.exists_serves {g : List ℕ} {pc : ℕ → Pc} (hi : Inv m q)
    (h₀ : m₀ = { m with gone := g, pc := pc, sched := { m.sched with fc := f } })
    (hf : f ≠ .none) (hcur : m.sched.current = some m.running) (hmem : m.running ∈ q (.rqs r))
    (hhead : f ≠ .first → (q (.rqs r)).head? = some m.running) :
    ∃ m', m₀.callScheduler = some m' ∧ Serves m q f r m' := by
  subst h₀
  have hcalling : Calling { m.sched with fc := f } q m.running r :=
    ⟨⟨hi.linked, hi.wf, hi.priority, hi.flow.tids hi.alloc⟩, hi.memFlag, hcur, hmem, hhead⟩
  obtain ⟨s, hs, hsched⟩ := scheduler_spec hcalling hf
    (fun _ ↦ setitimer_ne) hi.length_runnable
  refine ⟨{ m with
    gone := g, pc := pc, sched := s, running := s.current.getD m.running },
    ?_, hf, hcur, hmem, hhead, rfl, rfl, hsched⟩
  simp only [Machine.callScheduler, hs, Option.bind_eq_bind, Option.bind_some, Option.pure_def]

theorem Inv.serves {g : List ℕ} {pc : ℕ → Pc} (hi : Inv m q)
    (h₀ : m₀ = { m with gone := g, pc := pc, sched := { m.sched with fc := f } })
    (hf : f ≠ .none) (hcur : m.sched.current = some m.running) (hmem : m.running ∈ q (.rqs r))
    (hhead : f ≠ .first → (q (.rqs r)).head? = some m.running)
    (h : m₀.callScheduler = some m') : Serves m q f r m' := by
  obtain ⟨m₁, h₁, hs⟩ := hi.exists_serves h₀ hf hcur hmem hhead
  obtain rfl : m₁ = m' := Option.some.inj (h₁.symm.trans h)
  exact hs

/-- Where a request comes from. -/
inductive Requested (m : Machine) : Action → FlagCalled → Prop where
  | timer : Requested m .tick .timer
  | stored {f : FlagCalled} : m.here.stored = some f → m.here.isCall = true → Requested m .next f
  | first : m.here = .create .call → m.sched.fc = .first → Requested m .next .first

/-- The calls of `scheduler` with a request stored before. -/
theorem Pc.stored_of_isCall (hc : p.isCall = true) (hs : p.stored = some f) :
    p = .yield .call ∧ f = .yield ∨ p = .exit .call ∧ f = .pexit ∨
      (∃ t, p = .join t .call ∧ f = .join) ∨ ∃ k, p = .lock k .call ∧ f = .blocked := by
  unfold Pc.isCall at hc
  split at hc
  · cases hs
  · exact .inl ⟨rfl, (Option.some.inj hs).symm⟩
  · exact .inr (.inl ⟨rfl, (Option.some.inj hs).symm⟩)
  · exact .inr (.inr (.inl ⟨_, rfl, (Option.some.inj hs).symm⟩))
  · exact .inr (.inr (.inr ⟨_, rfl, (Option.some.inj hs).symm⟩))
  · cases hc

/-- A step leaves the processor to the executing thread, or serves a request. -/
inductive Turn (m : Machine) (q : Mlfq) (a : Action) (m' : Machine) : Prop where
  | stays : a ≠ .tick → Stays m m' →
      m.here.isCall = false ∨ m.advance q a = q → Turn m q a m'
  | serves (f : FlagCalled) (r : ℕ) : Serves m q f r m' →
      m.advance q a = q.schedule f m.sched.maintenanceCount m.running r → Requested m a f →
      Turn m q a m'

theorem advance_of_isCall (h : m.here.isCall = true) : m.advance q .next = m.afterCall q := by
  unfold Pc.isCall at h
  split at h <;> rename_i hh
  · rw [Machine.advance, hh]
  · rw [Machine.advance, hh]
  · rw [Machine.advance, hh]
  · rw [Machine.advance, hh]
  · rw [Machine.advance, hh]
  · cases h

theorem Inv.afterCall_eq (hi : Inv m q) (hmem : m.running ∈ q (.rqs r)) (hf : m.sched.fc = f)
    (h₀ : f ≠ .none) :
    m.afterCall q = q.schedule f m.sched.maintenanceCount m.running r := by
  rw [Machine.afterCall, hf, if_neg h₀, Machine.rescheduled, hf, hi.priority r _ hmem]

theorem Inv.advance_tick (hi : Inv m q) (hmem : m.running ∈ q (.rqs r)) :
    m.advance q .tick = q.schedule .timer m.sched.maintenanceCount m.running r := by
  rw [Machine.advance, Machine.afterCall, Machine.rescheduled, if_neg (by rintro ⟨⟩)]
  show q.schedule .timer m.sched.maintenanceCount m.running _ = _
  rw [show ((m.setFc .timer).sched.tcb (m.setFc .timer).running).threadPriority = r from
    hi.priority r _ hmem]

theorem callScheduler_pc (h : m.callScheduler = some m') : m'.pc = m.pc := by
  simp only [Machine.callScheduler, Option.bind_eq_bind, Option.bind_eq_some_iff, Option.pure_def,
    Option.some.injEq] at h
  obtain ⟨s, -, rfl⟩ := h
  rfl

/-- A call of `scheduler` with the request that the thread has stored. -/
theorem Inv.turn_call {g : List ℕ} (hi : Inv m q) (hstored : m.here.stored = some f)
    (hcall : m.here.isCall = true) (hearly : m.here.early = false) (h₁ : f ≠ .none)
    (h : ({ m with gone := g }.goto p).callScheduler = some m') :
    Turn m q .next m' := by
  rcases hi.active_or_stuck (.inl hearly) with ⟨r, ha⟩ | ⟨k, hs⟩
  · have hfc := ha.stored f hstored
    have hserves : Serves m q f r m' := hi.serves (g := g) (by rw [← hfc]; rfl) h₁ ha.current
      (List.mem_of_head? ha.head) (fun _ ↦ ha.head) h
    exact .serves f r hserves
      (by rw [advance_of_isCall hcall, hi.afterCall_eq hserves.mem hfc h₁]) (.stored hstored hcall)
  · rcases hs.here with hh | hh | ⟨hh | hh, hb⟩
    · rw [hh] at hstored
      cases hstored
    · rw [hh] at hstored
      cases hstored
    · rw [hh] at hearly
      cases hearly
    · have hnone : ({ m with gone := g }.goto p).callScheduler = none :=
        hi.callScheduler_of_stuck (f := .blocked) hs (.inr rfl) (by rw [← hb]; rfl)
      cases hnone.symm.trans h

theorem Inv.turn_createCall (hi : Inv m q) (hhere : m.here = .create .call)
    (h : m.stepCreate .call = some m') : Turn m q .next m' := by
  have hq : m.advance q .next = m.afterCall q := by rw [Machine.advance, hhere]
  have hnone : m.sched.fc = .none → Turn m q .next m' := by
    intro hfc
    refine .stays (by rintro ⟨⟩) ?_ (.inr (by rw [hq, Machine.afterCall, if_pos hfc]))
    simp only [Machine.stepCreate, Machine.callScheduler, Option.bind_eq_bind,
      Option.bind_eq_some_iff, Option.pure_def, Option.some.injEq] at h
    obtain ⟨s, hs, rfl⟩ := h
    obtain rfl : m.sched = s :=
      Option.some.inj ((scheduler_of_none (s := m.sched) hi.memFlag hfc).symm.trans hs)
    refine ⟨?_, rfl, rfl, .inl rfl, .inl rfl, .inl rfl⟩
    cases hcur : m.sched.current with
    | none => rfl
    | some c => exact hi.flow.current c hcur
  have hfirst : ∀ r, m.sched.current = some m.running → m.running ∈ q (.rqs r) →
      m.sched.fc = .first → Turn m q .next m' := by
    intro r hcur hmem hfc
    have hserves : Serves m q .first r m' := hi.serves (g := m.gone) (by rw [← hfc]; rfl)
      (by rintro ⟨⟩) hcur hmem (absurd rfl) h
    exact .serves .first r hserves (by rw [hq, hi.afterCall_eq hmem hfc (by rintro ⟨⟩)])
      (.first hhere hfc)
  cases hi.mode with
  | boot hm => cases hhere.symm.trans (hm.create (by rw [hhere]; rfl))
  | launch hm => exact hfirst 0 hm.current hm.mem hm.fc
  | active r hm =>
    rcases hm.fc (by rw [hhere]; rfl) with hfc | hfc
    · exact hnone hfc
    · exact hfirst r hm.current (List.mem_of_head? hm.head) hfc
  | stuck k hm => rcases hm.here with hh | hh | ⟨hh | hh, -⟩ <;> cases hhere.symm.trans hh
  | finished hm =>
    have hx := callScheduler_of_current_none (m := m.goto .user) hi.memFlag hm.current hm.fc.1
      hm.fc.2
    cases hx.symm.trans h

theorem Inv.turn_tick (hi : Inv m q) (hitv : m.sched.itv ≠ 0)
    (h : m.timerTriggered = some m') : Turn m q .tick m' := by
  have hfault : m.sched.current = none → Turn m q .tick m' := fun hcur ↦ by
    have hx := callScheduler_of_current_none (m := m.setFc .timer) hi.memFlag hcur
      (by rintro ⟨⟩) (by rintro ⟨⟩)
    cases hx.symm.trans h
  cases hi.mode with
  | boot hm => exact hfault hm.current
  | launch hm => exact absurd hm.itv hitv
  | active r hm =>
    have hserves : Serves m q .timer r m' := hi.serves (g := m.gone)
      (show m.setFc .timer = _ from rfl) (by rintro ⟨⟩) hm.current (List.mem_of_head? hm.head)
      (fun _ ↦ hm.head) h
    exact .serves .timer r hserves (hi.advance_tick hserves.mem) .timer
  | stuck k hm =>
    have hx : (m.setFc .timer).callScheduler = none :=
      hi.callScheduler_of_stuck (g := m.gone) (w := m.here) hm (.inl rfl)
        (by rw [update_eq_self]; rfl)
    cases hx.symm.trans h
  | finished hm => exact hfault hm.current

/-- Every step of a careful run is one or the other. -/
theorem Inv.turn (hi : Inv m q) (h : m.step a = some m') : Turn m q a m' := by
  cases a with
  | call c =>
    simp only [Machine.step] at h
    split at h <;> cases h
    exact .stays (by rintro ⟨⟩) ⟨rfl, rfl, rfl, .inl rfl, .inl rfl, .inl rfl⟩ (.inr rfl)
  | init =>
    simp only [Machine.step] at h
    split at h <;> cases h
    exact .stays (by rintro ⟨⟩) ⟨rfl, rfl, rfl, .inl rfl, .inl rfl, .inl rfl⟩ (.inr rfl)
  | tick =>
    simp only [Machine.step] at h
    split at h
    · rename_i ht
      exact hi.turn_tick ht.1 h
    · cases h
  | next =>
    have hn : m.next = some m' := h
    by_cases hc : m.here.isCall = true
    · unfold Machine.next at hn
      split at hn <;> rename_i hh
      · cases hn
      · rename_i c
        cases c <;> rw [hh] at hc <;> cases hc
        exact hi.turn_createCall hh hn
      · rename_i y
        cases y <;> rw [hh] at hc <;> cases hc
        exact hi.turn_call (f := .yield) (g := m.gone) (by rw [hh]; rfl) (by rw [hh]; rfl)
          (by rw [hh]; rfl) (by rintro ⟨⟩) hn
      · rename_i x
        cases x <;> rw [hh] at hc <;> cases hc
        exact hi.turn_call (f := .pexit) (g := m.running :: m.gone) (by rw [hh]; rfl)
          (by rw [hh]; rfl) (by rw [hh]; rfl) (by rintro ⟨⟩) hn
      · rename_i t j
        cases j <;> rw [hh] at hc <;> cases hc
        exact hi.turn_call (f := .join) (g := m.gone) (by rw [hh]; rfl) (by rw [hh]; rfl)
          (by rw [hh]; rfl) (by rintro ⟨⟩) hn
      · rename_i k l
        cases l <;> rw [hh] at hc <;> cases hc
        exact hi.turn_call (f := .blocked) (g := m.gone) (by rw [hh]; rfl) (by rw [hh]; rfl)
          (by rw [hh]; rfl) (by rintro ⟨⟩) hn
      · rename_i k u
        rw [hh] at hc
        cases hc
    · have hcall := Bool.eq_false_iff.mpr hc
      exact .stays (by rintro ⟨⟩) (next_stays hcall hn) (.inl hcall)

/-! ## The queues -/

/-- What a step can do to the queues. -/
inductive Moved (m : Machine) (q : Mlfq) (a : Action) : Mlfq → Prop where
  | still : Moved m q a q
  | tick : a = .tick → Moved m q a ((m.setFc .timer).afterCall q)
  | call : a = .next → m.here.isCall = true → Moved m q a (m.afterCall q)
  | first : a = .next → m.here = .create .node → m.firstThread = true →
      Moved m q a ((q.put (.rqs 0) m.nodeCount).put (.rqs 0) 0)
  | created (n : ℕ) : a = .next → m.here = .create (.enqueue n) → Moved m q a (q.put (.rqs 0) n)
  | joined (e : ExitNode) (i n : ℕ) (l : List ℕ) : a = .next → m.here = .exit (.loop e i) →
      q .joinQueue = n :: l → (m.sched.tcb n).joinId = e.1 →
      Moved m q a (q.move .joinQueue (.rqs 0) n)
  | kept (e : ExitNode) (i n : ℕ) (l : List ℕ) : a = .next → m.here = .exit (.loop e i) →
      q .joinQueue = n :: l → (m.sched.tcb n).joinId ≠ e.1 →
      Moved m q a (q.move .joinQueue .joinQueue n)
  | woken (k n : ℕ) (l : List ℕ) : a = .next → m.here = .unlock k .move →
      q .waitingQueue = n :: l → Moved m q a (q.move .waitingQueue (.rqs 0) n)

theorem moved_call (h : m.here.isCall = true) : Moved m q .next (m.advance q .next) := by
  rw [advance_of_isCall h]
  exact .call rfl h

theorem moved (m : Machine) (q : Mlfq) (a : Action) : Moved m q a (m.advance q a) := by
  cases a with
  | call c => exact .still
  | init => exact .still
  | tick => exact .tick rfl
  | next =>
    by_cases hcall : m.here.isCall = true
    · exact moved_call hcall
    cases hh : m.here with
    | user =>
      simp only [Machine.advance, hh]
      exact .still
    | create x =>
      rw [hh] at hcall
      cases x <;> simp only [Machine.advance, hh]
      · split
        · exact .first rfl hh ‹_›
        · exact .still
      · exact .created _ rfl hh
      · exact .still
      · exact absurd rfl hcall
    | yield x =>
      rw [hh] at hcall
      cases x <;> simp only [Machine.advance, hh]
      · exact .still
      · exact .still
      · exact absurd rfl hcall
    | exit x =>
      rw [hh] at hcall
      cases x <;> simp only [Machine.advance, hh]
      case loop e i =>
        split
        · rename_i hlt
          obtain ⟨n, l, hl⟩ := List.exists_cons_of_length_pos (Nat.zero_lt_of_lt hlt)
          simp only [Machine.afterBody, hl]
          split
          · exact .joined e i n l rfl hh hl ‹_›
          · exact .kept e i n l rfl hh hl ‹_›
        · exact .still
      case call => exact absurd rfl hcall
      all_goals exact .still
    | join t x =>
      rw [hh] at hcall
      cases x <;> simp only [Machine.advance, hh]
      case call => exact absurd rfl hcall
      all_goals exact .still
    | lock k x =>
      rw [hh] at hcall
      cases x <;> simp only [Machine.advance, hh]
      case call => exact absurd rfl hcall
      all_goals exact .still
    | unlock k x =>
      cases x <;> simp only [Machine.advance, hh]
      case move =>
        cases hw : q .waitingQueue with
        | nil => exact .still
        | cons n l => exact .woken k n l rfl hh hw
      all_goals exact .still

end MyPthread.Api
