import MyPthread.Api.Invariant

/-!
# The calls of `scheduler` keep the queues

`Ready` is what a thread, or the signal handler that interrupted it, has to bring
along when it calls `scheduler`.  Afterwards the chosen thread is active, or the
caller found no thread to run: then it has exited, or waits for a mutex.
-/

namespace MyPthread.Api

open MyPthread.Sched Function

section Faults

variable {s : State} {q : Mlfq} {setitimer : ℕ → ℤ} {fuel : ℕ}

theorem serve_of_current_none (hc : s.current = none) : serve s = none := by
  simp [serve, hc]

/-- A request of a thread that is in no run queue faults. -/
theorem serve_of_runnable_nil (hl : Linked s q) (hq : ∀ i, q (.rqs i) = [])
    (hf : s.fc = .timer ∨ s.fc = .blocked) : serve s = none := by
  cases hc : s.current with
  | none => exact serve_of_current_none hc
  | some c =>
    have hnil : ∀ i dst, requeue (.rqs i) dst s = none := fun i dst ↦ requeue_nil hl (hq i)
    rcases hf with hf | hf
    · have hprio : ∀ p i dst, requeue (.rqs i) dst (s.setPriority c p) = none := fun p i dst ↦
        requeue_nil (hl.congr State.next_setPriority State.queues_setPriority) (hq i)
      simp [serve, hc, hf, hnil, hprio]
    · simp [serve, hc, hf, hnil]

/-- Where a request faults, so does the call of `scheduler`. -/
theorem scheduler_of_serve_none (hflag : s.memFlag = 0) (h₀ : s.fc ≠ .none) (h₁ : s.fc ≠ .first)
    (hs : serve s = none) : scheduler setitimer fuel s = none := by
  have hu : updateQueue fuel s = none := by
    unfold updateQueue
    split
    · exact absurd ‹_› h₀
    · exact absurd ‹_› h₁
    · simp [hs]
  simp [scheduler, hflag, hu]

/-- Without a request `scheduler` returns at once. -/
theorem scheduler_of_none (hflag : s.memFlag = 0) (h₀ : s.fc = .none) :
    scheduler setitimer fuel s = some s := by
  simp [scheduler, hflag, updateQueue, h₀]

end Faults

/-- The caller of `scheduler` will go on at `m.here`, when it does. -/
structure Ready (m : Machine) (q : Mlfq) (p : ℕ) : Prop where
  flow : Flow m
  linked : Linked m.sched q
  wf : q.WF
  priority : ∀ i, ∀ n ∈ q (.rqs i), (m.sched.tcb n).threadPriority = i
  memFlag : m.sched.memFlag = 0
  alloc : ∀ n, q.Mem n → n < m.nodeCount
  uncut : ∀ n, (m.pc n).uncut = false
  joining : ∀ n ∈ q .joinQueue, ∃ t, m.pc n = .join t .ret
  threads : ∀ n, n ≠ m.running → ThreadOk m.exits q m.sched n (m.pc n)
  ready : m.sched.fc ≠ .join → ThreadOk m.exits q m.sched m.running m.here
  exitList : ∀ e ∈ m.exitList, e ∈ m.exits
  joins : ∀ e ∈ m.joins, e ∈ m.exits
  exits : ∀ e ∈ m.exits, e.1 < m.nodeCount ∧
    (q.Mem e.1 → (m.pc e.1).exiting = true ∨ e.1 = m.running ∧ m.sched.fc = .pexit)
  nodup : (m.exits.map Prod.fst).Nodup
  gone : ∀ n ∈ m.gone, n < m.nodeCount ∧ (q.Mem n → n = m.running ∧ m.sched.fc = .pexit)
  first : m.firstThread = false
  current : m.sched.current = some m.running
  mem : m.running ∈ q (.rqs p)
  head : m.sched.fc ≠ .first → (q (.rqs p)).head? = some m.running
  /-- A thread that exits does not go on in a call. -/
  pexit : m.sched.fc = .pexit → m.here = .exit .ret ∧ m.running ∈ m.gone
  /-- A thread that joins leaves another one to run. -/
  join : m.sched.fc = .join → (∃ n ∈ q.runnable, n ≠ m.running) ∧
    ∃ t : ℕ, m.here = .join t .ret ∧ (m.sched.tcb m.running).joinId = t
  /-- A thread that blocks will try to lock its mutex again. -/
  blocked : m.sched.fc = .blocked → ∃ k, m.here = .lock k .test ∧ (m.mutexes k).locked ≠ 0

section Ready

variable {m m' : Machine} {q : Mlfq} {p n c r : ℕ} {fc : FlagCalled} {count : ℕ}

/-- A request puts only a thread that joins into the join queue. -/
theorem mem_joinQueue_requested (hq : q.WF) (hc : c ∈ q (.rqs p)) :
    n ∈ q.requested fc count c p .joinQueue ↔ n ∈ q .joinQueue ∨ fc = .join ∧ n = c := by
  have hcj : c ∉ q .joinQueue := fun h ↦ nomatch hq.disjoint hc h
  have hage : ∀ {t : Mlfq}, n ∈ t.age .joinQueue ↔ n ∈ t .joinQueue := by
    intro t
    rw [Mlfq.mem_age]
    simp
  have hreq : n ∈ q.request fc c p .joinQueue ↔ n ∈ q .joinQueue ∨ fc = .join ∧ n = c := by
    cases fc <;> simp only [Mlfq.request, Mlfq.mem_move hq hc, Mlfq.mem_take hq] <;> grind
  unfold Mlfq.requested
  split
  · rename_i hf
    simp [hf]
  · split
    · rw [hage, hreq]
    · exact hreq

/-- A request puts only a thread that blocks into the waiting queue, at its tail. -/
theorem waitingQueue_requested (count : ℕ) :
    q.requested fc count c p .waitingQueue =
      if fc = .blocked then q .waitingQueue ++ [c] else q .waitingQueue := by
  have hage : ∀ t : Mlfq, t.age .waitingQueue = t .waitingQueue := fun t ↦ by
    simp [Mlfq.age]
  have hreq : q.request fc c p .waitingQueue =
      if fc = .blocked then q .waitingQueue ++ [c] else q .waitingQueue := by
    cases fc <;> simp [Mlfq.request, Mlfq.move, Mlfq.put, Mlfq.take, update_apply]
  unfold Mlfq.requested
  split
  · rename_i hf
    simp [hf]
  · split
    · rw [hage, hreq]
    · exact hreq

/-- The threads that a request leaves runnable. -/
theorem mem_runnable_requested (fc : FlagCalled) (count : ℕ) (hq : q.WF) (hc : c ∈ q (.rqs p))
    (hn : n ∈ q.runnable)
    (hnc : n ≠ c ∨ fc ≠ .pexit ∧ fc ≠ .join ∧ fc ≠ .blocked) :
    n ∈ (q.requested fc count c p).runnable := by
  obtain ⟨i, hi⟩ := (Mlfq.mem_runnable hq).mp hn
  have hage : ∀ {t : Mlfq}, t.WF → ∀ j, n ∈ t (.rqs j) → ∃ j, n ∈ t.age (.rqs j) := by
    intro t ht j hj
    by_cases h₉ : j = 9
    · subst h₉
      exact ⟨0, Mlfq.mem_age.mpr (.inr ⟨rfl, hj⟩)⟩
    · exact ⟨j, Mlfq.mem_age.mpr (.inl ⟨hj, fun h ↦ h₉ (by cases h; rfl)⟩)⟩
  have hreq : ∃ j, n ∈ q.request fc c p (.rqs j) := by
    by_cases hne : n = c
    · subst hne
      obtain ⟨h₁, h₂, h₃⟩ := hnc.resolve_left fun h ↦ h rfl
      cases fc with
      | none => exact ⟨i, hi⟩
      | first => exact ⟨i, hi⟩
      | timer => exact ⟨_, (Mlfq.mem_move hq hc).mpr (.inr ⟨rfl, rfl⟩)⟩
      | yield => exact ⟨_, (Mlfq.mem_move hq hc).mpr (.inr ⟨rfl, rfl⟩)⟩
      | pexit => exact absurd rfl h₁
      | join => exact absurd rfl h₂
      | blocked => exact absurd rfl h₃
    · refine ⟨i, ?_⟩
      cases fc <;> simp only [Mlfq.request, Mlfq.mem_move hq hc, Mlfq.mem_take hq] <;> grind
  have hwf := hq.requested fc count hc
  obtain ⟨j, hj⟩ := hreq
  refine (Mlfq.mem_runnable hwf).mpr ?_
  unfold Mlfq.requested
  split
  · exact ⟨i, hi⟩
  · split
    · exact hage (hq.request hc) j hj
    · exact ⟨j, hj⟩

/-- The queues over a call of `scheduler`. -/
theorem Ready.calling (h : Ready m q p) : Calling m.sched q m.running p where
  rep := ⟨h.linked, h.wf, h.priority, h.flow.tids h.alloc⟩
  memFlag := h.memFlag
  current := h.current
  mem := h.mem
  front := h.head

/-- The run queues are no longer than the nodes are many. -/
theorem Ready.length_runnable (h : Ready m q p) : q.runnable.length ≤ m.nodeCount := by
  have hnd : q.runnable.Nodup := by
    refine List.nodup_flatMap.mpr ⟨fun i _ ↦ h.wf.nodup _, ?_⟩
    refine (List.nodup_range (n := numPriorities)).imp fun {i j} hij n hi hj ↦ hij ?_
    exact QueueId.rqs.inj (h.wf.disjoint hi hj)
  have hsub : q.runnable ⊆ List.range m.nodeCount := fun n hn ↦ by
    obtain ⟨i, hi⟩ := (Mlfq.mem_runnable h.wf).mp hn
    exact List.mem_range.mpr (h.alloc n ⟨_, hi⟩)
  simpa using (hnd.subperm hsub).length_le

theorem setitimer_ne {u : ℕ} (hu : u < 1000000) : Machine.setitimer u ≠ -1 := by
  rw [Machine.setitimer, if_pos hu]
  decide

/-- The queues after the call of `scheduler`. -/
abbrev Machine.rescheduled (m : Machine) (q : Mlfq) (p : ℕ) : Mlfq :=
  q.schedule m.sched.fc m.sched.maintenanceCount m.running p

theorem Ready.mem_rescheduled (h : Ready m q p) :
    (m.rescheduled q p).Mem n ↔ q.Mem n ∧ (m.sched.fc = .pexit → n ≠ m.running) := by
  rw [← Mlfq.mem_requested_iff h.wf h.mem]
  exact exists_congr fun R ↦ Mlfq.mem_rotate

theorem Ready.mem_joinQueue (h : Ready m q p) :
    n ∈ m.rescheduled q p .joinQueue ↔
      n ∈ q .joinQueue ∨ m.sched.fc = .join ∧ n = m.running := by
  rw [Machine.rescheduled, Mlfq.schedule, Mlfq.mem_rotate, mem_joinQueue_requested h.wf h.mem]

/-- The call of `scheduler` keeps everything but the queues and the thread that
executes; which thread that is, is `mode`. -/
theorem Ready.inv (h : Ready m q p) {s : State} (hf : Flow m')
    (hm : m' = { m with sched := s, running := r })
    (hs : Scheduled m.sched (q.requested m.sched.fc m.sched.maintenanceCount m.running p)
      m.running s)
    (hmode : Mode m' (m.rescheduled q p)) : Inv m' (m.rescheduled q p) := by
  subst hm
  have htcb : ∀ n, (s.tcb n).joinId = (m.sched.tcb n).joinId ∧
      (s.tcb n).valuePtr = (m.sched.tcb n).valuePtr := fun n ↦ by
    rw [hs.priorityOnly n]
    exact ⟨rfl, rfl⟩
  refine ⟨hf, hs.rep.linked, hs.rep.wf, hs.rep.priority, hs.memFlag.trans h.memFlag,
    fun n hn ↦ h.alloc n (h.mem_rescheduled.mp hn).1, fun n _ ↦ h.uncut n, ?_, ?_,
    pending_of_uncut (h.uncut _), h.exitList, h.joins, ?_, h.nodup, ?_, hmode⟩
  · intro n hn
    rcases h.mem_joinQueue.mp hn with hn | ⟨hj, rfl⟩
    · exact h.joining n hn
    · obtain ⟨-, t, ht, -⟩ := h.join hj
      exact ⟨t, ht⟩
  · intro n
    by_cases hj : m.sched.fc = .join ∧ n = m.running
    · obtain ⟨hj, rfl⟩ := hj
      obtain ⟨-, t, ht, hid⟩ := h.join hj
      show ThreadOk m.exits _ s m.running (m.pc m.running)
      rw [show m.pc m.running = _ from ht]
      refine ⟨fun _ ↦ (htcb _).1.trans hid, fun hn ↦ ?_⟩
      exact absurd (h.mem_joinQueue.mpr (.inr ⟨hj, rfl⟩)) hn
    · refine ThreadOk.mono (q := q) (s := m.sched) ?_ (fun _ he ↦ he) ?_ (htcb n).1 (htcb n).2
      · by_cases hn : n = m.running
        · rw [hn]
          exact h.ready fun hfc ↦ hj ⟨hfc, hn⟩
        · exact h.threads n hn
      · rw [h.mem_joinQueue]
        exact or_iff_left hj
  · intro e he
    refine ⟨(h.exits e he).1, fun hmem ↦ ?_⟩
    obtain ⟨hq, hne⟩ := h.mem_rescheduled.mp hmem
    rcases (h.exits e he).2 hq with hx | ⟨heq, hfc⟩
    · exact hx
    · exact absurd heq (hne hfc)
  · intro n hn
    refine ⟨(h.gone n hn).1, fun hmem ↦ ?_⟩
    obtain ⟨hq, hne⟩ := h.mem_rescheduled.mp hmem
    obtain ⟨heq, hfc⟩ := (h.gone n hn).2 hq
    exact hne hfc heq

/-- Without a request the caller goes on. -/
theorem Ready.inv_of_none (h : Ready m q p) (hfc : m.sched.fc = .none) : Inv m q := by
  have hstored : m.here.stored = none := Pc.stored_of_uncut (h.uncut _)
  refine ⟨h.flow, h.linked, h.wf, h.priority, h.memFlag, h.alloc, fun n _ ↦ h.uncut n, h.joining,
    fun n ↦ ?_, pending_of_uncut (h.uncut _), h.exitList, h.joins, fun e he ↦ ?_, h.nodup,
    fun n hn ↦ ?_, .active p ⟨h.first, h.current, ?_, ?_, fun _ ↦ .inl hfc⟩⟩
  · by_cases hn : n = m.running
    · rw [hn]
      exact h.ready (by rw [hfc]; decide)
    · exact h.threads n hn
  · refine ⟨(h.exits e he).1, fun hmem ↦ ?_⟩
    rcases (h.exits e he).2 hmem with hx | ⟨-, hx⟩
    · exact hx
    · rw [hfc] at hx
      cases hx
  · refine ⟨(h.gone n hn).1, fun hmem ↦ ?_⟩
    have hx := ((h.gone n hn).2 hmem).2
    rw [hfc] at hx
    cases hx
  · exact h.head (by rw [hfc]; decide)
  · intro r hr
    rw [hstored] at hr
    cases hr

/-- The chosen thread is active. -/
theorem Ready.mode_of_chosen (h : Ready m q p) {s : State}
    (hs : Scheduled m.sched (q.requested m.sched.fc m.sched.maintenanceCount m.running p)
      m.running s)
    (hd : (q.requested m.sched.fc m.sched.maintenanceCount m.running p).choose m.running
      = some n) :
    Mode { m with sched := s, running := n } (m.rescheduled q p) := by
  obtain ⟨hcur, hfc, -, t, ht⟩ := hs.chosen n hd
  have hstored : (m.pc n).stored = none := Pc.stored_of_uncut (h.uncut _)
  refine .active t ⟨h.first, hcur, ht, fun r hr ↦ ?_, fun _ ↦ ?_⟩
  · rw [show (m.pc n).stored = some r from hr] at hstored
    cases hstored
  · show s.fc = .none ∨ s.fc = .first
    rw [hfc]
    split
    · exact .inr rfl
    · exact .inl rfl

/-- When there is no thread to run, the caller has exited or is blocked. -/
theorem Ready.mode_of_idle (h : Ready m q p) {s : State}
    (hs : Scheduled m.sched (q.requested m.sched.fc m.sched.maintenanceCount m.running p)
      m.running s)
    (hd : (q.requested m.sched.fc m.sched.maintenanceCount m.running p).choose m.running
      = none) :
    Mode { m with sched := s, running := m.running } (m.rescheduled q p) := by
  obtain ⟨hcur, hfc⟩ := hs.idle hd
  have hwf := h.wf.requested m.sched.fc m.sched.maintenanceCount h.mem
  have hnil : (q.requested m.sched.fc m.sched.maintenanceCount m.running p).runnable = [] := by
    rw [Mlfq.choose, Option.or_eq_none_iff, List.head?_eq_none_iff] at hd
    exact hd.2
  have hrqs : ∀ i, m.rescheduled q p (.rqs i) = [] := fun i ↦
    List.eq_nil_iff_forall_not_mem.mpr fun n hn ↦ by
      have := (Mlfq.mem_runnable hwf).mpr ⟨i, Mlfq.mem_rotate.mp hn⟩
      rw [hnil] at this
      cases this
  have hrun : m.running ∈ q.runnable := (Mlfq.mem_runnable h.wf).mpr ⟨p, h.mem⟩
  have hnot : ∀ n ∈ q.runnable, ¬(n ≠ m.running ∨
      m.sched.fc ≠ .pexit ∧ m.sched.fc ≠ .join ∧ m.sched.fc ≠ .blocked) := fun n hn hn' ↦ by
    have := mem_runnable_requested m.sched.fc m.sched.maintenanceCount h.wf
      h.mem hn hn'
    rw [hnil] at this
    cases this
  by_cases hp : m.sched.fc = .pexit
  · obtain ⟨hhere, hgone⟩ := h.pexit hp
    rw [if_pos hp] at hcur hfc
    refine .finished ⟨h.first, hcur, ?_, ?_, .inl hrqs, hgone⟩
    · show (m.here).early = true
      rw [hhere]
      rfl
    · show s.fc ≠ .none ∧ s.fc ≠ .first
      rw [hfc]
      decide
  · by_cases hj : m.sched.fc = .join
    · obtain ⟨⟨n, hn, hne⟩, -⟩ := h.join hj
      exact absurd (.inl hne) (hnot n hn)
    · by_cases hb : m.sched.fc = .blocked
      · obtain ⟨k, hk, hlocked⟩ := h.blocked hb
        rw [if_neg hp] at hcur hfc
        refine .stuck k ⟨h.first, hcur, hrqs, ?_, hlocked, .inl hk⟩
        rw [Machine.rescheduled, Mlfq.schedule, Mlfq.mem_rotate, waitingQueue_requested, if_pos hb]
        exact List.mem_append_right _ (List.mem_singleton_self _)
      · exact absurd (.inr ⟨hp, hj, hb⟩) (hnot _ hrun)

/-- Whoever is ready to call `scheduler` leaves the queues well formed. -/
theorem Ready.callScheduler (h : Ready m q p) (hcall : m.callScheduler = some m') :
    Inv m' (if m.sched.fc = .none then q else m.rescheduled q p) := by
  have hf : Flow m' := h.flow.callScheduler (Pc.inCreate_of_uncut (h.uncut _)) hcall
  simp only [Machine.callScheduler, Option.bind_eq_bind, Option.bind_eq_some_iff, Option.pure_def,
    Option.some.injEq] at hcall
  obtain ⟨s, hs, rfl⟩ := hcall
  by_cases h₀ : m.sched.fc = .none
  · rw [scheduler_of_none h.memFlag h₀, Option.some.injEq] at hs
    subst hs
    rw [if_pos h₀, h.current]
    exact h.inv_of_none h₀
  · obtain ⟨s', hs', hsched⟩ := scheduler_spec h.calling h₀ (fun _ ↦ setitimer_ne)
      h.length_runnable
    obtain rfl : s' = s := Option.some.inj (hs'.symm.trans hs)
    rw [if_neg h₀]
    refine h.inv hf rfl hsched ?_
    cases hd : (q.requested m.sched.fc m.sched.maintenanceCount m.running p).choose m.running with
    | some d =>
      rw [(hsched.chosen d hd).1]
      exact h.mode_of_chosen hsched hd
    | none =>
      rw [(hsched.idle hd).1]
      split
      · exact h.mode_of_idle hsched hd
      · exact h.mode_of_idle hsched hd

end Ready

end MyPthread.Api
