import MyPthread.Sched.Pointers
import MyPthread.Api.Machine

/-!
# Threads, nodes and program counters

Facts about every run in which no tick splits the creation of a thread, whatever
the queues are: the thread in `current` is the one that executes, the pointers of
the scheduler are to allocated nodes, and node `n` is that of thread `n`.

`LocalStep` says what a statement that neither creates a thread nor calls
`scheduler` can do.
-/

namespace MyPthread.Api

open MyPthread.Sched Function

namespace Pc

/-- Between reading `threadCount` and incrementing it. -/
def inCreate : Pc → Bool
  | .create (.enqueue _) | .create .count => true
  | _ => false

/-- The statements that call `scheduler`. -/
def isCall : Pc → Bool
  | .create .call | .yield .call | .exit .call | .join _ .call | .lock _ .call => true
  | _ => false

/-- The mutex a call is about. -/
def mutex? : Pc → Option ℕ
  | .lock k _ | .unlock k _ => some k
  | _ => none

end Pc

namespace Machine

variable {m : Machine} {p : Pc} {s : State} {f : FlagCalled} {k : ℕ} {g : Mutex → Mutex}

@[simp] theorem pc_goto : (m.goto p).pc = update m.pc m.running p := rfl
@[simp] theorem running_goto : (m.goto p).running = m.running := rfl
@[simp] theorem sched_goto : (m.goto p).sched = m.sched := rfl
@[simp] theorem nodeCount_goto : (m.goto p).nodeCount = m.nodeCount := rfl
@[simp] theorem threadCount_goto : (m.goto p).threadCount = m.threadCount := rfl
@[simp] theorem firstThread_goto : (m.goto p).firstThread = m.firstThread := rfl
@[simp] theorem mutexes_goto : (m.goto p).mutexes = m.mutexes := rfl
@[simp] theorem mutexCount_goto : (m.goto p).mutexCount = m.mutexCount := rfl
@[simp] theorem holders_goto : (m.goto p).holders = m.holders := rfl

end Machine

/-- Thread ids and `current` are the same, and pointers stay valid. -/
structure Keeps (N : ℕ) (s s' : State) : Prop where
  valid : Valid N s'
  tid : ∀ n, (s'.tcb n).tid = (s.tcb n).tid
  current : s'.current = s.current

section Keeps

variable {N n : ℕ} {s s' : State} {f : Tcb → Tcb}

theorem Keeps.refl (h : Valid N s) : Keeps N s s := ⟨h, fun _ ↦ rfl, rfl⟩

theorem Keeps.trans {s₁ s₂ : State} (h : Keeps N s s₁) (h' : Keeps N s₁ s₂) : Keeps N s s₂ :=
  ⟨h'.valid, fun n ↦ (h'.tid n).trans (h.tid n), h'.current.trans h.current⟩

theorem Keeps.setFc (h : Valid N s) (fc : FlagCalled) : Keeps N s { s with fc := fc } :=
  ⟨h.congr rfl rfl rfl, fun _ ↦ rfl, rfl⟩

theorem Keeps.modifyTcb (h : Valid N s) (hf : ∀ t, (f t).tid = t.tid) :
    Keeps N s (s.modifyTcb n f) := by
  refine ⟨h.congr rfl State.next_modifyTcb rfl, fun k ↦ ?_, rfl⟩
  by_cases hk : k = n
  · subst hk
    rw [State.tcb_modifyTcb_self, hf]
  · rw [State.tcb_modifyTcb_of_ne hk]

theorem Keeps.setPriority (h : Valid N s) (p : ℕ) : Keeps N s (s.setPriority n p) :=
  .modifyTcb h fun _ ↦ rfl

theorem Keeps.of_evolves (h : Evolves N s s') (hc : s'.current = s.current) : Keeps N s s' :=
  ⟨h.valid, fun n ↦ by rw [h.priorityOnly n], hc⟩

theorem enqueuee_current {Q : QueueId} {p : Option ℕ} (h : enqueuee p Q s = some s') :
    s'.current = s.current := by
  cases p with
  | none => cases h
  | some n =>
    cases hf : (s.queues Q).front with
    | none =>
      simp only [enqueuee, hf, Option.bind_eq_bind, Option.bind_some, Option.pure_def,
        Option.some.injEq] at h
      rw [← h]
      rfl
    | some f =>
      simp only [enqueuee, hf, Option.bind_eq_bind, Option.bind_some, Option.bind_eq_some_iff,
        Option.pure_def, Option.some.injEq] at h
      obtain ⟨b, -, rfl⟩ := h
      rfl

theorem dequeuee_current {Q : QueueId} : (dequeuee Q s).2.current = s.current := by
  unfold dequeuee
  split <;> rfl

theorem enqueuee_keeps {Q : QueueId} (h : Valid N s) (hn : n < N)
    (he : enqueuee (some n) Q s = some s') : Keeps N s s' :=
  .of_evolves (enqueuee_evolves h (fun _ hk ↦ Option.some.inj hk ▸ hn) he) (enqueuee_current he)

theorem dequeuee_keeps {Q : QueueId} (h : Valid N s) : Keeps N s (dequeuee Q s).2 :=
  .of_evolves (dequeuee_evolves h) dequeuee_current

theorem requeue_keeps {src dst : QueueId} (h : Valid N s) (hr : requeue src dst s = some s') :
    Keeps N s s' :=
  .of_evolves (requeue_evolves h hr) ((enqueuee_current hr).trans dequeuee_current)

/-- The body of the loop of `my_pthread_exit` keeps threads. -/
theorem exitBody_keeps {e : ExitNode} (h : Valid N s) (hb : Machine.exitBody e s = some s') :
    Keeps N s s' := by
  have hd := dequeuee_keeps (Q := .joinQueue) h
  have hfst : (dequeuee .joinQueue s).1 = (s.queues .joinQueue).front := dequeuee_fst
  simp only [Machine.exitBody, Option.bind_eq_bind, Option.bind_eq_some_iff] at hb
  obtain ⟨n, hn, c, -, hb⟩ := hb
  have hnN : n < N := h.front .joinQueue n (hfst ▸ hn)
  split at hb
  · have h₁ := hd.trans (.modifyTcb (n := n) hd.valid (f := fun t ↦ { t with valuePtr := e.2 })
      fun _ ↦ rfl)
    have h₂ := h₁.trans (.setPriority (n := n) h₁.valid 0)
    exact h₂.trans (enqueuee_keeps h₂.valid hnN hb)
  · exact hd.trans (enqueuee_keeps hd.valid hnN hb)

end Keeps

/-- What a statement outside `my_pthread_create` that does not call `scheduler`
can do; the thread that executes goes on at `p`. -/
structure LocalStep (m m' : Machine) (p : Pc) : Prop where
  pc : m'.pc = update m.pc m.running p
  running : m'.running = m.running
  keeps : Keeps m.nodeCount m.sched m'.sched
  firstThread : m'.firstThread = m.firstThread
  threadCount : m'.threadCount = m.threadCount
  nodeCount : m'.nodeCount = m.nodeCount
  mutexCount : m'.mutexCount = m.mutexCount
  mutex : p.mutex? = none ∨ p.mutex? = m.here.mutex?
  inCreate : p.inCreate = false
  held : ∀ e ∈ m'.holders, e ∈ m.holders ∨ e.2 = m.running ∧ m.here.mutex? = some e.1
  mutexes : m.here.mutex? = none → m'.mutexes = m.mutexes ∧ m'.holders = m.holders

section LocalStep

variable {m m' : Machine} {p : Pc}

/-- A statement that only moves the program counter. -/
theorem LocalStep.goto (hv : Valid m.nodeCount m.sched)
    (hp : p.mutex? = none ∨ p.mutex? = m.here.mutex?) (hc : p.inCreate = false) :
    LocalStep m (m.goto p) p :=
  ⟨rfl, rfl, .refl hv, rfl, rfl, rfl, rfl, hp, hc, fun _ he ↦ .inl he, fun _ ↦ ⟨rfl, rfl⟩⟩

/-- A statement that changes the scheduler's state and keeps threads. -/
theorem LocalStep.withSched {s : State} (hs : Keeps m.nodeCount m.sched s)
    (hp : p.mutex? = none ∨ p.mutex? = m.here.mutex?) (hc : p.inCreate = false) :
    LocalStep m ((m.withSched s).goto p) p :=
  ⟨rfl, rfl, hs, rfl, rfl, rfl, rfl, hp, hc, fun _ he ↦ .inl he, fun _ ↦ ⟨rfl, rfl⟩⟩

/-- A statement that changes a mutex. -/
theorem LocalStep.modifyMutex {j k : ℕ} {f : Mutex → Mutex} (hv : Valid m.nodeCount m.sched)
    (hj : m.here.mutex? = some j) (hp : p.mutex? = some j) (hc : p.inCreate = false) :
    LocalStep m ((m.modifyMutex k f).goto p) p :=
  ⟨rfl, rfl, .refl hv, rfl, rfl, rfl, rfl, .inr (hp.trans hj.symm), hc, fun _ he ↦ .inl he,
    fun h ↦ nomatch h.symm.trans hj⟩

theorem stepYield_local {y : YieldPc} (hv : Valid m.nodeCount m.sched)
    (hcall : y ≠ .call) (h : m.stepYield y = some m') : ∃ p, LocalStep m m' p := by
  cases y with
  | test =>
    simp only [Machine.stepYield, Option.bind_eq_bind, Option.bind_eq_some_iff] at h
    obtain ⟨c, -, f, -, h⟩ := h
    split at h <;> cases h
    · exact ⟨_, .goto hv (.inl rfl) rfl⟩
    · exact ⟨_, .goto hv (.inl rfl) rfl⟩
  | flag =>
    cases h
    exact ⟨_, .withSched (.setFc hv _) (.inl rfl) rfl⟩
  | call => exact absurd rfl hcall

theorem stepExit_local {x : ExitPc} (hv : Valid m.nodeCount m.sched)
    (hcall : x ≠ .call) (h : m.stepExit x = some m') : ∃ p, LocalStep m m' p := by
  cases x with
  | node v =>
    simp only [Machine.stepExit, Option.bind_eq_bind, Option.bind_eq_some_iff, Option.pure_def,
      Option.some.injEq] at h
    obtain ⟨c, -, rfl⟩ := h
    exact ⟨_, ⟨rfl, rfl, .refl hv, rfl, rfl, rfl, rfl, .inl rfl, rfl,
      fun _ he ↦ .inl he, fun _ ↦ ⟨rfl, rfl⟩⟩⟩
  | flag e =>
    cases h
    exact ⟨_, .withSched (.setFc hv _) (.inl rfl) rfl⟩
  | loop e i =>
    simp only [Machine.stepExit, Option.bind_eq_bind, Option.bind_eq_some_iff] at h
    obtain ⟨count, -, h⟩ := h
    split at h
    · simp only [Option.bind_eq_some_iff, Option.pure_def, Option.some.injEq] at h
      obtain ⟨s, hs, rfl⟩ := h
      exact ⟨_, .withSched (exitBody_keeps hv hs) (.inl rfl) rfl⟩
    · cases h
      exact ⟨_, .goto hv (.inl rfl) rfl⟩
  | push e =>
    cases h
    exact ⟨_, ⟨rfl, rfl, .refl hv, rfl, rfl, rfl, rfl, .inl rfl, rfl,
      fun _ he ↦ .inl he, fun _ ↦ ⟨rfl, rfl⟩⟩⟩
  | call => exact absurd rfl hcall
  | ret =>
    cases h
    exact ⟨_, .goto hv (.inl rfl) rfl⟩

theorem stepJoin_local {t : ℕ} {j : JoinPc} (hv : Valid m.nodeCount m.sched)
    (hcall : j ≠ .call) (h : m.stepJoin t j = some m') : ∃ p, LocalStep m m' p := by
  cases j with
  | list =>
    cases h
    exact ⟨_, .goto hv (.inl rfl) rfl⟩
  | bound temp =>
    simp only [Machine.stepJoin] at h
    split at h <;> cases h
    · exact ⟨_, .goto hv (.inl rfl) rfl⟩
    · exact ⟨_, .goto hv (.inl rfl) rfl⟩
  | search temp =>
    cases temp with
    | nil =>
      cases h
      exact ⟨_, .goto hv (.inl rfl) rfl⟩
    | cons e temp =>
      simp only [Machine.stepJoin] at h
      split at h <;> cases h
      · exact ⟨_, ⟨rfl, rfl, .refl hv, rfl, rfl, rfl, rfl, .inl rfl, rfl,
      fun _ he ↦ .inl he, fun _ ↦ ⟨rfl, rfl⟩⟩⟩
      · exact ⟨_, .goto hv (.inl rfl) rfl⟩
  | store =>
    simp only [Machine.stepJoin, Option.bind_eq_bind, Option.bind_eq_some_iff, Option.pure_def,
      Option.some.injEq] at h
    obtain ⟨c, -, rfl⟩ := h
    exact ⟨_, .withSched (.modifyTcb hv fun _ ↦ rfl) (.inl rfl) rfl⟩
  | flag =>
    cases h
    exact ⟨_, .withSched (.setFc hv _) (.inl rfl) rfl⟩
  | call => exact absurd rfl hcall
  | ret =>
    simp only [Machine.stepJoin, Option.bind_eq_bind, Option.bind_eq_some_iff, Option.pure_def,
      Option.some.injEq] at h
    obtain ⟨c, -, rfl⟩ := h
    exact ⟨_, ⟨rfl, rfl, .refl hv, rfl, rfl, rfl, rfl, .inl rfl, rfl,
      fun _ he ↦ .inl he, fun _ ↦ ⟨rfl, rfl⟩⟩⟩

theorem stepLock_local {k : ℕ} {l : LockPc} (hv : Valid m.nodeCount m.sched)
    (hhere : m.here.mutex? = some k) (hcall : l ≠ .call) (h : m.stepLock k l = some m') :
    ∃ p, LocalStep m m' p := by
  cases l with
  | test =>
    simp only [Machine.stepLock] at h
    split at h <;> cases h
    · exact ⟨_, .goto hv (.inr hhere.symm) rfl⟩
    · exact ⟨_, .goto hv (.inr hhere.symm) rfl⟩
  | flag =>
    cases h
    exact ⟨_, .withSched (.setFc hv _) (.inr hhere.symm) rfl⟩
  | mid =>
    simp only [Machine.stepLock, Option.bind_eq_bind, Option.bind_eq_some_iff, Option.pure_def,
      Option.some.injEq] at h
    obtain ⟨c, -, rfl⟩ := h
    exact ⟨_, .withSched (.modifyTcb hv fun _ ↦ rfl) (.inr hhere.symm) rfl⟩
  | call => exact absurd rfl hcall
  | set =>
    cases h
    exact ⟨_, .modifyMutex hv hhere rfl rfl⟩
  | tid =>
    simp only [Machine.stepLock, Option.bind_eq_bind, Option.bind_eq_some_iff, Option.pure_def,
      Option.some.injEq] at h
    obtain ⟨c, -, rfl⟩ := h
    exact ⟨_, .modifyMutex hv hhere rfl rfl⟩
  | ready =>
    cases h
    exact ⟨_, .modifyMutex hv hhere rfl rfl⟩
  | ret =>
    cases h
    refine ⟨_, ⟨rfl, rfl, .refl hv, rfl, rfl, rfl, rfl, .inl rfl, rfl, fun e he ↦ ?_,
      fun h ↦ nomatch h.symm.trans hhere⟩⟩
    rcases List.mem_cons.mp he with rfl | he
    · exact .inr ⟨rfl, hhere⟩
    · exact .inl he

theorem stepUnlock_local {k : ℕ} {u : UnlockPc} (hv : Valid m.nodeCount m.sched)
    (hhere : m.here.mutex? = some k) (h : m.stepUnlock k u = some m') :
    ∃ p, LocalStep m m' p := by
  cases u with
  | test =>
    simp only [Machine.stepUnlock] at h
    split at h <;> cases h
    · exact ⟨_, .goto hv (.inl rfl) rfl⟩
    · exact ⟨_, .goto hv (.inr hhere.symm) rfl⟩
  | owner =>
    simp only [Machine.stepUnlock, Option.bind_eq_bind, Option.bind_eq_some_iff] at h
    obtain ⟨c, -, h⟩ := h
    split at h <;> cases h
    · exact ⟨_, .goto hv (.inl rfl) rfl⟩
    · exact ⟨_, .goto hv (.inr hhere.symm) rfl⟩
  | clear =>
    cases h
    refine ⟨_, ⟨rfl, rfl, .refl hv, rfl, rfl, rfl, rfl, .inr hhere.symm, rfl, fun e he ↦ ?_,
      fun h ↦ nomatch h.symm.trans hhere⟩⟩
    exact .inl (List.mem_of_mem_filter he)
  | tid =>
    cases h
    exact ⟨_, .modifyMutex hv hhere rfl rfl⟩
  | front =>
    cases h
    exact ⟨_, .goto hv (.inr hhere.symm) rfl⟩
  | loop temp =>
    cases temp with
    | none =>
      cases h
      exact ⟨_, .goto hv (.inl rfl) rfl⟩
    | some n =>
      cases h
      exact ⟨_, .goto hv (.inr hhere.symm) rfl⟩
  | found n =>
    simp only [Machine.stepUnlock] at h
    split at h <;> cases h
    · exact ⟨_, .goto hv (.inr hhere.symm) rfl⟩
    · exact ⟨_, .goto hv (.inr hhere.symm) rfl⟩
  | next n =>
    cases h
    exact ⟨_, .goto hv (.inr hhere.symm) rfl⟩
  | mid n =>
    cases h
    exact ⟨_, .withSched (.modifyTcb hv fun _ ↦ rfl) (.inr hhere.symm) rfl⟩
  | priority n =>
    cases h
    exact ⟨_, .withSched (.setPriority hv 0) (.inr hhere.symm) rfl⟩
  | ready =>
    cases h
    exact ⟨_, .modifyMutex hv hhere rfl rfl⟩
  | move =>
    simp only [Machine.stepUnlock, Option.bind_eq_bind, Option.bind_eq_some_iff, Option.pure_def,
      Option.some.injEq] at h
    obtain ⟨s, hs, rfl⟩ := h
    exact ⟨_, .withSched (requeue_keeps hv hs) (.inr hhere.symm) rfl⟩
  | ret =>
    cases h
    exact ⟨_, .goto hv (.inl rfl) rfl⟩

end LocalStep

/-! ## The invariant -/

/-- What holds between the threads, their nodes and the globals. -/
structure Flow (m : Machine) : Prop where
  valid : Valid m.nodeCount m.sched
  running : m.running < m.nodeCount
  current : ∀ c, m.sched.current = some c → c = m.running
  tid : ∀ n, n < m.nodeCount → (m.sched.tcb n).tid = n
  first : m.firstThread = true → m.nodeCount = 1 ∧ m.here.inCreate = false
  count : m.nodeCount = m.threadCount + if m.here.inCreate then 1 else 0
  others : ∀ n, n ≠ m.running → (m.pc n).inCreate = false
  enqueue : ∀ n, m.here = .create (.enqueue n) → n < m.nodeCount
  unused : ∀ n, m.nodeCount ≤ n → m.pc n = .user
  mutex : ∀ n k, (m.pc n).mutex? = some k → k < m.mutexCount
  held : ∀ e ∈ m.holders, e.1 < m.mutexCount ∧ e.2 < m.nodeCount

/-- No tick splits the creation of a thread. -/
def WholeCreate (m : Machine) (a : Action) : Prop := a = .tick → m.here.inCreate = false

section Flow

variable {m m' : Machine} {p : Pc}

theorem flow_init : Flow Machine.init where
  valid := ⟨fun _ _ h ↦ (nomatch h), fun _ _ h ↦ (nomatch h), fun _ _ h ↦ (nomatch h),
    fun _ h ↦ (nomatch h)⟩
  running := by decide
  current _ h := by cases h
  tid n hn := by
    obtain rfl : n = 0 := Nat.lt_one_iff.mp hn
    rfl
  first _ := ⟨rfl, rfl⟩
  count := rfl
  others _ _ := rfl
  enqueue _ h := by cases h
  unused _ _ := rfl
  mutex _ _ h := by cases h
  held _ h := by cases h

/-- A node that is used is not one of the new ones. -/
theorem Flow.unused_update (hf : Flow m) {n : ℕ} (hn : m.nodeCount ≤ n) :
    update m.pc m.running p n = .user := by
  have hne : n ≠ m.running := by
    have := hf.running
    omega
  rw [update_of_ne hne]
  exact hf.unused n hn

theorem Flow.others_update (hf : Flow m) {n : ℕ} (hn : n ≠ m.running) :
    (update m.pc m.running p n).inCreate = false := by
  rw [update_of_ne hn]
  exact hf.others n hn

theorem Flow.mutex_update (hf : Flow m) (hp : p.mutex? = none ∨ p.mutex? = m.here.mutex?)
    {n k : ℕ} (hk : (update m.pc m.running p n).mutex? = some k) : k < m.mutexCount := by
  by_cases hn : n = m.running
  · rw [hn, update_self] at hk
    rcases hp with hp | hp
    · rw [hp] at hk
      cases hk
    · exact hf.mutex m.running k (hp ▸ hk)
  · rw [update_of_ne hn] at hk
    exact hf.mutex n k hk

theorem Flow.local (hf : Flow m) (hc : m.here.inCreate = false) (hl : LocalStep m m' p) :
    Flow m' := by
  have hhere : m'.here = p := by rw [Machine.here, hl.pc, hl.running, update_self]
  constructor
  · rw [hl.nodeCount]
    exact hl.keeps.valid
  · rw [hl.running, hl.nodeCount]
    exact hf.running
  · rw [hl.keeps.current, hl.running]
    exact hf.current
  · intro n hn
    rw [hl.nodeCount] at hn
    rw [hl.keeps.tid]
    exact hf.tid n hn
  · rw [hl.firstThread, hl.nodeCount, hhere]
    exact fun h ↦ ⟨(hf.first h).1, hl.inCreate⟩
  · have := hf.count
    rw [hc] at this
    rw [hl.nodeCount, hl.threadCount, hhere, hl.inCreate]
    exact this
  · intro n hn
    rw [hl.running] at hn
    rw [hl.pc]
    exact hf.others_update hn
  · intro n hn
    have := hl.inCreate
    rw [← hhere, hn] at this
    cases this
  · intro n hn
    rw [hl.nodeCount] at hn
    rw [hl.pc]
    exact hf.unused_update hn
  · intro n k hk
    rw [hl.pc] at hk
    rw [hl.mutexCount]
    exact hf.mutex_update hl.mutex hk
  · intro e he
    rw [hl.mutexCount, hl.nodeCount]
    rcases hl.held e he with he | ⟨hr, hk⟩
    · exact hf.held e he
    · exact ⟨hf.mutex m.running e.1 hk, hr ▸ hf.running⟩

/-- A call of `scheduler`. -/
theorem Flow.callScheduler (hf : Flow m) (hc : m.here.inCreate = false)
    (h : m.callScheduler = some m') : Flow m' := by
  simp only [Machine.callScheduler, Option.bind_eq_bind, Option.bind_eq_some_iff, Option.pure_def,
    Option.some.injEq] at h
  obtain ⟨s, hs, rfl⟩ := h
  have hev := scheduler_evolves hf.valid hs
  have hall : ∀ n, (m.pc n).inCreate = false := fun n ↦ by
    by_cases hn : n = m.running
    · rw [hn]
      exact hc
    · exact hf.others n hn
  refine ⟨hev.valid, ?_, ?_, ?_, fun h ↦ ⟨(hf.first h).1, hall _⟩, ?_, fun n _ ↦ hall n,
    fun n hn ↦ ?_,
    hf.unused, hf.mutex, hf.held⟩
  · show s.current.getD m.running < m.nodeCount
    cases hcur : s.current with
    | none => exact hf.running
    | some d => exact hev.valid.current d hcur
  · intro c hcur
    show c = s.current.getD m.running
    rw [show s.current = some c from hcur]
    rfl
  · intro n hn
    show (s.tcb n).tid = n
    rw [hev.priorityOnly n]
    exact hf.tid n hn
  · have := hf.count
    rw [hc] at this
    show m.nodeCount = m.threadCount + if (m.pc (s.current.getD m.running)).inCreate then 1 else 0
    rw [hall]
    exact this
  · have := hall (s.current.getD m.running)
    rw [show m.pc (s.current.getD m.running) = _ from hn] at this
    cases this

theorem Flow.goto (hf : Flow m) (hc : m.here.inCreate = false)
    (hp : p.mutex? = none ∨ p.mutex? = m.here.mutex?) (hpc : p.inCreate = false) :
    Flow (m.goto p) :=
  hf.local hc (.goto hf.valid hp hpc)

/-- A new node at the end of the nodes allocated. -/
theorem valid_newNode {N n tid : ℕ} (h : Valid N m.sched) : Valid N (m.newNode n tid).sched := by
  refine ⟨h.front, h.back, fun k j hj ↦ ?_, h.current⟩
  by_cases hk : k = n
  · subst hk
    simp [Machine.newNode, Machine.withSched, State.next] at hj
  · refine h.next k j ?_
    simpa [Machine.newNode, Machine.withSched, State.next, hk] using hj

theorem tcb_newNode_self {n tid : ℕ} : ((m.newNode n tid).sched.tcb n).tid = tid := by
  simp [Machine.newNode, Machine.withSched, State.tcb]

theorem tcb_newNode_of_ne {n k tid : ℕ} (h : k ≠ n) :
    (m.newNode n tid).sched.tcb k = m.sched.tcb k := by
  simp [Machine.newNode, Machine.withSched, State.tcb, h]

/-- The statement of `my_pthread_create` that makes a node. -/
theorem Flow.createNode (hf : Flow m) (hhere : m.here = .create .node)
    (h : m.stepCreate .node = some m') : Flow m' := by
  have hcount : m.nodeCount = m.threadCount := by
    have := hf.count
    rw [hhere] at this
    exact this
  simp only [Machine.stepCreate] at h
  split at h
  · rename_i hfirst
    obtain ⟨h₁, -⟩ := hf.first hfirst
    have hrun : m.running = 0 := by
      have := hf.running
      omega
    simp only [Option.bind_eq_bind, Option.bind_eq_some_iff, Option.pure_def,
      Option.some.injEq] at h
    obtain ⟨s₁, hs₁, s₂, hs₂, rfl⟩ := h
    -- the new thread and the caller
    have hv : Valid (m.nodeCount + 1) ((m.newNode m.nodeCount 1).newNode 0 0).sched :=
      valid_newNode (valid_newNode (hf.valid.mono (Nat.le_succ _)))
    have hk₁ := enqueuee_keeps hv (Nat.lt_succ_self _) hs₁
    have hv₁ : Valid (m.nodeCount + 1) { s₁ with current := some 0 } :=
      ⟨hk₁.valid.front, hk₁.valid.back, hk₁.valid.next, fun n hn ↦ by
        cases hn
        exact Nat.succ_pos _⟩
    have hk₂ := enqueuee_keeps hv₁ (Nat.succ_pos _) hs₂
    refine ⟨hk₂.valid, ?_, ?_, ?_, ?_, ?_, fun n hn ↦ hf.others_update hn,
      fun n hn ↦ ?_, fun n hn ↦ ?_, fun n k hk ↦ hf.mutex_update (.inl rfl) hk, fun e he ↦ ?_⟩
    · exact hf.running.trans (Nat.lt_succ_self _)
    · intro c hc
      have hcur : s₂.current = some 0 := hk₂.current
      exact (Option.some.inj (hc.symm.trans hcur)).trans hrun.symm
    · intro n hn
      refine (hk₂.tid n).trans ((hk₁.tid n).trans ?_)
      have hn2 : n = 0 ∨ n = 1 := by
        have : n < m.nodeCount + 1 := hn
        omega
      rcases hn2 with rfl | rfl
      · exact tcb_newNode_self
      · rw [tcb_newNode_of_ne (by decide), h₁]
        exact tcb_newNode_self
    · intro hfalse
      cases hfalse
    · show m.nodeCount + 1 = m.threadCount + if (update m.pc m.running _ m.running).inCreate
        then 1 else 0
      rw [update_self, hcount]
      rfl
    · have hpc : update m.pc m.running (.create .count) m.running = .create (.enqueue n) := hn
      rw [update_self] at hpc
      cases hpc
    · exact hf.unused_update (le_trans (Nat.le_succ _) hn)
    · exact ⟨(hf.held e he).1, (hf.held e he).2.trans (Nat.lt_succ_self _)⟩
  · rename_i hfirst
    cases h
    refine ⟨valid_newNode (hf.valid.mono (Nat.le_succ _)), hf.running.trans (Nat.lt_succ_self _),
      hf.current, ?_, fun h ↦ absurd h hfirst, ?_, fun n hn ↦ hf.others_update hn,
      fun n hn ↦ ?_, fun n hn ↦ ?_, fun n k hk ↦ hf.mutex_update (.inl rfl) hk, fun e he ↦ ?_⟩
    · intro n hn
      by_cases hne : n = m.nodeCount
      · rw [hne]
        exact tcb_newNode_self.trans hcount.symm
      · have hlt : n < m.nodeCount := by
          have : n < m.nodeCount + 1 := hn
          omega
        refine (congrArg Tcb.tid (tcb_newNode_of_ne hne)).trans (hf.tid n hlt)
    · show m.nodeCount + 1 = m.threadCount + if (update m.pc m.running _ m.running).inCreate
        then 1 else 0
      rw [update_self, hcount]
      rfl
    · have hpc : update m.pc m.running (.create (.enqueue m.nodeCount)) m.running =
        .create (.enqueue n) := hn
      rw [update_self] at hpc
      cases hpc
      exact Nat.lt_succ_self _
    · exact hf.unused_update (le_trans (Nat.le_succ _) hn)
    · exact ⟨(hf.held e he).1, (hf.held e he).2.trans (Nat.lt_succ_self _)⟩

/-- The statement of `my_pthread_create` that puts the node into `rqs[0]`. -/
theorem Flow.createEnqueue (hf : Flow m) {n : ℕ} (hhere : m.here = .create (.enqueue n))
    (h : m.stepCreate (.enqueue n) = some m') : Flow m' := by
  have hcount : m.nodeCount = m.threadCount + 1 := by
    have := hf.count
    rw [hhere] at this
    exact this
  simp only [Machine.stepCreate, Option.bind_eq_bind, Option.bind_eq_some_iff, Option.pure_def,
    Option.some.injEq] at h
  obtain ⟨s, hs, rfl⟩ := h
  have hk := enqueuee_keeps hf.valid (hf.enqueue n hhere) hs
  refine ⟨hk.valid, hf.running, fun c hc ↦ hf.current c (hk.current.symm.trans hc),
    fun k hkn ↦ (hk.tid k).trans (hf.tid k hkn), fun hfirst ↦ ?_, ?_,
    fun k hkn ↦ hf.others_update hkn, fun k hpc ↦ ?_, fun k hkn ↦ hf.unused_update hkn,
    fun k j hkj ↦ hf.mutex_update (.inl rfl) hkj, hf.held⟩
  · have := (hf.first hfirst).2
    rw [hhere] at this
    cases this
  · show m.nodeCount = m.threadCount + if (update m.pc m.running _ m.running).inCreate
      then 1 else 0
    rw [update_self]
    exact hcount
  · have : update m.pc m.running (.create .count) m.running = .create (.enqueue k) := hpc
    rw [update_self] at this
    cases this

/-- The statement of `my_pthread_create` that counts the thread. -/
theorem Flow.createCount (hf : Flow m) (hhere : m.here = .create .count)
    (h : m.stepCreate .count = some m') : Flow m' := by
  have hcount : m.nodeCount = m.threadCount + 1 := by
    have := hf.count
    rw [hhere] at this
    exact this
  cases h
  refine ⟨hf.valid, hf.running, hf.current, hf.tid, fun hfirst ↦ ?_, ?_,
    fun k hkn ↦ hf.others_update hkn, fun k hpc ↦ ?_, fun k hkn ↦ hf.unused_update hkn,
    fun k j hkj ↦ hf.mutex_update (.inl rfl) hkj, hf.held⟩
  · have := (hf.first hfirst).2
    rw [hhere] at this
    cases this
  · show m.nodeCount = m.threadCount + 1 + if (update m.pc m.running _ m.running).inCreate
      then 1 else 0
    rw [update_self]
    exact hcount
  · have : update m.pc m.running (.create .call) m.running = .create (.enqueue k) := hpc
    rw [update_self] at this
    cases this

/-- The thread that calls `scheduler` will go on after the call. -/
theorem Flow.gotoAfter (hf : Flow m) {after : Pc} {gone : List ℕ} (hc : m.here.inCreate = false)
    (ha : after.mutex? = none ∨ after.mutex? = m.here.mutex?) (hpc : after.inCreate = false) :
    Flow ({ m with gone := gone }.goto after) := by
  have hgoto : Flow (m.goto after) := hf.goto hc ha hpc
  exact ⟨hgoto.valid, hgoto.running, hgoto.current, hgoto.tid, hgoto.first, hgoto.count,
    hgoto.others, hgoto.enqueue, hgoto.unused, hgoto.mutex, hgoto.held⟩

/-- A statement that calls `scheduler`. -/
theorem Flow.call (hf : Flow m) {after : Pc} {gone : List ℕ} (hc : m.here.inCreate = false)
    (ha : after.mutex? = none ∨ after.mutex? = m.here.mutex?) (hpc : after.inCreate = false)
    (h : ({ m with gone := gone }.goto after).callScheduler = some m') : Flow m' := by
  refine (hf.gotoAfter hc ha hpc).callScheduler ?_ h
  show (update m.pc m.running after m.running).inCreate = false
  rw [update_self]
  exact hpc

/-- Every statement keeps the invariant. -/
theorem Flow.next (hf : Flow m) (h : m.next = some m') : Flow m' := by
  unfold Machine.next at h
  cases hhere : m.here with
  | user =>
    rw [hhere] at h
    cases h
  | create c =>
    rw [hhere] at h
    cases c with
    | node => exact hf.createNode hhere h
    | enqueue n => exact hf.createEnqueue hhere h
    | count => exact hf.createCount hhere h
    | call => exact hf.call (by rw [hhere]; rfl) (.inl rfl) rfl h
  | yield y =>
    rw [hhere] at h
    by_cases hy : y = .call
    · subst hy
      exact hf.call (by rw [hhere]; rfl) (.inl rfl) rfl h
    · obtain ⟨p, hl⟩ := stepYield_local hf.valid hy h
      exact hf.local (by rw [hhere]; rfl) hl
  | exit x =>
    rw [hhere] at h
    by_cases hx : x = .call
    · subst hx
      exact hf.call (by rw [hhere]; rfl) (.inl rfl) rfl h
    · obtain ⟨p, hl⟩ := stepExit_local hf.valid hx h
      exact hf.local (by rw [hhere]; rfl) hl
  | join t j =>
    rw [hhere] at h
    by_cases hj : j = .call
    · subst hj
      exact hf.call (by rw [hhere]; rfl) (.inl rfl) rfl h
    · obtain ⟨p, hl⟩ := stepJoin_local hf.valid hj h
      exact hf.local (by rw [hhere]; rfl) hl
  | lock k l =>
    rw [hhere] at h
    by_cases hl : l = .call
    · subst hl
      exact hf.call (by rw [hhere]; rfl) (.inr (by rw [hhere]; rfl)) rfl h
    · obtain ⟨p, hl⟩ := stepLock_local hf.valid (by rw [hhere]; rfl) hl h
      exact hf.local (by rw [hhere]; rfl) hl
  | unlock k u =>
    rw [hhere] at h
    obtain ⟨p, hl⟩ := stepUnlock_local hf.valid (by rw [hhere]; rfl) h
    exact hf.local (by rw [hhere]; rfl) hl

theorem Flow.initMutex (hf : Flow m) : Flow m.initMutex :=
  ⟨hf.valid, hf.running, hf.current, hf.tid, hf.first, hf.count, hf.others, hf.enqueue, hf.unused,
    fun n k hk ↦ (hf.mutex n k hk).trans (Nat.lt_succ_self _),
    fun e he ↦ ⟨(hf.held e he).1.trans (Nat.lt_succ_self _), (hf.held e he).2⟩⟩

theorem Flow.setFc (hf : Flow m) (f : FlagCalled) : Flow (m.setFc f) :=
  ⟨hf.valid.congr rfl rfl rfl, hf.running, hf.current, hf.tid, hf.first, hf.count, hf.others,
    hf.enqueue, hf.unused, hf.mutex, hf.held⟩

/-- A thread enters a call. -/
theorem Flow.enter (hf : Flow m) {c : Call} (hu : m.here = .user) (hv : c.Valid m) :
    Flow (m.goto c.entry) := by
  have hpc : c.entry.inCreate = false := by cases c <;> rfl
  have hf' : Flow (m.goto .user) := hf.goto (by rw [hu]; rfl) (.inl rfl) rfl
  refine ⟨hf'.valid, hf'.running, hf'.current, hf'.tid, fun h ↦ ⟨(hf.first h).1, ?_⟩, ?_,
    fun n hn ↦ hf.others_update hn, fun n hn ↦ ?_, fun n hn ↦ hf.unused_update hn,
    fun n k hk ↦ ?_, hf.held⟩
  · show (update m.pc m.running c.entry m.running).inCreate = false
    rw [update_self]
    exact hpc
  · have := hf.count
    rw [hu] at this
    show m.nodeCount = m.threadCount + if (update m.pc m.running c.entry m.running).inCreate
      then 1 else 0
    rw [update_self, hpc]
    exact this
  · have : update m.pc m.running c.entry m.running = .create (.enqueue n) := hn
    rw [update_self] at this
    rw [this] at hpc
    cases hpc
  · have hk' : (update m.pc m.running c.entry n).mutex? = some k := hk
    by_cases hn : n = m.running
    · rw [hn, update_self] at hk'
      cases c <;> cases hk'
      · exact hv
      · exact hv
    · rw [update_of_ne hn] at hk'
      exact hf.mutex n k hk'

/-- Every step that splits no creation keeps the invariant. -/
theorem Flow.step {a : Action} (hf : Flow m) (hw : WholeCreate m a) (h : m.step a = some m') :
    Flow m' := by
  cases a with
  | call c =>
    simp only [Machine.step] at h
    split at h
    · rename_i hc
      cases h
      exact hf.enter hc.1 hc.2
    · cases h
  | init =>
    simp only [Machine.step] at h
    split at h
    · cases h
      exact hf.initMutex
    · cases h
  | next => exact hf.next h
  | tick =>
    simp only [Machine.step] at h
    split at h
    · exact (hf.setFc .timer).callScheduler (hw rfl) h
    · cases h

end Flow

end MyPthread.Api
