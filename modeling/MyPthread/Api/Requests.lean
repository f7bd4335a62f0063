import MyPthread.Api.Steps

/-!
# Requests and the timer

A call stores its request in the global `fc` some statements before it calls
`scheduler`, and a tick in between overwrites it.  In the runs without such a tick
every request is served (`request_served`), and where the queues are also kept
(`Careful`) a thread that has exited runs no more, and one that joins waits for
its target.
-/

namespace MyPthread.Api

open MyPthread.Sched Function

/-- Between two calls, and after a call of `scheduler`. -/
def Pc.quiescent : Pc → Bool
  | .user | .exit .ret | .join _ .ret | .lock _ .test => true
  | _ => false

section NextPc

variable {m m' : Machine} {p : Pc} {n : ℕ} {r : FlagCalled}

theorem enqueuee_fc {s s' : State} {Q : QueueId} {x : Option ℕ} (h : enqueuee x Q s = some s') :
    s'.fc = s.fc := by
  cases x with
  | none => cases h
  | some n =>
    cases hf : (s.queues Q).front with
    | none =>
      simp only [enqueuee, hf, Option.bind_eq_bind, Option.bind_some, Option.pure_def,
        Option.some.injEq] at h
      rw [← h]
      rfl
    | some f =>
      simp only [enqueuee, hf, Option.bind_eq_bind, Option.bind_some, Option.bind_eq_some_iff,
        Option.pure_def, Option.some.injEq] at h
      obtain ⟨b, -, rfl⟩ := h
      rfl

theorem exitBody_fc {s s' : State} {e : ExitNode} (h : Machine.exitBody e s = some s') :
    s'.fc = s.fc := by
  have hd : (dequeuee .joinQueue s).2.fc = s.fc := by
    unfold dequeuee
    split <;> rfl
  simp only [Machine.exitBody, Option.bind_eq_bind, Option.bind_eq_some_iff] at h
  obtain ⟨n, -, c, -, h⟩ := h
  split at h
  · exact (enqueuee_fc h).trans hd
  · exact (enqueuee_fc h).trans hd

/-- What a statement does to the program counter of its thread, to its request and
to the threads that have exited. -/
structure NextPc (m m' : Machine) (p : Pc) : Prop where
  pc : m'.pc = update m.pc m.running p
  mutex : p.mutex? = none ∨ p.mutex? = m.here.mutex?
  create : p.isCreate = true → m.here.isCreate = true
  gone : ∀ n ∈ m'.gone, n ∈ m.gone ∨ n = m.running ∧ p.isCreate = false
  running : p.quiescent = true ∨ m'.running = m.running
  request : ∀ r, p.stored = some r → m'.running = m.running ∧
    (m'.sched.fc = r ∨ m.here.stored = some r ∧ m'.sched.fc = m.sched.fc)

theorem NextPc.of_stored (hpc : m'.pc = update m.pc m.running p)
    (hm : p.mutex? = none ∨ p.mutex? = m.here.mutex?)
    (hc : p.isCreate = true → m.here.isCreate = true) (hg : m'.gone = m.gone)
    (hr : m'.running = m.running) (hs : p.stored = none) : NextPc m m' p :=
  ⟨hpc, hm, hc, fun _ hn ↦ .inl (hg ▸ hn), .inr hr, fun _ h ↦ (nomatch hs.symm.trans h)⟩

/-- The thread goes on outside `my_pthread_create` and requests nothing. -/
theorem NextPc.of_other (hpc : m'.pc = update m.pc m.running p)
    (hm : p.mutex? = none ∨ p.mutex? = m.here.mutex?) (hc : p.isCreate = false)
    (hg : m'.gone = m.gone) (hr : m'.running = m.running) (hs : p.stored = none) :
    NextPc m m' p :=
  .of_stored hpc hm (fun h ↦ absurd (hc.symm.trans h) Bool.false_ne_true) hg hr hs

theorem NextPc.of_store (hpc : m'.pc = update m.pc m.running p)
    (hm : p.mutex? = none ∨ p.mutex? = m.here.mutex?) (hc : p.isCreate = false)
    (hg : m'.gone = m.gone) (hr : m'.running = m.running) (hs : p.stored = some r)
    (hfc : m'.sched.fc = r ∨ m.here.stored = some r ∧ m'.sched.fc = m.sched.fc) :
    NextPc m m' p := by
  refine ⟨hpc, hm, fun h ↦ (nomatch hc.symm.trans h), fun _ hn ↦ .inl (hg ▸ hn), .inr hr,
    fun r' hr' ↦ ?_⟩
  obtain rfl : r = r' := Option.some.inj (hs.symm.trans hr')
  exact ⟨hr, hfc⟩

/-- A call of `scheduler` leaves its caller at `p`. -/
theorem NextPc.of_call {g : List ℕ} (hm : p.mutex? = none ∨ p.mutex? = m.here.mutex?)
    (hc : p.isCreate = false) (hq : p.quiescent = true) (hg : ∀ n ∈ g, n ∈ m.gone ∨ n = m.running)
    (h : ({ m with gone := g }.goto p).callScheduler = some m') : NextPc m m' p := by
  simp only [Machine.callScheduler, Option.bind_eq_bind, Option.bind_eq_some_iff, Option.pure_def,
    Option.some.injEq] at h
  obtain ⟨s, -, rfl⟩ := h
  have hs : p.stored = none := by
    unfold Pc.quiescent at hq
    split at hq <;> first | rfl | cases hq
  refine ⟨rfl, hm, fun h ↦ (by cases hc.symm.trans h), fun n hn ↦ ?_, .inl hq,
    fun _ h ↦ (by cases hs.symm.trans h)⟩
  exact (hg n hn).imp_right fun h ↦ ⟨h, hc⟩

theorem stepCreate_pc {c : CreatePc} (hhere : m.here = .create c) (h : m.stepCreate c = some m') :
    ∃ p, NextPc m m' p := by
  have hc : m.here.isCreate = true := by rw [hhere]; rfl
  cases c with
  | node =>
    simp only [Machine.stepCreate] at h
    split at h
    · simp only [Option.bind_eq_bind, Option.bind_eq_some_iff, Option.pure_def,
        Option.some.injEq] at h
      obtain ⟨s₁, -, s₂, -, rfl⟩ := h
      exact ⟨_, .of_stored rfl (.inl rfl) (fun _ ↦ hc) rfl rfl rfl⟩
    · cases h
      exact ⟨_, .of_stored rfl (.inl rfl) (fun _ ↦ hc) rfl rfl rfl⟩
  | enqueue n =>
    simp only [Machine.stepCreate, Option.bind_eq_bind, Option.bind_eq_some_iff, Option.pure_def,
      Option.some.injEq] at h
    obtain ⟨s, -, rfl⟩ := h
    exact ⟨_, .of_stored rfl (.inl rfl) (fun _ ↦ hc) rfl rfl rfl⟩
  | count =>
    cases h
    exact ⟨_, .of_stored rfl (.inl rfl) (fun _ ↦ hc) rfl rfl rfl⟩
  | call => exact ⟨_, .of_call (g := m.gone) (.inl rfl) rfl rfl (fun _ ↦ .inl) h⟩

theorem stepYield_pc {y : YieldPc} (h : m.stepYield y = some m') : ∃ p, NextPc m m' p := by
  cases y with
  | test =>
    simp only [Machine.stepYield, Option.bind_eq_bind, Option.bind_eq_some_iff] at h
    obtain ⟨c, -, f, -, h⟩ := h
    split at h <;> cases h
    · exact ⟨_, .of_other rfl (.inl rfl) rfl rfl rfl rfl⟩
    · exact ⟨_, .of_other rfl (.inl rfl) rfl rfl rfl rfl⟩
  | flag =>
    cases h
    exact ⟨_, .of_store (r := .yield) rfl (.inl rfl) rfl rfl rfl rfl (.inl rfl)⟩
  | call => exact ⟨_, .of_call (g := m.gone) (.inl rfl) rfl rfl (fun _ ↦ .inl) h⟩

theorem stepExit_pc {x : ExitPc} (hhere : m.here = .exit x) (h : m.stepExit x = some m') :
    ∃ p, NextPc m m' p := by
  cases x with
  | node v =>
    simp only [Machine.stepExit, Option.bind_eq_bind, Option.bind_eq_some_iff, Option.pure_def,
      Option.some.injEq] at h
    obtain ⟨c, -, rfl⟩ := h
    exact ⟨_, .of_other rfl (.inl rfl) rfl rfl rfl rfl⟩
  | flag e =>
    cases h
    exact ⟨_, .of_store (r := .pexit) rfl (.inl rfl) rfl rfl rfl rfl (.inl rfl)⟩
  | loop e i =>
    have hstored : m.here.stored = some .pexit := by rw [hhere]; rfl
    simp only [Machine.stepExit, Option.bind_eq_bind, Option.bind_eq_some_iff] at h
    obtain ⟨count, -, h⟩ := h
    split at h
    · simp only [Option.bind_eq_some_iff, Option.pure_def, Option.some.injEq] at h
      obtain ⟨s, hs, rfl⟩ := h
      exact ⟨_, .of_store rfl (.inl rfl) rfl rfl rfl rfl (.inr ⟨hstored, exitBody_fc hs⟩)⟩
    · cases h
      exact ⟨_, .of_store rfl (.inl rfl) rfl rfl rfl rfl (.inr ⟨hstored, rfl⟩)⟩
  | push e =>
    cases h
    exact ⟨_, .of_store rfl (.inl rfl) rfl rfl rfl rfl (.inr ⟨by rw [hhere]; rfl, rfl⟩)⟩
  | call =>
    refine ⟨_, .of_call (g := m.running :: m.gone) (.inl rfl) rfl rfl (fun n hn ↦ ?_) h⟩
    exact (List.mem_cons.mp hn).symm
  | ret =>
    cases h
    exact ⟨_, .of_other rfl (.inl rfl) rfl rfl rfl rfl⟩

theorem stepJoin_pc {t : ℕ} {j : JoinPc} (h : m.stepJoin t j = some m') : ∃ p, NextPc m m' p := by
  cases j with
  | list =>
    cases h
    exact ⟨_, .of_other rfl (.inl rfl) rfl rfl rfl rfl⟩
  | bound temp =>
    simp only [Machine.stepJoin] at h
    split at h <;> cases h
    · exact ⟨_, .of_other rfl (.inl rfl) rfl rfl rfl rfl⟩
    · exact ⟨_, .of_other rfl (.inl rfl) rfl rfl rfl rfl⟩
  | search temp =>
    cases temp with
    | nil =>
      cases h
      exact ⟨_, .of_other rfl (.inl rfl) rfl rfl rfl rfl⟩
    | cons e temp =>
      simp only [Machine.stepJoin] at h
      split at h <;> cases h
      · exact ⟨_, .of_other rfl (.inl rfl) rfl rfl rfl rfl⟩
      · exact ⟨_, .of_other rfl (.inl rfl) rfl rfl rfl rfl⟩
  | store =>
    simp only [Machine.stepJoin, Option.bind_eq_bind, Option.bind_eq_some_iff, Option.pure_def,
      Option.some.injEq] at h
    obtain ⟨c, -, rfl⟩ := h
    exact ⟨_, .of_other rfl (.inl rfl) rfl rfl rfl rfl⟩
  | flag =>
    cases h
    exact ⟨_, .of_store (r := .join) rfl (.inl rfl) rfl rfl rfl rfl (.inl rfl)⟩
  | call => exact ⟨_, .of_call (g := m.gone) (.inl rfl) rfl rfl (fun _ ↦ .inl) h⟩
  | ret =>
    simp only [Machine.stepJoin, Option.bind_eq_bind, Option.bind_eq_some_iff, Option.pure_def,
      Option.some.injEq] at h
    obtain ⟨c, -, rfl⟩ := h
    exact ⟨_, .of_other rfl (.inl rfl) rfl rfl rfl rfl⟩

theorem stepLock_pc {k : ℕ} {l : LockPc} (hhere : m.here = .lock k l)
    (h : m.stepLock k l = some m') : ∃ p, NextPc m m' p := by
  have hk : m.here.mutex? = some k := by rw [hhere]; rfl
  cases l with
  | test =>
    simp only [Machine.stepLock] at h
    split at h <;> cases h
    · exact ⟨_, .of_other rfl (.inr hk.symm) rfl rfl rfl rfl⟩
    · exact ⟨_, .of_other rfl (.inr hk.symm) rfl rfl rfl rfl⟩
  | flag =>
    cases h
    exact ⟨_, .of_store (r := .blocked) rfl (.inr hk.symm) rfl rfl rfl rfl (.inl rfl)⟩
  | mid =>
    simp only [Machine.stepLock, Option.bind_eq_bind, Option.bind_eq_some_iff, Option.pure_def,
      Option.some.injEq] at h
    obtain ⟨c, -, rfl⟩ := h
    exact ⟨_, .of_store rfl (.inr hk.symm) rfl rfl rfl rfl (.inr ⟨by rw [hhere]; rfl, rfl⟩)⟩
  | call =>
    exact ⟨_, .of_call (p := .lock k .test) (g := m.gone) (.inr hk.symm) rfl rfl (fun _ ↦ .inl) h⟩
  | set =>
    cases h
    exact ⟨_, .of_other rfl (.inr hk.symm) rfl rfl rfl rfl⟩
  | tid =>
    simp only [Machine.stepLock, Option.bind_eq_bind, Option.bind_eq_some_iff, Option.pure_def,
      Option.some.injEq] at h
    obtain ⟨c, -, rfl⟩ := h
    exact ⟨_, .of_other rfl (.inr hk.symm) rfl rfl rfl rfl⟩
  | ready =>
    cases h
    exact ⟨_, .of_other rfl (.inr hk.symm) rfl rfl rfl rfl⟩
  | ret =>
    cases h
    exact ⟨_, .of_other rfl (.inl rfl) rfl rfl rfl rfl⟩

theorem stepUnlock_pc {k : ℕ} {u : UnlockPc} (hhere : m.here = .unlock k u)
    (h : m.stepUnlock k u = some m') : ∃ p, NextPc m m' p := by
  have hk : m.here.mutex? = some k := by rw [hhere]; rfl
  cases u with
  | test =>
    simp only [Machine.stepUnlock] at h
    split at h <;> cases h
    · exact ⟨_, .of_other rfl (.inl rfl) rfl rfl rfl rfl⟩
    · exact ⟨_, .of_other rfl (.inr hk.symm) rfl rfl rfl rfl⟩
  | owner =>
    simp only [Machine.stepUnlock, Option.bind_eq_bind, Option.bind_eq_some_iff] at h
    obtain ⟨c, -, h⟩ := h
    split at h <;> cases h
    · exact ⟨_, .of_other rfl (.inl rfl) rfl rfl rfl rfl⟩
    · exact ⟨_, .of_other rfl (.inr hk.symm) rfl rfl rfl rfl⟩
  | loop temp =>
    cases temp with
    | none =>
      cases h
      exact ⟨_, .of_other rfl (.inl rfl) rfl rfl rfl rfl⟩
    | some n =>
      cases h
      exact ⟨_, .of_other rfl (.inr hk.symm) rfl rfl rfl rfl⟩
  | found n =>
    simp only [Machine.stepUnlock] at h
    split at h <;> cases h
    · exact ⟨_, .of_other rfl (.inr hk.symm) rfl rfl rfl rfl⟩
    · exact ⟨_, .of_other rfl (.inr hk.symm) rfl rfl rfl rfl⟩
  | move =>
    simp only [Machine.stepUnlock, Option.bind_eq_bind, Option.bind_eq_some_iff, Option.pure_def,
      Option.some.injEq] at h
    obtain ⟨s, -, rfl⟩ := h
    exact ⟨_, .of_other rfl (.inr hk.symm) rfl rfl rfl rfl⟩
  | ret =>
    cases h
    exact ⟨_, .of_other rfl (.inl rfl) rfl rfl rfl rfl⟩
  | clear | tid | front | next | mid | priority | ready =>
    cases h
    exact ⟨_, .of_other rfl (.inr hk.symm) rfl rfl rfl rfl⟩

theorem next_pc (h : m.next = some m') : ∃ p, NextPc m m' p := by
  unfold Machine.next at h
  split at h
  · cases h
  · exact stepCreate_pc ‹_› h
  · exact stepYield_pc h
  · exact stepExit_pc ‹_› h
  · exact stepJoin_pc h
  · exact stepLock_pc ‹_› h
  · exact stepUnlock_pc ‹_› h

end NextPc

/-- No tick falls between the store of a request and the call of `scheduler`. -/
def KeepsRequest (m : Machine) (a : Action) : Prop := a = .tick → m.here.stored = none

/-- A thread whose exit has returned creates no thread. -/
def NoLateCreate (m : Machine) (a : Action) : Prop := a = .call .create → m.running ∉ m.gone

section Requests

variable {m m' : Machine} {a : Action} {n t : ℕ}

/-- The executing thread finds its request in `fc`, and no other has stored one. -/
structure Requests (m : Machine) : Prop where
  fc : ∀ r, m.here.stored = some r → m.sched.fc = r
  others : ∀ n, n ≠ m.running → (m.pc n).stored = none

theorem Requests.next (hi : Requests m) (h : m.next = some m') : Requests m' := by
  obtain ⟨p, hp⟩ := next_pc h
  have hothers : ∀ n, n ≠ m.running → (m'.pc n).stored = none := fun n hn ↦ by
    rw [hp.pc, update_of_ne hn]
    exact hi.others n hn
  have hself : m'.pc m.running = p := by rw [hp.pc, update_self]
  cases hs : p.stored with
  | none =>
    have hall : ∀ n, (m'.pc n).stored = none := fun n ↦ by
      by_cases hn : n = m.running
      · rw [hn, hself, hs]
      · exact hothers n hn
    exact ⟨fun r hr ↦ (nomatch (hall _).symm.trans hr), fun n _ ↦ hall n⟩
  | some r =>
    obtain ⟨hr, hreq⟩ := hp.request r hs
    refine ⟨fun r' hr' ↦ ?_, fun n hn ↦ hothers n (hr ▸ hn)⟩
    rw [Machine.here, hr, hself, hs] at hr'
    obtain rfl := Option.some.inj hr'
    rcases hreq with h | ⟨h, hfc⟩
    · exact h
    · rw [hfc]
      exact hi.fc r h

theorem Requests.step (hi : Requests m) (hk : KeepsRequest m a) (h : m.step a = some m') :
    Requests m' := by
  cases a with
  | call c =>
    simp only [Machine.step] at h
    split at h
    · cases h
      have hc : c.entry.stored = none := by cases c <;> rfl
      refine ⟨fun r hr ↦ ?_, fun n hn ↦ ?_⟩
      · have : (update m.pc m.running c.entry m.running).stored = some r := hr
        rw [update_self, hc] at this
        cases this
      · have hne : n ≠ m.running := hn
        show (update m.pc m.running c.entry n).stored = none
        rw [update_of_ne hne]
        exact hi.others n hne
    · cases h
  | init =>
    simp only [Machine.step] at h
    split at h
    · cases h
      exact ⟨hi.fc, hi.others⟩
    · cases h
  | next => exact hi.next h
  | tick =>
    simp only [Machine.step] at h
    split at h
    · simp only [Machine.timerTriggered, Machine.callScheduler, Option.bind_eq_bind,
        Option.bind_eq_some_iff, Option.pure_def, Option.some.injEq] at h
      obtain ⟨s, -, rfl⟩ := h
      have hall : ∀ n, (m.pc n).stored = none := fun n ↦ by
        by_cases hn : n = m.running
        · rw [hn]
          exact hk rfl
        · exact hi.others n hn
      exact ⟨fun r hr ↦ (by cases (hall _).symm.trans hr), fun n _ ↦ hall n⟩
    · cases h

/-- No thread that has exited is in `my_pthread_create`. -/
def NoGoneCreator (m : Machine) : Prop := ∀ n ∈ m.gone, (m.pc n).isCreate = false

theorem noGoneCreator_step (hi : NoGoneCreator m) (hl : NoLateCreate m a)
    (h : m.step a = some m') : NoGoneCreator m' := by
  cases a with
  | call c =>
    simp only [Machine.step] at h
    split at h
    · cases h
      intro n hn
      show (update m.pc m.running c.entry n).isCreate = false
      by_cases hr : n = m.running
      · subst hr
        rw [update_self]
        cases c with
        | create => exact absurd hn (hl rfl)
        | _ => rfl
      · rw [update_of_ne hr]
        exact hi n hn
    · cases h
  | init =>
    simp only [Machine.step] at h
    split at h
    · cases h
      exact hi
    · cases h
  | next =>
    obtain ⟨p, hp⟩ := next_pc h
    intro n hn
    rw [hp.pc]
    by_cases hr : n = m.running
    · subst hr
      rw [update_self]
      rcases hp.gone _ hn with hg | ⟨-, hg⟩
      · refine Bool.eq_false_iff.mpr fun hc ↦ ?_
        cases (hi _ hg).symm.trans (hp.create hc)
      · exact hg
    · rw [update_of_ne hr]
      rcases hp.gone n hn with hg | ⟨hg, -⟩
      · exact hi n hg
      · exact absurd hg hr
  | tick =>
    simp only [Machine.step] at h
    split at h
    · simp only [Machine.timerTriggered, Machine.callScheduler, Option.bind_eq_bind,
        Option.bind_eq_some_iff, Option.pure_def, Option.some.injEq] at h
      obtain ⟨s, -, rfl⟩ := h
      exact hi
    · cases h

/-- A thread that has exited executes only when no other thread can run. -/
theorem Inv.runnable_of_gone {q : Mlfq} (hi : Inv m q) (hg : m.running ∈ m.gone)
    (hc : m.here.isCreate = false) : ∀ i, q (.rqs i) = [] := by
  have hnot := (hi.gone _ hg).2
  cases hi.mode with
  | boot hm =>
    rw [hm.gone] at hg
    cases hg
  | launch hm => exact absurd ⟨_, hm.mem⟩ hnot
  | active r hm => exact absurd ⟨_, List.mem_of_head? hm.head⟩ hnot
  | stuck k hm => exact absurd ⟨_, hm.waiting⟩ hnot
  | finished hm =>
    refine hm.runnable.resolve_right ?_
    rw [hc]
    exact nofun

/-- A thread that goes on after it has joined finds its target's exit. -/
theorem Inv.exit_of_join {q : Mlfq} (hi : Inv m q) (hh : m.here = .join t .ret) :
    (t, (m.sched.tcb m.running).valuePtr) ∈ m.exits := by
  have hok := hi.threads m.running
  rw [show m.pc m.running = _ from hh] at hok
  exact hok.2 hi.running_notMem_joinQueue

instance (m : Machine) : ∀ a, Decidable (Careful m a)
  | .tick => inferInstanceAs (Decidable (_ = _))
  | .call _ | .init => inferInstanceAs (Decidable True)
  | .next => by
    unfold Careful
    simp only
    split <;> infer_instance

instance (m : Machine) (a : Action) : Decidable (KeepsRequest m a) :=
  inferInstanceAs (Decidable (_ → _))

instance (m : Machine) (a : Action) : Decidable (NoLateCreate m a) :=
  inferInstanceAs (Decidable (_ → _))

/-- Without a tick between the store of a request and the call of `scheduler`, the
request is the one served.  Where the steps are also careful, a thread that has
exited does not execute while another can run, and a thread that joined is not
resumed before its target has exited. -/
theorem request_served (m : Machine) :
    (Reachable KeepsRequest m → ∀ r, m.here.stored = some r → m.sched.fc = r) ∧
      (Reachable (fun m a ↦ Careful m a ∧ NoLateCreate m a) m →
        (m.running ∈ m.gone → ∀ i, i < numPriorities → (m.sched.queues (.rqs i)).front = none) ∧
        ∀ t, m.here = .join t .ret → ∃ v, (t, v) ∈ m.exits) := by
  constructor
  · intro h r hr
    have hi : Requests m := h.invariant (P := Requests) ⟨nofun, fun _ _ ↦ rfl⟩
      fun _ _ _ hi hk hs ↦ hi.step hk hs
    exact hi.fc r hr
  · intro h
    obtain ⟨q, hi⟩ := exists_inv (h.mono fun _ _ hc ↦ hc.1)
    have hcreate : NoGoneCreator m := h.invariant (P := NoGoneCreator) nofun
      fun _ _ _ hi hc hs ↦ noGoneCreator_step hi hc.2 hs
    refine ⟨fun hg i _ ↦ ?_, fun t hh ↦ ⟨_, hi.exit_of_join hh⟩⟩
    rw [hi.linked.front, hi.runnable_of_gone hg (hcreate _ hg)]
    rfl

/-- An exit about to be served, a thread woken from its join, and the exit of the
last thread. -/
theorem request_served_run :
    (∃ m : Machine, m.here = .exit .call ∧ m.sched.fc = .pexit) ∧
    (∃ m : Machine, m.here = .join 1 .ret ∧ ∃ v, (1, v) ∈ m.exits) ∧
    ∃ m : Machine, m.here = .user ∧ m.gone = [0, 1] ∧ ∀ i, i < numPriorities →
      (m.sched.queues (.rqs i)).front = none := by
  refine ⟨?_, ?_, ?_⟩
  · obtain ⟨m, hm, hx⟩ := Reachable.exists_of_run KeepsRequest
      [.call .create, .next, .next, .next, .call (.exit 7), .next, .next, .next, .next]
      Machine.here (show _ = some (Pc.exit .call) by decide)
    exact ⟨m, hx, (request_served m).1 hm .pexit (by rw [hx]; rfl)⟩
  · obtain ⟨m, hm, hx⟩ := Reachable.exists_of_run (fun m a ↦ Careful m a ∧ NoLateCreate m a)
      [.call .create, .next, .next, .next, .tick, .call (.join 1), .next, .next, .next, .next,
        .next, .next, .call (.exit 7), .next, .next, .next, .next, .next, .next]
      Machine.here (show _ = some (Pc.join 1 .ret) by decide)
    exact ⟨m, hx, ((request_served m).2 hm).2 1 hx⟩
  · obtain ⟨m, hm, hx⟩ := Reachable.exists_of_run (fun m a ↦ Careful m a ∧ NoLateCreate m a)
      [.call .create, .next, .next, .next, .call (.exit 7), .next, .next, .next, .next, .next,
        .call (.exit 8), .next, .next, .next, .next, .next, .next]
      (fun m ↦ (m.here, m.running, m.gone)) (show _ = some (Pc.user, 0, [0, 1]) by decide)
    simp only [Prod.mk.injEq] at hx
    obtain ⟨h₁, h₂, h₃⟩ := hx
    exact ⟨m, h₁, h₃, ((request_served m).2 hm).1 (by rw [h₂, h₃]; exact List.mem_cons_self)⟩

/-- Two ticks after `fc = PEXIT` turn the exit into nothing: `scheduler` is called
with no request, and the thread goes on while the first thread is in a run queue. -/
theorem not_request_served :
    (∃ m, Reachable (fun _ _ ↦ True) m ∧ m.here = .exit .call ∧ m.sched.fc = .none) ∧
      ∃ m, Reachable (fun _ _ ↦ True) m ∧ m.here = .user ∧ m.running ∈ m.gone ∧
        (m.sched.queues (.rqs 1)).front = some 1 ∧ m.sched.next 1 = some 0 := by
  constructor
  · obtain ⟨m, hm, hx⟩ := Reachable.exists_of_run (fun _ _ ↦ True)
      [.call .create, .next, .next, .next, .call (.exit 7), .next, .next, .tick, .tick, .next,
        .next]
      (fun m ↦ (m.here, m.sched.fc)) (show _ = some (Pc.exit .call, FlagCalled.none) by decide)
    exact ⟨m, hm, (Prod.mk.inj hx).1, (Prod.mk.inj hx).2⟩
  · obtain ⟨m, hm, hx⟩ := Reachable.exists_of_run (fun _ _ ↦ True)
      [.call .create, .next, .next, .next, .call (.exit 7), .next, .next, .tick, .tick, .next,
        .next, .next, .next]
      (fun m ↦ (m.here, m.running, m.gone, (m.sched.queues (.rqs 1)).front, m.sched.next 1))
      (show _ = some (Pc.user, 1, [1], some 1, some 0) by decide)
    simp only [Prod.mk.injEq] at hx
    obtain ⟨h₁, h₂, h₃, h₄, h₅⟩ := hx
    exact ⟨m, hm, h₁, by rw [h₂, h₃]; exact List.mem_singleton_self _, h₄, h₅⟩

end Requests

end MyPthread.Api
