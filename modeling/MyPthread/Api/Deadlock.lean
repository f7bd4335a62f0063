import MyPthread.Api.Frame
import MyPthread.Api.Waiters

/-!
# Deadlocks

A set of threads is deadlocked when each of them has exited, joins a member, or waits for
a mutex that a member owns: a cycle of threads, a thread that joins itself or locks a mutex
twice, one that its exiting partner has not woken, one whose mutex went with its owner.  No
member runs again, whatever the others do (`deadlock_forever`): the only statements that
would wake one are in an exit of the thread it joins and in an unlock by the owner of its
mutex.
-/

namespace MyPthread.Api

open MyPthread.Lib MyPthread.Sched Function

variable {m m' : Machine} {q : Mlfq} {D : Set ℕ} {a : Action} {n k : ℕ} {p : Pc}

/-- The thread `n` joins a member of `D`, or waits for a mutex that a member owns. -/
def Blocked (m : Machine) (D : Set ℕ) (n : ℕ) : Prop :=
  (∃ l, Path m.sched.next (m.sched.queues .joinQueue).front l ∧ n ∈ l ∧
    ∃ t ∈ D, (m.sched.tcb n).joinId = t) ∨
  ∃ l, Path m.sched.next (m.sched.queues .waitingQueue).front l ∧ n ∈ l ∧
    ∃ k < m.mutexCount, (m.sched.tcb n).mid = (m.mutexes k).mid ∧ (m.mutexes k).locked ≠ 0 ∧
      ∃ t ∈ D, (m.mutexes k).tid = t

/-- None of the threads in `D` executes, and each has exited or is blocked by one of them. -/
def Deadlocked (m : Machine) (D : Set ℕ) : Prop :=
  ∀ n ∈ D, n ≠ m.running ∧ (n ∈ m.gone ∨ Blocked m D n)

/-- `Blocked`, over the lists. -/
def BlockedIn (m : Machine) (q : Mlfq) (D : Set ℕ) (n : ℕ) : Prop :=
  n ∈ q .joinQueue ∧ (∃ t ∈ D, (m.sched.tcb n).joinId = t) ∨
  n ∈ q .waitingQueue ∧ ∃ k < m.mutexCount, (m.sched.tcb n).mid = k ∧
    (m.mutexes k).locked ≠ 0 ∧ ∃ t ∈ D, (m.mutexes k).tid = t

/-- No member waits for the mutex `k`. -/
def Free (m : Machine) (q : Mlfq) (D : Set ℕ) (k : ℕ) : Prop :=
  ∀ n ∈ D, n ∈ q .waitingQueue → (m.sched.tcb n).mid ≠ k

/-- The statement is not about to wake a member, or to store to a mutex that one waits
for. -/
def Clear (m : Machine) (q : Mlfq) (D : Set ℕ) : Pc → Prop
  | .lock k .set | .lock k .tid | .lock k .ready => Free m q D k
  | .unlock k .clear | .unlock k .tid | .unlock k .front | .unlock k (.loop _)
  | .unlock k (.found _) | .unlock k (.next _) => Free m q D k
  | .unlock k (.mid n) | .unlock k (.priority n) => Free m q D k ∧ n ∉ D
  | .unlock k .ready | .unlock k .move =>
    Free m q D k ∧ ∀ n, (q .waitingQueue).head? = some n → n ∉ D
  | _ => True

/-- The invariant of a deadlock. -/
structure Dead (m : Machine) (q : Mlfq) (D : Set ℕ) : Prop where
  waits : WaitInv m q
  running : m.running ∉ D
  blocked : ∀ n ∈ D, n ∈ m.gone ∨ BlockedIn m q D n
  clear : Clear m q D m.here

/-- The steps of the runs in question: the ones for which waiters are not stranded. -/
def Sane (m : Machine) (a : Action) : Prop := Whole m a ∧ LeavesOther m a ∧ FindsFront m a

instance (m : Machine) (a : Action) : Decidable (Sane m a) :=
  inferInstanceAs (Decidable (_ ∧ _))

theorem clear_of_quiescent (h : p.quiescent = true) : Clear m q D p := by
  unfold Pc.quiescent at h
  split at h <;> trivial

theorem BlockedIn.mem (h : BlockedIn m q D n) : q.Mem n := by
  rcases h with ⟨h, -⟩ | ⟨h, -⟩
  · exact ⟨_, h⟩
  · exact ⟨_, h⟩

theorem BlockedIn.notMem_rqs (h : BlockedIn m q D n) (hq : q.WF) (i : ℕ) : n ∉ q (.rqs i) := by
  intro hi
  rcases h with ⟨h, -⟩ | ⟨h, -⟩
  · cases hq.disjoint h hi
  · cases hq.disjoint h hi

/-- A statement that stores to a mutex stores to one that no member waits for. -/
theorem Clear.free_of_writes (h : Clear m q D p) (hw : p.writes = some k) : Free m q D k := by
  unfold Pc.writes at hw
  split at hw
  · cases hw
    exact h
  · cases hw
    exact h
  · cases hw
    exact h
  · cases hw
    exact h
  · cases hw
    exact h
  · cases hw
    exact h.1
  · cases hw

namespace Dead

theorem ne_running (h : Dead m q D) (hn : n ∈ D) : n ≠ m.running := fun hx ↦
  h.running (hx ▸ hn)

theorem lt_nodeCount (h : Dead m q D) (hn : n ∈ D) : n < m.nodeCount := by
  rcases h.blocked n hn with hg | hb
  · exact (h.waits.inv.gone n hg).1
  · exact h.waits.inv.alloc n hb.mem

/-- A member in a queue is blocked. -/
theorem blocked_of_mem (h : Dead m q D) (hn : n ∈ D) (hmem : q.Mem n) : BlockedIn m q D n :=
  (h.blocked n hn).resolve_left fun hg ↦ (h.waits.inv.gone n hg).2 hmem

/-- What a member waits for stays what it was. -/
theorem sameWait (h : Dead m q D) (hf : Frame m m') (hn : n ∈ D) :
    SameWait m.sched m'.sched n := by
  rcases hf.tcb n (h.ne_running hn) (h.lt_nodeCount hn) with hw | ⟨k, hk, -⟩
  · exact hw
  · have hc := h.clear
    rw [hk] at hc
    exact absurd hn hc.2

/-- No member is taken out of its queue. -/
theorem mem_of_moved (h : Dead m q D) {q' : Mlfq} (hm : Moved m q a q') (ha : a ≠ .tick)
    (hcall : m.here.isCall = false) (hn : n ∈ D) {Q : QueueId}
    (hQ : Q = .joinQueue ∧ (∃ t ∈ D, (m.sched.tcb n).joinId = t) ∨ Q = .waitingQueue)
    (hmem : n ∈ q Q) : n ∈ q' Q := by
  have hwf := h.waits.inv.wf
  have hmove : ∀ {src dst : QueueId} {j : ℕ} {l : List ℕ}, q src = j :: l →
      (n = j → Q = dst) → n ∈ q.move src dst j Q := by
    intro src dst j l hl hj
    have hmem' : j ∈ q src := by
      rw [hl]
      exact List.mem_cons_self
    refine (Mlfq.mem_move hwf hmem').mpr ?_
    by_cases hnj : n = j
    · exact .inr ⟨hj hnj, hnj⟩
    · exact .inl ⟨hmem, hnj⟩
  have hsrc : ∀ {src : QueueId} {j : ℕ} {l : List ℕ}, q src = j :: l → n = j → Q = src := by
    intro src j l hl hj
    refine hwf.disjoint hmem ?_
    rw [hl, hj]
    exact List.mem_cons_self
  cases hm with
  | still => exact hmem
  | tick ht => exact absurd ht ha
  | call _ hh => cases hcall.symm.trans hh
  | first => exact Mlfq.mem_put.mpr (.inl (Mlfq.mem_put.mpr (.inl hmem)))
  | created j => exact Mlfq.mem_put.mpr (.inl hmem)
  | kept e i j l _ _ hl => exact hmove hl (hsrc hl)
  | joined e i j l _ hh hl hid =>
    refine hmove hl fun hj ↦ ?_
    -- the thread that exits is the one that the waker is waited for, so it is no member
    have hQj := hsrc hl hj
    rcases hQ with ⟨-, t, ht, hjoin⟩ | hQw
    · have hok := h.waits.inv.threads m.running
      rw [show m.pc m.running = _ from hh] at hok
      rw [hj, hid, hok.2] at hjoin
      have : t = m.running := Int.ofNat.inj hjoin.symm
      exact absurd (this ▸ ht) h.running
    · rw [hQj] at hQw
      cases hQw
  | woken j t l _ hh hl =>
    refine hmove hl fun hj ↦ ?_
    have hc := h.clear
    rw [hh] at hc
    refine absurd (hj ▸ hn) (hc.2 t ?_)
    rw [hl]
    rfl

/-- A member stays in the queue it waits in. -/
theorem mem_step (h : Dead m q D) (hs : m.step a = some m') (hn : n ∈ D) {Q : QueueId}
    (hQ : Q = .joinQueue ∧ (∃ t ∈ D, (m.sched.tcb n).joinId = t) ∨ Q = .waitingQueue)
    (hmem : n ∈ q Q) : n ∈ m.advance q a Q := by
  cases h.waits.inv.turn hs with
  | stays ha hst hq =>
    rcases hq with hq | hq
    · exact h.mem_of_moved (moved m q a) ha hq hn hQ hmem
    · rwa [hq]
  | serves f r hserves hq hreq =>
    rw [hq]
    refine Mlfq.mem_rotate.mpr ?_
    rcases hQ with ⟨rfl, -⟩ | rfl
    · exact (mem_joinQueue_requested h.waits.inv.wf hserves.mem).mpr (.inl hmem)
    · rw [waitingQueue_requested]
      split
      · exact List.mem_append_left _ hmem
      · exact hmem

/-- A member that is blocked stays so. -/
theorem blockedIn (h : Dead m q D) (hs : m.step a = some m') (hn : n ∈ D)
    (hb : BlockedIn m q D n) : BlockedIn m' (m.advance q a) D n := by
  have hframe := step_frame h.waits.inv.flow hs
  obtain ⟨hjoin, hmid⟩ := h.sameWait hframe hn
  rcases hb with ⟨hj, t, ht, hid⟩ | ⟨hw, k, hk, hid, hlocked, t, ht, htid⟩
  · exact .inl ⟨h.mem_step hs hn (.inl ⟨rfl, t, ht, hid⟩) hj, t, ht, hjoin.trans hid⟩
  · have hsame : m'.mutexes k = m.mutexes k := by
      refine hframe.mutexes k hk fun hwr ↦ ?_
      exact h.clear.free_of_writes hwr n hn hw hid
    refine .inr ⟨h.mem_step hs hn (.inr rfl) hw, k, hk.trans_le hframe.mutexCount,
      hmid.trans hid, ?_⟩
    rw [hsame]
    exact ⟨hlocked, t, ht, htid⟩

/-- No member gets the processor. -/
theorem running_notMem (h : Dead m q D) (hi' : Inv m' (m.advance q a))
    (hs : m.step a = some m') : m'.running ∉ D := by
  intro hmem
  have hout : ∀ i, m'.running ∉ m.advance q a (.rqs i) := by
    intro i hi
    rcases h.blocked _ hmem with hg | hb
    · have hframe := step_frame h.waits.inv.flow hs
      exact (hi'.gone _ (hframe.mem_gone hg)).2 ⟨_, hi⟩
    · exact (h.blockedIn hs hmem hb).notMem_rqs hi'.wf i hi
  cases h.waits.inv.turn hs with
  | stays _ hst => exact h.running (hst.running ▸ hmem)
  | serves f r hserves hq hreq =>
    cases hd : (q.requested f m.sched.maintenanceCount m.running r).choose m.running with
    | some d =>
      obtain ⟨hcur, -, -, t, ht⟩ := hserves.scheduled.chosen d hd
      have hrun : m'.running = d := by rw [hserves.running, hcur, Option.getD_some]
      refine hout t ?_
      rw [hq, hrun]
      exact List.mem_of_head? ht
    | none =>
      have hcur := (hserves.scheduled.idle hd).1
      refine h.running ?_
      rw [hserves.running, hcur] at hmem
      split at hmem
      · exact hmem
      · exact hmem

/-- A member that waits waited before, for the same mutex. -/
theorem free_step (h : Dead m q D) (hi' : Inv m' (m.advance q a)) (hs : m.step a = some m')
    (hfree : Free m q D k) : Free m' (m.advance q a) D k := by
  intro n hn hw'
  rw [(h.sameWait (step_frame h.waits.inv.flow hs) hn).2]
  refine hfree n hn ?_
  rcases h.blocked n hn with hg | ⟨hj, t, ht, hid⟩ | ⟨hw, -⟩
  · have hg' := (step_frame h.waits.inv.flow hs).mem_gone hg
    exact absurd ⟨_, hw'⟩ (hi'.gone n hg').2
  · cases hi'.wf.disjoint (h.mem_step hs hn (.inl ⟨rfl, t, ht, hid⟩) hj) hw'
  · exact hw

/-- No member waits for a mutex that is unlocked, or owned by another thread. -/
theorem free_of_mutex (h : Dead m q D)
    (hk : (m.mutexes k).locked = 0 ∨ (m.mutexes k).tid = m.running) : Free m q D k := by
  intro n hn hw hmid
  rcases h.blocked_of_mem hn ⟨_, hw⟩ with ⟨hj, -⟩ | ⟨-, j, -, hj, hlocked, t, ht, htid⟩
  · cases h.waits.inv.wf.disjoint hj hw
  · obtain rfl : k = j := Int.ofNat.inj (hmid.symm.trans hj)
    rcases hk with hk | hk
    · exact hlocked hk
    · rw [hk] at htid
      exact h.running (Int.ofNat.inj htid ▸ ht)

/-- The thread that executes goes on to a statement that wakes no member. -/
theorem clear_edge (h : Dead m q D) (hi' : Inv m' (m.advance q a)) (ha : a = .next)
    (hs : m.step a = some m') {p' : Pc} (he : Edge m m.here p') :
    Clear m' (m.advance q a) D p' := by
  have hc := h.clear
  have hpend := h.waits.inv.pending
  have hwait := h.waits.waiters
  have hstill : ∀ {k u}, m.here = .unlock k u → u ≠ .move → m.advance q a = q := by
    intro k u hh hu
    rw [ha, Machine.advance, hh]
    cases u <;> first | rfl | exact absurd rfl hu
  generalize hp : m.here = p at he hc hpend hwait
  cases he with
  | lockTest k hk => exact h.free_step hi' hs (h.free_of_mutex (.inl hk))
  | lockSet k | lockTid k => exact h.free_step hi' hs hc
  | unlockOwner k c hcur htid =>
    refine h.free_step hi' hs (h.free_of_mutex (.inr ?_))
    obtain rfl := h.waits.inv.flow.current c hcur
    rw [htid, h.waits.inv.flow.tid _ h.waits.inv.flow.running]
  | unlockClear k | unlockTid k | unlockFront k | unlockLoop k n | unlockOther k n
  | unlockNext k n =>
    exact h.free_step hi' hs hc
  | unlockFound k n hmid =>
    refine ⟨h.free_step hi' hs hc, fun hn ↦ ?_⟩
    -- the search is in the waiting queue, where no member waits for this mutex
    obtain ⟨pre, suf, hsplit, -, -⟩ := hwait
    refine hc n hn ?_ ?_
    · rw [hsplit]
      exact List.mem_append_right _ List.mem_cons_self
    · rw [← hmid]
      exact h.waits.mids k (h.waits.inv.flow.mutex m.running k (by
        rw [show m.pc m.running = _ from hp]
        rfl))
  | unlockMid k n => exact ⟨h.free_step hi' hs hc.1, hc.2⟩
  | unlockPriority k n =>
    refine ⟨h.free_step hi' hs hc.1, fun j hj ↦ ?_⟩
    rw [hstill hp (by rintro ⟨⟩), show (q .waitingQueue).head? = some n from hpend] at hj
    cases hj
    exact hc.2
  | unlockReady k =>
    refine ⟨h.free_step hi' hs hc.1, ?_⟩
    rw [hstill hp (by rintro ⟨⟩)]
    exact hc.2
  | _ => trivial

theorem clear_step (h : Dead m q D) (hw : Whole m a) (hi' : WaitInv m' (m.advance q a))
    (hs : m.step a = some m') : Clear m' (m.advance q a) D m'.here := by
  by_cases hrun : m'.running = m.running
  · have hhere : m'.here = m'.pc m.running := congrArg m'.pc hrun
    rw [hhere]
    cases step_goes hs with
    | enters c hu hpc =>
      rw [hpc, update_self]
      cases c <;> trivial
    | next hf => exact h.clear_edge hi'.inv rfl hs hf.edge
    | init hpc =>
      have hu : m.here = .user := by
        by_contra hu
        rw [Machine.step, if_neg hu] at hs
        cases hs
      rw [hpc]
      refine clear_of_quiescent ?_
      rw [show m.pc m.running = _ from hu]
      rfl
    | tick hpc =>
      rw [hpc]
      exact clear_of_quiescent (hw rfl)
  · -- the thread that executes now was between two calls
    have hhere : m'.here = m.pc m'.running := (step_goes hs).pc_of_ne hrun
    rw [hhere]
    exact clear_of_quiescent (h.waits.others _ hrun)

/-- The step lemma of `Dead`. -/
theorem step (h : Dead m q D) (hok : Sane m a) (hs : m.step a = some m') :
    Dead m' (m.advance q a) D := by
  have hi' := h.waits.step hok.1 hok.2.1 hok.2.2 hs
  have hframe := step_frame h.waits.inv.flow hs
  exact ⟨hi', h.running_notMem hi'.inv hs,
    fun n hn ↦ (h.blocked n hn).imp hframe.mem_gone (h.blockedIn hs hn),
    h.clear_step hok.1 hi' hs⟩

theorem run {as : List Action} (h : Dead m q D) (hr : m.run Sane as = some m') :
    ∃ q', Dead m' q' D := by
  induction as generalizing m q with
  | nil =>
    cases hr
    exact ⟨q, h⟩
  | cons a as ih =>
    rw [Machine.run] at hr
    split at hr <;> rename_i hok
    · obtain ⟨m₁, h₁, hr⟩ := Option.bind_eq_some_iff.mp hr
      exact ih (h.step hok h₁) hr
    · cases hr

end Dead

theorem Blocked.blockedIn (hi : WaitInv m q) (h : Blocked m D n) : BlockedIn m q D n := by
  rcases h with ⟨l, hp, hn, ht⟩ | ⟨l, hp, hn, k, hk, hmid, hl, ht⟩
  · rw [hp.unique (hi.inv.linked .joinQueue).path] at hn
    exact .inl ⟨hn, ht⟩
  · rw [hp.unique (hi.inv.linked .waitingQueue).path] at hn
    exact .inr ⟨hn, k, hk, hmid.trans (hi.mids k hk), hl, ht⟩

theorem BlockedIn.blocked (hi : WaitInv m q) (h : BlockedIn m q D n) : Blocked m D n := by
  rcases h with ⟨hn, ht⟩ | ⟨hn, k, hk, hmid, hl, ht⟩
  · exact .inl ⟨_, (hi.inv.linked .joinQueue).path, hn, ht⟩
  · exact .inr ⟨_, (hi.inv.linked .waitingQueue).path, hn, k, hk,
      hmid.trans (hi.mids k hk).symm, hl, ht⟩

theorem Reachable.waitInv (h : Reachable Sane m) : ∃ q, WaitInv m q := by
  refine h.invariant (P := fun m ↦ ∃ q, WaitInv m q) ⟨_, inv_init, ?_, ?_, ?_⟩ ?_
  · intro _ _
    rfl
  · intro _ hk
    cases hk
  · intro _ hn
    cases hn
  · rintro m a m' ⟨q, hi⟩ ⟨hw, hl, hf⟩ hs
    exact ⟨_, hi.step hw hl hf hs⟩

/-- A deadlock lasts.  No run leaves it, whatever the threads outside do. -/
theorem deadlock_forever {as : List Action} (h : Reachable Sane m)
    (hq : m.here.quiescent = true) (hd : Deadlocked m D) (hr : m.run Sane as = some m') :
    Deadlocked m' D := by
  obtain ⟨q, hi⟩ := h.waitInv
  have hdead : Dead m q D :=
    ⟨hi, fun hmem ↦ (hd _ hmem).1 rfl, fun n hn ↦ (hd n hn).2.imp_right (Blocked.blockedIn hi),
      clear_of_quiescent hq⟩
  obtain ⟨q', hdead'⟩ := hdead.run hr
  exact fun n hn ↦ ⟨hdead'.ne_running hn,
    (hdead'.blocked n hn).imp_right (BlockedIn.blocked hdead'.waits)⟩

/-- Two threads lock two mutexes in opposite orders, and the first thread goes on. -/
theorem deadlock_forever_cycle : ∃ m m' : Machine, m.here.quiescent = true ∧
    Deadlocked m {1, 2} ∧
    m.run Sane [.tick, .call .create, .next, .next, .next, .next] = some m' ∧
    Deadlocked m' {1, 2} := by
  obtain ⟨m, hm, hx⟩ := Reachable.exists_of_run Sane
    [.init, .init, .call .create, .next, .next, .next, .call .create, .next, .next, .next, .next,
      .tick, .call (.lock 0), .next, .next, .next, .next, .next,
      .tick, .call (.lock 1), .next, .next, .next, .next, .next,
      .call (.lock 0), .next, .next, .next, .next, .tick,
      .call (.lock 1), .next, .next, .next, .next]
    (fun m ↦ decide (((m.here.quiescent = true ∧ m.running = 0 ∧ m.mutexCount = 2) ∧
      (m.sched.queues .waitingQueue).front = some 1 ∧ m.sched.next 1 = some 2 ∧
        m.sched.next 2 = none) ∧
      ((m.sched.tcb 1).mid = 0 ∧ (m.sched.tcb 2).mid = 1) ∧
      ((m.mutexes 0).mid = 0 ∧ (m.mutexes 0).locked = 1 ∧ (m.mutexes 0).tid = 2) ∧
      ((m.mutexes 1).mid = 1 ∧ (m.mutexes 1).locked = 1 ∧ (m.mutexes 1).tid = 1) ∧
      (m.run Sane [.tick, .call .create, .next, .next, .next, .next]).isSome = true))
    (show _ = some true by decide)
  obtain ⟨⟨⟨hq, hrun, hcount⟩, hfront, h₁, h₂⟩, ⟨w₁, w₂⟩, ⟨i₀, l₀, t₀⟩, ⟨i₁, l₁, t₁⟩, hsome⟩ :=
    of_decide_eq_true hx
  obtain ⟨m', hr⟩ := Option.isSome_iff_exists.mp hsome
  have hpath : Path m.sched.next (m.sched.queues .waitingQueue).front [1, 2] := by
    rw [hfront]
    exact ⟨rfl, h₁, h₂⟩
  have hd : Deadlocked m {1, 2} := by
    rintro n (rfl | rfl)
    · refine ⟨by rw [hrun]; exact one_ne_zero, .inr (.inr ⟨_, hpath, List.mem_cons_self, 0, ?_⟩)⟩
      rw [hcount, w₁, i₀, l₀, t₀]
      exact ⟨by decide, rfl, by decide, 2, .inr rfl, rfl⟩
    · refine ⟨by rw [hrun]; exact two_ne_zero, .inr (.inr ⟨_, hpath, by decide, 1, ?_⟩)⟩
      rw [hcount, w₂, i₁, l₁, t₁]
      exact ⟨by decide, rfl, by decide, 1, .inl rfl, rfl⟩
  exact ⟨m, m', hq, hd, hr, deadlock_forever hm hq hd hr⟩

end MyPthread.Api
