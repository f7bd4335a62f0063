import MyPthread.Lib.Cycles
import MyPthread.Api.Conservation
import MyPthread.Api.Deadlock
import MyPthread.Api.Destroy
import MyPthread.Api.Faults
import MyPthread.Api.Handoff

/-!
# Why no thread can run

The run queues come to be empty in a deadlock only.  In the runs whose calls are atomic, the
waits then lead from every thread that has not exited to a cycle, or to a thread that waits for
one that has exited (`idle_deadlock`).  Such a state does not last, in any careful run: the
thread that executes calls `scheduler` again and faults there, or the timer does first
(`idle_ends`).

No thread waits for a mutex that is free: an unlock sets the flag of the mutex and makes a
waiter runnable, and the flag stays set until that thread or another takes the mutex
(`Retried`).
-/

namespace MyPthread.Api

open MyPthread.Lib MyPthread.Sched Function Relation

variable {m m' : Machine} {q : Mlfq} {a : Action} {i j k n t : ℕ} {p p' : Pc}

/-- The thread `n` waits for the thread `t`. -/
def WaitsFor (m : Machine) (n t : ℕ) : Prop := Blocked m {t} n

/-- If the mutex is flagged, it is free and a runnable thread is about to test it. -/
def Retried (m : Machine) (q : Mlfq) (k : ℕ) : Prop :=
  (m.mutexes k).readyWaiting = 1 →
    (m.mutexes k).locked = 0 ∧ ∃ n i, n ∈ q (.rqs i) ∧ m.pc n = .lock k .test

/-- The thread that an unlock of the mutex wakes is in a lock of the mutex. -/
def FrontIn (m : Machine) (q : Mlfq) (k : ℕ) : Prop :=
  ∀ n, (q .waitingQueue).head? = some n → m.pc n = .lock k .test

/-- The mutexes are retried, but for the one that a call is storing to. -/
def AllRetried (m : Machine) (q : Mlfq) : Pc → Prop
  | .lock k .set | .lock k .tid | .lock k .ready => ∀ j < m.mutexCount, j ≠ k → Retried m q j
  | .unlock k .tid | .unlock k .front | .unlock k (.loop _) | .unlock k (.found _)
  | .unlock k (.next _) => (m.mutexes k).locked = 0 ∧ ∀ j < m.mutexCount, Retried m q j
  | .unlock k (.mid _) | .unlock k (.priority _) | .unlock k .ready =>
    (m.mutexes k).locked = 0 ∧ FrontIn m q k ∧ ∀ j < m.mutexCount, Retried m q j
  | .unlock k .move =>
    (m.mutexes k).locked = 0 ∧ FrontIn m q k ∧ ∀ j < m.mutexCount, j ≠ k → Retried m q j
  | _ => ∀ j < m.mutexCount, Retried m q j

/-- The thread that a call joins, once the call has found that it was created. -/
def Pc.joined : Pc → Option ℕ
  | .join _ .list | .join _ (.bound _) => none
  | .join t _ => some t
  | _ => none

/-- What is known of the threads that cannot run. -/
structure Asleep (m : Machine) (q : Mlfq) : Prop where
  waits : WaitInv m q
  complete : Complete m q
  blocked : ∀ n ∈ q .waitingQueue, n ≠ m.running → ∀ k : ℕ, (m.sched.tcb n).mid = k →
    m.pc n = .lock k .test
  retried : AllRetried m q m.here
  joined : ∀ n t, (m.pc n).joined = some t → t < m.nodeCount

theorem allRetried_of_mutex (h : p.mutex? = none ∨ p.quiescent = true) :
    AllRetried m q p ↔ ∀ j < m.mutexCount, Retried m q j := by
  unfold AllRetried
  split <;> first | rfl | (rcases h with h | h <;> cases h)

theorem stage_of_quiescent (h : p.quiescent = true) : p.stage = none := by
  unfold Pc.quiescent at h
  split at h <;> first | rfl | cases h

theorem mutex?_of_writes (h : p.writes = some k) : p.mutex? = some k := by
  unfold Pc.writes at h
  split at h <;> cases h <;> rfl

/-! ## Queues -/

/-- Only a call of `scheduler` takes a thread out of the run queues, the caller. -/
theorem Inv.runnable_step (hi : Inv m q) (hs : m.step a = some m') (hn : n ∈ q (.rqs i))
    (h : n ≠ m.running ∨ a = .tick) : ∃ i, n ∈ m.advance q a (.rqs i) := by
  cases hi.turn hs with
  | stays ha hst hq =>
    rcases hq with hc | hq
    · have hmove : ∀ {src dst : QueueId} {d : ℕ} {l : List ℕ}, q src = d :: l →
          (∀ i, src ≠ .rqs i) → n ∈ q.move src dst d (.rqs i) := by
        intro src dst d l hl hsrc
        have hd : d ∈ q src := by
          rw [hl]
          exact List.mem_cons_self
        refine (Mlfq.mem_move hi.wf hd).mpr (.inl ⟨hn, ?_⟩)
        rintro rfl
        exact hsrc i (hi.wf.disjoint hd hn)
      have hm := moved m q a
      generalize m.advance q a = q' at hm ⊢
      cases hm with
      | still => exact ⟨i, hn⟩
      | tick ht => exact absurd ht ha
      | call _ hh => cases hc.symm.trans hh
      | first => exact ⟨i, Mlfq.mem_put.mpr (.inl (Mlfq.mem_put.mpr (.inl hn)))⟩
      | created d => exact ⟨i, Mlfq.mem_put.mpr (.inl hn)⟩
      | joined e x d l _ _ hl => exact ⟨i, hmove hl (by rintro _ ⟨⟩)⟩
      | kept e x d l _ _ hl => exact ⟨i, hmove hl (by rintro _ ⟨⟩)⟩
      | woken x d l _ _ hl => exact ⟨i, hmove hl (by rintro _ ⟨⟩)⟩
    · rw [hq]
      exact ⟨i, hn⟩
  | serves f r hserves hq hreq =>
    have hnc : n ≠ m.running ∨ f ≠ .pexit ∧ f ≠ .join ∧ f ≠ .blocked := by
      refine h.imp_right fun ha ↦ ?_
      subst ha
      cases hreq
      exact ⟨by rintro ⟨⟩, by rintro ⟨⟩, by rintro ⟨⟩⟩
    have hrun := mem_runnable_requested f m.sched.maintenanceCount hi.wf hserves.mem
      ((Mlfq.mem_runnable hi.wf).mpr ⟨i, hn⟩) hnc
    obtain ⟨i', hi'⟩ := (Mlfq.mem_runnable (hi.wf.requested f _ hserves.mem)).mp hrun
    rw [hq]
    exact ⟨i', Mlfq.mem_rotate.mpr hi'⟩

/-- A thread comes into the waiting queue by its own lock only. -/
theorem Inv.mem_waitingQueue_step (hi : Inv m q) (hs : m.step a = some m')
    (hn : n ∈ m.advance q a .waitingQueue) :
    n ∈ q .waitingQueue ∨ n = m.running ∧ a = .next ∧ ∃ k, m.here = .lock k .call := by
  cases hi.waitStep hs with
  | same _ hq =>
    rw [hq] at hn
    exact .inl hn
  | blocks k ha hh hq =>
    rw [hq] at hn
    rcases List.mem_append.mp hn with hn | hn
    · exact .inl hn
    · exact .inr ⟨List.mem_singleton.mp hn, ha, k, hh⟩
  | wakes d l _ hl hq =>
    rw [hq] at hn
    rw [hl]
    exact .inl (List.mem_cons_of_mem d hn)

theorem Inv.nodeCount_le (hi : Inv m q) (hs : m.step a = some m') : m.nodeCount ≤ m'.nodeCount := by
  cases hi.turn hs with
  | stays ha hst hq =>
    rcases hst.nodeCount with hcount | hh
    · exact hcount.ge
    · cases a with
      | call c | init =>
        simp only [Machine.step, hh] at hs
        cases hs
      | tick => exact absurd rfl ha
      | next =>
        simp only [Machine.step, Machine.next, hh, Machine.stepCreate] at hs
        split at hs
        · simp only [Option.bind_eq_bind, Option.bind_eq_some_iff, Option.pure_def,
            Option.some.injEq] at hs
          obtain ⟨s₁, -, s₂, -, rfl⟩ := hs
          exact Nat.le_succ _
        · cases hs
          exact Nat.le_succ _
  | serves f r hserves hq hreq => exact hserves.nodeCount.ge

/-- No statement makes a mutex. -/
theorem WaitInv.mutexCount_next (hi : WaitInv m q) (h : m.next = some m') :
    m'.mutexCount = m.mutexCount := by
  cases hk : m.here.mutex? with
  | none => exact (hi.mid_of_mutex hk h).2.2
  | some k => exact (next_mids h hk).2

/-! ## Threads that wait -/

namespace Asleep

/-- A thread that goes on waiting is where it was. -/
theorem blocked_step (h : Asleep m q) (hok : Sane m a) (hs : m.step a = some m')
    (hn : n ∈ m.advance q a .waitingQueue) (hrun : n ≠ m'.running)
    (hmid : (m'.sched.tcb n).mid = (k : ℤ)) : m'.pc n = .lock k .test := by
  have hi := h.waits.inv
  rcases hi.mem_waitingQueue_step hs hn with hw | ⟨rfl, rfl, k', hh⟩
  · by_cases hnr : n = m.running
    · -- the thread that executes waits only when no thread can run
      subst hnr
      cases hi.turn hs with
      | stays _ hst => exact absurd hst.running.symm hrun
      | serves f r hserves => cases hi.wf.disjoint hw hserves.mem
    · rw [(step_goes hs).pc_of_ne hnr]
      rcases (step_frame hi.flow hs).tcb n hnr (hi.alloc n ⟨_, hw⟩) with ⟨-, hsame⟩ | ⟨k', hh, -⟩
      · exact h.blocked n hw hnr k (hsame.symm.trans hmid)
      · cases a with
        | call c | init =>
          simp only [Machine.step, hh] at hs
          cases hs
        | tick =>
          have hq := hok.1 rfl
          rw [hh] at hq
          cases hq
        | next =>
          simp only [Machine.step, Machine.next, hh, Machine.stepUnlock] at hs
          cases hs
          have htcb : (m.sched.modifyTcb n fun t ↦ { t with mid := -1 }).tcb n =
              { m.sched.tcb n with mid := -1 } := State.tcb_modifyTcb_self
          have hmid' := (congrArg Tcb.mid htcb).symm.trans hmid
          cases hmid'
  · have hwait := h.waits.waiters
    rw [hh] at hwait
    simp only [Machine.step, Machine.next, hh, Machine.stepLock] at hs
    have hf : Flow (m.goto (.lock k' .test)) :=
      hi.flow.goto (by rw [hh]; rfl) (.inr (by rw [hh]; rfl)) rfl
    obtain ⟨hmids, -, -, hpc⟩ := callScheduler_mid hf hs
    rw [hmids] at hmid
    obtain rfl : k' = k := Int.ofNat.inj (hwait.2.symm.trans hmid)
    rw [hpc]
    exact update_self ..

theorem joined_step (h : Asleep m q) (hs : m.step a = some m')
    (hn : (m'.pc n).joined = some t) : t < m'.nodeCount := by
  have hi := h.waits.inv
  refine lt_of_lt_of_le ?_ (hi.nodeCount_le hs)
  by_cases hnr : n = m.running
  · subst hnr
    have hthis : m.here.joined = some t → t < m.nodeCount := h.joined m.running t
    cases step_goes hs with
    | enters c hu hpc =>
      rw [hpc, update_self] at hn
      cases c <;> cases hn
    | init hpc | tick hpc =>
      rw [hpc] at hn
      exact hthis hn
    | next hf =>
      have he := hf.edge
      generalize hp : m'.pc m.running = p' at he hn
      generalize hh : m.here = p at he hthis
      cases he with
      | joinBound u temp =>
        cases hn
        -- the bound was checked
        have hcount := hi.flow.count
        have hrun := hi.flow.running
        simp only [Machine.step, Machine.next, hh, Machine.stepJoin] at hs
        rw [hh, show (Pc.join t (.bound temp)).inCreate = false from rfl,
          if_neg Bool.false_ne_true] at hcount
        split at hs
        · cases hs
          rw [Machine.pc_goto, update_self] at hp
          cases hp
        · omega
      | joinSearch u e temp | joinEnd u | joinStore u | joinFlag u | joinCall u =>
        cases hn
        exact hthis rfl
      | _ => cases hn
  · rw [(step_goes hs).pc_of_ne hnr] at hn
    exact h.joined n t hn

/-! ## Flags -/

/-- A flag stays right over a step that does not store to it. -/
theorem retried_step (h : Asleep m q) (hs : m.step a = some m')
    (hhere : m.here ≠ .lock k .test ∨ a = .tick) (hr : Retried m q k)
    (hready : (m'.mutexes k).readyWaiting = 1 → (m.mutexes k).readyWaiting = 1)
    (hlocked : (m.mutexes k).locked = 0 → (m'.mutexes k).locked = 0) :
    Retried m' (m.advance q a) k := by
  intro hflag
  obtain ⟨hl, n, i, hn, hpc⟩ := hr (hready hflag)
  have hne : n ≠ m.running ∨ a = .tick := by
    refine hhere.imp_left ?_
    rintro hh rfl
    exact hh hpc
  obtain ⟨i', hi'⟩ := h.waits.inv.runnable_step hs hn hne
  refine ⟨hlocked hl, n, i', hi', ?_⟩
  rcases hne with hne | rfl
  · rw [(step_goes hs).pc_of_ne hne, hpc]
  · cases step_goes hs with
    | tick hp => rw [hp, hpc]

theorem retried_of_eq (h : Asleep m q) (hs : m.step a = some m')
    (hhere : m.here ≠ .lock k .test ∨ a = .tick) (hr : Retried m q k)
    (heq : m'.mutexes k = m.mutexes k) : Retried m' (m.advance q a) k := by
  refine h.retried_step hs hhere hr ?_ ?_
  · rw [heq]
    exact id
  · rw [heq]
    exact id

/-- A thread in an unlock past its tests is in a run queue. -/
theorem exists_rqs (h : Asleep m q) (he : m.here.early = false) (hb : m.here.blocking = false) :
    ∃ i, m.running ∈ q (.rqs i) := by
  obtain ⟨i, hi⟩ := h.waits.inv.exists_active (.inl he) hb
  exact ⟨i, List.mem_of_head? hi.head⟩

theorem ne_running (h : Asleep m q) (hrqs : ∃ i, m.running ∈ q (.rqs i))
    (hn : (q .waitingQueue).head? = some n) : n ≠ m.running := by
  rintro rfl
  obtain ⟨i, hi⟩ := hrqs
  cases h.waits.inv.wf.disjoint (List.mem_of_head? hn) hi

/-- The front of the waiting queue stays in its lock while another thread executes. -/
theorem frontIn_step (h : Asleep m q) (hs : m.step .next = some m') (hq : m.advance q .next = q)
    (hrqs : ∃ i, m.running ∈ q (.rqs i)) (hf : FrontIn m q k) :
    FrontIn m' (m.advance q .next) k := by
  intro n hn
  rw [hq] at hn
  rw [(step_goes hs).pc_of_ne (h.ne_running hrqs hn)]
  exact hf n hn

/-- The flags of the mutexes that a statement does not store to. -/
theorem retried_next (h : Asleep m q) (hs : m.step .next = some m') (hj : j < m'.mutexCount)
    (hhere : m.here ≠ .lock j .test) (hw : m.here.writes ≠ some j) (hr : Retried m q j) :
    Retried m' (m.advance q .next) j := by
  rw [h.waits.mutexCount_next hs] at hj
  exact h.retried_of_eq hs (.inl hhere) hr ((step_frame h.waits.inv.flow hs).mutexes j hj hw)

/-- The flags of the mutexes other than the one that the statement names. -/
theorem retried_other (h : Asleep m q) (hk : m.here.mutex? = some k) (hs : m.step .next = some m')
    (hj : j < m'.mutexCount) (hjk : j ≠ k) (hr : Retried m q j) :
    Retried m' (m.advance q .next) j := by
  refine h.retried_next hs hj ?_ ?_ hr
  · intro hh
    rw [hh] at hk
    cases hk
    exact hjk rfl
  · intro hw
    cases hk.symm.trans (mutex?_of_writes hw)
    exact hjk rfl

theorem allRetried_lock {l : LockPc} (h : Asleep m q) (hh : m.here = .lock k l)
    (hs : m.step .next = some m') (he : Edge m (.lock k l) p') :
    AllRetried m' (m.advance q .next) p' := by
  have hmutex : m.here.mutex? = some k := congrArg Pc.mutex? hh
  have hk : k < m.mutexCount := h.waits.inv.flow.mutex m.running k hmutex
  have hcount := h.waits.mutexCount_next hs
  have hwoken := h.retried
  rw [hh] at hwoken
  cases he with
  | lockWait k hl =>
    intro j hj
    by_cases hjk : j = k
    · -- the mutex is taken, so no flag is set
      subst hjk
      intro hflag
      rw [(step_frame h.waits.inv.flow hs).mutexes j hk (by rw [hh]; rintro ⟨⟩)] at hflag
      exact absurd (hwoken j hk hflag).1 hl
    · exact h.retried_other hmutex hs hj hjk (hwoken j (hcount ▸ hj))
  | lockTest k hl =>
    exact fun j hj hjk ↦ h.retried_other hmutex hs hj hjk (hwoken j (hcount ▸ hj))
  | lockSet k | lockTid k =>
    exact fun j hj hjk ↦ h.retried_other hmutex hs hj hjk (hwoken j (hcount ▸ hj) hjk)
  | lockReady k =>
    intro j hj
    by_cases hjk : j = k
    · subst hjk
      intro hflag
      simp only [Machine.step, Machine.next, hh, Machine.stepLock] at hs
      cases hs
      have hready : ((m.modifyMutex j fun x ↦ { x with readyWaiting := 0 }).goto
          (.lock j .ret)).mutexes j = { m.mutexes j with readyWaiting := 0 } := update_self ..
      rw [hready] at hflag
      cases hflag
    · exact h.retried_other hmutex hs hj hjk (hwoken j (hcount ▸ hj) hjk)
  | lockFlag k | lockMid k | lockCall k | lockRet k =>
    intro j hj
    refine h.retried_next hs hj ?_ ?_ (hwoken j (hcount ▸ hj))
    · rw [hh]
      rintro ⟨⟩
    · rw [hh]
      rintro ⟨⟩

/-- A statement of an unlock that leaves the flag of the mutex, and leaves or clears `locked`. -/
theorem retried_unlock {u : UnlockPc} (h : Asleep m q) (hh : m.here = .unlock k u)
    (hs : m.step .next = some m')
    (hready : (m'.mutexes k).readyWaiting = (m.mutexes k).readyWaiting)
    (hlocked : (m.mutexes k).locked = 0 → (m'.mutexes k).locked = 0)
    (hall : ∀ j < m.mutexCount, Retried m q j) :
    ∀ j < m'.mutexCount, Retried m' (m.advance q .next) j := by
  intro j hj
  have hj' : j < m.mutexCount := h.waits.mutexCount_next hs ▸ hj
  by_cases hjk : j = k
  · subst hjk
    refine h.retried_step hs (.inl ?_) (hall j hj') ?_ hlocked
    · rw [hh]
      rintro ⟨⟩
    · rw [hready]
      exact id
  · exact h.retried_other (congrArg Pc.mutex? hh) hs hj hjk (hall j hj')

/-- A statement of an unlock that does not store to the mutex. -/
theorem unlock_kept {u : UnlockPc} (h : Asleep m q) (hh : m.here = .unlock k u)
    (hs : m.step .next = some m') (hw : (Pc.unlock k u).writes = none) :
    ((m.mutexes k).locked = 0 → (m'.mutexes k).locked = 0) ∧
      ((∀ j < m.mutexCount, Retried m q j) →
        ∀ j < m'.mutexCount, Retried m' (m.advance q .next) j) := by
  have hsame : m'.mutexes k = m.mutexes k := by
    have hk := h.waits.inv.flow.mutex m.running k (congrArg Pc.mutex? hh)
    refine (step_frame h.waits.inv.flow hs).mutexes k hk ?_
    rw [hh, hw]
    rintro ⟨⟩
  have hlocked : (m.mutexes k).locked = 0 → (m'.mutexes k).locked = 0 := by
    rw [hsame]
    exact id
  exact ⟨hlocked, h.retried_unlock hh hs (by rw [hsame]) hlocked⟩

theorem allRetried_unlock {u : UnlockPc} (h : Asleep m q) (hok : Sane m .next)
    (hh : m.here = .unlock k u) (hs : m.step .next = some m') (he : Edge m (.unlock k u) p') :
    AllRetried m' (m.advance q .next) p' := by
  have hi := h.waits.inv
  have hmutex : m.here.mutex? = some k := congrArg Pc.mutex? hh
  have hk : k < m.mutexCount := hi.flow.mutex m.running k hmutex
  have hcount := h.waits.mutexCount_next hs
  have hstill : u ≠ .move → m.advance q .next = q := by
    intro hu
    rw [Machine.advance, hh]
    cases u <;> first | rfl | exact absurd rfl hu
  have hrqs : (Pc.unlock k u).early = false → ∃ i, m.running ∈ q (.rqs i) :=
    fun he ↦ h.exists_rqs (by rw [hh]; exact he) (by rw [hh]; rfl)
  have hnext : m.stepUnlock k u = some m' := by
    have hnext : m.next = some m' := hs
    rwa [Machine.next, hh] at hnext
  have hwoken := h.retried
  have hpend := hi.pending
  rw [hh] at hwoken hpend
  cases he with
  | unlockUnlocked k _ | unlockTest k _ | unlockWrong k | unlockOwner k c _ _ | unlockRet k =>
    exact (h.unlock_kept hh hs rfl).2 hwoken
  | unlockClear k =>
    cases hnext
    have hclear : (({ m.modifyMutex k (fun x ↦ { x with locked := 0 }) with
        holders := m.holders.filter (· ≠ (k, m.running)) } : Machine).goto
          (.unlock k .tid)).mutexes k = { m.mutexes k with locked := 0 } := update_self ..
    refine ⟨?_, h.retried_unlock hh hs ?_ ?_ hwoken⟩
    · rw [hclear]
    · rw [hclear]
    · rw [hclear]
      exact fun _ ↦ rfl
  | unlockTid k =>
    cases hnext
    have htid : ((m.modifyMutex k fun x ↦ { x with tid := -1 }).goto (.unlock k .front)).mutexes k =
        { m.mutexes k with tid := -1 } := update_self ..
    refine ⟨?_, h.retried_unlock hh hs ?_ ?_ hwoken.2⟩
    · rw [htid]
      exact hwoken.1
    · rw [htid]
    · rw [htid]
      exact id
  | unlockFront k | unlockLoop k n | unlockOther k n _ | unlockNext k n =>
    obtain ⟨hfree, hall⟩ := h.unlock_kept hh hs rfl
    exact ⟨hfree hwoken.1, hall hwoken.2⟩
  | unlockEnd k => exact (h.unlock_kept hh hs rfl).2 hwoken.2
  | unlockFound k n hmid =>
    obtain ⟨hfree, hall⟩ := h.unlock_kept hh hs rfl
    refine ⟨hfree hwoken.1, ?_, hall hwoken.2⟩
    refine h.frontIn_step hs (hstill (by rintro ⟨⟩)) (hrqs rfl) fun d hd ↦ ?_
    -- the thread found is the front of the queue
    have hfront := hok.2.2 k n hh rfl hmid
    rw [hi.linked.front .waitingQueue, hd] at hfront
    cases hfront
    exact h.blocked n (List.mem_of_head? hd) (h.ne_running (hrqs rfl) hd) k
      (hmid.symm.trans (h.waits.mids k hk))
  | unlockMid k n | unlockPriority k n =>
    obtain ⟨hfree, hall⟩ := h.unlock_kept hh hs rfl
    exact ⟨hfree hwoken.1,
      h.frontIn_step hs (hstill (by rintro ⟨⟩)) (hrqs rfl) hwoken.2.1, hall hwoken.2.2⟩
  | unlockReady k =>
    have hfront := h.frontIn_step hs (hstill (by rintro ⟨⟩)) (hrqs rfl) hwoken.2.1
    refine ⟨?_, hfront,
      fun j hj hjk ↦ h.retried_other hmutex hs hj hjk (hwoken.2.2 j (hcount ▸ hj))⟩
    cases hnext
    have hready : ((m.modifyMutex k fun x ↦ { x with readyWaiting := 1 }).goto
        (.unlock k .move)).mutexes k = { m.mutexes k with readyWaiting := 1 } := update_self ..
    rw [hready]
    exact hwoken.1
  | unlockMove k =>
    intro j hj
    by_cases hjk : j = k
    · subst hjk
      intro _
      obtain ⟨n, hn, -⟩ := hpend
      obtain ⟨l, hl⟩ := List.head?_eq_some_iff.mp hn
      refine ⟨(h.unlock_kept hh hs rfl).1 hwoken.1, n, 0, ?_, ?_⟩
      · rw [Machine.advance, hh, hl]
        exact (Mlfq.mem_move hi.wf (List.mem_of_head? hn)).mpr (.inr ⟨rfl, rfl⟩)
      · rw [(step_goes hs).pc_of_ne (h.ne_running (hrqs rfl) hn)]
        exact hwoken.2.1 n hn
    · exact h.retried_other hmutex hs hj hjk (hwoken.2.2 j (hcount ▸ hj) hjk)

theorem allRetried_edge (h : Asleep m q) (hok : Sane m .next) (hs : m.step .next = some m')
    (he : Edge m m.here p') : AllRetried m' (m.advance q .next) p' := by
  have hall : m.here.mutex? = none → ∀ j < m'.mutexCount, Retried m' (m.advance q .next) j := by
    intro hk j hj
    have hwoken := (allRetried_of_mutex (.inl hk)).mp h.retried
    refine h.retried_next hs hj ?_ ?_ (hwoken j (h.waits.mutexCount_next hs ▸ hj))
    · intro hh
      rw [hh] at hk
      cases hk
    · intro hw
      cases hk.symm.trans (mutex?_of_writes hw)
  cases hh : m.here with
  | lock k l => exact h.allRetried_lock hh hs (hh ▸ he)
  | unlock k u => exact h.allRetried_unlock hok hh hs (hh ▸ he)
  | user | create _ | yield _ | exit _ | join _ _ =>
    refine (allRetried_of_mutex (.inl ?_)).mpr (hall (by rw [hh]; rfl))
    rw [hh] at he
    cases he <;> rfl

theorem allRetried_step (h : Asleep m q) (hok : Sane m a) (hi' : WaitInv m' (m.advance q a))
    (hs : m.step a = some m') : AllRetried m' (m.advance q a) m'.here := by
  have hframe := step_frame h.waits.inv.flow hs
  have huser : m.here = .user → ∀ j < m.mutexCount, Retried m' (m.advance q a) j := by
    intro hu j hj
    have hwoken := (allRetried_of_mutex (.inl (by rw [hu]; rfl))).mp h.retried
    refine h.retried_of_eq hs (.inl (by rw [hu]; rintro ⟨⟩)) (hwoken j hj) ?_
    exact hframe.mutexes j hj (by rw [hu]; rintro ⟨⟩)
  have hhere : AllRetried m' (m.advance q a) (m'.pc m.running) := by
    cases step_goes hs with
    | enters c hu hpc =>
      have hcount : m'.mutexCount = m.mutexCount := by
        simp only [Machine.step] at hs
        split at hs <;> cases hs
        rfl
      rw [hpc, update_self]
      have hall := huser hu
      rw [← hcount] at hall
      cases c <;> exact hall
    | next hf => exact h.allRetried_edge hok hs hf.edge
    | init hpc =>
      simp only [Machine.step] at hs
      split at hs <;> cases hs
      rename_i hu
      rw [hpc, show m.pc m.running = .user from hu]
      intro j hj
      rcases (Nat.le_of_lt_succ hj).eq_or_lt with rfl | hlt
      · intro hflag
        have hnew : m.initMutex.mutexes m.mutexCount = ⟨m.mutexCount, 0, -1, 0⟩ := update_self ..
        rw [hnew] at hflag
        cases hflag
      · exact huser hu j hlt
    | tick hpc =>
      have hq : (m.pc m.running).quiescent = true := hok.1 rfl
      have hwoken := (allRetried_of_mutex (.inr hq)).mp h.retried
      have hsame : m'.mutexes = m.mutexes ∧ m'.mutexCount = m.mutexCount := by
        simp only [Machine.step] at hs
        split at hs
        · obtain ⟨-, hm, hcount, -⟩ := callScheduler_mid (h.waits.inv.flow.setFc _) hs
          exact ⟨hm, hcount⟩
        · cases hs
      rw [hpc]
      refine (allRetried_of_mutex (.inr hq)).mpr fun j hj ↦ ?_
      rw [hsame.2] at hj
      exact h.retried_of_eq hs (.inr rfl) (hwoken j hj) (congrFun hsame.1 j)
  by_cases hrun : m'.running = m.running
  · rwa [Machine.here, hrun]
  · -- both threads are between two calls
    have hnew : m'.here.quiescent = true := by
      rw [show m'.here = m.pc m'.running from (step_goes hs).pc_of_ne hrun]
      exact h.waits.others _ hrun
    have hold := hi'.others m.running (Ne.symm hrun)
    exact (allRetried_of_mutex (.inr hnew)).mpr ((allRetried_of_mutex (.inr hold)).mp hhere)

/-- The step lemma of `Asleep`. -/
theorem step (h : Asleep m q) (hok : Sane m a) (hs : m.step a = some m') :
    Asleep m' (m.advance q a) := by
  have hi' := h.waits.step hok.1 hok.2.1 hok.2.2 hs
  refine ⟨hi', ?_, ?_, h.allRetried_step hok hi' hs, ?_⟩
  · exact h.complete.step h.waits.inv (careful_of_findsFront hok.1 hok.2.1 hok.2.2) hs
  · intro n hn hrun k hmid
    exact h.blocked_step hok hs hn hrun hmid
  · intro n t hn
    exact h.joined_step hs hn

end Asleep

theorem Reachable.asleep (h : Reachable Sane m) : ∃ q, Asleep m q := by
  refine h.invariant (P := fun m ↦ ∃ q, Asleep m q)
    ⟨_, ⟨⟨inv_init, ?_, ?_, ?_⟩, ?_, ?_, ?_, ?_⟩⟩ ?_
  · intro _ _
    rfl
  · intro _ hk
    cases hk
  · intro _ hn
    cases hn
  · intro hf
    cases hf
  · intro _ hn
    cases hn
  · intro _ hj
    cases hj
  · intro _ _ hn
    cases hn
  · rintro m a m' ⟨q, hi⟩ hok hs
    exact ⟨_, hi.step hok hs⟩

/-! ## Who waits for whom -/

/-- A mutex that is locked between two calls has an owner that has returned from its lock. -/
theorem MutexInv.exists_owner (hi : MutexInv m) (hq : ∀ n, (m.pc n).quiescent = true)
    (hl : (m.mutexes k).locked ≠ 0) : ∃ t < m.nodeCount, (m.mutexes k).tid = t := by
  obtain ⟨own, he⟩ := hi.exclusion
  obtain ⟨t, ht⟩ := Option.ne_none_iff_exists'.mp fun hnone ↦ hl ((he.locked k).mpr hnone)
  have hstage : ∀ g, m.stages t ≠ some (k, g) := by
    intro g hg
    cases (stage_of_quiescent (hq t)).symm.trans hg
  have hheld := (he.owned k t ht).resolve_right (not_or_intro (hstage _) (hstage _))
  exact ⟨t, (hi.flow.held _ hheld).2, (he.held k t hheld).2⟩

namespace Asleep

/-- When no thread is in a run queue, every thread that has not exited waits for a thread. -/
theorem exists_waitsFor (h : Asleep m q) (hm : MutexInv m) (hq : m.here.quiescent = true)
    (hf : m.firstThread = false) (hidle : m.Idle) (hn : n < m.nodeCount) (hg : n ∉ m.gone) :
    ∃ t < m.nodeCount, WaitsFor m n t := by
  have hi := h.waits.inv
  have hall : ∀ n, (m.pc n).quiescent = true := by
    intro n
    by_cases hnr : n = m.running
    · rw [hnr]
      exact hq
    · exact h.waits.others n hnr
  obtain ⟨P, hP⟩ := h.complete hf n hn
  cases P with
  | gone => exact absurd hP hg
  | creating =>
    rw [show m.here = .create (.enqueue n) from hP] at hq
    cases hq
  | queue Q =>
    cases Q with
    | rqs i =>
      rw [At, hi.idle_iff.mp hidle i] at hP
      cases hP
    | joinQueue =>
      obtain ⟨t, ht⟩ := hi.joining n hP
      have hok := hi.threads n
      have hlt := h.joined n t
      rw [ht] at hok hlt
      exact ⟨t, hlt rfl, BlockedIn.blocked h.waits (.inl ⟨hP, t, rfl, hok.1 hP⟩)⟩
    | waitingQueue =>
      obtain ⟨k, hk, hmid, hlive⟩ := (waiters_of_mutex (.inr hq)).mp h.waits.waiters n hP
      -- a flag would be for a thread in a run queue
      have hl : (m.mutexes k).locked ≠ 0 := by
        refine hlive.resolve_right fun hflag ↦ ?_
        obtain ⟨-, d, i, hd, -⟩ := (allRetried_of_mutex (.inr hq)).mp h.retried k hk hflag
        rw [hi.idle_iff.mp hidle i] at hd
        cases hd
      obtain ⟨t, ht, htid⟩ := hm.exists_owner hall hl
      exact ⟨t, ht, BlockedIn.blocked h.waits (.inr ⟨hP, k, hk, hmid, hl, t, rfl, htid⟩)⟩

end Asleep

theorem wholeLock_of_sane (h : Sane m a) : WholeLock m a :=
  fun ha ↦ lockWindow_of_quiescent (h.1 ha)

/-- When no thread can run, the waits of every thread that has not exited lead to a cycle of
threads that wait for each other, or to a thread that waits for one that has exited. -/
theorem idle_deadlock (h : Reachable Sane m) (hq : m.here.quiescent = true)
    (hf : m.firstThread = false) (hidle : m.Idle) (hn : n < m.nodeCount) (hg : n ∉ m.gone) :
    ∃ d, ReflTransGen (WaitsFor m) n d ∧
      ((∃ t ∈ m.gone, WaitsFor m d t) ∨ TransGen (WaitsFor m) d d) := by
  obtain ⟨q, hi⟩ := h.asleep
  have hm : MutexInv m := (h.mono fun _ _ ↦ wholeLock_of_sane).invariant mutexInv_init
    fun _ _ _ hi hw hs ↦ hi.step hw hs
  have hfin : {n | n < m.nodeCount ∧ n ∉ m.gone}.Finite :=
    (Set.finite_lt_nat m.nodeCount).subset fun _ hn ↦ hn.1
  refine exists_end_or_cycle hfin ⟨hn, hg⟩ ?_
  rintro d ⟨hd, hdg⟩
  obtain ⟨t, ht, hw⟩ := hi.exists_waitsFor hm hq hf hidle hd hdg
  by_cases htg : t ∈ m.gone
  · exact .inl ⟨t, htg, hw⟩
  · exact .inr ⟨t, ⟨ht, htg⟩, hw⟩

/-- Two threads lock two mutexes in opposite orders. -/
theorem idle_deadlock_cycle : ∃ m : Machine, m.Idle ∧ m.gone = [] ∧
    ∃ d, ReflTransGen (WaitsFor m) 0 d ∧
      ((∃ t ∈ m.gone, WaitsFor m d t) ∨ TransGen (WaitsFor m) d d) := by
  obtain ⟨m, hm, hx⟩ := Reachable.exists_of_run Sane
    [.init, .init, .call .create, .next, .next, .next,
      .call (.lock 1), .next, .next, .next, .next, .next, .tick,
      .call (.lock 0), .next, .next, .next, .next, .next,
      .call (.lock 1), .next, .next, .next, .next,
      .call (.lock 0), .next, .next, .next, .next]
    (fun m ↦ decide (m.here.quiescent = true ∧ m.firstThread = false ∧ m.nodeCount = 2 ∧
      m.gone = [] ∧ m.Idle))
    (show _ = some true by decide)
  obtain ⟨hq, hf, hcount, hgone, hidle⟩ := of_decide_eq_true hx
  refine ⟨m, hidle, hgone, idle_deadlock hm hq hf hidle ?_ ?_⟩
  · rw [hcount]
    exact two_pos
  · rw [hgone]
    exact List.not_mem_nil

/-! ## What comes then -/

/-- The statements of the loop of a lock before its call of `scheduler`. -/
def Pc.spins : Pc → ℕ
  | .lock _ .test => 3
  | .lock _ .flag => 2
  | .lock _ .mid => 1
  | _ => 0

theorem Pc.spins_le (p : Pc) : p.spins ≤ 3 := by
  unfold Pc.spins
  split <;> decide

theorem Inv.stuck_of_idle (hi : Inv m q) (hidle : m.Idle) (hc : m.sched.current ≠ none) :
    ∃ k, Stuck m q k := by
  have hnil := hi.idle_iff.mp hidle
  cases hi.mode with
  | boot hm => exact absurd hm.current hc
  | launch hm =>
    have hmem := hm.mem
    rw [hnil 0] at hmem
    cases hmem
  | active p hm => exact absurd hidle (hm.not_idle hi)
  | stuck k hm => exact ⟨k, hm⟩
  | finished hm => exact absurd hm.current hc

/-- The only step left is the next statement of the lock. -/
theorem Inv.idle_step (hi : Inv m q) (hidle : m.Idle) (hc : m.sched.current ≠ none)
    (hs : m.step a = some m') : a = .next ∧ Inv m' (m.advance q a) ∧ m'.Idle ∧
      m'.sched.current ≠ none ∧ m'.here.spins + 1 = m.here.spins := by
  obtain ⟨k, hk⟩ := hi.stuck_of_idle hidle hc
  have hu : m.here ≠ .user := by
    rcases hk.here with hh | hh | ⟨hh | hh, -⟩ <;> rw [hh] <;> rintro ⟨⟩
  cases a with
  | call c => rw [Machine.step, if_neg fun h ↦ hu h.1] at hs; cases hs
  | init => rw [Machine.step, if_neg hu] at hs; cases hs
  | tick =>
    simp only [Machine.step] at hs
    split at hs <;> rename_i htick
    · cases ((hi.tick_faults htick.1).mpr (.inr hidle)).symm.trans hs
    · cases hs
  | next =>
    have hnext : m.next = some m' := hs
    have hcareful : Careful m .next := by
      unfold Careful
      rcases hk.here with hh | hh | ⟨hh | hh, -⟩ <;> rw [hh] <;> trivial
    refine ⟨rfl, hi.step hcareful hs, ?_⟩
    rcases hk.here with hh | hh | ⟨hh | hh, -⟩
    · simp only [Machine.next, hh, Machine.stepLock, if_pos hk.locked] at hnext
      cases hnext
      exact ⟨hidle, hc, by rw [hh, show (m.goto (.lock k .flag)).here = _ from update_self ..]; rfl⟩
    · simp only [Machine.next, hh, Machine.stepLock] at hnext
      cases hnext
      exact ⟨hidle, hc, by
        rw [hh, show ((m.setFc .blocked).goto (.lock k .mid)).here = _ from update_self ..]; rfl⟩
    · simp only [Machine.next, hh, Machine.stepLock, hk.current] at hnext
      cases hnext
      exact ⟨hidle, hc, by
        rw [hh, show (Machine.here (Machine.goto (.lock k .call) _)) = _ from update_self ..]; rfl⟩
    · rw [(hi.next_faults hu).mpr (.inr ⟨⟨k, hh⟩, hidle⟩)] at hnext
      cases hnext

theorem Inv.exists_spin (hi : Inv m q) (hidle : m.Idle) (hc : m.sched.current ≠ none)
    (hp : 0 < m.here.spins) : ∃ m', m.step .next = some m' := by
  obtain ⟨k, hk⟩ := hi.stuck_of_idle hidle hc
  have hu : m.here ≠ .user := by
    rintro hh
    rw [hh] at hp
    cases hp
  have hnext : m.next ≠ none := by
    intro hnone
    rcases (hi.next_faults hu).mp hnone with ⟨hnull, -⟩ | ⟨⟨j, hh⟩, -⟩
    · exact hc hnull
    · rw [hh] at hp
      cases hp
  exact Option.ne_none_iff_exists'.mp hnext

theorem Inv.idle_run {as : List Action} (hi : Inv m q) (hidle : m.Idle)
    (hc : m.sched.current ≠ none) :
    (m.run (fun _ _ ↦ True) as).isSome ↔ ∃ j ≤ m.here.spins, as = List.replicate j .next := by
  induction as generalizing m q with
  | nil => exact ⟨fun _ ↦ ⟨0, Nat.zero_le _, rfl⟩, fun _ ↦ rfl⟩
  | cons a as ih =>
    rw [Machine.run, if_pos trivial]
    constructor
    · intro hr
      obtain ⟨m₂, hr⟩ := Option.isSome_iff_exists.mp hr
      obtain ⟨m₁, hs, hr₁⟩ := Option.bind_eq_some_iff.mp hr
      obtain ⟨rfl, hi₁, hidle₁, hc₁, hspins⟩ := hi.idle_step hidle hc hs
      obtain ⟨j, hj, rfl⟩ := (ih hi₁ hidle₁ hc₁).mp (Option.isSome_iff_exists.mpr ⟨m₂, hr₁⟩)
      exact ⟨j + 1, by rw [← hspins]; exact Nat.succ_le_succ hj, rfl⟩
    · rintro ⟨j, hj, has⟩
      cases j with
      | zero => cases has
      | succ j =>
        obtain ⟨rfl, rfl⟩ := List.cons_eq_cons.mp has
        obtain ⟨m₁, hs⟩ := hi.exists_spin hidle hc (Nat.zero_lt_of_lt hj)
        obtain ⟨-, hi₁, hidle₁, hc₁, hspins⟩ := hi.idle_step hidle hc hs
        rw [hs]
        refine (ih hi₁ hidle₁ hc₁).mpr ⟨j, ?_, rfl⟩
        rw [← hspins] at hj
        exact Nat.le_of_succ_le_succ hj

/-- When no thread can run but the one that executes has not exited, the process ends by a
fault, at most three statements later and whatever the timer does. -/
theorem idle_ends (h : Reachable Careful m) (hidle : m.Idle) (hc : m.sched.current ≠ none) :
    ∃ n ≤ 3, ∀ as, (m.run (fun _ _ ↦ True) as).isSome ↔ ∃ j ≤ n, as = List.replicate j .next := by
  obtain ⟨q, hi⟩ := exists_inv h
  exact ⟨m.here.spins, m.here.spins_le, fun as ↦ hi.idle_run hidle hc⟩

/-- Two threads lock two mutexes in opposite orders. -/
theorem idle_ends_cycle : ∃ m : Machine, m.here = .lock 0 .test ∧
    ∃ n ≤ 3, ∀ as, (m.run (fun _ _ ↦ True) as).isSome ↔ ∃ j ≤ n, as = List.replicate j .next := by
  obtain ⟨m, hm, hx⟩ := Reachable.exists_of_run Careful
    [.init, .init, .call .create, .next, .next, .next,
      .call (.lock 1), .next, .next, .next, .next, .next, .tick,
      .call (.lock 0), .next, .next, .next, .next, .next,
      .call (.lock 1), .next, .next, .next, .next,
      .call (.lock 0), .next, .next, .next, .next]
    (fun m ↦ decide (m.Idle ∧ m.sched.current ≠ none ∧ m.here = .lock 0 .test))
    (show _ = some true by decide)
  obtain ⟨hidle, hc, hh⟩ := of_decide_eq_true hx
  exact ⟨m, hh, idle_ends hm hidle hc⟩

end MyPthread.Api
