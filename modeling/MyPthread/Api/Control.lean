import MyPthread.Api.Turns

/-!
# Control flow of the calls

Which statement follows which, with what the test in between has found.  A
statement that calls `scheduler` is followed, for the thread that calls it, by the
one behind the call, whenever that thread executes again.
-/

namespace MyPthread.Api

open MyPthread.Sched Function

/-- The thread at the first statement goes on at the second. -/
inductive Edge (m : Machine) : Pc → Pc → Prop where
  | createFirst : m.firstThread = true → Edge m (.create .node) (.create .count)
  | createNode : m.firstThread = false →
      Edge m (.create .node) (.create (.enqueue m.nodeCount))
  | createEnqueue (n : ℕ) : Edge m (.create (.enqueue n)) (.create .count)
  | createCount : Edge m (.create .count) (.create .call)
  | createCall : Edge m (.create .call) .user
  | yieldAlone (c f : ℕ) : m.sched.current = some c →
      (m.sched.queues (.rqs (m.sched.tcb c).threadPriority)).front = some f →
      m.sched.next f = none → Edge m (.yield .test) .user
  | yieldTest (c f : ℕ) : m.sched.current = some c →
      (m.sched.queues (.rqs (m.sched.tcb c).threadPriority)).front = some f →
      m.sched.next f ≠ none → Edge m (.yield .test) (.yield .flag)
  | yieldFlag : Edge m (.yield .flag) (.yield .call)
  | yieldCall : Edge m (.yield .call) .user
  | exitNode (v c : ℕ) : m.sched.current = some c →
      Edge m (.exit (.node v)) (.exit (.flag ((m.sched.tcb c).tid, v)))
  | exitFlag (e : ExitNode) : Edge m (.exit (.flag e)) (.exit (.loop e 0))
  | exitBody (e : ExitNode) (i count : ℕ) :
      getSpecificCount m.nodeCount .joinQueue m.sched = some count → i < count →
      Edge m (.exit (.loop e i)) (.exit (.loop e (i + 1)))
  | exitDone (e : ExitNode) (i : ℕ) : Edge m (.exit (.loop e i)) (.exit (.push e))
  | exitPush (e : ExitNode) : Edge m (.exit (.push e)) (.exit .call)
  | exitCall : Edge m (.exit .call) (.exit .ret)
  | exitRet : Edge m (.exit .ret) .user
  | joinList (t : ℕ) : Edge m (.join t .list) (.join t (.bound m.exitList))
  | joinNone (t : ℕ) (temp : List ExitNode) : m.threadCount - 1 < t →
      Edge m (.join t (.bound temp)) .user
  | joinBound (t : ℕ) (temp : List ExitNode) :
      Edge m (.join t (.bound temp)) (.join t (.search temp))
  | joinFound (t : ℕ) (e : ExitNode) (temp : List ExitNode) : e.1 = t →
      Edge m (.join t (.search (e :: temp))) .user
  | joinSearch (t : ℕ) (e : ExitNode) (temp : List ExitNode) : e.1 ≠ t →
      Edge m (.join t (.search (e :: temp))) (.join t (.search temp))
  | joinEnd (t : ℕ) : Edge m (.join t (.search [])) (.join t .store)
  | joinStore (t : ℕ) : Edge m (.join t .store) (.join t .flag)
  | joinFlag (t : ℕ) : Edge m (.join t .flag) (.join t .call)
  | joinCall (t : ℕ) : Edge m (.join t .call) (.join t .ret)
  | joinRet (t : ℕ) : Edge m (.join t .ret) .user
  | lockWait (k : ℕ) : (m.mutexes k).locked ≠ 0 → Edge m (.lock k .test) (.lock k .flag)
  | lockTest (k : ℕ) : (m.mutexes k).locked = 0 → Edge m (.lock k .test) (.lock k .set)
  | lockFlag (k : ℕ) : Edge m (.lock k .flag) (.lock k .mid)
  | lockMid (k : ℕ) : Edge m (.lock k .mid) (.lock k .call)
  | lockCall (k : ℕ) : Edge m (.lock k .call) (.lock k .test)
  | lockSet (k : ℕ) : Edge m (.lock k .set) (.lock k .tid)
  | lockTid (k : ℕ) : Edge m (.lock k .tid) (.lock k .ready)
  | lockReady (k : ℕ) : Edge m (.lock k .ready) (.lock k .ret)
  | lockRet (k : ℕ) : Edge m (.lock k .ret) .user
  | unlockUnlocked (k : ℕ) : (m.mutexes k).locked = 0 → Edge m (.unlock k .test) .user
  | unlockTest (k : ℕ) : (m.mutexes k).locked ≠ 0 → Edge m (.unlock k .test) (.unlock k .owner)
  | unlockWrong (k : ℕ) : Edge m (.unlock k .owner) .user
  | unlockOwner (k c : ℕ) : m.sched.current = some c →
      (m.mutexes k).tid = (m.sched.tcb c).tid → Edge m (.unlock k .owner) (.unlock k .clear)
  | unlockClear (k : ℕ) : Edge m (.unlock k .clear) (.unlock k .tid)
  | unlockTid (k : ℕ) : Edge m (.unlock k .tid) (.unlock k .front)
  | unlockFront (k : ℕ) : Edge m (.unlock k .front)
      (.unlock k (.loop (m.sched.queues .waitingQueue).front))
  | unlockEnd (k : ℕ) : Edge m (.unlock k (.loop none)) .user
  | unlockLoop (k n : ℕ) : Edge m (.unlock k (.loop (some n))) (.unlock k (.found n))
  | unlockFound (k n : ℕ) : (m.mutexes k).mid = (m.sched.tcb n).mid →
      Edge m (.unlock k (.found n)) (.unlock k (.mid n))
  | unlockOther (k n : ℕ) : (m.mutexes k).mid ≠ (m.sched.tcb n).mid →
      Edge m (.unlock k (.found n)) (.unlock k (.next n))
  | unlockNext (k n : ℕ) : Edge m (.unlock k (.next n)) (.unlock k (.loop (m.sched.next n)))
  | unlockMid (k n : ℕ) : Edge m (.unlock k (.mid n)) (.unlock k (.priority n))
  | unlockPriority (k n : ℕ) : Edge m (.unlock k (.priority n)) (.unlock k .ready)
  | unlockReady (k : ℕ) : Edge m (.unlock k .ready) (.unlock k .move)
  | unlockMove (k : ℕ) : Edge m (.unlock k .move) (.unlock k .ret)
  | unlockRet (k : ℕ) : Edge m (.unlock k .ret) .user

variable {m m' : Machine} {p p' : Pc} {k t : ℕ}

/-- The executing thread goes along an edge. -/
def Follows (m m' : Machine) (p : Pc) : Prop :=
  ∃ p', m'.pc = update m.pc m.running p' ∧ Edge m p p'

theorem Follows.of_call {g : List ℕ} (he : Edge m p p')
    (h : ({ m with gone := g }.goto p').callScheduler = some m') : Follows m m' p :=
  ⟨p', callScheduler_pc h, he⟩

theorem stepCreate_follows {c : CreatePc} (h : m.stepCreate c = some m') :
    Follows m m' (.create c) := by
  cases c with
  | node =>
    simp only [Machine.stepCreate] at h
    split at h <;> rename_i hfirst
    · simp only [Option.bind_eq_bind, Option.bind_eq_some_iff, Option.pure_def,
        Option.some.injEq] at h
      obtain ⟨s₁, -, s₂, -, rfl⟩ := h
      exact ⟨_, rfl, .createFirst hfirst⟩
    · cases h
      exact ⟨_, rfl, .createNode (Bool.eq_false_iff.mpr hfirst)⟩
  | enqueue n =>
    simp only [Machine.stepCreate, Option.bind_eq_bind, Option.bind_eq_some_iff, Option.pure_def,
      Option.some.injEq] at h
    obtain ⟨s, -, rfl⟩ := h
    exact ⟨_, rfl, .createEnqueue n⟩
  | count =>
    cases h
    exact ⟨_, rfl, .createCount⟩
  | call => exact .of_call (g := m.gone) .createCall h

theorem stepYield_follows {y : YieldPc} (h : m.stepYield y = some m') :
    Follows m m' (.yield y) := by
  cases y with
  | test =>
    simp only [Machine.stepYield, Option.bind_eq_bind, Option.bind_eq_some_iff] at h
    obtain ⟨c, hc, f, hf, h⟩ := h
    split at h <;> rename_i hn <;> cases h
    · exact ⟨_, rfl, .yieldAlone c f hc hf hn⟩
    · exact ⟨_, rfl, .yieldTest c f hc hf hn⟩
  | flag =>
    cases h
    exact ⟨_, rfl, .yieldFlag⟩
  | call => exact .of_call (g := m.gone) .yieldCall h

theorem stepExit_follows {x : ExitPc} (h : m.stepExit x = some m') :
    Follows m m' (.exit x) := by
  cases x with
  | node v =>
    simp only [Machine.stepExit, Option.bind_eq_bind, Option.bind_eq_some_iff, Option.pure_def,
      Option.some.injEq] at h
    obtain ⟨c, hc, rfl⟩ := h
    exact ⟨_, rfl, .exitNode v c hc⟩
  | flag e =>
    cases h
    exact ⟨_, rfl, .exitFlag e⟩
  | loop e i =>
    simp only [Machine.stepExit, Option.bind_eq_bind, Option.bind_eq_some_iff] at h
    obtain ⟨count, hcount, h⟩ := h
    split at h <;> rename_i hi
    · simp only [Option.bind_eq_some_iff, Option.pure_def, Option.some.injEq] at h
      obtain ⟨s, -, rfl⟩ := h
      exact ⟨_, rfl, .exitBody e i count hcount hi⟩
    · cases h
      exact ⟨_, rfl, .exitDone e i⟩
  | push e =>
    cases h
    exact ⟨_, rfl, .exitPush e⟩
  | call => exact .of_call (g := m.running :: m.gone) .exitCall h
  | ret =>
    cases h
    exact ⟨_, rfl, .exitRet⟩

theorem stepJoin_follows {j : JoinPc} (h : m.stepJoin t j = some m') :
    Follows m m' (.join t j) := by
  cases j with
  | list =>
    cases h
    exact ⟨_, rfl, .joinList t⟩
  | bound temp =>
    simp only [Machine.stepJoin] at h
    split at h <;> rename_i hb <;> cases h
    · exact ⟨_, rfl, .joinNone t temp hb⟩
    · exact ⟨_, rfl, .joinBound t temp⟩
  | search temp =>
    cases temp with
    | nil =>
      cases h
      exact ⟨_, rfl, .joinEnd t⟩
    | cons e temp =>
      simp only [Machine.stepJoin] at h
      split at h <;> rename_i he <;> cases h
      · exact ⟨_, rfl, .joinFound t e temp he⟩
      · exact ⟨_, rfl, .joinSearch t e temp he⟩
  | store =>
    simp only [Machine.stepJoin, Option.bind_eq_bind, Option.bind_eq_some_iff, Option.pure_def,
      Option.some.injEq] at h
    obtain ⟨c, -, rfl⟩ := h
    exact ⟨_, rfl, .joinStore t⟩
  | flag =>
    cases h
    exact ⟨_, rfl, .joinFlag t⟩
  | call => exact .of_call (g := m.gone) (.joinCall t) h
  | ret =>
    simp only [Machine.stepJoin, Option.bind_eq_bind, Option.bind_eq_some_iff, Option.pure_def,
      Option.some.injEq] at h
    obtain ⟨c, -, rfl⟩ := h
    exact ⟨_, rfl, .joinRet t⟩

theorem stepLock_follows {l : LockPc} (h : m.stepLock k l = some m') :
    Follows m m' (.lock k l) := by
  cases l with
  | test =>
    simp only [Machine.stepLock] at h
    split at h <;> rename_i hl <;> cases h
    · exact ⟨_, rfl, .lockWait k hl⟩
    · exact ⟨_, rfl, .lockTest k (not_not.mp hl)⟩
  | flag =>
    cases h
    exact ⟨_, rfl, .lockFlag k⟩
  | mid =>
    simp only [Machine.stepLock, Option.bind_eq_bind, Option.bind_eq_some_iff, Option.pure_def,
      Option.some.injEq] at h
    obtain ⟨c, -, rfl⟩ := h
    exact ⟨_, rfl, .lockMid k⟩
  | call => exact .of_call (g := m.gone) (.lockCall k) h
  | set =>
    cases h
    exact ⟨_, rfl, .lockSet k⟩
  | tid =>
    simp only [Machine.stepLock, Option.bind_eq_bind, Option.bind_eq_some_iff, Option.pure_def,
      Option.some.injEq] at h
    obtain ⟨c, -, rfl⟩ := h
    exact ⟨_, rfl, .lockTid k⟩
  | ready =>
    cases h
    exact ⟨_, rfl, .lockReady k⟩
  | ret =>
    cases h
    exact ⟨_, rfl, .lockRet k⟩

theorem stepUnlock_follows {u : UnlockPc} (h : m.stepUnlock k u = some m') :
    Follows m m' (.unlock k u) := by
  cases u with
  | test =>
    simp only [Machine.stepUnlock] at h
    split at h <;> rename_i hl <;> cases h
    · exact ⟨_, rfl, .unlockUnlocked k hl⟩
    · exact ⟨_, rfl, .unlockTest k hl⟩
  | owner =>
    simp only [Machine.stepUnlock, Option.bind_eq_bind, Option.bind_eq_some_iff] at h
    obtain ⟨c, hc, h⟩ := h
    split at h <;> rename_i ht <;> cases h
    · exact ⟨_, rfl, .unlockWrong k⟩
    · exact ⟨_, rfl, .unlockOwner k c hc (not_not.mp ht)⟩
  | clear =>
    cases h
    exact ⟨_, rfl, .unlockClear k⟩
  | tid =>
    cases h
    exact ⟨_, rfl, .unlockTid k⟩
  | front =>
    cases h
    exact ⟨_, rfl, .unlockFront k⟩
  | loop temp =>
    cases temp with
    | none =>
      cases h
      exact ⟨_, rfl, .unlockEnd k⟩
    | some n =>
      cases h
      exact ⟨_, rfl, .unlockLoop k n⟩
  | found n =>
    simp only [Machine.stepUnlock] at h
    split at h <;> rename_i hm <;> cases h
    · exact ⟨_, rfl, .unlockFound k n hm⟩
    · exact ⟨_, rfl, .unlockOther k n hm⟩
  | next n =>
    cases h
    exact ⟨_, rfl, .unlockNext k n⟩
  | mid n =>
    cases h
    exact ⟨_, rfl, .unlockMid k n⟩
  | priority n =>
    cases h
    exact ⟨_, rfl, .unlockPriority k n⟩
  | ready =>
    cases h
    exact ⟨_, rfl, .unlockReady k⟩
  | move =>
    simp only [Machine.stepUnlock, Option.bind_eq_bind, Option.bind_eq_some_iff, Option.pure_def,
      Option.some.injEq] at h
    obtain ⟨s, -, rfl⟩ := h
    exact ⟨_, rfl, .unlockMove k⟩
  | ret =>
    cases h
    exact ⟨_, rfl, .unlockRet k⟩

/-- Every statement is followed as the control flow says. -/
theorem next_follows (h : m.next = some m') : Follows m m' m.here := by
  unfold Machine.next at h
  split at h <;> rename_i hh <;> rw [hh]
  · cases h
  · exact stepCreate_follows h
  · exact stepYield_follows h
  · exact stepExit_follows h
  · exact stepJoin_follows h
  · exact stepLock_follows h
  · exact stepUnlock_follows h

/-- The threads that do not execute stay where they are. -/
theorem Follows.pc_of_ne {n : ℕ} (h : Follows m m' p) (hn : n ≠ m.running) :
    m'.pc n = m.pc n := by
  obtain ⟨p', hpc, -⟩ := h
  rw [hpc, update_of_ne hn]

theorem Follows.edge (h : Follows m m' p) : Edge m p (m'.pc m.running) := by
  obtain ⟨p', hpc, he⟩ := h
  rwa [hpc, update_self]

/-- Where the threads are after a step. -/
inductive Goes (m m' : Machine) : Action → Prop where
  | enters (c : Call) : m.here = .user → m'.pc = update m.pc m.running c.entry →
      Goes m m' (.call c)
  | next : Follows m m' m.here → Goes m m' .next
  | init : m'.pc = m.pc → Goes m m' .init
  | tick : m'.pc = m.pc → Goes m m' .tick

theorem step_goes {a : Action} (h : m.step a = some m') : Goes m m' a := by
  cases a with
  | call c =>
    simp only [Machine.step] at h
    split at h <;> rename_i hu <;> cases h
    exact .enters c hu.1 rfl
  | init =>
    simp only [Machine.step] at h
    split at h <;> cases h
    exact .init rfl
  | next => exact .next (next_follows h)
  | tick =>
    simp only [Machine.step] at h
    split at h
    · exact .tick (callScheduler_pc (m := m.setFc .timer) h)
    · cases h

theorem Goes.pc_of_ne {a : Action} {n : ℕ} (h : Goes m m' a) (hn : n ≠ m.running) :
    m'.pc n = m.pc n := by
  cases h with
  | enters c hu hpc => rw [hpc, update_of_ne hn]
  | next hf => exact hf.pc_of_ne hn
  | init hpc => rw [hpc]
  | tick hpc => rw [hpc]

end MyPthread.Api
