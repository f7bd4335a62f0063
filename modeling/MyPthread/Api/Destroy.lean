import MyPthread.Api.Mutex
import MyPthread.Api.Waiters

/-!
# The destruction of a mutex

`my_pthread_mutex_destroy` takes a mutex for idle when it is not locked, its flag
`ready_waiting` is 0 and no thread in the waiting queue has its `mid`.  The flag is set by an
unlock that wakes a waiter and cleared by every lock, so that it says nothing of the waiters
woken before.  What keeps the answer right is that an unlock that finds no waiter leaves no
thread in a lock.
-/

namespace MyPthread.Api

open MyPthread.Lib MyPthread.Sched Function

variable {m m' : Machine} {a : Action} {e : Bool} {p : Pc} {j k n : ℕ}
  {ok : Machine → Action → Prop}

/-- The loop of `my_pthread_mutex_destroy` over the waiting queue. -/
def destroyLoop (mid : ℤ) (s : State) : ℕ → Option ℕ → Option ℤ
  | _, none => some 0
  | 0, some _ => none
  | fuel + 1, some temp =>
    if mid = (s.tcb temp).mid then some (-1) else destroyLoop mid s fuel (s.next temp)

/-- `my_pthread_mutex_destroy` of an initialised mutex, once a thread has been created: the
value that it returns.  `none`: the waiting queue has no end.  Before the first create the
source reads the queue through `NULL` and faults, where here it is empty. -/
def Machine.mutexDestroy (k : ℕ) (m : Machine) : Option ℤ :=
  if (m.mutexes k).locked ≠ 0 then some (-1)
  else if (m.mutexes k).readyWaiting ≠ 0 then some (-1)
  else destroyLoop (m.mutexes k).mid m.sched m.nodeCount (m.sched.queues .waitingQueue).front

theorem destroyLoop_eq_zero {mid : ℤ} {s : State} {fuel : ℕ} {temp : Option ℕ} {l : List ℕ}
    (hl : Path s.next temp l) (h : destroyLoop mid s fuel temp = some 0) :
    ∀ n ∈ l, (s.tcb n).mid ≠ mid := by
  induction fuel generalizing temp l with
  | zero =>
    cases temp with
    | none =>
      rw [hl.eq_nil]
      nofun
    | some n => cases h
  | succ fuel ih =>
    cases temp with
    | none =>
      rw [hl.eq_nil]
      nofun
    | some n =>
      obtain ⟨t, rfl⟩ := List.head?_eq_some_iff.mp hl.head.symm
      rw [destroyLoop] at h
      split at h
      · cases h
      · rename_i hne
        rintro d (_ | ⟨_, hd⟩)
        · exact Ne.symm hne
        · exact ih hl.2 h d hd

theorem mutexDestroy_eq_zero (h : m.mutexDestroy k = some 0) :
    (m.mutexes k).locked = 0 ∧ (m.mutexes k).readyWaiting = 0 ∧
      destroyLoop (m.mutexes k).mid m.sched m.nodeCount (m.sched.queues .waitingQueue).front =
        some 0 := by
  unfold Machine.mutexDestroy at h
  split at h
  · cases h
  · rename_i hl
    split at h
    · cases h
    · rename_i hr
      exact ⟨not_not.mp hl, not_not.mp hr, h⟩

/-! ## Runs of prompt calls -/

/-- The step is the entry of a call. -/
def Action.isCall : Action → Bool
  | .call _ => true
  | _ => false

/-- The states of the runs in which no tick falls between the entry of a call and its first
statement; `e`: the last step was the entry of a call. -/
inductive Prompt (ok : Machine → Action → Prop) : Machine → Bool → Prop where
  | init : Prompt ok Machine.init false
  | step {m m' : Machine} {e : Bool} {a : Action} : Prompt ok m e → ok m a →
      (a = .tick → e = false) → m.step a = some m' → Prompt ok m' a.isCall

theorem Prompt.reachable (h : Prompt ok m e) : Reachable ok m := by
  induction h with
  | init => exact .init
  | step _ ha _ hs ih => exact .step ih ha hs

/-- No tick comes right after the entry of a call. -/
def prompt : Bool → List Action → Bool
  | _, [] => true
  | e, a :: as => (decide (a ≠ .tick) || !e) && prompt a.isCall as

theorem Prompt.run [∀ m a, Decidable (ok m a)] {as : List Action} (h : Prompt ok m e)
    (hr : m.run ok as = some m') (hp : prompt e as = true) :
    Prompt ok m' (as.foldl (fun _ a ↦ a.isCall) e) := by
  induction as generalizing m e with
  | nil =>
    cases hr
    exact h
  | cons a as ih =>
    rw [Machine.run] at hr
    split at hr
    · rename_i ha
      obtain ⟨m₁, hs, hr⟩ := Option.bind_eq_some_iff.mp hr
      rw [prompt, Bool.and_eq_true, Bool.or_eq_true, decide_eq_true_eq, Bool.not_eq_true'] at hp
      refine ih (.step h ha (fun hat ↦ ?_) hs) hr hp.2
      exact hp.1.resolve_left (not_not.mpr hat)
    · cases hr

theorem Prompt.exists_of_run (ok : Machine → Action → Prop) [∀ m a, Decidable (ok m a)]
    (as : List Action) {α : Type} (f : Machine → α) {x : α}
    (hr : (Machine.init.run ok as).map f = some x) (hp : prompt false as = true) :
    ∃ m e, Prompt ok m e ∧ f m = x := by
  obtain ⟨m, hm, hx⟩ := Option.map_eq_some_iff.mp hr
  exact ⟨m, _, Prompt.init.run hm hp, hx⟩

/-! ## Threads in a lock -/

/-- An unlock that finds no waiter leaves no thread in a lock of its mutex. -/
def LeavesNone (m : Machine) (a : Action) : Prop :=
  ∀ k, m.here = .unlock k (.loop none) → a = .next →
    ∀ n, n < m.nodeCount → m.pc n ≠ .lock k .test

/-- The mutex is locked or flagged, or no thread is in a lock of it but one that has just
entered the call. -/
def Accounted (m : Machine) (e : Bool) (k : ℕ) : Prop :=
  (m.mutexes k).locked ≠ 0 ∨ (m.mutexes k).readyWaiting = 1 ∨
    ∀ n, m.pc n = .lock k .test → n = m.running ∧ e = true

/-- Every mutex is accounted for, but the one that is given up. -/
def AllAccounted (m : Machine) (e : Bool) : Pc → Prop
  | .lock k .flag | .lock k .mid | .lock k .call | .lock k .tid | .lock k .ready =>
    (m.mutexes k).locked ≠ 0 ∧ ∀ j, Accounted m e j
  | .unlock k .tid | .unlock k .front | .unlock k (.loop _) | .unlock k (.found _)
  | .unlock k (.next _) | .unlock k (.mid _) | .unlock k (.priority _) | .unlock k .ready =>
    ∀ j, j ≠ k → Accounted m e j
  | _ => ∀ j, Accounted m e j

/-- What the runs keep. -/
structure DestroyInv (m : Machine) (e : Bool) : Prop where
  mutex : MutexInv m
  others : ∀ n, n ≠ m.running → (m.pc n).quiescent = true
  accounted : AllAccounted m e m.here

/-- A step of the executing thread after which it is at no test of the lock. -/
theorem Accounted.step (h : Accounted m e j) (hpc : m'.pc = update m.pc m.running p)
    (hp : p ≠ .lock j .test) (hm : m'.mutexes = m.mutexes) : Accounted m' false j := by
  rw [Accounted, hm]
  refine h.imp_right (Or.imp_right fun h n hn ↦ ?_)
  rw [hpc] at hn
  by_cases hnr : n = m.running
  · rw [hnr, update_self] at hn
    exact absurd hn hp
  · rw [update_of_ne hnr] at hn
    exact absurd (h n hn).1 hnr

theorem mutexes_modifyMutex {f : Mutex → Mutex} :
    (m.modifyMutex k f).mutexes k = f (m.mutexes k) := update_self ..

/-- A store to another mutex. -/
theorem Accounted.modifyMutex {f : Mutex → Mutex} (h : Accounted m e j) (hj : j ≠ k) :
    Accounted (m.modifyMutex k f) e j := by
  rw [Accounted, show (m.modifyMutex k f).mutexes j = m.mutexes j from update_of_ne hj _ _]
  exact h

theorem accounted_of_locked (h : (m.mutexes k).locked ≠ 0) : Accounted m e k := .inl h

theorem accounted_of_ready (h : (m.mutexes k).readyWaiting = 1) : Accounted m e k := .inr (.inl h)

theorem allAccounted_of_mutex (h : p.mutex? = none ∨ p.quiescent = true) :
    AllAccounted m e p ↔ ∀ j, Accounted m e j := by
  rcases h with h | h
  · cases p <;> first | rfl | cases h
  · unfold Pc.quiescent at h
    split at h <;> first | rfl | cases h

/-- A statement outside lock and unlock leaves the mutexes. -/
theorem next_mutexes (hf : Flow m) (hm : m.here.mutex? = none) (h : m.next = some m') :
    m'.mutexes = m.mutexes := by
  have hcall : ∀ {g p}, ({ m with gone := g }.goto p).callScheduler = some m' →
      m'.mutexes = m.mutexes := by
    intro g p hs
    simp only [Machine.callScheduler, Option.bind_eq_bind, Option.bind_eq_some_iff,
      Option.pure_def, Option.some.injEq] at hs
    obtain ⟨s, -, rfl⟩ := hs
    rfl
  unfold Machine.next at h
  cases hhere : m.here with
  | user =>
    rw [hhere] at h
    cases h
  | create c =>
    rw [hhere] at h
    cases c with
    | node =>
      simp only [Machine.stepCreate] at h
      split at h
      · simp only [Option.bind_eq_bind, Option.bind_eq_some_iff, Option.pure_def,
          Option.some.injEq] at h
        obtain ⟨s₁, -, s₂, -, rfl⟩ := h
        rfl
      · cases h
        rfl
    | enqueue n =>
      simp only [Machine.stepCreate, Option.bind_eq_bind, Option.bind_eq_some_iff, Option.pure_def,
        Option.some.injEq] at h
      obtain ⟨s, -, rfl⟩ := h
      rfl
    | count =>
      cases h
      rfl
    | call => exact hcall (g := m.gone) h
  | yield y =>
    rw [hhere] at h
    by_cases hy : y = .call
    · subst hy
      exact hcall (g := m.gone) h
    · obtain ⟨p, hl⟩ := stepYield_local hf.valid hy h
      exact (hl.mutexes hm).1
  | exit x =>
    rw [hhere] at h
    by_cases hx : x = .call
    · subst hx
      exact hcall h
    · obtain ⟨p, hl⟩ := stepExit_local hf.valid hx h
      exact (hl.mutexes hm).1
  | join t l =>
    rw [hhere] at h
    by_cases hj : l = .call
    · subst hj
      exact hcall h
    · obtain ⟨p, hl⟩ := stepJoin_local hf.valid hj h
      exact (hl.mutexes hm).1
  | lock | unlock =>
    rw [hhere] at hm
    cases hm

/-- A statement of `my_pthread_mutex_lock`. -/
theorem DestroyInv.lock {l : LockPc} (hi : DestroyInv m e) (hhere : m.here = .lock k l)
    (hl : l ≠ .call) (h : m.stepLock k l = some m') :
    ∃ p, m'.pc = update m.pc m.running p ∧ m'.running = m.running ∧ AllAccounted m' false p := by
  have ha := hi.accounted
  rw [hhere] at ha
  cases l with
  | test =>
    simp only [Machine.stepLock] at h
    split at h <;> cases h
    · rename_i hlocked
      exact ⟨.lock k .flag, rfl, rfl, hlocked, fun j ↦ (ha j).step rfl (by rintro ⟨⟩) rfl⟩
    · exact ⟨.lock k .set, rfl, rfl, fun j ↦ (ha j).step rfl (by rintro ⟨⟩) rfl⟩
  | flag =>
    cases h
    exact ⟨.lock k .mid, rfl, rfl, ha.1, fun j ↦ (ha.2 j).step rfl (by rintro ⟨⟩) rfl⟩
  | mid =>
    simp only [Machine.stepLock, Option.bind_eq_bind, Option.bind_eq_some_iff, Option.pure_def,
      Option.some.injEq] at h
    obtain ⟨c, -, rfl⟩ := h
    exact ⟨.lock k .call, rfl, rfl, ha.1, fun j ↦ (ha.2 j).step rfl (by rintro ⟨⟩) rfl⟩
  | call => exact absurd rfl hl
  | set =>
    cases h
    have hself : ((m.modifyMutex k fun x ↦ { x with locked := 1 }).mutexes k).locked ≠ 0 := by
      rw [mutexes_modifyMutex]
      exact one_ne_zero
    refine ⟨.lock k .tid, rfl, rfl, hself, fun j ↦ ?_⟩
    rcases eq_or_ne j k with rfl | hj
    · exact accounted_of_locked hself
    · exact ((ha j).modifyMutex hj).step rfl (by rintro ⟨⟩) rfl
  | tid =>
    simp only [Machine.stepLock, Option.bind_eq_bind, Option.bind_eq_some_iff, Option.pure_def,
      Option.some.injEq] at h
    obtain ⟨c, -, rfl⟩ := h
    have hself : ((m.modifyMutex k fun x ↦ { x with tid := (m.sched.tcb c).tid }).mutexes k).locked
        ≠ 0 := by
      rw [mutexes_modifyMutex]
      exact ha.1
    refine ⟨.lock k .ready, rfl, rfl, hself, fun j ↦ ?_⟩
    rcases eq_or_ne j k with rfl | hj
    · exact accounted_of_locked hself
    · exact ((ha.2 j).modifyMutex hj).step rfl (by rintro ⟨⟩) rfl
  | ready =>
    cases h
    have hself : ((m.modifyMutex k fun x ↦ { x with readyWaiting := 0 }).mutexes k).locked ≠ 0 := by
      rw [mutexes_modifyMutex]
      exact ha.1
    refine ⟨.lock k .ret, rfl, rfl, fun j ↦ ?_⟩
    rcases eq_or_ne j k with rfl | hj
    · exact accounted_of_locked hself
    · exact ((ha.2 j).modifyMutex hj).step rfl (by rintro ⟨⟩) rfl
  | ret =>
    cases h
    exact ⟨.user, rfl, rfl, fun j ↦ (ha j).step rfl (by rintro ⟨⟩) rfl⟩

/-- The call of `scheduler` in a lock: the mutex is locked. -/
theorem DestroyInv.lockCall (hi : DestroyInv m e) (hhere : m.here = .lock k .call)
    (h : m.stepLock k .call = some m') : AllAccounted m' false m'.here := by
  have ha := hi.accounted
  rw [hhere] at ha
  simp only [Machine.stepLock, Machine.callScheduler, Option.bind_eq_bind, Option.bind_eq_some_iff,
    Option.pure_def, Option.some.injEq] at h
  obtain ⟨s, -, rfl⟩ := h
  refine (allAccounted_of_mutex (.inr ?_)).mpr fun j ↦ ?_
  · show (update m.pc m.running (.lock k .test) _).quiescent = true
    by_cases hr : s.current.getD m.running = m.running
    · rw [show (m.goto (.lock k .test)).running = m.running from rfl, hr, update_self]
      rfl
    · rw [show (m.goto (.lock k .test)).running = m.running from rfl, update_of_ne hr]
      exact hi.others _ hr
  · rcases eq_or_ne j k with rfl | hj
    · exact .inl ha.1
    · refine (ha.2 j).step (p := .lock k .test) rfl ?_ rfl
      rintro ⟨⟩
      exact hj rfl

/-- A statement of `my_pthread_mutex_unlock`. -/
theorem DestroyInv.unlock {u : UnlockPc} (hi : DestroyInv m e) (hn : LeavesNone m .next)
    (hhere : m.here = .unlock k u) (h : m.stepUnlock k u = some m') :
    ∃ p, m'.pc = update m.pc m.running p ∧ m'.running = m.running ∧ AllAccounted m' false p := by
  have ha := hi.accounted
  rw [hhere] at ha
  cases u with
  | test =>
    simp only [Machine.stepUnlock] at h
    split at h <;> cases h
    · exact ⟨.user, rfl, rfl, fun j ↦ (ha j).step rfl (by rintro ⟨⟩) rfl⟩
    · exact ⟨.unlock k .owner, rfl, rfl, fun j ↦ (ha j).step rfl (by rintro ⟨⟩) rfl⟩
  | owner =>
    simp only [Machine.stepUnlock, Option.bind_eq_bind, Option.bind_eq_some_iff] at h
    obtain ⟨c, -, h⟩ := h
    split at h <;> cases h
    · exact ⟨.user, rfl, rfl, fun j ↦ (ha j).step rfl (by rintro ⟨⟩) rfl⟩
    · exact ⟨.unlock k .clear, rfl, rfl, fun j ↦ (ha j).step rfl (by rintro ⟨⟩) rfl⟩
  | clear =>
    cases h
    refine ⟨.unlock k .tid, rfl, rfl, fun j hj ↦ ?_⟩
    exact ((ha j).modifyMutex (f := fun x ↦ { x with locked := 0 }) hj).step rfl (by rintro ⟨⟩) rfl
  | tid =>
    cases h
    refine ⟨.unlock k .front, rfl, rfl, fun j hj ↦ ?_⟩
    exact ((ha j hj).modifyMutex hj).step rfl (by rintro ⟨⟩) rfl
  | front =>
    cases h
    exact ⟨.unlock k (.loop _), rfl, rfl, fun j hj ↦ (ha j hj).step rfl (by rintro ⟨⟩) rfl⟩
  | loop temp =>
    cases temp with
    | none =>
      -- no waiter has been found
      cases h
      refine ⟨.user, rfl, rfl, fun j ↦ ?_⟩
      rcases eq_or_ne j k with rfl | hj
      · refine Accounted.step (e := e) (.inr (.inr fun n hpc ↦ absurd hpc ?_)) rfl
          (by rintro ⟨⟩) rfl
        rcases lt_or_ge n m.nodeCount with hlt | hge
        · exact hn j hhere rfl n hlt
        · rw [hi.mutex.flow.unused n hge]
          rintro ⟨⟩
      · exact (ha j hj).step rfl (by rintro ⟨⟩) rfl
    | some n =>
      cases h
      exact ⟨.unlock k (.found n), rfl, rfl, fun j hj ↦ (ha j hj).step rfl (by rintro ⟨⟩) rfl⟩
  | found n =>
    simp only [Machine.stepUnlock] at h
    split at h <;> cases h
    · exact ⟨.unlock k (.mid n), rfl, rfl, fun j hj ↦ (ha j hj).step rfl (by rintro ⟨⟩) rfl⟩
    · exact ⟨.unlock k (.next n), rfl, rfl, fun j hj ↦ (ha j hj).step rfl (by rintro ⟨⟩) rfl⟩
  | next n =>
    cases h
    exact ⟨.unlock k (.loop _), rfl, rfl, fun j hj ↦ (ha j hj).step rfl (by rintro ⟨⟩) rfl⟩
  | mid n =>
    cases h
    exact ⟨.unlock k (.priority n), rfl, rfl, fun j hj ↦ (ha j hj).step rfl (by rintro ⟨⟩) rfl⟩
  | priority n =>
    cases h
    exact ⟨.unlock k .ready, rfl, rfl, fun j hj ↦ (ha j hj).step rfl (by rintro ⟨⟩) rfl⟩
  | ready =>
    cases h
    refine ⟨.unlock k .move, rfl, rfl, fun j ↦ ?_⟩
    rcases eq_or_ne j k with rfl | hj
    · have hself : ((m.modifyMutex j fun x ↦ { x with readyWaiting := 1 }).mutexes j).readyWaiting
          = 1 := by rw [mutexes_modifyMutex]
      exact accounted_of_ready hself
    · exact ((ha j hj).modifyMutex hj).step rfl (by rintro ⟨⟩) rfl
  | move =>
    simp only [Machine.stepUnlock, Option.bind_eq_bind, Option.bind_eq_some_iff, Option.pure_def,
      Option.some.injEq] at h
    obtain ⟨s, -, rfl⟩ := h
    exact ⟨.unlock k .ret, rfl, rfl, fun j ↦ (ha j).step rfl (by rintro ⟨⟩) rfl⟩
  | ret =>
    cases h
    exact ⟨.user, rfl, rfl, fun j ↦ (ha j).step rfl (by rintro ⟨⟩) rfl⟩

theorem DestroyInv.accounted_next (hi : DestroyInv m e) (hn : LeavesNone m .next)
    (h : m.next = some m') : AllAccounted m' false m'.here := by
  have hstay : ∀ {p}, m'.pc = update m.pc m.running p → m'.running = m.running →
      AllAccounted m' false p → AllAccounted m' false m'.here := by
    intro p hpc hr hw
    rwa [Machine.here, hr, hpc, update_self]
  obtain ⟨p, hp⟩ := next_pc h
  cases hhere : m.here with
  | lock k l =>
    have hl : m.stepLock k l = some m' := by
      rw [Machine.next, hhere] at h
      exact h
    by_cases hcall : l = .call
    · subst hcall
      exact hi.lockCall hhere hl
    · obtain ⟨p, hpc, hr, hw⟩ := hi.lock hhere hcall hl
      exact hstay hpc hr hw
  | unlock k u =>
    have hu : m.stepUnlock k u = some m' := by
      rw [Machine.next, hhere] at h
      exact h
    obtain ⟨p, hpc, hr, hw⟩ := hi.unlock hn hhere hu
    exact hstay hpc hr hw
  | user | create | yield | exit | join =>
    have hk : m.here.mutex? = none := by
      rw [hhere]
      rfl
    have hpk : p.mutex? = none := hp.mutex.elim id fun h ↦ h.trans hk
    have hacc : ∀ j, Accounted m' false j := by
      intro j
      refine ((allAccounted_of_mutex (.inl hk)).mp hi.accounted j).step hp.pc ?_
        (next_mutexes hi.mutex.flow hk h)
      rintro rfl
      cases hpk
    by_cases hr : m'.running = m.running
    · exact hstay hp.pc hr ((allAccounted_of_mutex (.inl hpk)).mpr hacc)
    · refine (allAccounted_of_mutex (.inr ?_)).mpr hacc
      rw [Machine.here, hp.pc, update_of_ne hr]
      exact hi.others _ hr

theorem lockWindow_of_quiescent (h : p.quiescent = true) : p.lockWindow = false := by
  unfold Pc.quiescent at h
  split at h <;> first | rfl | cases h

theorem DestroyInv.step (hi : DestroyInv m e) (hw : Whole m a) (hn : LeavesNone m a)
    (he : a = .tick → e = false) (h : m.step a = some m') : DestroyInv m' a.isCall := by
  have hmutex : MutexInv m' := hi.mutex.step (fun ha ↦ lockWindow_of_quiescent (hw ha)) h
  cases a with
  | call c =>
    simp only [Machine.step] at h
    split at h
    · rename_i hu
      cases h
      have hacc := (allAccounted_of_mutex (.inl (by rw [hu.1]; rfl))).mp hi.accounted
      have hpc : ∀ n, n ≠ m.running → (m.goto c.entry).pc n = m.pc n :=
        fun n hn ↦ update_of_ne hn ..
      refine ⟨hmutex, fun n hn ↦ ?_, ?_⟩
      · rw [hpc n hn]
        exact hi.others n hn
      · have hall : ∀ j, Accounted (m.goto c.entry) true j := by
          intro j
          refine (hacc j).imp_right (Or.imp_right fun h n hn ↦ ⟨?_, rfl⟩)
          by_contra hnr
          rw [hpc n hnr] at hn
          exact hnr (h n hn).1
        show AllAccounted (m.goto c.entry) true (update m.pc m.running c.entry m.running)
        rw [update_self]
        cases c <;> exact hall
    · cases h
  | init =>
    simp only [Machine.step] at h
    split at h
    · rename_i hu
      cases h
      have hk : m.initMutex.here.mutex? = none := by
        rw [show m.initMutex.here = .user from hu]
        rfl
      have hacc := (allAccounted_of_mutex (.inl hk)).mp hi.accounted
      refine ⟨hmutex, hi.others, (allAccounted_of_mutex (.inl hk)).mpr fun j ↦ ?_⟩
      rcases eq_or_ne j m.mutexCount with rfl | hj
      · -- no thread is in a call on a mutex that is not initialised
        refine .inr (.inr fun n hpc ↦ absurd (hi.mutex.flow.mutex n m.mutexCount ?_) (lt_irrefl _))
        rw [show m.pc n = _ from hpc]
        rfl
      · have hm : m.initMutex.mutexes j = m.mutexes j := update_of_ne hj ..
        rw [Accounted, hm]
        refine (hacc j).imp_right (Or.imp_right fun h n hpc ↦ ?_)
        have hnr : n = m.running := (h n hpc).1
        rw [hnr, show m.initMutex.pc m.running = .user from hu] at hpc
        cases hpc
    · cases h
  | next => exact ⟨hmutex, quiescent_next hi.others h, hi.accounted_next hn h⟩
  | tick =>
    simp only [Machine.step] at h
    split at h
    · obtain ⟨-, hm, -, hpc⟩ := callScheduler_mid (hi.mutex.flow.setFc .timer) h
      have hquiet : ∀ n, (m'.pc n).quiescent = true := by
        intro n
        rw [hpc]
        by_cases hn : n = m.running
        · rw [hn]
          exact hw rfl
        · exact hi.others n hn
      refine ⟨hmutex, fun n _ ↦ hquiet n, (allAccounted_of_mutex (.inr (hquiet _))).mpr fun j ↦ ?_⟩
      have hacc := (allAccounted_of_mutex (.inr (hw rfl))).mp hi.accounted j
      rw [Accounted, hm, hpc]
      refine hacc.imp_right (Or.imp_right fun h n hn ↦ ?_)
      rw [he rfl] at h
      cases (h n hn).2
    · cases h

theorem destroyInv_init : DestroyInv Machine.init false :=
  ⟨mutexInv_init, fun _ _ ↦ rfl, fun _ ↦ .inr (.inr nofun)⟩

theorem Prompt.destroyInv (h : Prompt (fun m a ↦ Whole m a ∧ LeavesNone m a) m e) :
    DestroyInv m e := by
  induction h with
  | init => exact destroyInv_init
  | step _ ha he hs ih => exact ih.step ha.1 ha.2 he hs

/-- In the runs of atomic calls where an unlock that finds no waiter leaves no thread in a
lock of its mutex: when `my_pthread_mutex_destroy` returns 0, no thread holds the mutex,
waits for it in the waiting queue or is in a lock of it. -/
theorem destroy_idle (h : Prompt (fun m a ↦ Whole m a ∧ LeavesNone m a) m e)
    (hu : m.here = .user) (hd : m.mutexDestroy k = some 0) :
    (∀ n, (k, n) ∉ m.holders) ∧
      (∀ l, Path m.sched.next (m.sched.queues .waitingQueue).front l →
        ∀ n ∈ l, (m.sched.tcb n).mid ≠ (m.mutexes k).mid) ∧
      ∀ n p, m.pc n ≠ .lock k p := by
  have hi := h.destroyInv
  obtain ⟨hlocked, hready, hloop⟩ := mutexDestroy_eq_zero hd
  refine ⟨fun n hn ↦ ?_, fun l hl ↦ destroyLoop_eq_zero hl hloop, fun n p hpc ↦ ?_⟩
  · obtain ⟨own, he⟩ := hi.mutex.exclusion
    have hown := (he.held k n hn).1
    rw [(he.locked k).mp hlocked] at hown
    cases hown
  · have hnr : n ≠ m.running := by
      rintro rfl
      exact nomatch hu.symm.trans hpc
    have hq := hi.others n hnr
    rw [hpc] at hq
    cases p with
    | test =>
      rcases (allAccounted_of_mutex (.inl (by rw [hu]; rfl))).mp hi.accounted k with h | h | h
      · exact h hlocked
      · rw [hready] at h
        cases h
      · exact hnr (h n hpc).1
    | _ => cases hq

instance (m : Machine) (a : Action) : Decidable (LeavesNone m a) :=
  match h : m.here with
  | .unlock k (.loop none) => decidable_of_iff (a = .next →
        ∀ n, n < m.nodeCount → m.pc n ≠ .lock k .test) <| by
      constructor
      · rintro hf k' hh
        cases h.symm.trans hh
        exact hf
      · exact fun hf ↦ hf k h
  | .user | .create _ | .yield _ | .exit _ | .join _ _ | .lock _ _ | .unlock _ .test
  | .unlock _ .owner | .unlock _ .clear | .unlock _ .tid | .unlock _ .front
  | .unlock _ (.loop (some _)) | .unlock _ (.found _)
  | .unlock _ (.next _) | .unlock _ (.mid _) | .unlock _ (.priority _) | .unlock _ .ready
  | .unlock _ .move | .unlock _ .ret =>
    .isTrue fun k hh ↦ by cases h.symm.trans hh

/-- A thread locks a mutex, unlocks it and destroys it. -/
theorem destroy_idle_run : ∃ m : Machine, m.mutexDestroy 0 = some 0 ∧ m.nodeCount = 2 ∧
    (∀ n, (0, n) ∉ m.holders) ∧ ∀ n p, m.pc n ≠ .lock 0 p := by
  obtain ⟨m, e, hm, hx⟩ := Prompt.exists_of_run (fun m a ↦ Whole m a ∧ LeavesNone m a)
    [.init, .call .create, .next, .next, .next, .call (.lock 0), .next, .next, .next, .next, .next,
      .call (.unlock 0), .next, .next, .next, .next, .next, .next]
    (fun m ↦ (m.here, m.mutexDestroy 0, m.nodeCount)) (show _ = some (Pc.user, some 0, 2) by decide)
    rfl
  simp only [Prod.mk.injEq] at hx
  obtain ⟨hu, hd, hcount⟩ := hx
  obtain ⟨hheld, -, hpc⟩ := destroy_idle hm hu hd
  exact ⟨m, hd, hcount, hheld, hpc⟩

/-- Thread 0 waits for the mutex that thread 1 holds.  Thread 1 unlocks it, which wakes
thread 0, and locks and unlocks it once more: the mutex counts as idle while thread 0 is in
its lock. -/
theorem not_destroy_idle : ∃ m e, Prompt (fun m a ↦ Whole m a) m e ∧ m.here = .user ∧
    m.mutexDestroy 0 = some 0 ∧ m.pc 0 = .lock 0 .test := by
  obtain ⟨m, e, hm, hx⟩ := Prompt.exists_of_run (fun m a ↦ Whole m a)
    [.init, .call .create, .next, .next, .next, .call (.lock 0), .next, .next, .next, .next, .next,
      .tick, .call (.lock 0), .next, .next, .next, .next,
      .call (.unlock 0), .next, .next, .next, .next, .next, .next, .next, .next, .next, .next,
      .next, .next,
      .call (.lock 0), .next, .next, .next, .next, .next,
      .call (.unlock 0), .next, .next, .next, .next, .next, .next]
    (fun m ↦ (m.here, m.mutexDestroy 0, m.pc 0))
    (show _ = some (Pc.user, some 0, Pc.lock 0 .test) by decide) rfl
  simp only [Prod.mk.injEq] at hx
  exact ⟨m, e, hm, hx⟩

end MyPthread.Api
