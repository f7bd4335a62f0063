import MyPthread.Api.Flow

/-!
# Mutual exclusion

`my_pthread_mutex_lock` tests `locked` and sets it in two statements, and
`my_pthread_mutex_unlock` gives the mutex up before it takes its name off it.
When no tick arrives between the two statements of either pair, a mutex has one
owner and knows it; a tick in the first gap lets two threads in.

`Exclusion` is the protocol alone: what stage of a lock or unlock each thread is
at, who holds which mutex, and the mutexes.
-/

namespace MyPthread.Api

open MyPthread.Sched Function

/-- The stages of a lock or unlock that matter for who owns the mutex. -/
inductive Stage where
  /-- `locked` was read as 0, and is to be set. -/
  | set
  /-- `locked` is set, and the owner is to be stored. -/
  | name
  /-- The owner is stored, and the call has not returned. -/
  | named
  /-- The caller was found to be the owner, and `locked` is to be cleared. -/
  | clear
  /-- `locked` is cleared, and the owner is to be removed. -/
  | unname
deriving DecidableEq, Repr

/-- The stage a thread is at, of which mutex. -/
def Pc.stage : Pc → Option (ℕ × Stage)
  | .lock k .set => some (k, .set)
  | .lock k .tid => some (k, .name)
  | .lock k .ready | .lock k .ret => some (k, .named)
  | .unlock k .clear => some (k, .clear)
  | .unlock k .tid => some (k, .unname)
  | _ => none

/-- The protocol of the mutexes: `own k` is the thread that has set `locked` of the
mutex `k` and not cleared it. -/
structure Exclusion (own : ℕ → Option ℕ) (stage : ℕ → Option (ℕ × Stage))
    (holders : List (ℕ × ℕ)) (mutexes : ℕ → Mutex) : Prop where
  locked : ∀ k, (mutexes k).locked = 0 ↔ own k = none
  held : ∀ k n, (k, n) ∈ holders → own k = some n ∧ (mutexes k).tid = n
  set : ∀ k n, stage n = some (k, .set) → own k = none
  name : ∀ k n, stage n = some (k, .name) → own k = some n
  named : ∀ k n, stage n = some (k, .named) → own k = some n ∧ (mutexes k).tid = n
  clear : ∀ k n, stage n = some (k, .clear) → (k, n) ∈ holders
  unname : ∀ k n, stage n = some (k, .unname) → own k = none
  owned : ∀ k n, own k = some n →
    (k, n) ∈ holders ∨ stage n = some (k, .name) ∨ stage n = some (k, .named)
  tid : ∀ k, (mutexes k).tid = -1 ∨
    ∃ n : ℕ, (mutexes k).tid = n ∧ (own k = some n ∨ stage n = some (k, .unname))

section Exclusion

variable {own : ℕ → Option ℕ} {stage : ℕ → Option (ℕ × Stage)} {holders : List (ℕ × ℕ)}
  {mutexes : ℕ → Mutex} {k r : ℕ}

/-- The loop of a lock ends: `locked` was read as 0. -/
theorem Exclusion.enterSet (he : Exclusion own stage holders mutexes) (hr : stage r = none)
    (hl : (mutexes k).locked = 0) :
    Exclusion own (update stage r (some (k, .set))) holders mutexes := by
  obtain ⟨h1, h2, h3, h4, h5, h6, h7, h8, h9⟩ := he
  constructor <;> grind [Function.update_apply]

/-- `locked` is set. -/
theorem Exclusion.storeLocked (he : Exclusion own stage holders mutexes)
    (hr : stage r = some (k, .set))
    (hw : ∀ n j, n ≠ r → stage n ≠ some (j, .set) ∧ stage n ≠ some (j, .unname)) :
    Exclusion (update own k (some r)) (update stage r (some (k, .name))) holders
      (update mutexes k { mutexes k with locked := 1 }) := by
  obtain ⟨h1, h2, h3, h4, h5, h6, h7, h8, h9⟩ := he
  constructor <;> grind [Function.update_apply]

/-- The owner is stored. -/
theorem Exclusion.storeTid (he : Exclusion own stage holders mutexes)
    (hr : stage r = some (k, .name)) :
    Exclusion own (update stage r (some (k, .named))) holders
      (update mutexes k { mutexes k with tid := r }) := by
  obtain ⟨h1, h2, h3, h4, h5, h6, h7, h8, h9⟩ := he
  constructor <;> grind [Function.update_apply]

/-- The lock returns. -/
theorem Exclusion.lockReturns (he : Exclusion own stage holders mutexes)
    (hr : stage r = some (k, .named)) :
    Exclusion own (update stage r none) ((k, r) :: holders) mutexes := by
  obtain ⟨h1, h2, h3, h4, h5, h6, h7, h8, h9⟩ := he
  constructor <;> grind [Function.update_apply]

/-- The caller of an unlock is the owner. -/
theorem Exclusion.enterClear (he : Exclusion own stage holders mutexes) (hr : stage r = none)
    (ht : (mutexes k).tid = r) :
    Exclusion own (update stage r (some (k, .clear))) holders mutexes := by
  obtain ⟨h1, h2, h3, h4, h5, h6, h7, h8, h9⟩ := he
  constructor <;> grind [Function.update_apply]

/-- `locked` is cleared. -/
theorem Exclusion.storeUnlocked (he : Exclusion own stage holders mutexes)
    (hr : stage r = some (k, .clear)) :
    Exclusion (update own k none) (update stage r (some (k, .unname)))
      (holders.filter (· ≠ (k, r))) (update mutexes k { mutexes k with locked := 0 }) := by
  obtain ⟨h1, h2, h3, h4, h5, h6, h7, h8, h9⟩ := he
  constructor <;> grind [Function.update_apply]

/-- The owner is removed. -/
theorem Exclusion.removeTid (he : Exclusion own stage holders mutexes)
    (hr : stage r = some (k, .unname)) :
    Exclusion own (update stage r none) holders
      (update mutexes k { mutexes k with tid := -1 }) := by
  obtain ⟨h1, h2, h3, h4, h5, h6, h7, h8, h9⟩ := he
  constructor <;> grind [Function.update_apply]

/-- Only `locked` and the owner of a mutex count. -/
theorem Exclusion.congr (he : Exclusion own stage holders mutexes) {mutexes' : ℕ → Mutex}
    (h : ∀ k, (mutexes' k).locked = (mutexes k).locked ∧ (mutexes' k).tid = (mutexes k).tid) :
    Exclusion own stage holders mutexes' := by
  obtain ⟨h1, h2, h3, h4, h5, h6, h7, h8, h9⟩ := he
  constructor <;> grind

/-- A mutex no one owns is initialised. -/
theorem Exclusion.initMutex (he : Exclusion own stage holders mutexes) (hk : own k = none)
    {mid : ℤ} : Exclusion own stage holders (update mutexes k ⟨mid, 0, -1, 0⟩) := by
  obtain ⟨h1, h2, h3, h4, h5, h6, h7, h8, h9⟩ := he
  constructor <;> grind [Function.update_apply]

end Exclusion

namespace Pc

/-- Between the two statements of a pair that must not be split. -/
def lockWindow : Pc → Bool
  | .lock _ .set | .unlock _ .tid => true
  | p => p.inCreate

theorem lockWindow_of_stage {p : Pc} {k : ℕ}
    (h : p.stage = some (k, .set) ∨ p.stage = some (k, .unname)) : p.lockWindow = true := by
  unfold stage at h
  split at h <;> simp at h
  · rfl
  · rfl

theorem stage_eq_none {p : Pc} (h : p.mutex? = none) : p.stage = none := by
  cases p <;> first | rfl | cases h

theorem mutex?_of_stage {p : Pc} {k : ℕ} {t : Stage} (h : p.stage = some (k, t)) :
    p.mutex? = some k := by
  unfold stage at h
  split at h <;> simp at h
  all_goals
    obtain ⟨rfl, rfl⟩ := h
    rfl

theorem inCreate_of_lockWindow {p : Pc} (h : p.lockWindow = false) : p.inCreate = false := by
  unfold lockWindow at h
  split at h
  · cases h
  · cases h
  · exact h

end Pc

/-- The stages of the threads. -/
def Machine.stages (m : Machine) : ℕ → Option (ℕ × Stage) := fun n ↦ (m.pc n).stage

/-- What holds between threads and mutexes. -/
structure MutexInv (m : Machine) : Prop where
  flow : Flow m
  exclusion : ∃ own, Exclusion own m.stages m.holders m.mutexes
  window : ∀ n, n ≠ m.running → (m.pc n).lockWindow = false

section MutexInv

variable {m m' : Machine} {p : Pc}

theorem stages_update (hpc : m'.pc = update m.pc m.running p) :
    m'.stages = update m.stages m.running p.stage := by
  funext n
  unfold Machine.stages
  rw [hpc]
  by_cases hn : n = m.running
  · rw [hn, update_self, update_self]
  · rw [update_of_ne hn, update_of_ne hn]

/-- A step between statements that do not matter for the mutexes. -/
theorem stages_eq (hpc : m'.pc = update m.pc m.running p) (hp : p.stage = m.here.stage) :
    m'.stages = m.stages := by
  rw [stages_update hpc, hp]
  exact update_eq_self m.running m.stages

theorem MutexInv.window_update (hi : MutexInv m) {n : ℕ} (hn : n ≠ m.running) :
    (update m.pc m.running p n).lockWindow = false := by
  rw [update_of_ne hn]
  exact hi.window n hn

/-- A step of the executing thread that leaves the mutexes alone. -/
theorem MutexInv.same (hi : MutexInv m) (hf : Flow m') (hr : m'.running = m.running)
    (hpc : m'.pc = update m.pc m.running p) (hp : p.stage = m.here.stage)
    (hm : ∀ k, (m'.mutexes k).locked = (m.mutexes k).locked ∧
      (m'.mutexes k).tid = (m.mutexes k).tid) (hh : m'.holders = m.holders) : MutexInv m' := by
  obtain ⟨own, he⟩ := hi.exclusion
  refine ⟨hf, ⟨own, ?_⟩, fun n hn ↦ ?_⟩
  · rw [stages_eq hpc hp, hh]
    exact he.congr hm
  · rw [hr] at hn
    rw [hpc]
    exact hi.window_update hn

/-- A step of the executing thread that is one of the protocol. -/
theorem MutexInv.of_exclusion (hi : MutexInv m) (hf : Flow m') (hr : m'.running = m.running)
    (hpc : m'.pc = update m.pc m.running p) {own : ℕ → Option ℕ}
    (he : Exclusion own (update m.stages m.running p.stage) m'.holders m'.mutexes) :
    MutexInv m' := by
  refine ⟨hf, ⟨own, ?_⟩, fun n hn ↦ ?_⟩
  · rw [stages_update hpc]
    exact he
  · rw [hr] at hn
    rw [hpc]
    exact hi.window_update hn

/-- A call of `scheduler`. -/
theorem MutexInv.callScheduler (hi : MutexInv m) (hf : Flow m') (hw : m.here.lockWindow = false)
    (h : m.callScheduler = some m') : MutexInv m' := by
  simp only [Machine.callScheduler, Option.bind_eq_bind, Option.bind_eq_some_iff, Option.pure_def,
    Option.some.injEq] at h
  obtain ⟨s, -, rfl⟩ := h
  refine ⟨hf, hi.exclusion, fun n _ ↦ ?_⟩
  by_cases hn : n = m.running
  · rw [hn]
    exact hw
  · exact hi.window n hn

/-- A statement that calls `scheduler`. -/
theorem MutexInv.call (hi : MutexInv m) {after : Pc} {gone : List ℕ} (hf : Flow m')
    (hs : m.here.stage = none) (ha : after.stage = none) (hw : after.lockWindow = false)
    (hg : Flow ({ m with gone := gone }.goto after))
    (h : ({ m with gone := gone }.goto after).callScheduler = some m') : MutexInv m' := by
  have hgoto : MutexInv ({ m with gone := gone }.goto after) :=
    hi.same hg rfl rfl (ha.trans hs.symm) (fun _ ↦ ⟨rfl, rfl⟩) rfl
  refine hgoto.callScheduler hf ?_ h
  show (update m.pc m.running after m.running).lockWindow = false
  rw [update_self]
  exact hw

/-- A statement of `my_pthread_mutex_lock`. -/
theorem MutexInv.lock (hi : MutexInv m) {k : ℕ} {l : LockPc} (hf : Flow m')
    (hhere : m.here = .lock k l) (h : m.stepLock k l = some m') : MutexInv m' := by
  obtain ⟨own, he⟩ := hi.exclusion
  have hst : ∀ {x}, (Pc.lock k l).stage = x → m.stages m.running = x := fun hx ↦ by
    rw [Machine.stages, ← hx, ← hhere]
  cases l with
  | test =>
    simp only [Machine.stepLock] at h
    split at h <;> cases h
    · exact hi.same hf rfl rfl (by rw [hhere]; rfl) (fun _ ↦ ⟨rfl, rfl⟩) rfl
    · rename_i hl
      exact hi.of_exclusion hf rfl rfl (he.enterSet (hst rfl) (not_not.mp hl))
  | flag =>
    cases h
    exact hi.same hf rfl rfl (by rw [hhere]; rfl) (fun _ ↦ ⟨rfl, rfl⟩) rfl
  | mid =>
    simp only [Machine.stepLock, Option.bind_eq_bind, Option.bind_eq_some_iff, Option.pure_def,
      Option.some.injEq] at h
    obtain ⟨c, -, rfl⟩ := h
    exact hi.same hf rfl rfl (by rw [hhere]; rfl) (fun _ ↦ ⟨rfl, rfl⟩) rfl
  | call =>
    exact hi.call hf (by rw [hhere]; rfl) rfl rfl
      (hi.flow.gotoAfter (by rw [hhere]; rfl) (.inr (by rw [hhere]; rfl)) rfl) h
  | set =>
    cases h
    refine hi.of_exclusion hf rfl rfl (he.storeLocked (hst rfl) fun n j hn ↦ ?_)
    have hw := hi.window n hn
    constructor
    · intro hs
      rw [Pc.lockWindow_of_stage (.inl hs)] at hw
      cases hw
    · intro hs
      rw [Pc.lockWindow_of_stage (.inr hs)] at hw
      cases hw
  | tid =>
    simp only [Machine.stepLock, Option.bind_eq_bind, Option.bind_eq_some_iff, Option.pure_def,
      Option.some.injEq] at h
    obtain ⟨c, hc, rfl⟩ := h
    obtain rfl := hi.flow.current c hc
    have htid : ((m.sched.tcb m.running).tid : ℤ) = m.running := by
      rw [hi.flow.tid _ hi.flow.running]
    have hnext := he.storeTid (hst rfl)
    rw [← htid] at hnext
    exact hi.of_exclusion hf rfl rfl (p := .lock k .ready) hnext
  | ready =>
    cases h
    refine hi.same hf rfl rfl (by rw [hhere]; rfl) (fun j ↦ ?_) rfl
    show (update m.mutexes k _ j).locked = _ ∧ (update m.mutexes k _ j).tid = _
    by_cases hj : j = k
    · subst hj
      rw [update_self]
      exact ⟨rfl, rfl⟩
    · rw [update_of_ne hj]
      exact ⟨rfl, rfl⟩
  | ret =>
    cases h
    exact hi.of_exclusion hf rfl rfl (p := .user) (he.lockReturns (hst rfl))

/-- A statement of `my_pthread_mutex_unlock`. -/
theorem MutexInv.unlock (hi : MutexInv m) {k : ℕ} {u : UnlockPc} (hf : Flow m')
    (hhere : m.here = .unlock k u) (h : m.stepUnlock k u = some m') : MutexInv m' := by
  obtain ⟨own, he⟩ := hi.exclusion
  have hst : ∀ {x}, (Pc.unlock k u).stage = x → m.stages m.running = x := fun hx ↦ by
    rw [Machine.stages, ← hx, ← hhere]
  cases u with
  | test =>
    simp only [Machine.stepUnlock] at h
    split at h <;> cases h
    · exact hi.same hf rfl rfl (by rw [hhere]; rfl) (fun _ ↦ ⟨rfl, rfl⟩) rfl
    · exact hi.same hf rfl rfl (by rw [hhere]; rfl) (fun _ ↦ ⟨rfl, rfl⟩) rfl
  | owner =>
    simp only [Machine.stepUnlock, Option.bind_eq_bind, Option.bind_eq_some_iff] at h
    obtain ⟨c, hc, h⟩ := h
    obtain rfl := hi.flow.current c hc
    split at h <;> cases h
    · exact hi.same hf rfl rfl (by rw [hhere]; rfl) (fun _ ↦ ⟨rfl, rfl⟩) rfl
    · rename_i ht
      rw [hi.flow.tid _ hi.flow.running, not_not] at ht
      exact hi.of_exclusion hf rfl rfl (he.enterClear (hst rfl) ht)
  | clear =>
    cases h
    exact hi.of_exclusion hf rfl rfl (p := .unlock k .tid) (he.storeUnlocked (hst rfl))
  | tid =>
    cases h
    exact hi.of_exclusion hf rfl rfl (p := .unlock k .front) (he.removeTid (hst rfl))
  | front =>
    cases h
    exact hi.same hf rfl rfl (by rw [hhere]; rfl) (fun _ ↦ ⟨rfl, rfl⟩) rfl
  | loop temp =>
    cases temp <;> cases h
    · exact hi.same hf rfl rfl (by rw [hhere]; rfl) (fun _ ↦ ⟨rfl, rfl⟩) rfl
    · exact hi.same hf rfl rfl (by rw [hhere]; rfl) (fun _ ↦ ⟨rfl, rfl⟩) rfl
  | found n =>
    simp only [Machine.stepUnlock] at h
    split at h <;> cases h
    · exact hi.same hf rfl rfl (by rw [hhere]; rfl) (fun _ ↦ ⟨rfl, rfl⟩) rfl
    · exact hi.same hf rfl rfl (by rw [hhere]; rfl) (fun _ ↦ ⟨rfl, rfl⟩) rfl
  | next n =>
    cases h
    exact hi.same hf rfl rfl (by rw [hhere]; rfl) (fun _ ↦ ⟨rfl, rfl⟩) rfl
  | mid n =>
    cases h
    exact hi.same hf rfl rfl (by rw [hhere]; rfl) (fun _ ↦ ⟨rfl, rfl⟩) rfl
  | priority n =>
    cases h
    exact hi.same hf rfl rfl (by rw [hhere]; rfl) (fun _ ↦ ⟨rfl, rfl⟩) rfl
  | ready =>
    cases h
    refine hi.same hf rfl rfl (by rw [hhere]; rfl) (fun j ↦ ?_) rfl
    show (update m.mutexes k _ j).locked = _ ∧ (update m.mutexes k _ j).tid = _
    by_cases hj : j = k
    · subst hj
      rw [update_self]
      exact ⟨rfl, rfl⟩
    · rw [update_of_ne hj]
      exact ⟨rfl, rfl⟩
  | move =>
    simp only [Machine.stepUnlock, Option.bind_eq_bind, Option.bind_eq_some_iff, Option.pure_def,
      Option.some.injEq] at h
    obtain ⟨s, -, rfl⟩ := h
    exact hi.same hf rfl rfl (by rw [hhere]; rfl) (fun _ ↦ ⟨rfl, rfl⟩) rfl
  | ret =>
    cases h
    exact hi.same hf rfl rfl (by rw [hhere]; rfl) (fun _ ↦ ⟨rfl, rfl⟩) rfl

/-- A statement outside the mutex calls that does not call `scheduler`. -/
theorem MutexInv.local (hi : MutexInv m) (hf : Flow m') (hl : LocalStep m m' p)
    (hk : m.here.mutex? = none) : MutexInv m' := by
  have hp : p.mutex? = none := by
    rcases hl.mutex with hp | hp
    · exact hp
    · exact hp.trans hk
  obtain ⟨hm, hh⟩ := hl.mutexes hk
  refine hi.same hf hl.running hl.pc ?_ (fun k ↦ by rw [hm]; exact ⟨rfl, rfl⟩) hh
  rw [Pc.stage_eq_none hp, Pc.stage_eq_none hk]

/-- A statement of `my_pthread_create`. -/
theorem MutexInv.create (hi : MutexInv m) {c : CreatePc} (hf : Flow m')
    (hhere : m.here = .create c) (h : m.stepCreate c = some m') : MutexInv m' := by
  cases c with
  | node =>
    simp only [Machine.stepCreate] at h
    split at h
    · simp only [Option.bind_eq_bind, Option.bind_eq_some_iff, Option.pure_def,
        Option.some.injEq] at h
      obtain ⟨s₁, -, s₂, -, rfl⟩ := h
      exact hi.same hf rfl rfl (by rw [hhere]; rfl) (fun _ ↦ ⟨rfl, rfl⟩) rfl
    · cases h
      exact hi.same hf rfl rfl (by rw [hhere]; rfl) (fun _ ↦ ⟨rfl, rfl⟩) rfl
  | enqueue n =>
    simp only [Machine.stepCreate, Option.bind_eq_bind, Option.bind_eq_some_iff, Option.pure_def,
      Option.some.injEq] at h
    obtain ⟨s, -, rfl⟩ := h
    exact hi.same hf rfl rfl (by rw [hhere]; rfl) (fun _ ↦ ⟨rfl, rfl⟩) rfl
  | count =>
    cases h
    exact hi.same hf rfl rfl (by rw [hhere]; rfl) (fun _ ↦ ⟨rfl, rfl⟩) rfl
  | call =>
    exact hi.call hf (by rw [hhere]; rfl) rfl rfl
      (hi.flow.gotoAfter (by rw [hhere]; rfl) (.inl rfl) rfl) h

/-- Every statement keeps the invariant. -/
theorem MutexInv.next (hi : MutexInv m) (hf : Flow m') (h : m.next = some m') : MutexInv m' := by
  unfold Machine.next at h
  cases hhere : m.here with
  | user =>
    rw [hhere] at h
    cases h
  | create c =>
    rw [hhere] at h
    exact hi.create hf hhere h
  | yield y =>
    rw [hhere] at h
    by_cases hy : y = .call
    · subst hy
      exact hi.call hf (by rw [hhere]; rfl) rfl rfl
        (hi.flow.gotoAfter (by rw [hhere]; rfl) (.inl rfl) rfl) h
    · obtain ⟨p, hl⟩ := stepYield_local hi.flow.valid hy h
      exact hi.local hf hl (by rw [hhere]; rfl)
  | exit x =>
    rw [hhere] at h
    by_cases hx : x = .call
    · subst hx
      exact hi.call hf (by rw [hhere]; rfl) rfl rfl
        (hi.flow.gotoAfter (by rw [hhere]; rfl) (.inl rfl) rfl) h
    · obtain ⟨p, hl⟩ := stepExit_local hi.flow.valid hx h
      exact hi.local hf hl (by rw [hhere]; rfl)
  | join t j =>
    rw [hhere] at h
    by_cases hj : j = .call
    · subst hj
      exact hi.call hf (by rw [hhere]; rfl) rfl rfl
        (hi.flow.gotoAfter (by rw [hhere]; rfl) (.inl rfl) rfl) h
    · obtain ⟨p, hl⟩ := stepJoin_local hi.flow.valid hj h
      exact hi.local hf hl (by rw [hhere]; rfl)
  | lock k l =>
    rw [hhere] at h
    exact hi.lock hf hhere h
  | unlock k u =>
    rw [hhere] at h
    exact hi.unlock hf hhere h

/-- A mutex that is not initialised has no owner. -/
theorem MutexInv.own_mutexCount (hi : MutexInv m) {own : ℕ → Option ℕ}
    (he : Exclusion own m.stages m.holders m.mutexes) : own m.mutexCount = none := by
  cases hown : own m.mutexCount with
  | none => rfl
  | some n =>
    rcases he.owned _ n hown with h | h | h
    · exact absurd (hi.flow.held _ h).1 (lt_irrefl _)
    · exact absurd (hi.flow.mutex n _ (Pc.mutex?_of_stage h)) (lt_irrefl _)
    · exact absurd (hi.flow.mutex n _ (Pc.mutex?_of_stage h)) (lt_irrefl _)

end MutexInv

/-- No tick falls between the test of `locked` and the store to it, nor between the
two stores by which a mutex is given up, nor splits the creation of a thread. -/
def WholeLock (m : Machine) (a : Action) : Prop := a = .tick → m.here.lockWindow = false

section WholeLock

variable {m m' : Machine} {a : Action}

/-- Every step outside the windows keeps the invariant. -/
theorem MutexInv.step (hi : MutexInv m) (hw : WholeLock m a) (h : m.step a = some m') :
    MutexInv m' := by
  have hf : Flow m' := hi.flow.step (fun ha ↦ Pc.inCreate_of_lockWindow (hw ha)) h
  cases a with
  | call c =>
    simp only [Machine.step] at h
    split at h
    · rename_i hc
      cases h
      refine hi.same hf rfl rfl ?_ (fun _ ↦ ⟨rfl, rfl⟩) rfl
      rw [hc.1]
      cases c <;> rfl
    · cases h
  | init =>
    simp only [Machine.step] at h
    split at h
    · cases h
      obtain ⟨own, he⟩ := hi.exclusion
      exact ⟨hf, ⟨own, he.initMutex (hi.own_mutexCount he)⟩, hi.window⟩
    · cases h
  | next => exact hi.next hf h
  | tick =>
    simp only [Machine.step] at h
    split at h
    · have hfc : MutexInv (m.setFc .timer) := ⟨hi.flow.setFc _, hi.exclusion, hi.window⟩
      exact hfc.callScheduler hf (hw rfl) h
    · cases h

theorem mutexInv_init : MutexInv Machine.init := by
  refine ⟨flow_init, ⟨fun _ ↦ none, ?_⟩, fun _ _ ↦ rfl⟩
  constructor
  · exact fun _ ↦ ⟨fun _ ↦ rfl, fun _ ↦ rfl⟩
  · exact fun _ _ h ↦ nomatch h
  · exact fun _ _ h ↦ nomatch h
  · exact fun _ _ h ↦ nomatch h
  · exact fun _ _ h ↦ nomatch h
  · exact fun _ _ h ↦ nomatch h
  · exact fun _ _ h ↦ nomatch h
  · exact fun _ _ h ↦ nomatch h
  · exact fun _ ↦ .inl rfl

/-- Outside the windows, a mutex has one holder at a time, whose `tid` it carries. -/
theorem mutual_exclusion (h : Reachable WholeLock m) :
    (∀ k n n', (k, n) ∈ m.holders → (k, n') ∈ m.holders → n = n') ∧
      ∀ k n, (k, n) ∈ m.holders → (m.mutexes k).tid = (m.sched.tcb n).tid := by
  have hi : MutexInv m := h.invariant mutexInv_init fun _ _ _ hi hw hs ↦ hi.step hw hs
  obtain ⟨own, he⟩ := hi.exclusion
  constructor
  · intro k n n' hn hn'
    exact Option.some.inj ((he.held k n hn).1.symm.trans (he.held k n' hn').1)
  · intro k n hn
    rw [(he.held k n hn).2, hi.flow.tid n (hi.flow.held _ hn).2]

instance (m : Machine) (a : Action) : Decidable (WholeLock m a) :=
  inferInstanceAs (Decidable (_ → _))

/-- A thread locks a mutex that another one then asks for. -/
theorem mutual_exclusion_run : ∃ m : Machine, m.holders = [(0, 1)] ∧ m.here = .lock 0 .flag ∧
    (m.mutexes 0).tid = (m.sched.tcb 1).tid := by
  obtain ⟨m, hm, hx⟩ := Reachable.exists_of_run WholeLock
    [.init, .call .create, .next, .next, .next, .call (.lock 0), .next, .next, .next, .next, .next,
      .tick, .call (.lock 0), .next] (fun m ↦ (m.holders, m.here))
    (show _ = some ([(0, 1)], Pc.lock 0 .flag) by decide)
  obtain ⟨hh, hhere⟩ := Prod.mk.inj hx
  exact ⟨m, hh, hhere, (mutual_exclusion hm).2 0 1 (hh ▸ List.mem_singleton_self _)⟩

/-- A tick between the test of `locked` and the store to it lets two threads in. -/
theorem not_mutual_exclusion : ∃ m, Reachable (fun _ _ ↦ True) m ∧
    (0, 0) ∈ m.holders ∧ (0, 1) ∈ m.holders := by
  obtain ⟨m, hm, hx⟩ := Reachable.exists_of_run (fun _ _ ↦ True)
    [.init, .call .create, .next, .next, .next, .call (.lock 0), .next, .tick, .call (.lock 0),
      .next, .next, .next, .next, .next, .tick, .next, .next, .next, .next] Machine.holders
    (show _ = some [(0, 1), (0, 0)] by decide)
  exact ⟨m, hm, by simp [hx], by simp [hx]⟩

end WholeLock

end MyPthread.Api
