import MyPthread.System.Process
import MyPthread.Paging.Protection
import MyPthread.Api.Requests

/-!
# The sessions of a process

A run of the process is, for the memory manager, a session: a switch of the library is a
switch of the session, also where an exit makes it without `lock_mem`.  The allocation that
`my_pthread_exit` begins with has closed the region, and the thread accesses no memory
afterwards.
-/

namespace MyPthread.System

open MyPthread.Sched MyPthread.Api MyPthread.Paging Function

variable {B : Paging.Block} {ucontext : ℕ} {p p' : Process} {m m' : Machine} {q : Mlfq}
  {a : Action} {log log' : List Entry} {s s' : State} {c : Paging.Call} {r : ℕ}

/-! ## The library -/

theorem callScheduler_eq {g : List ℕ} {pc : ℕ → Pc}
    (h : ({ m with gone := g, pc := pc } : Machine).callScheduler = some m') :
    ∃ s, scheduler Machine.setitimer m.nodeCount m.sched = some s ∧
      m'.running = s.current.getD m.running := by
  simp only [Machine.callScheduler, Option.bind_eq_bind, Option.bind_eq_some_iff, Option.pure_def,
    Option.some.injEq] at h
  obtain ⟨s, hs, rfl⟩ := h
  exact ⟨s, hs, rfl⟩

/-- The thread that executes after a call of `scheduler` is the one it left in `current`. -/
theorem step_scheduling (h : m.step a = some m') (hs : scheduling m a = some s) :
    ∃ s', scheduler Machine.setitimer m.nodeCount s = some s' ∧
      m'.running = s'.current.getD m.running := by
  cases a with
  | call c => cases hs
  | init => cases hs
  | tick =>
    cases hs
    simp only [Machine.step] at h
    split at h
    · exact callScheduler_eq (m := m.setFc .timer) (g := m.gone) h
    · cases h
  | next =>
    simp only [scheduling] at hs
    split at hs <;> rename_i hc
    · cases hs
      have hn : m.next = some m' := h
      unfold Machine.next at hn
      split at hn <;> rename_i hh <;> rw [hh] at hc
      · cases hn
      · rename_i x
        cases x <;> cases hc
        exact callScheduler_eq (g := m.gone) hn
      · rename_i x
        cases x <;> cases hc
        exact callScheduler_eq (g := m.gone) hn
      · rename_i x
        cases x <;> cases hc
        exact callScheduler_eq (g := m.running :: m.gone) hn
      · rename_i t x
        cases x <;> cases hc
        exact callScheduler_eq (g := m.gone) hn
      · rename_i k x
        cases x <;> cases hc
        exact callScheduler_eq (g := m.gone) hn
      · cases hc
    · cases hs

/-- The request stored is the one in `fc`. -/
theorem fc_of_stored {f : FlagCalled} (hi : Inv m q) (hcur : m.sched.current = some m.running)
    (hmem : m.running ∈ q (.rqs r)) (hst : m.here.stored = some f) : m.sched.fc = f := by
  cases hi.mode with
  | boot hm => cases hm.current.symm.trans hcur
  | launch hm =>
    rcases hm.here with hh | hh <;> rw [hh] at hst <;> cases hst
  | active i hm => exact hm.stored f hst
  | stuck k hm =>
    rw [hm.runnable] at hmem
    cases hmem
  | finished hm => cases hm.current.symm.trans hcur

/-- Only a thread that exits loses the processor without `lock_mem`. -/
theorem exitCall_of_unlocked (hi : Inv m q) (h : m.step a = some m')
    (hl : (scheduling m a).any (schedulerLocks Machine.setitimer m.nodeCount) = false)
    (hrun : m'.running ≠ m.running) : m.here = .exit .call ∧ a = .next := by
  cases hi.turn h with
  | stays _ hst => exact absurd hst.running hrun
  | serves f i hserves _ hreq =>
    -- a switch for another request is by `swapcontext`
    have hsame : ∀ {s : State}, scheduling m a = some s → s.current = m.sched.current →
        s.fc ≠ .pexit → False := by
      intro s hs hcur hf
      obtain ⟨s', hs', hrun'⟩ := step_scheduling h hs
      rw [hs] at hl
      have hcur' := scheduler_current hs' hl hf
      rw [hcur', hcur, hserves.current] at hrun'
      exact hrun hrun'
    cases hreq with
    | timer => exact (hsame rfl rfl (by rintro ⟨⟩)).elim
    | first hh hfc =>
      have hs : scheduling m .next = some m.sched := by rw [scheduling, hh]; rfl
      exact (hsame hs rfl (by rw [hfc]; rintro ⟨⟩)).elim
    | stored hst hcall =>
      have hs : scheduling m .next = some m.sched := by rw [scheduling, if_pos hcall]
      have hfc := fc_of_stored hi hserves.current hserves.mem hst
      rcases Pc.stored_of_isCall hcall hst with ⟨-, rfl⟩ | ⟨hh, -⟩ | ⟨t, -, rfl⟩ | ⟨k, -, rfl⟩
      · exact (hsame hs rfl (by rw [hfc]; rintro ⟨⟩)).elim
      · exact ⟨hh, rfl⟩
      · exact (hsame hs rfl (by rw [hfc]; rintro ⟨⟩)).elim
      · exact (hsame hs rfl (by rw [hfc]; rintro ⟨⟩)).elim

/-- A thread gets into an exit by its allocation. -/
theorem exiting_of_edge {w w' : Pc} (he : Edge m w w') (hx : w'.exiting = true) :
    w.exiting = true ∨ ∃ v, w = .exit (.node v) := by
  cases he with
  | exitNode v => exact .inr ⟨v, rfl⟩
  | exitFlag | exitBody | exitDone | exitPush => exact .inl rfl
  | _ => cases hx

/-- A thread that goes on was in its exit, or has just allocated. -/
theorem exiting_step (h : m.step a = some m') (hrun : m'.running = m.running)
    (hx : m'.here.exiting = true) :
    m.here.exiting = true ∨ ∃ v, a = .next ∧ m.here = .exit (.node v) := by
  have hhere : m'.here = m'.pc m.running := congrArg m'.pc hrun
  rw [hhere] at hx
  cases step_goes h with
  | enters c hu hpc =>
    rw [hpc, update_self] at hx
    cases c <;> cases hx
  | next hf =>
    rcases exiting_of_edge hf.edge hx with hx | ⟨v, hh⟩
    · exact .inl hx
    · exact .inr ⟨v, rfl, hh⟩
  | init hpc =>
    rw [hpc] at hx
    exact .inl hx
  | tick hpc =>
    rw [hpc] at hx
    exact .inl hx

/-! ## The manager -/

theorem foldl_library_current (ns : List ℕ) (s : Manager) :
    (ns.foldl (fun s x ↦ library x s) s).current = s.current := by
  induction ns generalizing s with
  | nil => rfl
  | cons n ns ih => exact ih (library n s)

/-- The calls of the threads in a log. -/
abbrev own (log : List Entry) : List Entry := log.filter fun e ↦ ofThread e.call

theorem pointers_own (log : List Entry) : pointers (own log) = pointers log := by
  induction log with
  | nil => rfl
  | cons e log ih =>
    obtain ⟨t, c, r⟩ := e
    cases c with
    | malloc x => exact congrArg (fun live ↦ afterMalloc live t x r) ih
    | free x => exact congrArg (fun live ↦ afterFree live t x) ih
    | load | store | switch | library => exact ih

theorem onePage_own {s : Manager} : OnePage c s (own log) ↔ OnePage c s log := by
  cases c with
  | malloc | switch | library => exact Iff.rfl
  | free | load | store => rw [OnePage, OnePage, pointers_own]

theorem session_library {s : Manager} (h : Session B OnePage s log) (ns : List ℕ) :
    ∃ log', Session B OnePage (ns.foldl (fun s x ↦ library x s) s) log' ∧
      own log' = own log := by
  induction ns generalizing s log with
  | nil => exact ⟨log, h, rfl⟩
  | cons n ns ih =>
    have hn : Session B OnePage (library n s) (⟨s.current, .library n, 0⟩ :: log) :=
      .call h trivial rfl
    obtain ⟨log', h', hown⟩ := ih hn
    exact ⟨log', h', hown⟩

/-- A switch with the region closed is one by `lock_mem`. -/
theorem switch_of_closed {s : Manager} (h : s.accessible = fun _ ↦ false) (t : ℕ) :
    { s with current := t } = switch t s := by
  rw [switch, Manager.protect, ← h]

/-- A call of a thread does not switch. -/
theorem exec_current {s s' : Manager} (hsd : Sound B s) (hct : Counted s) (hc : ofThread c = true)
    (hcall : OnePage c s log) (hs : c.exec B s = some (r, s')) : s'.current = s.current := by
  cases c with
  | malloc x =>
    have hx : x ≤ 4064 := hcall
    obtain ⟨-, -, ho⟩ := myallocate_outcome hsd hct (by omega) hs
    cases ho with
    | refused _ _ _ hst => exact hst.current
    | served _ _ _ hst => exact hst.current
    | grown _ _ _ _ he => exact he.current
  | free x => exact (mydeallocate_steady (exec_free.mp hs).2).current
  | load a => exact (access_steady (exec_load.mp hs).1).current
  | store a v =>
    obtain ⟨s₁, hs₁, rfl⟩ := store_eq_some.mp (exec_store.mp hs).2
    exact (access_steady hs₁).current
  | switch | library => cases hc

/-! ## Runs -/

/-- The process is in a session of its threads, whose calls are `log`. -/
structure Follows (B : Paging.Block) (p : Process) (log : List Entry) : Prop where
  inv : ∃ q, Inv p.threads q
  session : ∃ log', Session B OnePage p.memory log' ∧ own log' = log
  current : p.memory.current = p.threads.running
  closed : p.threads.here.exiting = true → p.memory.accessible = fun _ ↦ false

/-- A step of the library, for the manager. -/
theorem api_eq_some (h : p.api ucontext a = some p') : ∃ m',
    p.threads.step a = some m' ∧ p'.threads = m' ∧
    ((scheduling p.threads a).any
        (schedulerLocks Machine.setitimer p.threads.nodeCount) = true ∧
      p'.memory = switch m'.running
        ((requests ucontext p.threads a).foldl (fun s x ↦ library x s) p.memory) ∨
    (scheduling p.threads a).any
        (schedulerLocks Machine.setitimer p.threads.nodeCount) = false ∧
      p'.memory = { (requests ucontext p.threads a).foldl (fun s x ↦ library x s) p.memory with
        current := m'.running }) := by
  simp only [Process.api, Option.bind_eq_bind, Option.bind_eq_some_iff, Option.pure_def,
    Option.some.injEq] at h
  obtain ⟨m', hm', rfl⟩ := h
  refine ⟨m', hm', rfl, ?_⟩
  cases hl : (scheduling p.threads a).any
      (schedulerLocks Machine.setitimer p.threads.nodeCount) with
  | true => exact .inl ⟨rfl, rfl⟩
  | false => exact .inr ⟨rfl, rfl⟩

theorem Follows.api (h : Follows B p log) (hc : Careful p.threads a)
    (hs : p.api ucontext a = some p') : Follows B p' log := by
  obtain ⟨q, hi⟩ := h.inv
  obtain ⟨log₀, hsession, hown⟩ := h.session
  obtain ⟨m', hm', rfl, hmem⟩ := api_eq_some hs
  obtain ⟨log₁, h₁, hown₁⟩ := session_library hsession (requests ucontext p.threads a)
  have hcur₁ := foldl_library_current (requests ucontext p.threads a) p.memory
  have hinv : ∃ q, Inv p'.threads q := ⟨_, hi.step hc hm'⟩
  -- a switch in the session
  have hswitch : p'.memory = switch p'.threads.running
      ((requests ucontext p.threads a).foldl (fun s x ↦ library x s) p.memory) →
      Follows B p' log := by
    intro hmem
    refine ⟨hinv, ⟨⟨p.threads.running, .switch p'.threads.running, 0⟩ :: log₁, ?_,
      hown₁.trans hown⟩, ?_, fun _ ↦ ?_⟩
    · rw [hmem, ← h.current, ← hcur₁]
      exact .call h₁ trivial rfl
    · rw [hmem]
      rfl
    · rw [hmem]
      rfl
  rcases hmem with ⟨-, hmem⟩ | ⟨hl, hmem⟩
  · exact hswitch hmem
  by_cases hrun : p'.threads.running = p.threads.running
  · have hmem' : p'.memory =
        (requests ucontext p.threads a).foldl (fun s x ↦ library x s) p.memory := by
      rw [hmem, hrun, ← h.current, ← hcur₁]
    refine ⟨hinv, ⟨log₁, hmem' ▸ h₁, hown₁.trans hown⟩, ?_, fun hx ↦ ?_⟩
    · rw [hmem', hcur₁, h.current, hrun]
    · rw [hmem']
      rcases exiting_step hm' hrun hx with hx | ⟨v, rfl, hh⟩
      · have hreq : requests ucontext p.threads a = [] := by
          cases a with
          | next =>
            unfold requests
            simp only
            split <;> rename_i hh
            · rw [hh] at hx
              cases hx
            · rw [hh] at hx
              cases hx
            · rfl
          | call c => rfl
          | init => rfl
          | tick => rfl
        rw [hreq]
        exact h.closed hx
      · have hreq : requests ucontext p.threads .next = [24] := by rw [requests, hh]
        rw [hreq]
        rfl
  · -- the exit has closed the region
    obtain ⟨hh, rfl⟩ := exitCall_of_unlocked hi hm' hl hrun
    have hreq : requests ucontext p.threads .next = [] := by rw [requests, hh]
    rw [hreq] at hswitch hmem
    refine hswitch (hmem.trans ?_)
    exact switch_of_closed (h.closed (by rw [hh]; rfl)) _

/-- A call of a thread, for the manager. -/
theorem exec_eq_some : p.exec B c = some (r, p') ↔
    (ofThread c = true ∧ p.threads.here = .user ∧ p.threads.sched.current ≠ none) ∧
      ∃ s', c.exec B p.memory = some (r, s') ∧ ⟨p.threads, s'⟩ = p' := by
  rw [Process.exec]
  split_ifs with hc
  · rw [Option.map_eq_some_iff, and_iff_right hc]
    constructor
    · rintro ⟨⟨r', s'⟩, hs, heq⟩
      cases heq
      exact ⟨s', hs, rfl⟩
    · rintro ⟨s', hs, rfl⟩
      exact ⟨(r, s'), hs, rfl⟩
  · constructor
    · rintro ⟨⟩
    · rintro ⟨hc', -⟩
      exact absurd hc' hc

theorem Follows.exec (h : Follows B p log) (hcall : OnePage c p.memory log)
    (hs : p.exec B c = some (r, p')) : Follows B p' (⟨p.threads.running, c, r⟩ :: log) := by
  obtain ⟨log₀, hsession, rfl⟩ := h.session
  obtain ⟨⟨hc, hu, -⟩, s', he, rfl⟩ := exec_eq_some.mp hs
  have hcall₀ := onePage_own.mp hcall
  have hown : own (⟨p.memory.current, c, r⟩ :: log₀) = ⟨p.threads.running, c, r⟩ :: own log₀ := by
    rw [own, List.filter_cons_of_pos (by exact hc), h.current]
  refine ⟨h.inv, ⟨_, .call hsession hcall₀ he, hown⟩, ?_, fun hx ↦ ?_⟩
  · obtain ⟨hsd, hct⟩ := hsession.reachable.sound
    exact (exec_current hsd hct hc hcall he).trans h.current
  · rw [hu] at hx
    cases hx

theorem Run.follows (h : Run B ucontext p log) : Follows B p log := by
  induction h with
  | start hb =>
    exact ⟨⟨_, inv_init⟩, ⟨[], .start hb, rfl⟩, rfl, fun _ ↦ rfl⟩
  | api _ hc hs ih => exact ih.api hc hs
  | exec _ hcall hs ih => exact ih.exec hcall hs

/-- What a thread may call returns. -/
theorem Run.exists_exec (h : Run B ucontext p log) (hpc : p.memory.pageCounter ≤ 1596)
    (hc : ofThread c = true) (hcall : OnePage c p.memory log) (hu : p.threads.here = .user)
    (hcur : p.threads.sched.current ≠ none) : ∃ r p', p.exec B c = some (r, p') := by
  obtain ⟨log', hsession, rfl⟩ := h.follows.session
  obtain ⟨hsd, hct⟩ := hsession.reachable.sound
  obtain ⟨ch, lay, A, -, hshows⟩ := hsession.exists_run hpc
  obtain ⟨r, s', hs'⟩ := hshows.exists_exec hsd hct hpc (onePage_own.mp hcall)
  exact ⟨r, _, exec_eq_some.mpr ⟨⟨hc, hu, hcur⟩, s', hs', rfl⟩⟩

/-- A call makes at most one page. -/
theorem Run.exec_pageCounter_le (h : Run B ucontext p log) (hcall : OnePage c p.memory log)
    (hs : p.exec B c = some (r, p')) : p'.memory.pageCounter ≤ p.memory.pageCounter + 1 := by
  obtain ⟨log', hsession, -⟩ := h.follows.session
  obtain ⟨hsd, hct⟩ := hsession.reachable.sound
  obtain ⟨⟨hc, -⟩, s', hs', rfl⟩ := exec_eq_some.mp hs
  have hsteady (hst : Steady p.memory s') : s'.pageCounter ≤ p.memory.pageCounter + 1 :=
    hst.pageCounter.le.trans (Nat.le_succ _)
  cases c with
  | malloc x =>
    have hx : x ≤ 4064 := hcall
    obtain ⟨-, -, ho⟩ := myallocate_outcome hsd hct (by omega) hs'
    cases ho with
    | refused _ _ _ hst => exact hsteady hst
    | served _ _ _ hst => exact hsteady hst
    | grown _ _ _ hmk he =>
      rw [Makes, if_neg (not_lt.mpr hx)] at hmk
      rw [hmk.1] at he
      exact he.pageCounter.le
  | free x => exact hsteady (mydeallocate_steady (exec_free.mp hs').2)
  | load a => exact hsteady (access_steady (exec_load.mp hs').1)
  | store a v =>
    obtain ⟨s₁, hs₁, rfl⟩ := store_eq_some.mp (exec_store.mp hs').2
    exact (access_steady hs₁).pageCounter.le.trans (Nat.le_succ _)
  | switch | library => cases hc

/-- What a thread may call continues the run. -/
theorem Run.exists_call (h : Run B ucontext p log) (hpc : p.memory.pageCounter ≤ 1596)
    (hc : ofThread c = true) (hcall : OnePage c p.memory log) (hu : p.threads.here = .user)
    (hcur : p.threads.sched.current ≠ none) :
    ∃ r p', Run B ucontext p' (⟨p.threads.running, c, r⟩ :: log) ∧ p'.threads = p.threads ∧
      p'.memory.pageCounter ≤ p.memory.pageCounter + 1 := by
  obtain ⟨r, p', hs⟩ := h.exists_exec hpc hc hcall hu hcur
  have hle := h.exec_pageCounter_le hcall hs
  obtain ⟨-, s', -, rfl⟩ := exec_eq_some.mp hs
  exact ⟨r, _, .exec h hcall hs, rfl, hle⟩

/-- A request of up to a page continues the run. -/
theorem Run.exists_malloc {t x : ℕ} (h : Run B ucontext p log) (hpc : p.memory.pageCounter ≤ 1596)
    (hx : x ≤ 4064) (hu : p.threads.here = .user) (hcur : p.threads.sched.current = some t) :
    ∃ r p', Run B ucontext p' (⟨p.threads.running, .malloc x, r⟩ :: log) ∧ p'.threads = p.threads ∧
      p'.memory.pageCounter ≤ p.memory.pageCounter + 1 :=
  have hcall : OnePage (.malloc x) p.memory log := hx
  h.exists_call hpc rfl hcall hu (by rw [hcur]; exact Option.some_ne_none t)

end MyPthread.System
