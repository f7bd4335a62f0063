import MyPthread.Api.Turns
import MyPthread.Api.Control
import MyPthread.Os.Region
import MyPthread.Paging.Private

/-!
# The process

The thread library and the memory manager in one process.  The library allocates its
objects from the manager, and `scheduler` calls `lock_mem` where it switches by
`swapcontext`, but not where the thread that called it has exited and it goes on by
`setcontext`.  The manager serves the thread that the library has made `current`, and a
thread that is in none of the library's functions may call the manager, or access memory.

The calls of the manager are one step each, as are the allocations of
`my_pthread_create`.
-/

namespace MyPthread.System

open MyPthread.Sched MyPthread.Api MyPthread.Paging Function

/-- The globals of `my_pthread.c` and the threads, and those of `mymemorymanager.c`. -/
structure Process where
  threads : Machine
  memory : Manager

/-- The part of `select` that comes before the switch: whether it gets to the call of
`lock_mem`. -/
def selectLocks (setitimer : ℕ → ℤ) (s : State) : Bool :=
  match scan s numPriorities 0 none with
  | (_, none) => false
  | (i, some newContext) =>
    match resolve i newContext s with
    | none => false
    | some (newContext, s) =>
      setitimer (quantum (s.tcb newContext).threadPriority) ≠ -1 && s.fc ≠ .pexit

/-- Whether `scheduler()` gets to the call of `lock_mem`. -/
def schedulerLocks (setitimer : ℕ → ℤ) (fuel : ℕ) (s : State) : Bool :=
  if s.memFlag ≠ 0 then false
  else
    match updateQueue fuel s with
    | some (false, s) =>
      selectLocks setitimer { s with maintenanceCount := (s.maintenanceCount + 1) % 2 ^ 32 }
    | _ => false

/-- The state in which a step of the library calls `scheduler()`, if it does. -/
def scheduling (m : Machine) : Action → Option State
  | .tick => some { m.sched with fc := .timer }
  | .next => if m.here.isCall then some m.sched else none
  | _ => none

/-- The sizes of the objects that a step of the library allocates.  The size of a
`ucontext_t` is the C library's. -/
def requests (ucontext : ℕ) (m : Machine) : Action → List ℕ
  | .next =>
    match m.here with
    | .create .node => (Os.createRequests ucontext m.firstThread).map Os.Request.size
    | .exit (.node _) => [24]
    | _ => []
  | _ => []

/-- The calls that a thread makes itself. -/
def ofThread : Paging.Call → Bool
  | .malloc _ | .free _ | .load _ | .store _ _ => true
  | .switch _ | .library _ => false

namespace Process

/-- A step of the library. -/
def api (ucontext : ℕ) (p : Process) (a : Action) : Option Process := do
  let threads ← p.threads.step a
  let memory := (requests ucontext p.threads a).foldl (fun s x ↦ library x s) p.memory
  let locks := (scheduling p.threads a).any
    (schedulerLocks Machine.setitimer p.threads.nodeCount)
  let memory := if locks then memory.protect else memory
  return ⟨threads, { memory with current := threads.running }⟩

/-- A call of the manager by the thread that executes, or an access to memory.  The
manager and its fault handler dereference `current`. -/
def exec (B : Paging.Block) (p : Process) (c : Paging.Call) : Option (ℕ × Process) :=
  if ofThread c ∧ p.threads.here = .user ∧ p.threads.sched.current ≠ none then
    (c.exec B p.memory).map fun x ↦ (x.1, ⟨p.threads, x.2⟩)
  else none

end Process

/-- The runs from the start of the process, with the calls of the threads to the manager
and their accesses, the last of which is the head. -/
inductive Run (B : Paging.Block) (ucontext : ℕ) : Process → List Entry → Prop where
  | start {b : Paging.Boot} : b.Zeroed → Run B ucontext ⟨Machine.init, b.start B⟩ []
  | api {p p' : Process} {log : List Entry} {a : Action} : Run B ucontext p log →
      Careful p.threads a → p.api ucontext a = some p' → Run B ucontext p' log
  | exec {p p' : Process} {log : List Entry} {c : Paging.Call} {r : ℕ} : Run B ucontext p log →
      OnePage c p.memory log → p.exec B c = some (r, p') →
      Run B ucontext p' (⟨p.threads.running, c, r⟩ :: log)

/-! ## Scheduling -/

section Scheduling

variable {s s' : State} {setitimer : ℕ → ℤ} {i n fuel : ℕ} {b : Bool}

theorem resetFrom_current {p : Option ℕ} (h : resetFrom fuel p s = some s') :
    s'.current = s.current ∧ s'.fc = s.fc := by
  induction fuel generalizing p s with
  | zero =>
    cases p with
    | none =>
      cases h
      exact ⟨rfl, rfl⟩
    | some n => cases h
  | succ fuel ih =>
    cases p with
    | none =>
      cases h
      exact ⟨rfl, rfl⟩
    | some n => exact ih (s := s.setPriority n 0) h

theorem splice_current (h : splice fuel s = some s') :
    s'.current = s.current ∧ s'.fc = s.fc := by
  simp only [splice] at h
  split at h
  · cases h
    exact ⟨rfl, rfl⟩
  · split at h
    · simp only [Option.bind_eq_bind, Option.bind_eq_some_iff, Option.pure_def, Option.some.injEq,
        exists_eq_left'] at h
      obtain ⟨b, -, h⟩ := h
      have hreset := resetFrom_current h
      exact hreset
    · simp only [Option.bind_eq_bind, Option.bind_some, Option.pure_def] at h
      have hreset := resetFrom_current h
      exact hreset

theorem maintain_current (h : maintain fuel s = some s') :
    s'.current = s.current ∧ s'.fc = s.fc := by
  unfold maintain at h
  split at h
  · have hsplice := splice_current h
    exact hsplice
  · cases h
    exact ⟨rfl, rfl⟩

/-- Only an exit takes `current` away. -/
theorem serve_current (h : serve s = some s') (hf : s.fc ≠ .pexit) :
    s'.current = s.current ∧ s'.fc ≠ .pexit := by
  have key : ∀ {t s₁ : State} {src dst : QueueId}, t.current = s.current →
      requeue src dst t = some s₁ → ({ s₁ with fc := .none } : State).current = s.current :=
    fun ht hs₁ ↦ (requeue_onlyLinks hs₁).current.trans ht
  simp only [serve, Option.bind_eq_bind, Option.bind_eq_some_iff] at h
  obtain ⟨c, -, h⟩ := h
  cases hfc : s.fc with
  | pexit => exact absurd hfc hf
  | none | first =>
    simp only [hfc, Option.pure_def, Option.some.injEq] at h
    subst h
    exact ⟨rfl, hf⟩
  | timer =>
    simp only [hfc] at h
    split at h
    · simp only [Option.bind_eq_some_iff, Option.pure_def, Option.some.injEq] at h
      obtain ⟨s₁, hs₁, rfl⟩ := h
      exact ⟨key (by rfl) hs₁, (by rintro ⟨⟩)⟩
    · simp only [Option.bind_eq_some_iff, Option.pure_def, Option.some.injEq] at h
      obtain ⟨s₁, hs₁, rfl⟩ := h
      exact ⟨key rfl hs₁, (by rintro ⟨⟩)⟩
  | yield | join | blocked =>
    simp only [hfc, Option.bind_eq_some_iff, Option.pure_def, Option.some.injEq] at h
    obtain ⟨s₁, hs₁, rfl⟩ := h
    exact ⟨key rfl hs₁, (by rintro ⟨⟩)⟩

theorem updateQueue_current (h : updateQueue fuel s = some (b, s')) (hf : s.fc ≠ .pexit) :
    s'.current = s.current ∧ s'.fc ≠ .pexit := by
  have key : ∀ {t}, ((do
      let s ← serve s
      let s ← maintain fuel s
      return (false, s) : Option (Bool × State)) = some t) →
      t.2.current = s.current ∧ t.2.fc ≠ .pexit := by
    intro t ht
    simp only [Option.bind_eq_bind, Option.bind_eq_some_iff, Option.pure_def,
      Option.some.injEq] at ht
    obtain ⟨s₁, hserve, s₂, hmaint, rfl⟩ := ht
    obtain ⟨hcur₁, hfc₁⟩ := serve_current hserve hf
    obtain ⟨hcur₂, hfc₂⟩ := maintain_current hmaint
    exact ⟨hcur₂.trans hcur₁, hfc₂ ▸ hfc₁⟩
  unfold updateQueue at h
  split at h
  · cases h
    exact ⟨rfl, hf⟩
  · cases h
    exact ⟨rfl, hf⟩
  · exact key h

theorem resolve_current {d : ℕ} (h : resolve i n s = some (d, s')) :
    s'.current = s.current ∧ s'.fc = s.fc := by
  unfold resolve at h
  cases hc : s.current with
  | none =>
    rw [hc] at h
    cases h
    exact ⟨hc, rfl⟩
  | some c =>
    simp only [hc] at h
    split at h
    · simp only [avoidCurrent, Option.bind_eq_bind, Option.bind_eq_some_iff, Option.pure_def,
        Option.some.injEq, Prod.mk.injEq] at h
      obtain ⟨s₁, hs₁, -, rfl⟩ := h
      have hlinks := requeue_onlyLinks hs₁
      exact ⟨hlinks.current.trans hc, hlinks.fc⟩
    · cases h
      exact ⟨hc, rfl⟩

/-- A selection that does not get to `lock_mem` leaves `current`. -/
theorem select_current (h : select setitimer s = some s') (hl : selectLocks setitimer s = false)
    (hf : s.fc ≠ .pexit) : s'.current = s.current := by
  unfold select at h
  unfold selectLocks at hl
  split at h
  · cases h
    rfl
  · rename_i j d hscan
    simp only [Option.bind_eq_bind, Option.bind_eq_some_iff] at h
    obtain ⟨⟨e, s₁⟩, hr, h⟩ := h
    obtain ⟨hcur, hfc⟩ := resolve_current hr
    rw [hscan] at hl
    simp only [hr] at hl
    simp only [dispatch] at h
    split at h
    · cases h
      exact hcur
    · rename_i hset
      refine absurd hl ?_
      simp [hset, hfc, hf]

/-- Only an exit makes `scheduler` switch without `lock_mem`. -/
theorem scheduler_current (h : scheduler setitimer fuel s = some s')
    (hl : schedulerLocks setitimer fuel s = false) (hf : s.fc ≠ .pexit) :
    s'.current = s.current := by
  unfold scheduler at h
  unfold schedulerLocks at hl
  split at h <;> rename_i hmem
  · simp only [Option.bind_eq_bind, Option.bind_eq_some_iff, Option.pure_def,
      Option.some.injEq] at h
    obtain ⟨c, -, rfl⟩ := h
    rfl
  · rw [if_neg hmem] at hl
    simp only [Option.bind_eq_bind, Option.bind_eq_some_iff] at h
    obtain ⟨⟨resume, s₁⟩, hu, h⟩ := h
    obtain ⟨hcur, hfc⟩ := updateQueue_current hu hf
    split at h <;> rename_i hres
    · cases h
      exact hcur
    · simp only [Option.bind_eq_some_iff] at h
      obtain ⟨_, -, h⟩ := h
      obtain rfl : resume = false := Bool.eq_false_iff.mpr hres
      rw [hu] at hl
      exact (select_current h hl hfc).trans hcur

end Scheduling

end MyPthread.System
