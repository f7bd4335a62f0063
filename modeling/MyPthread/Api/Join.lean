import MyPthread.Api.Requests

/-!
# Joins

In the runs of calls that are atomic up to their own calls of `scheduler`, a
`my_pthread_join` that returns 0 reports an exit and its value, as long as no join
blocks with no other thread to run: `scheduler` returns to such a join at once.
-/

namespace MyPthread.Api

open MyPthread.Sched Function

/-- Calls are atomic up to their own calls of `scheduler`. -/
def Whole (m : Machine) (a : Action) : Prop := a = .tick → m.here.quiescent = true

/-- No mutex is used. -/
def NoMutex (a : Action) : Prop := ∀ k, a ≠ .call (.lock k) ∧ a ≠ .call (.unlock k)

/-- A join that blocks leaves another thread in a run queue. -/
def LeavesOther (m : Machine) (a : Action) : Prop :=
  ∀ t, m.here = .join t .call → a = .next → m.hasOther = true

section Join

variable {m m' : Machine} {a : Action}

theorem Pc.uncut_of_quiescent {p : Pc} (h : p.quiescent = true) : p.uncut = false := by
  unfold Pc.quiescent at h
  split at h <;> first | rfl | cases h

/-- Without lock and unlock, no thread is in one. -/
theorem mutex_step (hi : ∀ n, (m.pc n).mutex? = none) (ha : NoMutex a)
    (h : m.step a = some m') : ∀ n, (m'.pc n).mutex? = none := by
  cases a with
  | call c =>
    simp only [Machine.step] at h
    split at h
    · cases h
      intro n
      show (update m.pc m.running c.entry n).mutex? = none
      by_cases hn : n = m.running
      · rw [hn, update_self]
        cases c with
        | lock k => exact absurd rfl (ha k).1
        | unlock k => exact absurd rfl (ha k).2
        | _ => rfl
      · rw [update_of_ne hn]
        exact hi n
    · cases h
  | init =>
    simp only [Machine.step] at h
    split at h
    · cases h
      exact hi
    · cases h
  | next =>
    obtain ⟨p, hp⟩ := next_pc h
    intro n
    rw [hp.pc]
    by_cases hn : n = m.running
    · rw [hn, update_self]
      rcases hp.mutex with hp | hp
      · exact hp
      · rw [hp]
        exact hi _
    · rw [update_of_ne hn]
      exact hi n
  | tick =>
    simp only [Machine.step] at h
    split at h
    · simp only [Machine.timerTriggered, Machine.callScheduler, Option.bind_eq_bind,
        Option.bind_eq_some_iff, Option.pure_def, Option.some.injEq] at h
      obtain ⟨s, -, rfl⟩ := h
      exact hi
    · cases h

/-- With no thread in an unlock, steps are careful. -/
theorem careful_of_mutex (hi : ∀ n, (m.pc n).mutex? = none) (hw : Whole m a)
    (hl : LeavesOther m a) : Careful m a := by
  cases a with
  | call c => trivial
  | init => trivial
  | tick => exact Pc.uncut_of_quiescent (hw rfl)
  | next =>
    simp only [Careful]
    split
    · exact hl _ ‹_› rfl
    · rename_i k n hh
      have := hi m.running
      rw [show m.pc m.running = _ from hh] at this
      cases this
    · trivial

instance (m : Machine) (a : Action) : Decidable (Whole m a) :=
  inferInstanceAs (Decidable (_ → _))

instance : (a : Action) → Decidable (NoMutex a)
  | .call (.lock k) => .isFalse fun h ↦ (h k).1 rfl
  | .call (.unlock k) => .isFalse fun h ↦ (h k).2 rfl
  | .call .create | .call .yield | .call (.exit _) | .call (.join _) | .init | .next | .tick =>
    .isTrue fun _ ↦ ⟨nofun, nofun⟩

instance (m : Machine) (a : Action) : Decidable (LeavesOther m a) :=
  match h : m.here with
  | .join t .call => decidable_of_iff (a = .next → m.hasOther = true)
      ⟨fun hl _ _ ↦ hl, fun hl ↦ hl t h⟩
  | .user | .create _ | .yield _ | .exit _ | .lock _ _ | .unlock _ _ | .join _ .list
  | .join _ (.bound _) | .join _ (.search _) | .join _ .store | .join _ .flag | .join _ .ret =>
    .isTrue fun t ht ↦ by cases h.symm.trans ht

/-- A join that returns 0 reports a thread that has called `my_pthread_exit`, with
the one value that it passed, when no join blocks as the last runnable thread. -/
theorem join_returns (h : Reachable (fun m a ↦ Whole m a ∧ NoMutex a ∧ LeavesOther m a) m) :
    (∀ e ∈ m.joins, e ∈ m.exits) ∧ (m.exits.map Prod.fst).Nodup := by
  have hi : (∃ q, Inv m q) ∧ ∀ n, (m.pc n).mutex? = none := by
    refine h.invariant (P := fun m ↦ (∃ q, Inv m q) ∧ ∀ n, (m.pc n).mutex? = none)
      ⟨⟨_, inv_init⟩, fun _ ↦ rfl⟩ ?_
    rintro m a m' ⟨⟨q, hi⟩, hpc⟩ ⟨hw, hn, hl⟩ hs
    exact ⟨⟨_, hi.step (careful_of_mutex hpc hw hl) hs⟩, mutex_step hpc hn hs⟩
  obtain ⟨⟨q, hi⟩, -⟩ := hi
  exact ⟨hi.joins, hi.nodup⟩

/-- The first thread blocks in a join, and is woken with the value of the exit. -/
theorem join_returns_run : ∃ m : Machine, m.joins = [(1, 7)] ∧ (1, 7) ∈ m.exits := by
  obtain ⟨m, hm, hx⟩ := Reachable.exists_of_run
    (fun m a ↦ Whole m a ∧ NoMutex a ∧ LeavesOther m a)
    [.call .create, .next, .next, .next, .tick, .call (.join 1), .next, .next, .next, .next, .next,
      .next, .call (.exit 7), .next, .next, .next, .next, .next, .next, .next]
    Machine.joins (show _ = some [(1, 7)] by decide)
  exact ⟨m, hx, (join_returns hm).1 _ (by rw [hx]; exact List.mem_singleton_self _)⟩

/-- Two threads join each other: the second join finds no thread to run, and returns
0 with a value that no exit has passed. -/
theorem not_join_returns : ∃ m, Reachable (fun m a ↦ Whole m a ∧ NoMutex a) m ∧
    m.joins = [(1, 0)] ∧ m.exits = [] := by
  obtain ⟨m, hm, hx⟩ := Reachable.exists_of_run (fun m a ↦ Whole m a ∧ NoMutex a)
    [.call .create, .next, .next, .next, .call (.join 0), .next, .next, .next, .next, .next, .next,
      .call (.join 1), .next, .next, .next, .next, .next, .next, .next]
    (fun m ↦ (m.joins, m.exits)) (show _ = some ([(1, 0)], []) by decide)
  exact ⟨m, hm, (Prod.mk.inj hx).1, (Prod.mk.inj hx).2⟩

end Join

end MyPthread.Api
