import MyPthread.Api.Starvation

/-!
# The timer

`setitimer` is called in `scheduler` only, with the quantum of the thread that is chosen.
In between the priority of that thread does not change, although those of other threads do,
so whenever a thread executes the timer is set to the quantum of its level.
-/

namespace MyPthread.Api

open MyPthread.Lib MyPthread.Sched Function

variable {m m' : Machine} {q : Mlfq} {a : Action} {f : FlagCalled} {c i r : ℕ}

/-- The first call of `my_pthread_create` is about to call `scheduler`, which sets the timer
for the first time. -/
structure Unset (m : Machine) : Prop where
  itv : m.sched.itv = 0
  fc : m.sched.fc = .first
  here : m.here = .create .count ∨ m.here = .create .call

/-- The timer is set to the quantum of the thread that executes. -/
def SetFor (m : Machine) (q : Mlfq) : Prop :=
  m.sched.current = some m.running → ∀ r, m.running ∈ q (.rqs r) → m.sched.itv = quantum r

/-- What is known of the timer. -/
def Timed (m : Machine) (q : Mlfq) : Prop := m.firstThread = true ∨ Unset m ∨ SetFor m q

/-- A request that is served sets the timer. -/
theorem Serves.setFor (hs : Serves m q f r m') (hi : Inv m q) (hi' : Inv m' (m.advance q a))
    (hq : m.advance q a = q.schedule f m.sched.maintenanceCount m.running r) :
    SetFor m' (m.advance q a) := by
  intro hcur j hj
  cases hd : (q.requested f m.sched.maintenanceCount m.running r).choose m.running with
  | some d =>
    obtain ⟨hcur', -, hitv, -⟩ := hs.scheduled.chosen d hd
    obtain rfl : d = m'.running := Option.some.inj (hcur'.symm.trans hcur)
    rw [hitv, hi'.priority j _ hj]
  | none =>
    -- there is no thread to run, so the executing one is in no level
    exfalso
    rw [Mlfq.choose, Option.or_eq_none_iff, List.head?_eq_none_iff] at hd
    rw [hq] at hj
    have hmem := (Mlfq.mem_runnable (hi.wf.requested f _ hs.mem)).mpr ⟨j, Mlfq.mem_rotate.mp hj⟩
    rw [hd.2] at hmem
    cases hmem

/-- The first node is made without the timer. -/
theorem Inv.unset_of_first (hi : Inv m q) (hhere : m.here = .create .node)
    (hfirst : m.firstThread = true) (h : m.next = some m') : Unset m' := by
  simp only [Machine.next, hhere, Machine.stepCreate, hfirst, if_true, Option.bind_eq_bind,
    Option.bind_eq_some_iff, Option.pure_def, Option.some.injEq] at h
  obtain ⟨s₁, hs₁, s₂, hs₂, rfl⟩ := h
  have h₁ := enqueuee_onlyLinks hs₁
  have h₂ := enqueuee_onlyLinks hs₂
  cases hi.mode with
  | boot hm =>
    refine ⟨h₂.itv.trans (h₁.itv.trans hm.itv), h₂.fc.trans (h₁.fc.trans ?_), .inl ?_⟩
    · refine hm.fc.resolve_right ?_
      rintro ⟨k, hk⟩
      cases hhere.symm.trans hk
    · exact update_self ..
  | launch hm => cases hfirst.symm.trans hm.first
  | active r hm => cases hfirst.symm.trans hm.first
  | stuck k hm => cases hfirst.symm.trans hm.first
  | finished hm => cases hfirst.symm.trans hm.first

/-- The first call of `scheduler` sets the timer. -/
theorem Unset.step (hu : Unset m) (hi : Inv m q) (hi' : Inv m' (m.advance q a))
    (h : m.step a = some m') : Timed m' (m.advance q a) := by
  have hne : m.here ≠ .user := by
    rcases hu.here with hh | hh <;> (rw [hh]; rintro ⟨⟩)
  cases a with
  | call c =>
    rw [Machine.step, if_neg fun hx ↦ hne hx.1] at h
    cases h
  | init =>
    rw [Machine.step, if_neg hne] at h
    cases h
  | tick =>
    rw [Machine.step, if_neg fun hx ↦ hx.1 hu.itv] at h
    cases h
  | next =>
    have hn : m.next = some m' := h
    rcases hu.here with hh | hh
    · simp only [Machine.next, hh, Machine.stepCreate, Option.some.injEq] at hn
      subst hn
      exact .inr (.inl ⟨hu.itv, hu.fc, .inr (update_self ..)⟩)
    · obtain ⟨r, hcur, hmem⟩ : ∃ r, m.sched.current = some m.running ∧ m.running ∈ q (.rqs r) := by
        cases hi.mode with
        | boot hm => cases hh.symm.trans (hm.create (by rw [hh]; rfl))
        | launch hm => exact ⟨0, hm.current, hm.mem⟩
        | active r hm => exact ⟨r, hm.current, List.mem_of_head? hm.head⟩
        | stuck k hm => rcases hm.here with hx | hx | ⟨hx | hx, -⟩ <;> cases hh.symm.trans hx
        | finished hm => exact absurd hu.fc hm.fc.2
      have hs : Serves m q .first r m' := hi.serves (g := m.gone) (by rw [← hu.fc]; rfl)
        (by rintro ⟨⟩) hcur hmem (absurd rfl) (show (m.goto .user).callScheduler = some m' by
          simpa only [Machine.next, hh, Machine.stepCreate] using hn)
      refine .inr (.inr (hs.setFor hi hi' ?_))
      rw [advance_of_isCall (by rw [hh]; rfl), hi.afterCall_eq hmem hu.fc (by rintro ⟨⟩)]

/-- Without a call of `scheduler` the executing thread stays in its level. -/
theorem SetFor.stays (ht : SetFor m q) (hi : Inv m q) (hi' : Inv m' (m.advance q a))
    (hst : Stays m m') (hfirst : m.firstThread = false) (ha : a ≠ .tick)
    (hc : m.here.isCall = false ∨ m.advance q a = q) : SetFor m' (m.advance q a) := by
  intro hcur j hj
  have hcur' : m.sched.current = some m.running := by
    rw [← hst.current.resolve_right (by rw [hfirst]; rintro ⟨⟩), hcur, hst.running]
  rw [hst.running] at hj
  rw [hst.itv]
  cases hi.mode with
  | boot hm => cases hfirst.symm.trans hm.first
  | launch hm =>
    have hlevel := hi'.wf.disjoint (mem_advance_rqs hi ha hc hm.mem) hj
    cases hlevel
    exact ht hcur' _ hm.mem
  | active r hm =>
    have hmem := List.mem_of_head? hm.head
    have hlevel := hi'.wf.disjoint (mem_advance_rqs hi ha hc hmem) hj
    cases hlevel
    exact ht hcur' _ hmem
  | finished hm => cases hm.current.symm.trans hcur'
  | stuck k hm =>
    -- it is in no level, and its statement moves no thread
    have hq : m.advance q a = q := by
      rcases hc with hc | hc
      · cases a with
        | tick => exact absurd rfl ha
        | next =>
          rcases hm.here with hh | hh | ⟨hh | hh, -⟩
          · rw [Machine.advance, hh]
          · rw [Machine.advance, hh]
          · rw [Machine.advance, hh]
          · rw [hh] at hc
            cases hc
        | _ => rfl
      · exact hc
    rw [hq, hm.runnable] at hj
    cases hj

theorem Timed.step (ht : Timed m q) (hi : Inv m q) (hi' : Inv m' (m.advance q a))
    (h : m.step a = some m') : Timed m' (m.advance q a) := by
  by_cases hu : Unset m
  · exact hu.step hi hi' h
  cases hi.turn h with
  | serves f r hs hq => exact .inr (.inr (hs.setFor hi hi' hq))
  | stays ha hst hc =>
    cases hfirst : m.firstThread with
    | true =>
      rcases hst.firstThread with hx | hx
      · exact .inl (hx.trans hfirst)
      · cases a with
        | next => exact .inr (.inl (hi.unset_of_first hx hfirst h))
        | tick => exact absurd rfl ha
        | call c =>
          rw [Machine.step, if_neg fun hy ↦ by cases hx.symm.trans hy.1] at h
          cases h
        | init =>
          rw [Machine.step, if_neg fun hy ↦ by cases hx.symm.trans hy] at h
          cases h
    | false =>
      rcases ht with hx | hx | hx
      · cases hfirst.symm.trans hx
      · exact absurd hx hu
      · exact .inr (.inr (hx.stays hi hi' hst hfirst ha hc))

/-- Whenever a thread executes, the timer is set to the quantum of its level, but before the
first call of `scheduler`, when it is not set. -/
theorem timer_quantum {l : List ℕ} (h : Reachable Careful m) (hcur : m.sched.current = some c)
    (hp : Path m.sched.next (m.sched.queues (.rqs i)).front l) (hc : c ∈ l) :
    m.sched.itv = quantum i ∧ (m.sched.tcb c).threadPriority = i ∨ Unset m := by
  have hinv : ∃ q, Inv m q ∧ Timed m q := by
    refine h.invariant (P := fun m ↦ ∃ q, Inv m q ∧ Timed m q) ⟨_, inv_init, .inl rfl⟩ ?_
    rintro m a m' ⟨q, hi, ht⟩ hok hs
    exact ⟨_, hi.step hok hs, ht.step hi (hi.step hok hs) hs⟩
  obtain ⟨q, hi, ht⟩ := hinv
  obtain rfl : l = q (.rqs i) := hp.unique (hi.linked (.rqs i)).path
  obtain rfl := hi.flow.current c hcur
  rcases ht with hx | hx | hx
  · cases hi.mode with
    | boot hm => cases hm.current.symm.trans hcur
    | launch hm => cases hx.symm.trans hm.first
    | active r hm => cases hx.symm.trans hm.first
    | stuck k hm => cases hx.symm.trans hm.first
    | finished hm => cases hx.symm.trans hm.first
  · exact .inr hx
  · exact .inl ⟨hx hcur i hc, hi.priority i _ hc⟩

/-- After a tick for each of two threads both are in the second level. -/
theorem timer_quantum_twoThreads : ∃ m : Machine, m.sched.current = some 1 ∧
    m.sched.itv = 50000 := by
  obtain ⟨m, hm, hx⟩ := Reachable.exists_of_run Careful
    [.call .create, .next, .next, .next, .tick, .tick]
    (fun m ↦ decide (m.sched.current = some 1 ∧ (m.sched.queues (.rqs 1)).front = some 1 ∧
      m.sched.next 1 = some 0 ∧ m.sched.next 0 = none ∧ m.here = .user))
    (show _ = some true by decide)
  obtain ⟨hcur, hfront, h₁, h₀, hhere⟩ := of_decide_eq_true hx
  have hpath : Path m.sched.next (m.sched.queues (.rqs 1)).front [1, 0] := by
    rw [hfront]
    exact ⟨rfl, h₁, h₀⟩
  refine ⟨m, hcur, ((timer_quantum hm hcur hpath List.mem_cons_self).resolve_right ?_).1⟩
  rintro ⟨-, -, hh | hh⟩ <;> cases hhere.symm.trans hh

end MyPthread.Api
