import MyPthread.Api.Control
import MyPthread.Api.Exit
import MyPthread.Api.Requests

/-!
# Null pointers

The calls dereference `current`, the fronts of queues and what `dequeuee` returns,
and test none of them.  Over the careful runs there are two ways to a null pointer:
`current`, before the first thread is created and after the last one has exited; and
the level of a thread that blocks on a mutex once more while no thread can run
(`faults_iff`).
-/

namespace MyPthread.Api

open MyPthread.Sched Function

/-- The statements that dereference `current`, themselves or in `scheduler`. -/
def Pc.reads : Pc → Bool
  | .create .call | .yield .test | .yield .call => true
  | .exit (.node _) | .exit (.loop _ _) | .exit .call => true
  | .join _ .store | .join _ .call | .join _ .ret => true
  | .lock _ .mid | .lock _ .call | .lock _ .tid => true
  | .unlock _ .owner => true
  | _ => false

variable {m m' : Machine} {q : Mlfq} {k r t : ℕ} {f : FlagCalled} {p : Pc}

theorem Inv.length_le (hi : Inv m q) (Q : QueueId) : (q Q).length ≤ m.nodeCount := by
  rw [← List.length_range (n := m.nodeCount)]
  exact ((hi.wf.nodup Q).subperm fun n hn ↦ List.mem_range.mpr (hi.alloc n ⟨Q, hn⟩)).length_le

/-- No run queue has a thread. -/
def Machine.Idle (m : Machine) : Prop := ∀ i < numPriorities, (m.sched.queues (.rqs i)).front = none

instance (m : Machine) : Decidable m.Idle := Nat.decidableBallLT _ _

theorem Inv.idle_iff (hi : Inv m q) : m.Idle ↔ ∀ i, q (.rqs i) = [] := by
  refine ⟨fun h i ↦ ?_, fun h i _ ↦ ?_⟩
  · rcases lt_or_ge i numPriorities with hlt | hge
    · have := h i hlt
      rwa [hi.linked.front, List.head?_eq_none_iff] at this
    · exact hi.wf.bound i hge
  · rw [hi.linked.front, h i]
    rfl

theorem Active.not_idle (ha : Active m q r) (hi : Inv m q) : ¬m.Idle := by
  intro h
  have := ha.head
  rw [hi.idle_iff.mp h r] at this
  cases this

/-- A stored request is served when a thread can run. -/
theorem Inv.exists_call {g : List ℕ} (hi : Inv m q) (hstored : m.here.stored = some f)
    (hearly : m.here.early = false) (h₁ : f ≠ .none)
    (hidle : m.here.blocking = true → ¬m.Idle) :
    ∃ m', ({ m with gone := g }.goto p).callScheduler = some m' := by
  obtain ⟨r, ha⟩ : ∃ r, Active m q r := by
    rcases hi.active_or_stuck (.inl hearly) with ha | ⟨k, hs⟩
    · exact ha
    · refine absurd (hi.idle_iff.mpr hs.runnable) (hidle ?_)
      rcases hs.here with hh | hh | ⟨hh | hh, -⟩ <;> rw [hh] <;> rfl
  have hfc := ha.stored f hstored
  obtain ⟨m', hm', -⟩ := hi.exists_serves (g := g) (f := f)
    (show { m with gone := g }.goto p = _ by rw [← hfc]; rfl) h₁ ha.current
    (List.mem_of_head? ha.head) fun _ ↦ ha.head
  exact ⟨m', hm'⟩

/-- With `current` null the process is before its first thread or behind its last. -/
theorem Inv.early_of_current_none (hi : Inv m q) (hc : m.sched.current = none) :
    m.here.early = true ∧ (m.here = .create .call →
      m.sched.fc ≠ .none ∧ m.sched.fc ≠ .first) := by
  cases hi.mode with
  | boot hm =>
    exact ⟨hm.early, fun hh ↦ by cases hh.symm.trans (hm.create (by rw [hh]; rfl))⟩
  | launch hm => cases hc.symm.trans hm.current
  | active r hm => cases hc.symm.trans hm.current
  | stuck k hm => cases hc.symm.trans hm.current
  | finished hm => exact ⟨hm.early, fun _ ↦ hm.fc⟩

theorem Inv.exists_current (hi : Inv m q) (he : m.here.early = false) :
    ∃ c, m.sched.current = some c := by
  rcases hi.active_or_stuck (.inl he) with ⟨r, ha⟩ | ⟨k, hs⟩
  · exact ⟨_, ha.current⟩
  · exact ⟨_, hs.current⟩

/-! ### The statements that fault -/

theorem Inv.create_faults {c : CreatePc} (hi : Inv m q) (hh : m.here = .create c) :
    m.stepCreate c = none ↔ m.sched.current = none ∧ (Pc.create c).reads = true := by
  cases c with
  | node =>
    refine ⟨fun h ↦ ?_, fun h ↦ by cases h.2⟩
    simp only [Machine.stepCreate] at h
    split at h <;> rename_i hfirst
    · have hb := hi.boot_of_first hfirst
      have hn : ∀ n, ¬q.Mem n := by
        rintro n ⟨Q, hQ⟩
        rw [hb.empty] at hQ
        cases hQ
      have hl : Linked ((m.newNode m.nodeCount 1).newNode 0 0).sched q :=
        linked_newNode 0 (linked_newNode 1 hi.linked (hn _)) (hn _)
      obtain ⟨s₁, h₁, hl₁, ho₁⟩ := enqueuee_spec (Q := .rqs 0) hl hi.wf (hn m.nodeCount)
      have hne : (0 : ℕ) ≠ m.nodeCount := (hi.flow.running.trans_le' (Nat.zero_le _)).ne
      obtain ⟨s₂, h₂, -⟩ := enqueuee_spec (Q := .rqs 0) (n := 0)
        (s := { s₁ with current := some 0 }) (hl₁.congr rfl rfl)
        (hi.wf.put (hn _) fun i hi ↦ by cases hi; decide) (by
          rintro ⟨Q, hQ⟩
          rcases Mlfq.mem_put.mp hQ with hQ | ⟨-, hQ⟩
          · exact hn 0 ⟨Q, hQ⟩
          · exact hne hQ)
      have h₁' : enqueuee (some ((m.newNode m.nodeCount 1).newNode 0 0).nodeCount) (.rqs 0)
          ((m.newNode m.nodeCount 1).newNode 0 0).sched = some s₁ := h₁
      simp [h₁', h₂] at h
    · cases h
  | enqueue n =>
    refine ⟨fun h ↦ ?_, fun h ↦ by cases h.2⟩
    have hp := hi.pending
    rw [hh] at hp
    obtain ⟨s, hs, -⟩ := enqueuee_spec (Q := .rqs 0) hi.linked hi.wf hp.1
    simp [Machine.stepCreate, hs] at h
  | count => exact ⟨fun h ↦ (by cases h), fun h ↦ (by cases h.2)⟩
  | call =>
    refine ⟨fun h ↦ ⟨?_, rfl⟩, fun hx ↦ ?_⟩
    · by_contra hc
      have hserves : ∀ r, m.sched.current = some m.running → m.running ∈ q (.rqs r) →
          m.sched.fc = .first → False := fun r hcur hmem hfc ↦ by
        obtain ⟨m', hm', -⟩ := hi.exists_serves (g := m.gone) (f := .first)
          (show m.goto .user = _ by rw [← hfc]; rfl) (by rintro ⟨⟩) hcur hmem (absurd rfl)
        cases hm'.symm.trans h
      cases hi.mode with
      | boot hm => exact hc hm.current
      | launch hm => exact hserves 0 hm.current hm.mem hm.fc
      | active r hm =>
        rcases hm.fc (by rw [hh]; rfl) with hfc | hfc
        · rw [Machine.stepCreate, Machine.callScheduler,
            scheduler_of_none (s := (m.goto .user).sched) hi.memFlag hfc] at h
          cases h
        · exact hserves r hm.current (List.mem_of_head? hm.head) hfc
      | stuck k hm => rcases hm.here with hx | hx | ⟨hx | hx, -⟩ <;> cases hh.symm.trans hx
      | finished hm => exact hc hm.current
    · obtain ⟨h₀, h₁⟩ := (hi.early_of_current_none hx.1).2 hh
      exact callScheduler_of_current_none (m := m.goto .user) hi.memFlag hx.1 h₀ h₁

theorem Inv.yield_faults {y : YieldPc} (hi : Inv m q) (hh : m.here = .yield y) :
    m.stepYield y = none ↔ m.sched.current = none ∧ (Pc.yield y).reads = true := by
  cases y with
  | test =>
    refine ⟨fun h ↦ ⟨?_, rfl⟩, fun hx ↦ by simp [Machine.stepYield, hx.1]⟩
    by_contra hc
    obtain ⟨r, ha⟩ := hi.exists_active (.inr ⟨hc, by rw [hh]; rfl⟩) (by rw [hh]; rfl)
    have hprio := hi.priority r _ (List.mem_of_head? ha.head)
    have hfront : (m.sched.queues (.rqs r)).front = some m.running :=
      (hi.linked.front _).trans ha.head
    simp only [Machine.stepYield, ha.current, hprio, hfront, Option.bind_eq_bind,
      Option.bind_some] at h
    split at h <;> cases h
  | flag => exact ⟨fun h ↦ (by cases h), fun h ↦ (by cases h.2)⟩
  | call =>
    have he : m.here.early = false := by rw [hh]; rfl
    refine ⟨fun h ↦ ?_, fun hx ↦ ?_⟩
    · obtain ⟨m', hm'⟩ := hi.exists_call (f := .yield) (g := m.gone) (p := .user)
        (by rw [hh]; rfl) he (by rintro ⟨⟩) (by rw [hh]; rintro ⟨⟩)
      cases hm'.symm.trans h
    · cases he.symm.trans (hi.early_of_current_none hx.1).1

theorem Inv.exit_faults {x : ExitPc} (hi : Inv m q) (hh : m.here = .exit x) :
    m.stepExit x = none ↔ m.sched.current = none ∧ (Pc.exit x).reads = true := by
  cases x with
  | node v =>
    refine ⟨fun h ↦ ⟨?_, rfl⟩, fun hx ↦ by simp [Machine.stepExit, hx.1]⟩
    cases hc : m.sched.current with
    | none => rfl
    | some c => simp [Machine.stepExit, hc] at h
  | loop e i =>
    have he : m.here.early = false := by rw [hh]; rfl
    obtain ⟨c, hc⟩ := hi.exists_current he
    refine ⟨fun h ↦ ?_, fun hx ↦ by cases hc.symm.trans hx.1⟩
    have hcount := getSpecificCount_spec hi.linked (hi.length_le .joinQueue)
    simp only [Machine.stepExit, hcount, Option.bind_eq_bind, Option.bind_some] at h
    split at h <;> rename_i hlt
    · obtain ⟨n, l, hl⟩ := List.exists_cons_of_length_pos (Nat.zero_lt_of_lt hlt)
      obtain ⟨s', hs'⟩ := exists_exitBody hi.linked hi.wf hl hc e
      rw [hs'] at h
      cases h
    · cases h
  | call =>
    have he : m.here.early = false := by rw [hh]; rfl
    refine ⟨fun h ↦ ?_, fun hx ↦ ?_⟩
    · obtain ⟨m', hm'⟩ := hi.exists_call (f := .pexit) (g := m.running :: m.gone)
        (p := .exit .ret) (by rw [hh]; rfl) he (by rintro ⟨⟩) (by rw [hh]; rintro ⟨⟩)
      cases hm'.symm.trans h
    · cases he.symm.trans (hi.early_of_current_none hx.1).1
  | flag | push | ret => exact ⟨fun h ↦ (by cases h), fun h ↦ (by cases h.2)⟩

theorem Inv.join_faults {j : JoinPc} (hi : Inv m q) (hh : m.here = .join t j) :
    m.stepJoin t j = none ↔ m.sched.current = none ∧ (Pc.join t j).reads = true := by
  cases j with
  | list | flag => exact ⟨fun h ↦ (by cases h), fun h ↦ (by cases h.2)⟩
  | bound temp =>
    refine ⟨fun h ↦ ?_, fun h ↦ by cases h.2⟩
    simp only [Machine.stepJoin] at h
    split at h <;> cases h
  | search temp =>
    refine ⟨fun h ↦ ?_, fun h ↦ by cases h.2⟩
    cases temp with
    | nil => cases h
    | cons e temp =>
      simp only [Machine.stepJoin] at h
      split at h <;> cases h
  | store =>
    refine ⟨fun h ↦ ⟨?_, rfl⟩, fun hx ↦ by simp [Machine.stepJoin, hx.1]⟩
    cases hc : m.sched.current with
    | none => rfl
    | some c => simp [Machine.stepJoin, hc] at h
  | call =>
    have he : m.here.early = false := by rw [hh]; rfl
    refine ⟨fun h ↦ ?_, fun hx ↦ ?_⟩
    · obtain ⟨m', hm'⟩ := hi.exists_call (f := .join) (g := m.gone) (p := .join t .ret)
        (by rw [hh]; rfl) he (by rintro ⟨⟩) (by rw [hh]; rintro ⟨⟩)
      cases hm'.symm.trans h
    · cases he.symm.trans (hi.early_of_current_none hx.1).1
  | ret =>
    have he : m.here.early = false := by rw [hh]; rfl
    obtain ⟨c, hc⟩ := hi.exists_current he
    refine ⟨fun h ↦ ?_, fun hx ↦ by cases hc.symm.trans hx.1⟩
    simp [Machine.stepJoin, hc] at h

theorem Inv.lock_faults {l : LockPc} (hi : Inv m q) (hh : m.here = .lock k l) :
    m.stepLock k l = none ↔
      m.sched.current = none ∧ (Pc.lock k l).reads = true ∨ l = .call ∧ m.Idle := by
  have hread : ∀ {P : Prop}, (l = .call ∧ P → False) →
      ((m.sched.current = none ∧ (Pc.lock k l).reads = true ∨ l = .call ∧ P) ↔
        m.sched.current = none ∧ (Pc.lock k l).reads = true) := fun h ↦ or_iff_left h
  cases l with
  | test =>
    refine ⟨fun h ↦ ?_, ?_⟩
    · simp only [Machine.stepLock] at h
      split at h <;> cases h
    · rintro (⟨-, ⟨⟩⟩ | ⟨⟨⟩, -⟩)
  | flag | set | ready | ret =>
    refine ⟨fun h ↦ (by cases h), ?_⟩
    rintro (⟨-, ⟨⟩⟩ | ⟨⟨⟩, -⟩)
  | mid | tid =>
    rw [hread (by rintro ⟨⟨⟩, -⟩)]
    refine ⟨fun h ↦ ⟨?_, rfl⟩, fun hx ↦ by simp [Machine.stepLock, hx.1]⟩
    cases hc : m.sched.current with
    | none => rfl
    | some c => simp [Machine.stepLock, hc] at h
  | call =>
    have he : m.here.early = false := by rw [hh]; rfl
    refine ⟨fun h ↦ .inr ⟨rfl, ?_⟩, ?_⟩
    · by_contra hidle
      obtain ⟨m', hm'⟩ := hi.exists_call (f := .blocked) (g := m.gone) (p := .lock k .test)
        (by rw [hh]; rfl) he (by rintro ⟨⟩) fun _ ↦ hidle
      cases hm'.symm.trans h
    · rintro (⟨hc, -⟩ | ⟨-, hidle⟩)
      · cases he.symm.trans (hi.early_of_current_none hc).1
      · rcases hi.active_or_stuck (.inl he) with ⟨r, ha⟩ | ⟨j, hs⟩
        · exact absurd hidle (ha.not_idle hi)
        · rcases hs.here with hx | hx | ⟨hx | hx, hb⟩
          · cases hh.symm.trans hx
          · cases hh.symm.trans hx
          · cases hh.symm.trans hx
          · change (m.goto (.lock k .test)).callScheduler = none
            exact hi.callScheduler_of_stuck (g := m.gone) (f := .blocked) hs (.inr rfl)
              (by rw [← hb]; rfl)

theorem Inv.unlock_faults {u : UnlockPc} (hi : Inv m q) (hh : m.here = .unlock k u) :
    m.stepUnlock k u = none ↔ m.sched.current = none ∧ (Pc.unlock k u).reads = true := by
  cases u with
  | owner =>
    refine ⟨fun h ↦ ⟨?_, rfl⟩, fun hx ↦ by simp [Machine.stepUnlock, hx.1]⟩
    cases hc : m.sched.current with
    | none => rfl
    | some c =>
      simp only [Machine.stepUnlock, hc, Option.bind_eq_bind, Option.bind_some] at h
      split at h <;> cases h
  | move =>
    refine ⟨fun h ↦ ?_, fun h ↦ by cases h.2⟩
    have hp := hi.pending
    rw [hh] at hp
    obtain ⟨n, hn, -⟩ := hp
    obtain ⟨l, hl⟩ := List.head?_eq_some_iff.mp hn
    obtain ⟨s, hs, -⟩ := requeue_spec (.rqs 0) hi.linked hi.wf hl
    simp [Machine.stepUnlock, hs] at h
  | test | found =>
    refine ⟨fun h ↦ ?_, fun h ↦ by cases h.2⟩
    simp only [Machine.stepUnlock] at h
    split at h <;> cases h
  | loop temp =>
    refine ⟨fun h ↦ ?_, fun h ↦ by cases h.2⟩
    cases temp <;> cases h
  | clear | tid | front | next | mid | priority | ready | ret =>
    exact ⟨fun h ↦ (by cases h), fun h ↦ (by cases h.2)⟩

/-- The timer faults when there is no thread to put back. -/
theorem Inv.tick_faults (hi : Inv m q) (hitv : m.sched.itv ≠ 0) :
    m.timerTriggered = none ↔ m.sched.current = none ∨ m.Idle := by
  have hcur : m.sched.current = none → m.timerTriggered = none := fun hc ↦
    callScheduler_of_current_none (m := m.setFc .timer) hi.memFlag hc (by rintro ⟨⟩)
      (by rintro ⟨⟩)
  cases hi.mode with
  | boot hm => exact ⟨fun _ ↦ .inl hm.current, fun _ ↦ hcur hm.current⟩
  | launch hm => exact absurd hm.itv hitv
  | active r ha =>
    refine ⟨fun h ↦ ?_, ?_⟩
    · obtain ⟨m', hm', -⟩ := hi.exists_serves (g := m.gone) (f := .timer)
        (show m.setFc .timer = _ from rfl) (by rintro ⟨⟩) ha.current (List.mem_of_head? ha.head)
        fun _ ↦ ha.head
      cases hm'.symm.trans h
    · rintro (hc | hidle)
      · exact hcur hc
      · exact absurd hidle (ha.not_idle hi)
  | stuck k hm =>
    refine ⟨fun _ ↦ .inr (hi.idle_iff.mpr hm.runnable), fun _ ↦ ?_⟩
    change (m.setFc .timer).callScheduler = none
    exact hi.callScheduler_of_stuck (g := m.gone) (w := m.here) hm
      (.inl rfl) (by rw [update_eq_self]; rfl)
  | finished hm => exact ⟨fun _ ↦ .inl hm.current, fun _ ↦ hcur hm.current⟩

theorem Inv.next_faults (hi : Inv m q) (hu : m.here ≠ .user) :
    m.next = none ↔ m.sched.current = none ∧ m.here.reads = true ∨
      (∃ k, m.here = .lock k .call) ∧ m.Idle := by
  unfold Machine.next
  split <;> rename_i hh
  · exact absurd hh hu
  · rw [hh, hi.create_faults hh, or_iff_left]
    rintro ⟨⟨k, ⟨⟩⟩, -⟩
  · rw [hh, hi.yield_faults hh, or_iff_left]
    rintro ⟨⟨k, ⟨⟩⟩, -⟩
  · rw [hh, hi.exit_faults hh, or_iff_left]
    rintro ⟨⟨k, ⟨⟩⟩, -⟩
  · rw [hh, hi.join_faults hh, or_iff_left]
    rintro ⟨⟨k, ⟨⟩⟩, -⟩
  · rename_i k l
    rw [hh, hi.lock_faults hh]
    refine or_congr Iff.rfl (and_congr_left fun _ ↦ ⟨?_, ?_⟩)
    · rintro rfl
      exact ⟨k, rfl⟩
    · rintro ⟨j, hj⟩
      cases hj
      rfl
  · rw [hh, hi.unlock_faults hh, or_iff_left]
    rintro ⟨⟨k, ⟨⟩⟩, -⟩

/-- In a careful run a statement faults when it dereferences `current` and that is
null, or when a thread blocks while no thread can run; a tick faults in the same two
states. -/
theorem faults_iff (h : Reachable Careful m) :
    (m.here ≠ .user → (m.next = none ↔ m.sched.current = none ∧ m.here.reads = true ∨
      (∃ k, m.here = .lock k .call) ∧ m.Idle)) ∧
    (m.sched.itv ≠ 0 → (m.timerTriggered = none ↔ m.sched.current = none ∨ m.Idle)) := by
  obtain ⟨q, hi⟩ := exists_inv h
  exact ⟨hi.next_faults, hi.tick_faults⟩

/-- A first thread that exits faults, and so does one that locks a mutex twice with
no other thread to run. -/
theorem faults_iff_alone :
    (∃ m : Machine, m.here = .exit (.node 7) ∧ m.next = none) ∧
      ∃ m : Machine, m.here = .lock 0 .call ∧ m.sched.current = some 0 ∧ m.next = none := by
  refine ⟨?_, ?_⟩
  · obtain ⟨m, hm, hx⟩ := Reachable.exists_of_run Careful [.call (.exit 7)]
      (fun m ↦ decide (m.here = .exit (.node 7) ∧ m.sched.current = none))
      (show _ = some true by decide)
    obtain ⟨hh, hc⟩ := of_decide_eq_true hx
    refine ⟨m, hh, ((faults_iff hm).1 ?_).mpr (.inl ⟨hc, by rw [hh]; rfl⟩)⟩
    rw [hh]
    rintro ⟨⟩
  · obtain ⟨m, hm, hx⟩ := Reachable.exists_of_run Careful
      [.init, .call .create, .next, .next, .next, .call (.exit 5), .next, .next, .next, .next,
        .next, .call (.lock 0), .next, .next, .next, .next, .next,
        .call (.lock 0), .next, .next, .next, .next, .next, .next, .next]
      (fun m ↦ decide (m.here = .lock 0 .call ∧ m.sched.current = some 0 ∧ m.Idle))
      (show _ = some true by decide)
    obtain ⟨hh, hc, hidle⟩ := of_decide_eq_true hx
    refine ⟨m, hh, hc, ((faults_iff hm).1 ?_).mpr (.inr ⟨⟨0, hh⟩, hidle⟩)⟩
    rw [hh]
    rintro ⟨⟩

end MyPthread.Api
