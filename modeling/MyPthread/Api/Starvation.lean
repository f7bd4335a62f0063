import MyPthread.Api.Requests
import MyPthread.Api.Waiters
import MyPthread.Api.Control
import MyPthread.Lib.Ranking
import MyPthread.Sched.Aging

/-!
# Waiting in the run queues

A thread that is in a run queue gets the processor after a bounded number of ticks,
whatever the threads do in the meantime, as long as none of them puts another
thread in a run queue (`no_starvation`).  Each tick makes a rank smaller: the delay
of the thread in its level, one more than any delay when the executing thread is of
a worse level, and above both the calls of `scheduler` until the splice, when the
thread is in the lowest level.

Yields count for nothing: threads of one level that yield to each other keep those
of the levels below from running.
-/

namespace MyPthread.Api

open MyPthread.Sched MyPthread.Lib Function

/-- The next statement puts a thread in a run queue: it creates one, or wakes one that
joined or waits. -/
def Machine.adds (m : Machine) : Bool :=
  match m.here with
  | .create .node | .create (.enqueue _) => true
  | .create .call => m.sched.fc = .first
  | .exit (.loop e _) =>
    (m.sched.queues .joinQueue).front.any fun n ↦ (m.sched.tcb n).joinId = e.1
  | .unlock _ .move => true
  | _ => false

/-- The step puts no thread in a run queue. -/
def NoArrival (m : Machine) (a : Action) : Prop := a = .next → m.adds = false

instance (m : Machine) (a : Action) : Decidable (NoArrival m a) :=
  inferInstanceAs (Decidable (_ → _))

variable {m m' : Machine} {q q' : Mlfq} {a : Action} {f : FlagCalled} {c i k n r : ℕ}

/-- How long the thread `n` of level `i` waits, in ticks. -/
inductive WaitRank (m : Machine) (q : Mlfq) (n i k : ℕ) : Prop where
  | above : i < numPriorities - 1 → (∀ p, m.running ∈ q (.rqs p) → p ≤ i) →
      q.delay n i ≤ k → WaitRank m q n i k
  | behind : i < numPriorities - 1 → 9 * m.nodeCount + 1 ≤ k → WaitRank m q n i k
  | lowest : i = numPriorities - 1 →
      9 * m.nodeCount + 2 + (maintCycle + 1 - m.sched.maintenanceCount) ≤ k → WaitRank m q n i k

/-- The thread `n` waits in a run queue, for `k` ticks at most. -/
def Waiting (n k : ℕ) (m : Machine) : Prop :=
  ∃ q i, Inv m q ∧ n ≠ m.running ∧ n ∈ q (.rqs i) ∧ WaitRank m q n i k

theorem Inv.lt_numPriorities (hi : Inv m q) (hn : n ∈ q (.rqs i)) : i < numPriorities :=
  hi.wf.lt_of_mem hn

theorem Inv.delay_le (hi : Inv m q) (hi₉ : i < numPriorities - 1) :
    q.delay n i ≤ 9 * m.nodeCount :=
  (Mlfq.delay_le hi₉).trans (Nat.mul_le_mul_left 9 hi.length_runnable)

/-- At first a thread waits for `9 * nodeCount + 103` ticks at most. -/
theorem Inv.waiting (hi : Inv m q) (hr : n ≠ m.running) (hn : n ∈ q (.rqs i)) :
    Waiting n (9 * m.nodeCount + 103) m := by
  refine ⟨q, i, hi, hr, hn, ?_⟩
  rcases (Nat.le_sub_one_of_lt (hi.lt_numPriorities hn)).eq_or_lt with h | h
  · refine .lowest h ?_
    have : maintCycle = 100 := rfl
    omega
  · exact .behind h (by omega)

/-- Without an arrival a step that does not call `scheduler` leaves the run queues. -/
theorem NoArrival.advance_rqs (h : NoArrival m a) (hi : Inv m q) (ha : a ≠ .tick)
    (hc : m.here.isCall = false) : m.advance q a (.rqs i) = q (.rqs i) := by
  have hmoved := moved m q a
  generalize m.advance q a = q' at hmoved ⊢
  cases hmoved with
  | still => rfl
  | tick ht => exact absurd ht ha
  | call _ hh => cases hc.symm.trans hh
  | first hn hh =>
    have hadds := h hn
    rw [Machine.adds, hh] at hadds
    cases hadds
  | created n hn hh =>
    have hadds := h hn
    rw [Machine.adds, hh] at hadds
    cases hadds
  | joined e j n l hn hh hl hj =>
    have hadds := h hn
    have hfront : (m.sched.queues .joinQueue).front = some n := by
      rw [hi.linked.front, hl]
      rfl
    rw [Machine.adds, hh] at hadds
    simp [hfront, hj] at hadds
  | kept => exact move_of_ne (by rintro ⟨⟩) (by rintro ⟨⟩)
  | woken k n l hn hh =>
    have hadds := h hn
    rw [Machine.adds, hh] at hadds
    cases hadds

/-- The rank depends on the run queues, the executing thread and the count only. -/
theorem WaitRank.congr (h : WaitRank m q n i k) (hq : ∀ j, q' (.rqs j) = q (.rqs j))
    (hs : Stays m m') (hnode : m'.nodeCount = m.nodeCount) : WaitRank m' q' n i k := by
  cases h with
  | above h₉ hp hk =>
    refine .above h₉ (fun p hm ↦ ?_) ?_
    · rw [hs.running, hq] at hm
      exact hp p hm
    · rwa [Mlfq.delay_congr hq]
  | behind h₉ hk => exact .behind h₉ (by rwa [hnode])
  | lowest h₉ hk => exact .lowest h₉ (by rwa [hnode, hs.maintenanceCount])

/-- The level of a waiting thread when `scheduler` has served a request. -/
def levelAfter (count i : ℕ) : ℕ :=
  if maintCycle < count ∧ i = numPriorities - 1 then 0 else i

theorem levelAfter_le {count : ℕ} : levelAfter count i ≤ i := by
  unfold levelAfter
  split <;> omega

theorem mem_requested_levelAfter {count : ℕ} (hf : f ≠ .first) (hn : n ≠ c)
    (hm : n ∈ q (.rqs i)) : n ∈ q.requested f count c r (.rqs (levelAfter count i)) := by
  have h₁ : n ∈ q.request f c r (.rqs i) := Mlfq.mem_request_of_ne hn hm
  unfold Mlfq.requested levelAfter
  rw [if_neg hf]
  by_cases hc : maintCycle < count
  · rw [if_pos hc, Mlfq.mem_age]
    by_cases h₉ : i = numPriorities - 1
    · rw [if_pos ⟨hc, h₉⟩]
      exact .inr ⟨rfl, h₉ ▸ h₁⟩
    · rw [if_neg fun h ↦ h₉ h.2]
      exact .inl ⟨h₁, fun h ↦ h₉ (QueueId.rqs.inj h)⟩
  · rw [if_neg hc, if_neg fun h ↦ hc h.1]
    exact h₁

/-- Serving a request makes no other thread of a better level wait longer, and a
tick shortens the wait. -/
theorem delay_schedule {count : ℕ} (hf : f ≠ .first) (hhead : (q (.rqs r)).head? = some c)
    (hn : n ≠ c) (hm : n ∈ q (.rqs i)) (h₉ : i < numPriorities - 1) (hri : r ≤ i) :
    (q.schedule f count c r).delay n i + (if f = .timer then 1 else 0) ≤ q.delay n i := by
  have hreq := Mlfq.delay_request (f := f) hhead hn hm h₉ hri
  have hm₁ : n ∈ q.request f c r (.rqs i) := Mlfq.mem_request_of_ne hn hm
  have hlevel : levelAfter count i = i := if_neg fun h ↦ h₉.ne h.2
  have hm₂ : n ∈ q.requested f count c r (.rqs (levelAfter count i)) :=
    mem_requested_levelAfter hf hn hm
  rw [hlevel] at hm₂
  have hage : (q.requested f count c r).delay n i = (q.request f c r).delay n i := by
    unfold Mlfq.requested
    rw [if_neg hf]
    split
    · exact Mlfq.delay_age hm₁ h₉
    · rfl
  have hrot : (q.schedule f count c r).delay n i ≤ (q.requested f count c r).delay n i :=
    Mlfq.delay_rotate hn hm₂
  omega

/-- A request served: the waiting thread runs, or its rank is no larger, and after a
tick smaller. -/
theorem Serves.waiting (hs : Serves m q f r m') (hi : Inv m q)
    (hi' : Inv m' (q.schedule f m.sched.maintenanceCount m.running r)) (hf : f ≠ .first)
    (hn : n ≠ m.running) (hm : n ∈ q (.rqs i)) (hk : WaitRank m q n i k) :
    m'.running = n ∨ ∃ j, Waiting n j m' ∧ j + (if f = .timer then 1 else 0) ≤ k := by
  have hm₁ : n ∈ q.requested f m.sched.maintenanceCount m.running r
      (.rqs (levelAfter m.sched.maintenanceCount i)) := mem_requested_levelAfter hf hn hm
  have hm' : n ∈ q.schedule f m.sched.maintenanceCount m.running r
      (.rqs (levelAfter m.sched.maintenanceCount i)) := Mlfq.mem_rotate.mpr hm₁
  have hwf := hi.wf.requested f m.sched.maintenanceCount hs.mem
  obtain ⟨d, t, hd, hdc, hti, hdt⟩ := Mlfq.exists_choose hn hm₁
    (levelAfter_le.trans_lt (hi.lt_numPriorities hm))
  have hcur : m'.sched.current = some d := (hs.scheduled.chosen d hd).1
  have hrun : m'.running = d := by rw [hs.running, hcur, Option.getD_some]
  by_cases hdn : d = n
  · exact .inl (hrun.trans hdn)
  have hne : n ≠ m'.running := fun h ↦ hdn (hrun.symm.trans h.symm)
  have hlevel : ∀ p, m'.running ∈ q.schedule f m.sched.maintenanceCount m.running r (.rqs p) →
      p ≤ levelAfter m.sched.maintenanceCount i := by
    intro p hp
    rw [hrun] at hp
    rw [QueueId.rqs.inj (hwf.disjoint (Mlfq.mem_rotate.mp hp) hdt)]
    exact hti
  have hnode := hs.nodeCount
  -- any delay will do where the rank was above them all
  have hany : levelAfter m.sched.maintenanceCount i < numPriorities - 1 →
      9 * m.nodeCount + 1 ≤ k →
      ∃ j, Waiting n j m' ∧ j + (if f = .timer then 1 else 0) ≤ k := by
    intro h₉ hk
    have hdelay := hi'.delay_le (n := n) h₉
    rw [hnode] at hdelay
    refine ⟨_, ⟨_, _, hi', hne, hm', .above h₉ hlevel le_rfl⟩, ?_⟩
    split <;> omega
  right
  cases hk with
  | above h₉ hp hk =>
    have heq : levelAfter m.sched.maintenanceCount i = i := if_neg fun h ↦ h₉.ne h.2
    rw [heq] at hm' hlevel
    refine ⟨_, ⟨_, _, hi', hne, hm', .above h₉ hlevel le_rfl⟩, ?_⟩
    exact (delay_schedule hf (hs.head hf) hn hm h₉ (hp r hs.mem)).trans hk
  | behind h₉ hk => exact hany (levelAfter_le.trans_lt h₉) hk
  | lowest h₉ hk =>
    by_cases hc : maintCycle < m.sched.maintenanceCount
    · have heq : levelAfter m.sched.maintenanceCount i = 0 := if_pos ⟨hc, h₉⟩
      exact hany (heq.trans_lt (Nat.zero_lt_succ 8)) (by omega)
    · have heq : levelAfter m.sched.maintenanceCount i = i := if_neg fun h ↦ hc h.1
      rw [heq] at hm'
      have hcount : m'.sched.maintenanceCount = m.sched.maintenanceCount + 1 := by
        have h := hs.scheduled.maintenanceCount
        have h₁₀₀ : maintCycle = 100 := rfl
        rw [if_neg fun h ↦ hc h.2] at h
        refine h.trans (Nat.mod_eq_of_lt ?_)
        show m.sched.maintenanceCount + 1 < 2 ^ 32
        omega
      refine ⟨_, ⟨_, _, hi', hne, hm', .lowest h₉ le_rfl⟩, ?_⟩
      rw [hnode, hcount]
      split <;> omega

/-- One step: the waiting thread runs, or its rank is no larger, and after a tick
smaller. -/
theorem waiting_step (hw : Waiting n k m) (hc : Careful m a) (ha : NoArrival m a)
    (h : m.step a = some m') :
    m'.running = n ∨ ∃ j, Waiting n j m' ∧ j + (if a = .tick then 1 else 0) ≤ k := by
  obtain ⟨q, i, hi, hn, hm, hk⟩ := hw
  have hi' := hi.step hc h
  cases hi.turn h with
  | stays ha₁ hs hq =>
    have hnode : m'.nodeCount = m.nodeCount := by
      rcases hs.nodeCount with hh | hh
      · exact hh
      · cases a with
        | next =>
          have hadds := ha rfl
          rw [Machine.adds, hh] at hadds
          cases hadds
        | call c =>
          simp only [Machine.step] at h
          split at h <;> cases h
          rfl
        | init =>
          simp only [Machine.step] at h
          split at h <;> cases h
          rfl
        | tick => exact absurd rfl ha₁
    have hrqs : ∀ j, m.advance q a (.rqs j) = q (.rqs j) := by
      rcases hq with hq | hq
      · exact fun j ↦ ha.advance_rqs hi ha₁ hq
      · exact fun j ↦ by rw [hq]
    refine .inr ⟨k, ⟨_, i, hi', ?_, ?_, hk.congr hrqs hs hnode⟩, ?_⟩
    · rwa [hs.running]
    · rwa [hrqs]
    · rw [if_neg ha₁, Nat.add_zero]
  | serves f r hs hq hreq =>
    have hf : f ≠ .first := by
      rintro rfl
      cases hreq with
      | stored hst =>
        unfold Pc.stored at hst
        split at hst <;> cases hst
      | first hh hfc =>
        have hadds := ha rfl
        simp [Machine.adds, hh, hfc] at hadds
    rw [hq] at hi'
    refine (hs.waiting hi hi' hf hn hm hk).imp_right fun hx ↦ hx.imp fun j hj ↦ ⟨hj.1, ?_⟩
    have hle := hj.2
    cases hreq with
    | timer => exact hle
    | stored =>
      rw [if_neg (by rintro ⟨⟩)]
      omega
    | first => exact absurd rfl hf

/-- The steps of the runs in question. -/
abbrev stepWithin (m : Machine) (a : Action) : Option Machine :=
  if Careful m a ∧ NoArrival m a then m.step a else none

theorem run_eq_foldlM {ok : Machine → Action → Prop} [∀ m a, Decidable (ok m a)] (m : Machine)
    (as : List Action) :
    m.run ok as = as.foldlM (fun m a ↦ if ok m a then m.step a else none) m := by
  induction as generalizing m with
  | nil => rfl
  | cons a as ih =>
    rw [Machine.run, List.foldlM_cons]
    split
    · exact congrArg _ (funext ih)
    · rfl

theorem ranks_waiting (n : ℕ) :
    Ranks stepWithin (fun a ↦ decide (a = .tick)) (Waiting n) (·.running = n) := by
  intro k m a m' hw h
  unfold stepWithin at h
  split at h
  · rename_i hok
    simpa using waiting_step hw hok.1 hok.2 h
  · cases h

/-- A thread in a run queue gets the processor within a number of ticks linear in
the number of threads. -/
theorem no_starvation {l : List ℕ} {as : List Action} (h : Reachable Careful m)
    (hp : Path m.sched.next (m.sched.queues (.rqs i)).front l) (hn : n ∈ l)
    (hr : m.run (fun m a ↦ Careful m a ∧ NoArrival m a) as = some m')
    (hticks : 9 * m.nodeCount + 104 ≤ as.count .tick) :
    ∃ as₁ as₂ m₁, as = as₁ ++ as₂ ∧
      m.run (fun m a ↦ Careful m a ∧ NoArrival m a) as₁ = some m₁ ∧ m₁.running = n := by
  obtain ⟨q, hi⟩ := exists_inv h
  obtain rfl : l = q (.rqs i) := hp.unique (hi.linked (.rqs i)).path
  by_cases hrun : n = m.running
  · exact ⟨[], as, m, rfl, rfl, hrun.symm⟩
  · rw [run_eq_foldlM] at hr
    have hcount : 9 * m.nodeCount + 103 < as.countP fun a ↦ decide (a = .tick) := by
      refine lt_of_lt_of_le (Nat.lt_succ_self _) (hticks.trans (le_of_eq ?_))
      rw [List.count_eq_countP]
      rfl
    obtain ⟨as₁, as₂, m₁, has, hr₁, hm₁⟩ := (ranks_waiting n).exists_goal (hi.waiting hrun hn) hr
      hcount
    exact ⟨as₁, as₂, m₁, has, by rw [run_eq_foldlM]; exact hr₁, hm₁⟩

/-! ### Ticks can go on -/

/-- The timer is set, and may go off. -/
structure Ticking (m : Machine) (q : Mlfq) : Prop where
  inv : Inv m q
  uncut : m.here.uncut = false
  itv : m.sched.itv ≠ 0
  active : ∃ r, Active m q r

theorem Ticking.exists_tick (h : Ticking m q) :
    ∃ m' q', Careful m .tick ∧ m.step .tick = some m' ∧ Ticking m' q' := by
  obtain ⟨r, ha⟩ := h.active
  obtain ⟨m', hm', hs⟩ := h.inv.exists_serves (g := m.gone) (f := .timer)
    (show m.setFc .timer = _ from rfl) (by rintro ⟨⟩) ha.current (List.mem_of_head? ha.head)
    fun _ ↦ ha.head
  have hstep : m.step .tick = some m' := by
    simp only [Machine.step]
    rw [if_pos ⟨h.itv, h.inv.memFlag⟩]
    exact hm'
  have hi' := h.inv.step (show Careful m .tick from h.uncut) hstep
  have hwf := h.inv.wf.requested .timer m.sched.maintenanceCount hs.mem
  have hrun : m.running ∈ (q.requested .timer m.sched.maintenanceCount m.running r).runnable :=
    mem_runnable_requested .timer _ h.inv.wf hs.mem ((Mlfq.mem_runnable h.inv.wf).mpr ⟨r, hs.mem⟩)
      (.inr ⟨by rintro ⟨⟩, by rintro ⟨⟩, by rintro ⟨⟩⟩)
  obtain ⟨d, hd⟩ : ∃ d,
      (q.requested .timer m.sched.maintenanceCount m.running r).choose m.running = some d := by
    cases hd : (q.requested .timer m.sched.maintenanceCount m.running r).choose m.running with
    | some d => exact ⟨d, rfl⟩
    | none =>
      rw [Mlfq.choose, Option.or_eq_none_iff, List.head?_eq_none_iff] at hd
      rw [hd.2] at hrun
      cases hrun
  obtain ⟨hcur, -, hitv, t, ht⟩ := hs.scheduled.chosen d hd
  have hne : m'.sched.itv ≠ 0 := by
    rw [hitv, quantum]
    omega
  have hmem : d ∈ m.advance q .tick (.rqs t) := by
    rw [h.inv.advance_tick hs.mem]
    exact List.mem_of_head? ht
  refine ⟨m', _, h.uncut, hstep, hi', ?_, hne, ?_⟩
  · rw [Machine.here, callScheduler_pc hm']
    by_cases hr : m'.running = m.running
    · rw [hr]
      exact h.uncut
    · exact h.inv.uncut _ hr
  · cases hi'.mode with
    | boot hm => cases hm.current.symm.trans hcur
    | launch hm => exact absurd hm.itv hne
    | active p hm => exact ⟨p, hm⟩
    | stuck k hm =>
      rw [hm.runnable] at hmem
      cases hmem
    | finished hm => cases hm.current.symm.trans hcur

theorem Ticking.exists_run (h : Ticking m q) (k : ℕ) :
    ∃ m', m.run (fun m a ↦ Careful m a ∧ NoArrival m a) (List.replicate k .tick) = some m' := by
  induction k generalizing m q with
  | zero => exact ⟨m, rfl⟩
  | succ k ih =>
    obtain ⟨m₁, q₁, hc, hs, h₁⟩ := h.exists_tick
    obtain ⟨m', hm'⟩ := ih h₁
    refine ⟨m', ?_⟩
    rw [List.replicate_succ, Machine.run, if_pos ⟨hc, (by rintro ⟨⟩)⟩, hs]
    exact hm'

/-- Outside the stretches, with the timer set, ticks can go on. -/
theorem Inv.ticking (hi : Inv m q) (hu : m.here.uncut = false) (hb : m.here.blocking = false)
    (hitv : m.sched.itv ≠ 0) (hcur : m.sched.current ≠ none) : Ticking m q := by
  refine ⟨hi, hu, hitv, ?_⟩
  cases hi.mode with
  | boot hm => exact absurd hm.current hcur
  | launch hm => exact absurd hm.itv hitv
  | active r hm => exact ⟨r, hm⟩
  | stuck k hm => rcases hm.here with hh | hh | ⟨hh | hh, -⟩ <;> rw [hh] at hb <;> cases hb
  | finished hm => exact absurd hm.current hcur

/-- Two threads compute: the one that waits gets the processor. -/
theorem no_starvation_twoThreads : ∃ (m m₁ : Machine) (as : List Action), m.running = 1 ∧
    m.run (fun m a ↦ Careful m a ∧ NoArrival m a) as = some m₁ ∧ m₁.running = 0 := by
  obtain ⟨m, hm, hx⟩ := Reachable.exists_of_run Careful
    [.call .create, .next, .next, .next]
    (fun m ↦ decide (m.running = 1 ∧ m.nodeCount = 2 ∧ m.here = .user ∧ m.sched.itv = 25000 ∧
      m.sched.current = some 1 ∧ (m.sched.queues (.rqs 0)).front = some 1 ∧
      m.sched.next 1 = some 0 ∧ m.sched.next 0 = none))
    (show _ = some true by decide)
  obtain ⟨hr, hnode, hu, hitv, hcur, hfront, hn₁, hn₀⟩ := of_decide_eq_true hx
  obtain ⟨q, hi⟩ := exists_inv hm
  have ht : Ticking m q := hi.ticking (by rw [hu]; rfl) (by rw [hu]; rfl) (by rw [hitv]; decide)
    (by rw [hcur]; rintro ⟨⟩)
  obtain ⟨m', hm'⟩ := ht.exists_run 122
  obtain ⟨as₁, as₂, m₁, -, hr₁, hm₁⟩ := no_starvation (l := [1, 0]) (n := 0) (i := 0) hm
    ⟨hfront, hn₁, hn₀⟩ (by simp) hm' (by rw [hnode, List.count_replicate_self])
  exact ⟨m, m₁, as₁, hr, hr₁, hm₁⟩

/-! ### Yields -/

/-- The next statement calls `scheduler` with another request than a yield. -/
def Machine.leaves (m : Machine) : Bool :=
  match m.here with
  | .exit .call | .join _ .call | .lock _ .call => true
  | .create .call => m.sched.fc = .first
  | _ => false

/-- The step gives up the processor for a yield only. -/
def OnlyYields (m : Machine) (a : Action) : Prop := a ≠ .tick ∧ (a = .next → m.leaves = false)

instance (m : Machine) (a : Action) : Decidable (OnlyYields m a) :=
  inferInstanceAs (Decidable (_ ∧ _))

/-- Past the test of `my_pthread_yield`. -/
def Pc.yielding : Pc → Bool
  | .yield .flag | .yield .call => true
  | _ => false

theorem OnlyYields.request (h : OnlyYields m a) (hf : Requested m a f) : f = .yield := by
  cases hf with
  | timer => exact absurd rfl h.1
  | stored hst hcall =>
    rcases Pc.stored_of_isCall hcall hst with ⟨-, rfl⟩ | ⟨hh, -⟩ | ⟨t, hh, -⟩ | ⟨k, hh, -⟩
    · rfl
    · have hl := h.2 rfl
      rw [Machine.leaves, hh] at hl
      cases hl
    · have hl := h.2 rfl
      rw [Machine.leaves, hh] at hl
      cases hl
    · have hl := h.2 rfl
      rw [Machine.leaves, hh] at hl
      cases hl
  | first hh hfc =>
    have hl := h.2 rfl
    simp [Machine.leaves, hh, hfc] at hl

/-- The thread `n` is in a level between, the executing one is in a better level, and
not alone in the better levels when it yields. -/
structure Below (n i : ℕ) (m : Machine) (q : Mlfq) : Prop where
  inv : Inv m q
  mem : n ∈ q (.rqs i)
  above : ∃ p, p < i ∧ m.running ∈ q (.rqs p)
  others : ∀ k, k ≠ m.running → (m.pc k).yielding = false
  company : m.here.yielding = true → ∃ d p, p < i ∧ d ∈ q (.rqs p) ∧ d ≠ m.running

theorem Below.running_ne (h : Below n i m q) : m.running ≠ n := by
  rintro hr
  obtain ⟨p, hp, hm⟩ := h.above
  rw [hr] at hm
  exact hp.ne (QueueId.rqs.inj (h.inv.wf.disjoint hm h.mem))

/-- Without a call of `scheduler` the run queues only grow. -/
theorem mem_advance_rqs (hi : Inv m q) (ha : a ≠ .tick)
    (hc : m.here.isCall = false ∨ m.advance q a = q) {j : ℕ} (hk : k ∈ q (.rqs j)) :
    k ∈ m.advance q a (.rqs j) := by
  rcases hc with hc | hc
  · have hmoved := moved m q a
    generalize m.advance q a = q' at hmoved ⊢
    cases hmoved with
    | still => exact hk
    | tick ht => exact absurd ht ha
    | call _ hh => cases hc.symm.trans hh
    | first => exact Mlfq.mem_put.mpr (.inl (Mlfq.mem_put.mpr (.inl hk)))
    | created n => exact Mlfq.mem_put.mpr (.inl hk)
    | joined e i n l _ _ hl | kept e i n l _ _ hl =>
      have hn : n ∈ q .joinQueue := by
        rw [hl]
        exact List.mem_cons_self
      refine (Mlfq.mem_move hi.wf hn).mpr (.inl ⟨hk, ?_⟩)
      rintro rfl
      cases hi.wf.disjoint hk hn
    | woken t n l _ _ hl =>
      have hn : n ∈ q .waitingQueue := by
        rw [hl]
        exact List.mem_cons_self
      refine (Mlfq.mem_move hi.wf hn).mpr (.inl ⟨hk, ?_⟩)
      rintro rfl
      cases hi.wf.disjoint hk hn
  · rwa [hc]

/-- A thread that goes past the test of its yield is not alone in its level. -/
theorem Inv.company (hi : Inv m q) {p : Pc} (he : Edge m m.here p) (hp : p = .yield .flag) :
    ∃ d j, m.running ∈ q (.rqs j) ∧ d ∈ q (.rqs j) ∧ d ≠ m.running := by
  generalize hh : m.here = w at he
  cases he with
  | yieldTest c f hc hf hn =>
    obtain rfl := hi.flow.current c hc
    obtain ⟨r, ha⟩ := hi.exists_active (.inr ⟨by rw [hc]; rintro ⟨⟩, by rw [hh]; rfl⟩)
      (by rw [hh]; rfl)
    obtain ⟨l, hl⟩ := List.head?_eq_some_iff.mp ha.head
    have hprio : (m.sched.tcb m.running).threadPriority = r :=
      hi.priority r _ (List.mem_of_head? ha.head)
    rw [hprio, hi.linked.front, ha.head] at hf
    obtain rfl := Option.some.inj hf
    have hpath := (hi.linked (.rqs r)).path
    rw [hl] at hpath
    have hnext : m.sched.next m.running = l.head? := hpath.2.head
    cases l with
    | nil => exact absurd hnext hn
    | cons d l =>
      refine ⟨d, r, List.mem_of_head? ha.head, ?_, ?_⟩
      · rw [hl]
        exact List.mem_cons_of_mem _ List.mem_cons_self
      · rintro rfl
        have hnd := hi.wf.nodup (.rqs r)
        rw [hl] at hnd
        exact (List.nodup_cons.mp hnd).1 List.mem_cons_self
  | _ => cases hp

/-- The executing thread is past the test only if it was, or has just done it. -/
theorem Below.company_step (h : Below n i m q) (hs : m.step a = some m') (hst : Stays m m')
    (hmem : ∀ j k, k ∈ q (.rqs j) → k ∈ q' (.rqs j)) (hy : m'.here.yielding = true) :
    ∃ d p, p < i ∧ d ∈ q' (.rqs p) ∧ d ≠ m'.running := by
  rw [hst.running]
  rw [Machine.here, hst.running] at hy
  have hkeep : m.here.yielding = true → ∃ d p, p < i ∧ d ∈ q' (.rqs p) ∧ d ≠ m.running :=
    fun hy ↦ by
      obtain ⟨d, p, hp, hd, hne⟩ := h.company hy
      exact ⟨d, p, hp, hmem p d hd, hne⟩
  cases step_goes hs with
  | enters c hu hpc =>
    rw [hpc, update_self] at hy
    cases c <;> cases hy
  | next hf =>
    have he := hf.edge
    by_cases hflag : m'.pc m.running = .yield .flag
    · obtain ⟨d, j, hr, hd, hne⟩ := h.inv.company he hflag
      obtain ⟨p, hp, hrp⟩ := h.above
      obtain rfl := QueueId.rqs.inj (h.inv.wf.disjoint hr hrp)
      exact ⟨d, j, hp, hmem j d hd, hne⟩
    · refine hkeep ?_
      generalize hw : m.here = w at he ⊢
      generalize m'.pc m.running = w' at he hy hflag
      cases he with
      | yieldTest => exact absurd rfl hflag
      | yieldFlag => rfl
      | _ => cases hy
  | init hpc | tick hpc =>
    rw [hpc] at hy
    exact hkeep hy

theorem Below.step (h : Below n i m q) (h₉ : i < numPriorities - 1)
    (hc : Careful m a) (hy : OnlyYields m a) (hs : m.step a = some m') :
    Below n i m' (m.advance q a) := by
  have hi' := h.inv.step hc hs
  have hothers : ∀ k, k ≠ m.running → (m'.pc k).yielding = false := fun k hk ↦ by
    rw [(step_goes hs).pc_of_ne hk]
    exact h.others k hk
  obtain ⟨p, hp, hrp⟩ := h.above
  cases h.inv.turn hs with
  | stays ha hst hq =>
    have hmem : ∀ j k, k ∈ q (.rqs j) → k ∈ m.advance q a (.rqs j) := fun j k hk ↦
      mem_advance_rqs h.inv ha hq hk
    refine ⟨hi', hmem i n h.mem, ⟨p, hp, ?_⟩, ?_, h.company_step hs hst hmem⟩
    · rw [hst.running]
      exact hmem p _ hrp
    · rwa [hst.running]
  | serves f r hserves hq hreq =>
    obtain rfl := hy.request hreq
    have hhere : m.here = .yield .call := by
      cases hreq with
      | stored hst hcall =>
        rcases Pc.stored_of_isCall hcall hst with ⟨hh, -⟩ | ⟨-, hf⟩ | ⟨t, -, hf⟩ | ⟨k, -, hf⟩
        · exact hh
        · cases hf
        · cases hf
        · cases hf
    obtain rfl := QueueId.rqs.inj (h.inv.wf.disjoint hserves.mem hrp)
    have hn : n ≠ m.running := h.running_ne.symm
    have hmem : ∀ k j, k ≠ m.running → j ≤ i → k ∈ q (.rqs j) →
        k ∈ q.requested .yield m.sched.maintenanceCount m.running r (.rqs j) := by
      intro k j hk hj hkq
      have hx : k ∈ q.requested .yield m.sched.maintenanceCount m.running r
          (.rqs (levelAfter m.sched.maintenanceCount j)) :=
        mem_requested_levelAfter (by rintro ⟨⟩) hk hkq
      rwa [show levelAfter m.sched.maintenanceCount j = j from if_neg fun hx ↦ by omega] at hx
    obtain ⟨d, t, ht, hd, hdne⟩ := h.company (by rw [hhere]; rfl)
    obtain ⟨e, s, he, hne, hst, hes⟩ := Mlfq.exists_choose hdne (hmem d t hdne ht.le hd)
      (by omega)
    have hcur : m'.sched.current = some e := (hserves.scheduled.chosen e he).1
    have hrun : m'.running = e := by rw [hserves.running, hcur, Option.getD_some]
    have hquiet : ∀ k, (m'.pc k).yielding = false := by
      intro k
      by_cases hk : k = m.running
      · cases step_goes hs with
        | enters c hu => cases hhere.symm.trans hu
        | next hf =>
          have hedge := hf.edge
          rw [hhere] at hedge
          rw [hk]
          generalize m'.pc m.running = w at hedge
          cases hedge
          rfl
        | init => exact absurd hreq (by rintro ⟨⟩)
        | tick => exact absurd rfl hy.1
      · exact hothers k hk
    rw [hq] at hi' ⊢
    refine ⟨hi', Mlfq.mem_rotate.mpr (hmem n i hn le_rfl h.mem),
      ⟨s, hst.trans_lt ht, ?_⟩, fun k _ ↦ hquiet k, fun hx ↦ ?_⟩
    · rw [hrun]
      exact Mlfq.mem_rotate.mpr hes
    · cases (hquiet _).symm.trans hx

/-- However often the threads of better levels yield, a thread of one of the levels
between the first and the last does not get the processor from them. -/
theorem yields_starve {l : List ℕ} {as : List Action} (h : Reachable Careful m)
    (hp : Path m.sched.next (m.sched.queues (.rqs i)).front l) (hn : n ∈ l)
    (h₉ : i < numPriorities - 1) (hcur : m.sched.current = some c)
    (hlevel : (m.sched.tcb c).threadPriority < i) (hpc : ∀ k, (m.pc k).yielding = false)
    (hr : m.run (fun m a ↦ Careful m a ∧ OnlyYields m a) as = some m') : m'.running ≠ n := by
  obtain ⟨q, hi⟩ := exists_inv h
  obtain rfl : l = q (.rqs i) := hp.unique (hi.linked (.rqs i)).path
  obtain rfl := hi.flow.current c hcur
  have hb : Below n i m q := by
    refine ⟨hi, hn, ?_, fun k _ ↦ hpc k, fun hx ↦ by cases (hpc _).symm.trans hx⟩
    cases hi.mode with
    | boot hm => cases hm.current.symm.trans hcur
    | launch hm =>
      rw [hi.priority 0 _ hm.mem] at hlevel
      exact ⟨0, hlevel, hm.mem⟩
    | active r hm =>
      have hmem := List.mem_of_head? hm.head
      rw [hi.priority r _ hmem] at hlevel
      exact ⟨r, hlevel, hmem⟩
    | stuck k hm =>
      rw [hm.runnable] at hn
      cases hn
    | finished hm => cases hm.current.symm.trans hcur
  clear hp hcur hlevel hpc hi h
  induction as generalizing m q with
  | nil =>
    cases hr
    exact hb.running_ne
  | cons a as ih =>
    rw [Machine.run] at hr
    split at hr
    · rename_i hok
      obtain ⟨m₁, hs, hr⟩ := Option.bind_eq_some_iff.mp hr
      have hb₁ := hb.step h₉ hok.1 hok.2 hs
      exact ih hr _ hb₁.mem hb₁
    · cases hr

/-- Two threads of the first level yield to each other, a third waits in the second. -/
theorem yields_starve_threeThreads : ∃ m m' : Machine,
    m.run (fun m a ↦ Careful m a ∧ OnlyYields m a) [.call .yield, .next, .next, .next] = some m' ∧
      (m.sched.queues (.rqs 1)).front = some 1 ∧ m'.running ≠ 1 := by
  obtain ⟨m, hm, hx⟩ := Reachable.exists_of_run Careful
    [.call .create, .next, .next, .next, .tick, .call .create, .next, .next, .next, .next]
    (fun m ↦ decide (m.sched.current = some 0 ∧ (m.sched.tcb 0).threadPriority = 0 ∧
      (m.sched.queues (.rqs 1)).front = some 1 ∧ m.sched.next 1 = none ∧ m.nodeCount = 3 ∧
      (m.pc 0).yielding = false ∧ (m.pc 1).yielding = false ∧ (m.pc 2).yielding = false ∧
      (m.run (fun m a ↦ Careful m a ∧ OnlyYields m a)
        [.call .yield, .next, .next, .next]).isSome = true))
    (show _ = some true by decide)
  obtain ⟨hcur, hlevel, hfront, hnext, hnode, hy₀, hy₁, hy₂, hr⟩ := of_decide_eq_true hx
  obtain ⟨m', hm'⟩ := Option.isSome_iff_exists.mp hr
  obtain ⟨q, hi⟩ := exists_inv hm
  refine ⟨m, m', hm', hfront, yields_starve (l := [1]) (i := 1) hm ⟨hfront, hnext⟩
    List.mem_cons_self (by decide) hcur (by omega) (fun k ↦ ?_) hm'⟩
  rcases lt_or_ge k 3 with hk | hk
  · interval_cases k
    · exact hy₀
    · exact hy₁
    · exact hy₂
  · rw [hi.flow.unused k (hnode ▸ hk)]
    rfl

end MyPthread.Api
