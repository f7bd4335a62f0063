import MyPthread.Sched.Queues

/-!
# `scheduler` refines the feedback queue

`Represents s q` connects a state to the lists of `Sched.Mlfq`; `Calling` is the
situation in which the code calls `scheduler`.  One lemma for the request, one
for the maintenance, one for the scan and one for the choice give
`scheduler_refines`.
-/

namespace MyPthread.Sched

open MyPthread.Lib Function

/-- The state `s` holds the queues `q`. -/
structure Represents (s : State) (q : Mlfq) : Prop where
  linked : Linked s q
  wf : q.WF
  /-- A thread knows its level. -/
  priority : ∀ i, ∀ n ∈ q (.rqs i), (s.tcb n).threadPriority = i
  /-- The tids are distinct. -/
  tids : ∀ n m, q.Mem n → q.Mem m → (s.tcb n).tid = (s.tcb m).tid → n = m

/-- Nothing of a thread changes but its priority. -/
def PriorityOnly (s s' : State) : Prop :=
  ∀ n, s'.tcb n = { s.tcb n with threadPriority := (s'.tcb n).threadPriority }

theorem PriorityOnly.refl (s : State) : PriorityOnly s s := fun _ ↦ rfl

theorem PriorityOnly.of_eq {s s' : State} (h : ∀ n, s'.tcb n = s.tcb n) : PriorityOnly s s' :=
  fun n ↦ by rw [h n]

theorem PriorityOnly.trans {s s₁ s₂ : State} (h : PriorityOnly s s₁) (h' : PriorityOnly s₁ s₂) :
    PriorityOnly s s₂ := fun n ↦ by
  rw [h' n, h n]

theorem PriorityOnly.setPriority (s : State) (n p : ℕ) :
    PriorityOnly s (s.setPriority n p) := fun m ↦ by
  by_cases hm : m = n
  · subst hm
    rw [State.tcb_setPriority_self]
  · rw [State.tcb_setPriority_of_ne hm]

theorem ResetPriorities.priorityOnly {s s' : State} {l : List ℕ} (h : ResetPriorities l s s') :
    PriorityOnly s s' := fun n ↦ by
  by_cases hn : n ∈ l
  · rw [h.mem n hn]
  · rw [h.notMem n hn]

/-- Distinct tids stay distinct. -/
theorem tids_of_priorityOnly {s s' : State} {q q' : Mlfq}
    (h : ∀ n m, q.Mem n → q.Mem m → (s.tcb n).tid = (s.tcb m).tid → n = m)
    (hp : PriorityOnly s s') (hmem : ∀ n, q'.Mem n → q.Mem n) :
    ∀ n m, q'.Mem n → q'.Mem m → (s'.tcb n).tid = (s'.tcb m).tid → n = m := by
  intro n m hn hm htid
  rw [hp n, hp m] at htid
  exact h n m (hmem n hn) (hmem m hm) htid

/-- The situation in which `scheduler` is called: `current` is in the queue of
its level, at the front unless this is a first call. -/
structure Calling (s : State) (q : Mlfq) (c p : ℕ) : Prop where
  rep : Represents s q
  memFlag : s.memFlag = 0
  current : s.current = some c
  mem : c ∈ q (.rqs p)
  front : s.fc ≠ .first → (q (.rqs p)).head? = some c

section Serve

variable {s : State} {q : Mlfq} {c p : ℕ}

/-- What `serve` leaves of the globals. -/
structure Served (s s' : State) : Prop where
  current : s'.current = if s.fc = .pexit then none else s.current
  fc : s'.fc = if s.fc = .pexit then .pexit else .none
  maintenanceCount : s'.maintenanceCount = s.maintenanceCount
  memFlag : s'.memFlag = s.memFlag
  priorityOnly : PriorityOnly s s'

/-- The queues a move leaves, when the mover has the priority of its new level. -/
theorem represents_move {s₁ s₂ : State} {src dst : QueueId} (hr : Represents s q)
    (hl : Linked s₂ (q.move src dst c)) (hd : OnlyLinks s₁ s₂) (hp : PriorityOnly s s₁)
    (hne : ∀ n, n ≠ c → s₁.tcb n = s.tcb n) (hc : c ∈ q src)
    (hdst : ∀ i, dst = .rqs i → i < numPriorities ∧ (s₁.tcb c).threadPriority = i) :
    Represents s₂ (q.move src dst c) where
  linked := hl
  wf := hr.wf.move hc fun i hi ↦ (hdst i hi).1
  priority i n hn := by
    rw [hd.tcb]
    rcases (Mlfq.mem_move hr.wf hc).mp hn with ⟨hn, hnc⟩ | ⟨hdi, rfl⟩
    · rw [hne n hnc]
      exact hr.priority i n hn
    · exact (hdst i hdi.symm).2
  tids := by
    refine tids_of_priorityOnly hr.tids (hp.trans (.of_eq hd.tcb)) ?_
    rintro n ⟨R, hR⟩
    rcases (Mlfq.mem_move hr.wf hc).mp hR with ⟨hn, -⟩ | ⟨-, rfl⟩
    · exact ⟨R, hn⟩
    · exact ⟨src, hc⟩

theorem represents_take {s₁ : State} {Q : QueueId} (hr : Represents s q)
    (hl : Linked s₁ (q.take Q c)) (hd : OnlyLinks s s₁) : Represents s₁ (q.take Q c) where
  linked := hl
  wf := hr.wf.take
  priority i n hn := by
    rw [hd.tcb]
    exact hr.priority i n ((Mlfq.mem_take hr.wf).mp hn).1
  tids := tids_of_priorityOnly hr.tids (.of_eq hd.tcb) fun n ⟨R, hR⟩ ↦
    ⟨R, ((Mlfq.mem_take hr.wf).mp hR).1⟩

/-- A request that moves `current` to the tail of `dst`, with its priority. -/
theorem requeue_current (dst : QueueId) {l : List ℕ} (hr : Represents s q)
    (hl : q (.rqs p) = c :: l) (hdst : ∀ i, dst = .rqs i → i = p) :
    ∃ s₁, requeue (.rqs p) dst s = some s₁ ∧ Represents s₁ (q.move (.rqs p) dst c) ∧
      OnlyLinks s s₁ := by
  have hc : c ∈ q (.rqs p) := by simp [hl]
  obtain ⟨s₁, hreq, hlink, hd⟩ := requeue_spec dst hr.linked hr.wf hl
  refine ⟨s₁, hreq, represents_move hr hlink hd (.refl s) (fun _ _ ↦ rfl) hc fun i hi ↦ ?_, hd⟩
  rw [hdst i hi]
  exact ⟨hr.wf.lt_of_mem hc, hr.priority p c hc⟩

/-- The request of `current` is served as the feedback queue says. -/
theorem serve_spec (h : Calling s q c p) (h₀ : s.fc ≠ .none) (h₁ : s.fc ≠ .first) :
    ∃ s₁, serve s = some s₁ ∧ Represents s₁ (q.request s.fc c p) ∧ Served s s₁ := by
  have hr := h.rep
  obtain ⟨l, hl⟩ := List.head?_eq_some_iff.mp (h.front h₁)
  have hp : (s.tcb c).threadPriority = p := hr.priority p c h.mem
  have hlt : p < 10 := hr.wf.lt_of_mem h.mem
  -- the four requests that keep the priority are one move
  have key : ∀ dst, (∀ i, dst = .rqs i → i = p) → s.fc ≠ .pexit →
      ∃ s₁, requeue (.rqs p) dst s = some s₁ ∧
        Represents { s₁ with fc := .none } (q.move (.rqs p) dst c) ∧
        Served s { s₁ with fc := .none } := by
    intro dst hdst hfc
    obtain ⟨s₁, hreq, hrep, hd⟩ := requeue_current dst hr hl hdst
    refine ⟨s₁, hreq, ⟨hrep.linked, hrep.wf, hrep.priority, hrep.tids⟩, ?_, ?_,
      hd.maintenanceCount, hd.memFlag, .of_eq hd.tcb⟩
    · rw [if_neg hfc]
      exact hd.current
    · rw [if_neg hfc]
  cases hfc : s.fc with
  | none => exact absurd hfc h₀
  | first => exact absurd hfc h₁
  | timer =>
    by_cases h₉ : p < 9
    · have hlp : Linked (s.setPriority c (p + 1)) q :=
        hr.linked.congr State.next_setPriority State.queues_setPriority
      obtain ⟨s₁, hreq, hlink, hd⟩ := requeue_spec (.rqs (p + 1)) hlp hr.wf hl
      have hrep := represents_move hr hlink hd (.setPriority s c (p + 1))
        (fun n hn ↦ State.tcb_setPriority_of_ne hn) h.mem fun i hi ↦ by
          cases hi
          rw [State.tcb_setPriority_self]
          exact ⟨show p + 1 < 10 by omega, rfl⟩
      have hmin : min (p + 1) (numPriorities - 1) = p + 1 :=
        Nat.min_eq_left (show p + 1 ≤ 9 by omega)
      refine ⟨{ s₁ with fc := .none }, ?_, ?_, ?_, ?_, hd.maintenanceCount, hd.memFlag,
        (PriorityOnly.setPriority s c (p + 1)).trans (.of_eq hd.tcb)⟩
      · simp [serve, h.current, hfc, hp, h₉, hreq]
      · rw [Mlfq.request, hmin]
        exact ⟨hrep.linked, hrep.wf, hrep.priority, hrep.tids⟩
      · rw [hfc, if_neg (by decide)]
        exact hd.current
      · rw [hfc, if_neg (by decide)]
    · obtain ⟨s₁, hreq, hrep, hs⟩ := key (.rqs p) (fun i hi ↦ by cases hi; rfl) (by simp [hfc])
      have hmin : min (p + 1) (numPriorities - 1) = p :=
        (Nat.min_eq_right (show 9 ≤ p + 1 by omega)).trans (show 9 = p by omega)
      refine ⟨_, ?_, ?_, hs⟩
      · simp [serve, h.current, hfc, hp, h₉, hreq]
      · rwa [Mlfq.request, hmin]
  | yield =>
    obtain ⟨s₁, hreq, hrep, hs⟩ := key (.rqs p) (fun i hi ↦ by cases hi; rfl) (by simp [hfc])
    exact ⟨_, by simp [serve, h.current, hfc, hp, hreq], hrep, hs⟩
  | join =>
    obtain ⟨s₁, hreq, hrep, hs⟩ := key .joinQueue (fun i hi ↦ by cases hi) (by simp [hfc])
    exact ⟨_, by simp [serve, h.current, hfc, hp, hreq], hrep, hs⟩
  | blocked =>
    obtain ⟨s₁, hreq, hrep, hs⟩ := key .waitingQueue (fun i hi ↦ by cases hi) (by simp [hfc])
    exact ⟨_, by simp [serve, h.current, hfc, hp, hreq], hrep, hs⟩
  | pexit =>
    obtain ⟨s₁, hdeq, hlink, hd⟩ := dequeuee_spec hr.linked hl
    have hrep := represents_take hr hlink hd
    refine ⟨{ s₁ with current := none }, ?_, ⟨hrep.linked, hrep.wf, hrep.priority, hrep.tids⟩,
      ?_, ?_, hd.maintenanceCount, hd.memFlag, .of_eq hd.tcb⟩
    · simp [serve, h.current, hfc, hp, hdeq]
    · simp [hfc]
    · simp [hfc, hd.fc]

/-- The maintenance appends the lowest level to the highest. -/
theorem maintain_spec {fuel : ℕ} (hr : Represents s q)
    (hfuel : (q.age (.rqs 0)).length ≤ fuel) :
    ∃ s', maintain fuel s = some s' ∧
      Represents s' (if maintCycle < s.maintenanceCount then q.age else q) ∧
      s'.maintenanceCount = (if maintCycle < s.maintenanceCount then 0 else s.maintenanceCount) ∧
      s'.current = s.current ∧ s'.fc = s.fc ∧ s'.memFlag = s.memFlag ∧ PriorityOnly s s' := by
  unfold maintain
  by_cases hm : maintCycle < s.maintenanceCount
  · simp only [if_pos hm]
    obtain ⟨s', l, hsplice, hlink, hreset, hl, hlow⟩ :=
      splice_spec (s := { s with maintenanceCount := 0 }) hr.linked hr.wf hfuel
    refine ⟨s', hsplice, ⟨hlink, hr.wf.age, ?_, ?_⟩, hreset.maintenanceCount, hreset.current,
      hreset.fc, hreset.memFlag, hreset.priorityOnly⟩
    · intro i n hn
      by_cases hnl : n ∈ l
      · rw [hreset.mem n hnl]
        have := hr.wf.age.disjoint hn (hl n hnl)
        simpa [eq_comm] using this
      · rw [hreset.notMem n hnl]
        rcases Mlfq.mem_age.mp hn with ⟨h, -⟩ | ⟨-, h⟩
        · exact hr.priority i n h
        · exact absurd (hlow n h) hnl
    · refine tids_of_priorityOnly hr.tids hreset.priorityOnly ?_
      rintro n ⟨R, hR⟩
      rcases Mlfq.mem_age.mp hR with ⟨h, -⟩ | ⟨-, h⟩
      · exact ⟨_, h⟩
      · exact ⟨_, h⟩
  · simp only [if_neg hm]
    exact ⟨s, rfl, hr, rfl, rfl, rfl, rfl, .refl s⟩

/-- `updateQueue` leaves the queues requested, for every request that is not
`NONE`. -/
theorem updateQueue_spec {fuel : ℕ} (h : Calling s q c p) (h₀ : s.fc ≠ .none)
    (hfuel : q.runnable.length ≤ fuel) :
    ∃ s₁, updateQueue fuel s = some (false, s₁) ∧
      Represents s₁ (q.requested s.fc s.maintenanceCount c p) ∧
      s₁.current = (if s.fc = .pexit then none else some c) ∧
      s₁.fc = (if s.fc = .pexit then .pexit else if s.fc = .first then .first else .none) ∧
      s₁.maintenanceCount = (if s.fc ≠ .first ∧ maintCycle < s.maintenanceCount then 0
        else s.maintenanceCount) ∧
      s₁.memFlag = s.memFlag ∧ PriorityOnly s s₁ := by
  by_cases h₁ : s.fc = .first
  · refine ⟨s, ?_, ?_, ?_, ?_, ?_, rfl, .refl s⟩
    · rw [updateQueue, h₁]
    · rw [Mlfq.requested, if_pos h₁]
      exact h.rep
    · rw [h₁, if_neg (by decide)]
      exact h.current
    · rw [h₁, if_neg (by decide), if_pos rfl]
    · rw [if_neg fun hh ↦ hh.1 h₁]
  · obtain ⟨s₁, hserve, hrep₁, hs₁⟩ := serve_spec h h₀ h₁
    obtain ⟨s₂, hmaint, hrep₂, hcount, hcur, hfc, hflag, hprio⟩ := maintain_spec hrep₁
      ((Mlfq.length_request_age_le h.rep.wf h.mem).trans hfuel)
    rw [hs₁.maintenanceCount] at hrep₂ hcount
    refine ⟨s₂, ?_, ?_, ?_, ?_, ?_, hflag.trans hs₁.memFlag, hs₁.priorityOnly.trans hprio⟩
    · have hupdate : updateQueue fuel s = (do
          let s ← serve s
          let s ← maintain fuel s
          return (false, s)) := by
        cases hfc : s.fc <;> simp_all [updateQueue]
      rw [hupdate, hserve, Option.bind_eq_bind, Option.bind_some, hmaint]
      rfl
    · rwa [Mlfq.requested, if_neg h₁]
    · rw [hcur, hs₁.current, h.current]
    · rw [hfc, hs₁.fc, if_neg h₁]
    · rw [hcount]
      simp only [ne_eq, h₁, not_false_eq_true, true_and]

end Serve

section Choice

variable {s : State} {q : Mlfq} {c n i j k : ℕ} {l : List ℕ} {x : Option ℕ}

/-- The scan stops at the first level that is not empty. -/
theorem scan_some (h : Linked s q) (hs : scan s k i none = (j, some n)) :
    i ≤ j ∧ j < i + k ∧ (q (.rqs j)).head? = some n ∧ ∀ t, i ≤ t → t < j → q (.rqs t) = [] := by
  induction k generalizing i with
  | zero => cases hs
  | succ k ih =>
    rw [scan] at hs
    cases hf : (s.queues (.rqs i)).front with
    | some m =>
      rw [hf] at hs
      cases hs
      rw [h.front] at hf
      exact ⟨le_refl _, by omega, hf, fun t ht hti ↦ by omega⟩
    | none =>
      rw [hf] at hs
      obtain ⟨hij, hjk, hhead, hnil⟩ := ih hs
      refine ⟨by omega, by omega, hhead, fun t ht htj ↦ ?_⟩
      rcases eq_or_lt_of_le ht with rfl | ht
      · rw [h.front] at hf
        exact List.head?_eq_none_iff.mp hf
      · exact hnil t ht htj

theorem scan_none (h : Linked s q) (hs : (scan s k i none).2 = none) :
    ∀ t, i ≤ t → t < i + k → q (.rqs t) = [] := by
  induction k generalizing i with
  | zero => exact fun t ht htk ↦ by omega
  | succ k ih =>
    intro t ht htk
    rw [scan] at hs
    cases hf : (s.queues (.rqs i)).front with
    | some m =>
      rw [hf] at hs
      cases hs
    | none =>
      rw [hf] at hs
      rcases eq_or_lt_of_le ht with rfl | ht
      · rw [h.front] at hf
        exact List.head?_eq_none_iff.mp hf
      · exact ih hs t ht (by omega)

/-- The scan of the levels from `i` finds the first thread of these. -/
theorem scan_below (h : Linked s q) (hik : i + k = numPriorities) :
    (scan s k i none).2 = (Mlfq.below i q).head? := by
  induction k generalizing i with
  | zero =>
    have : numPriorities - i = 0 := by omega
    rw [Mlfq.below, this]
    rfl
  | succ k ih =>
    rw [scan, Mlfq.below_succ (by omega), h.front]
    cases hq : q (.rqs i) with
    | nil => exact ih (by omega)
    | cons m l => rfl

/-- A scan whose last argument is set returns it when it has no round. -/
theorem scan_some_init (h : Linked s q) (hik : i + k = numPriorities) :
    (scan s k i (some c)).2.getD c = ((Mlfq.below i q).head?).getD c := by
  rw [← scan_below h hik]
  cases k with
  | zero => rfl
  | succ k => rfl

/-- Some level starts with the first thread of the levels from `i`. -/
theorem exists_head_of_below (h : (Mlfq.below i q).head? = some n) :
    ∃ t, (q (.rqs t)).head? = some n := by
  unfold Mlfq.below at h
  generalize List.range' i (numPriorities - i) = levels at h
  induction levels with
  | nil => cases h
  | cons t levels ih =>
    rw [List.flatMap_cons, List.head?_append, Option.or_eq_some_iff] at h
    rcases h with h | ⟨-, h⟩
    · exact ⟨t, h⟩
    · exact ih h

/-- The choice when the scan finds the current thread. -/
theorem avoidCurrent_spec (hr : Represents s q) (hi : i < numPriorities)
    (hnil : ∀ t, t < i → q (.rqs t) = []) (hl : q (.rqs i) = c :: l) :
    ∃ s' d, avoidCurrent c i c s = some (d, s') ∧ Represents s' (q.rotate c) ∧ OnlyLinks s s' ∧
      q.choose c = some d ∧ ∃ t, (q.rotate c (.rqs t)).head? = some d := by
  have hrun : q.runnable = c :: (l ++ Mlfq.below (i + 1) q) := by
    rw [Mlfq.runnable_of_first hi hnil, hl, List.cons_append]
  have hhead : q.runnable.head? = some c := by rw [hrun]; rfl
  have hc : c ∈ q (.rqs i) := by simp [hl]
  have hcl : c ∉ l := by
    have := hr.wf.nodup (.rqs i)
    rw [hl, List.nodup_cons] at this
    exact this.1
  have hcb : c ∉ Mlfq.below (i + 1) q := fun hcb ↦ by
    obtain ⟨t, hit, -, ht⟩ := Mlfq.mem_below.mp hcb
    have := hr.wf.disjoint hc ht
    simp only [QueueId.rqs.injEq] at this
    omega
  have hchoose := Mlfq.choose_of_eq hrun (by
    rw [List.mem_append, not_or]
    exact ⟨hcl, hcb⟩)
  have hprio : (s.tcb c).threadPriority = i := hr.priority i c hc
  obtain ⟨s', hreq, hrep, hd⟩ := requeue_current (.rqs i) hr hl fun j hj ↦ by
    cases hj
    rfl
  rw [← Mlfq.rotate_of_eq hr.wf hhead hl] at hrep
  have hnext : s.next c = l.head? := by
    have := (hr.linked (.rqs i)).path
    rw [hl] at this
    exact this.2.head
  have hrot : q.rotate c (.rqs i) = l ++ [c] := by
    rw [Mlfq.rotate, if_pos ⟨hhead, by rw [hl]; rfl⟩, hl, List.tail_cons]
  cases l with
  | cons m l =>
    refine ⟨s', m, ?_, hrep, hd, hchoose, i, ?_⟩
    · simp [avoidCurrent, hnext, hprio, hreq]
    · rw [hrot]
      rfl
  | nil =>
    have hscan := scan_some_init (c := c) (k := numPriorities - (i + 1)) (i := i + 1) hr.linked
      (by omega)
    refine ⟨s', ((Mlfq.below (i + 1) q).head?).getD c, ?_, hrep, hd, hchoose, ?_⟩
    · rw [← hscan]
      simp [avoidCurrent, hnext, hprio, hreq]
    · cases hb : (Mlfq.below (i + 1) q).head? with
      | none => exact ⟨i, by rw [hrot]; rfl⟩
      | some d =>
        obtain ⟨t, ht⟩ := exists_head_of_below hb
        refine ⟨t, ?_⟩
        have hdc : d ≠ c := fun hdc ↦ hcb (hdc ▸ List.mem_of_head? hb)
        rw [Mlfq.rotate, if_neg]
        · exact ht
        · rintro ⟨-, hh⟩
          rw [ht] at hh
          exact hdc (Option.some.inj hh)

end Choice

/-! ## `scheduler` -/

/-- What `scheduler`, called by `c`, leaves when the queues requested are `q`. -/
structure Scheduled (s : State) (q : Mlfq) (c : ℕ) (s' : State) : Prop where
  rep : Represents s' (q.rotate c)
  priorityOnly : PriorityOnly s s'
  memFlag : s'.memFlag = s.memFlag
  maintenanceCount : s'.maintenanceCount =
    ((if s.fc ≠ .first ∧ maintCycle < s.maintenanceCount then 0 else s.maintenanceCount) + 1) %
      2 ^ 32
  /-- The chosen thread runs, is at the front of its level, and the timer is set
  to its quantum. -/
  chosen : ∀ d, q.choose c = some d → s'.current = some d ∧
    s'.fc = (if s.fc = .first then .first else .none) ∧
    s'.itv = quantum (s'.tcb d).threadPriority ∧ ∃ t, (q.rotate c (.rqs t)).head? = some d
  /-- With no thread to run, the caller goes on. -/
  idle : q.choose c = none → s'.current = (if s.fc = .pexit then none else some c) ∧
    s'.fc = if s.fc = .pexit then .pexit else .none

section Scheduler

variable {s : State} {q : Mlfq} {c p fuel : ℕ} {setitimer : ℕ → ℤ}

theorem quantum_lt {t : ℕ} (ht : t < numPriorities) : quantum t < 1000000 := by
  have : t < 10 := ht
  unfold quantum
  omega

/-- The switch of `scheduler` to the thread `d`. -/
theorem dispatch_spec {t : State} {d : ℕ} (hset : ∀ u, u < 1000000 → setitimer u ≠ -1)
    (hd : (t.tcb d).threadPriority < numPriorities)
    (hcur : t.current = if s.fc = .pexit then none else some c)
    (hfc : t.fc = if s.fc = .pexit then .pexit else if s.fc = .first then .first else .none) :
    dispatch setitimer d t = some { t with
      itv := quantum (t.tcb d).threadPriority
      current := some d
      fc := if s.fc = .first then .first else .none } := by
  rw [dispatch, if_neg (hset _ (quantum_lt hd)), switchTo]
  by_cases hp : s.fc = .pexit
  · rw [if_pos hp] at hfc
    rw [if_pos hfc, hp]
    rfl
  · rw [if_neg hp] at hfc hcur
    have hne : t.fc ≠ .pexit := by
      rw [hfc]
      split <;> decide
    rw [if_neg hne, hcur, Option.bind_eq_bind, Option.bind_some, ← hfc]
    rfl

/-- The choice of `scheduler` among the queues `q`, after the scan. -/
theorem resolve_spec {i n : ℕ} (hr : Represents s q) (hi : i < numPriorities)
    (hnil : ∀ t, t < i → q (.rqs t) = []) (hn : (q (.rqs i)).head? = some n)
    (hcur : s.current = none ∧ ¬q.Mem c ∨ s.current = some c ∧ q.Mem c) :
    ∃ s' d, resolve i n s = some (d, s') ∧ Represents s' (q.rotate c) ∧ OnlyLinks s s' ∧
      q.choose c = some d ∧ ∃ t, (q.rotate c (.rqs t)).head? = some d := by
  obtain ⟨l, hl⟩ := List.head?_eq_some_iff.mp hn
  have hmem : n ∈ q (.rqs i) := by simp [hl]
  have hhead : q.runnable.head? = some n := by
    rw [Mlfq.runnable_of_first hi hnil, hl]
    rfl
  by_cases hnc : n = c
  · subst hnc
    have hcur : s.current = some n := by
      rcases hcur with ⟨-, hnot⟩ | ⟨hcur, -⟩
      · exact absurd ⟨_, hmem⟩ hnot
      · exact hcur
    rw [resolve, hcur]
    simp only [if_true]
    exact avoidCurrent_spec hr hi hnil hl
  · have hchoose := Mlfq.choose_of_ne hhead hnc
    have hrot : q.rotate c = q := Mlfq.rotate_of_ne (by
      rw [hhead]
      exact fun hh ↦ hnc (Option.some.inj hh))
    refine ⟨s, n, ?_, by rwa [hrot], .refl s, hchoose, i, by rwa [hrot]⟩
    rcases hcur with ⟨hcur, -⟩ | ⟨hcur, hc⟩
    · rw [resolve, hcur]
    · rw [resolve, hcur]
      simp only
      rw [if_neg fun htid ↦ hnc (hr.tids n c ⟨_, hmem⟩ hc htid)]

/-- A call of `scheduler` serves the request, chooses and switches. -/
theorem scheduler_spec (h : Calling s q c p) (h₀ : s.fc ≠ .none)
    (hset : ∀ u, u < 1000000 → setitimer u ≠ -1) (hfuel : q.runnable.length ≤ fuel) :
    ∃ s', scheduler setitimer fuel s = some s' ∧
      Scheduled s (q.requested s.fc s.maintenanceCount c p) c s' := by
  obtain ⟨s₁, hu, hr, hcur, hfc, hcount, hflag, hprio⟩ := updateQueue_spec h h₀ hfuel
  have hself : (q.requested s.fc s.maintenanceCount c p).Mem c ↔ s.fc ≠ .pexit := by
    rw [Mlfq.mem_requested_iff h.rep.wf h.mem]
    exact ⟨fun hh hp ↦ hh.2 hp rfl, fun hp ↦ ⟨⟨_, h.mem⟩, fun hh ↦ absurd hh hp⟩⟩
  have hlen : (q.requested s.fc s.maintenanceCount c p (.rqs 0)).length ≤ fuel :=
    (Mlfq.length_requested_le h.rep.wf h.mem).trans hfuel
  have hfirst : s.fc = .first → c ∈ (q.requested s.fc s.maintenanceCount c p) (.rqs p) :=
    fun hf ↦ by
      rw [Mlfq.requested, if_pos hf]
      exact h.mem
  generalize q.requested s.fc s.maintenanceCount c p = q₁ at hr hself hlen hfirst
  obtain ⟨t, ht⟩ : ∃ t : State,
      t = { s₁ with maintenanceCount := (s₁.maintenanceCount + 1) % 2 ^ 32 } := ⟨_, rfl⟩
  have hsched : scheduler setitimer fuel s = select setitimer t := by
    simp [scheduler, h.memFlag, hu, getSpecificCount_spec hr.linked hlen, ht]
  have hrt : Represents t q₁ := by
    rw [ht]
    exact ⟨hr.linked, hr.wf, hr.priority, hr.tids⟩
  have hcur : t.current = if s.fc = .pexit then none else some c := by rw [ht, ← hcur]
  have hfc : t.fc = if s.fc = .pexit then .pexit else if s.fc = .first then .first else .none := by
    rw [ht, ← hfc]
  have hcount : t.maintenanceCount = ((if s.fc ≠ .first ∧ maintCycle < s.maintenanceCount then 0
      else s.maintenanceCount) + 1) % 2 ^ 32 := by rw [ht, ← hcount]
  have hflag : t.memFlag = s.memFlag := by rw [ht, ← hflag]
  have hprio : PriorityOnly s t := by
    rw [ht]
    exact hprio
  rw [hsched, select]
  rcases hscan : scan t numPriorities 0 none with ⟨i, _ | n⟩
  · -- no thread is left
    have hnil : q₁.runnable = [] := by
      refine List.eq_nil_iff_forall_not_mem.mpr fun m hm ↦ ?_
      obtain ⟨j, hj⟩ := (Mlfq.mem_runnable hr.wf).mp hm
      have := scan_none (i := 0) hrt.linked (by rw [hscan]) j (Nat.zero_le j)
        (by have := hr.wf.lt_of_mem hj; omega)
      rw [this] at hj
      cases hj
    have hchoose : q₁.choose c = none := Mlfq.choose_nil hnil
    refine ⟨t, rfl, ?_, hprio, hflag, hcount, ?_, fun _ ↦ ⟨hcur, ?_⟩⟩
    · rwa [Mlfq.rotate_of_ne (by rw [hnil]; simp)]
    · intro d hd
      rw [hchoose] at hd
      cases hd
    · -- a first call leaves the caller in its queue
      have hf : s.fc ≠ .first := fun hf ↦ by
        have := (Mlfq.mem_runnable hr.wf).mpr ⟨p, hfirst hf⟩
        rw [hnil] at this
        cases this
      rw [hfc, if_neg hf]
  · obtain ⟨-, hi, hhead, hnil⟩ := scan_some hrt.linked hscan
    have hmem : t.current = none ∧ ¬q₁.Mem c ∨ t.current = some c ∧ q₁.Mem c := by
      rw [hcur, hself]
      by_cases hp : s.fc = .pexit <;> simp [hp]
    obtain ⟨s', d, hres, hrep, hd, hchoose, j, hj⟩ :=
      resolve_spec hrt (by omega) (fun k hk ↦ hnil k (Nat.zero_le k) hk) hhead hmem
    have hdj : d ∈ q₁.rotate c (.rqs j) := List.mem_of_head? hj
    have hdisp := dispatch_spec (t := s') (d := d) hset
      (by rw [hrep.priority j d hdj]; exact hrep.wf.lt_of_mem hdj) (hd.current.trans hcur)
      (hd.fc.trans hfc)
    refine ⟨{ s' with
        itv := quantum (s'.tcb d).threadPriority
        current := some d
        fc := if s.fc = .first then .first else .none }, ?_,
      ⟨hrep.linked, hrep.wf, hrep.priority, hrep.tids⟩, hprio.trans (.of_eq hd.tcb),
      hd.memFlag.trans hflag, hd.maintenanceCount.trans hcount, ?_, ?_⟩
    · simp only [hres, Option.bind_eq_bind, Option.bind_some, hdisp]
    · intro d' hd'
      obtain rfl : d = d' := Option.some.inj (hchoose.symm.trans hd')
      exact ⟨rfl, rfl, rfl, j, hj⟩
    · intro hnone
      rw [hchoose] at hnone
      cases hnone

/-- `scheduler` refines the feedback queue: from any state that holds the queues
`q` it leaves a state that holds the queues scheduled, loses no thread but the one
that exits, and runs the first other thread in level and queue order. -/
theorem scheduler_refines (h : Calling s q c p) (h₀ : s.fc ≠ .none)
    (hset : ∀ u, u < 1000000 → setitimer u ≠ -1) (hfuel : q.runnable.length ≤ fuel) :
    ∃ s', scheduler setitimer fuel s = some s' ∧
      Represents s' (q.schedule s.fc s.maintenanceCount c p) ∧
      (∀ n, (q.schedule s.fc s.maintenanceCount c p).Mem n ↔
        q.Mem n ∧ (s.fc = .pexit → n ≠ c)) ∧
      Scheduled s (q.requested s.fc s.maintenanceCount c p) c s' := by
  obtain ⟨s', hs, hsched⟩ := scheduler_spec h h₀ hset hfuel
  refine ⟨s', hs, hsched.rep, fun n ↦ ?_, hsched⟩
  rw [← Mlfq.mem_requested_iff h.rep.wf h.mem]
  constructor
  · rintro ⟨R, hR⟩
    exact ⟨R, Mlfq.mem_rotate.mp hR⟩
  · rintro ⟨R, hR⟩
    exact ⟨R, Mlfq.mem_rotate.mpr hR⟩

/-- Two threads in the first level, the current one in front. -/
def twoThreads : State where
  nodes n := ⟨⟨n, 0, -1, 0, -1⟩, if n = 0 then some 1 else none⟩
  queues Q := if Q = .rqs 0 then ⟨some 0, some 1⟩ else ⟨none, none⟩
  current := some 0
  fc := .timer
  maintenanceCount := 0
  memFlag := 0
  itv := 25000

theorem calling_twoThreads :
    Calling twoThreads (fun Q ↦ if Q = .rqs 0 then [0, 1] else []) 0 0 := by
  have hmem : ∀ {Q : QueueId} {n : ℕ}, n ∈ (if Q = .rqs 0 then [0, 1] else []) →
      Q = .rqs 0 := by
    intro Q n hn
    by_contra hQ
    rw [if_neg hQ] at hn
    cases hn
  refine ⟨⟨fun Q ↦ ?_, ⟨fun Q ↦ ?_, fun hQ hR ↦ (hmem hQ).trans (hmem hR).symm, fun i hi ↦ ?_⟩,
    fun i n hn ↦ ?_, fun n k _ _ h ↦ h⟩, rfl, rfl, by decide, fun _ ↦ rfl⟩
  · by_cases hQ : Q = .rqs 0
    · subst hQ
      exact ⟨⟨rfl, rfl, rfl⟩, fun n hn ↦ by cases hn; rfl⟩
    · simp only [twoThreads, if_neg hQ]
      exact Queued.empty _
  · by_cases hQ : Q = .rqs 0
    · rw [if_pos hQ]
      decide
    · rw [if_neg hQ]
      exact List.nodup_nil
  · refine if_neg fun h ↦ ?_
    rw [QueueId.rqs.inj h] at hi
    cases hi
  · exact (QueueId.rqs.inj (hmem hn)).symm

/-- The quantum of the current thread ends, and the other thread runs. -/
theorem scheduler_refines_twoThreads : ∃ s',
    scheduler (fun u ↦ if u < 1000000 then 0 else -1) 2 twoThreads = some s' ∧
      s'.current = some 1 := by
  obtain ⟨s', hs, -, -, hsched⟩ := @scheduler_refines twoThreads _ 0 0 2
    (fun u ↦ if u < 1000000 then 0 else -1) calling_twoThreads (by decide)
    (fun u hu ↦ by rw [if_pos hu]; decide) (by decide)
  exact ⟨s', hs, (hsched.chosen 1 (by decide)).1⟩

end Scheduler

end MyPthread.Sched
