import MyPthread.Api.Rescheduling

/-!
# What yields, exits and joins do to the queues

`Machine.advance` says what a step does to the lists in the queues.  One lemma
for each call shows that its statements do this and keep `Inv`: here those of
`my_pthread_yield`, `my_pthread_exit` and `my_pthread_join`.
-/

namespace MyPthread.Api

open MyPthread.Lib MyPthread.Sched Function

namespace Machine

/-- The queues after a call of `scheduler` by the executing thread. -/
def afterCall (m : Machine) (q : Mlfq) : Mlfq :=
  if m.sched.fc = .none then q
  else m.rescheduled q (m.sched.tcb m.running).threadPriority

/-- The queues after a round of the loop of `my_pthread_exit`. -/
def afterBody (m : Machine) (e : ExitNode) (q : Mlfq) : Mlfq :=
  match q .joinQueue with
  | [] => q
  | n :: _ =>
    if (m.sched.tcb n).joinId = e.1 then q.move .joinQueue (.rqs 0) n
    else q.move .joinQueue .joinQueue n

/-- The queues after a step. -/
def advance (m : Machine) (q : Mlfq) : Action → Mlfq
  | .call _ | .init => q
  | .tick => (m.setFc .timer).afterCall q
  | .next =>
    match m.here with
    | .create .node =>
      if m.firstThread then (q.put (.rqs 0) m.nodeCount).put (.rqs 0) 0 else q
    | .create (.enqueue n) => q.put (.rqs 0) n
    | .create .call | .yield .call | .exit .call | .join _ .call | .lock _ .call => m.afterCall q
    | .exit (.loop e i) => if i < (q .joinQueue).length then m.afterBody e q else q
    | .unlock _ .move =>
      match q .waitingQueue with
      | [] => q
      | n :: _ => q.move .waitingQueue (.rqs 0) n
    | _ => q

end Machine

section Statements

variable {m m' m₀ : Machine} {q : Mlfq} {p w : Pc} {n k r t : ℕ} {s : State}

theorem Statement.goto : Statement m (m.goto p) p := ⟨rfl, rfl, rfl, le_rfl, rfl, rfl, rfl, rfl⟩

theorem Statement.setFc {f : FlagCalled} : Statement m ((m.setFc f).goto p) p :=
  ⟨rfl, rfl, rfl, le_rfl, rfl, rfl, rfl, rfl⟩

theorem Statement.modifyMutex {f : Mutex → Mutex} :
    Statement m ((m.modifyMutex k f).goto p) p := ⟨rfl, rfl, rfl, le_rfl, rfl, rfl, rfl, rfl⟩

theorem Statement.modifyTcb {f : Tcb → Tcb} :
    Statement m ((m.withSched (m.sched.modifyTcb n f)).goto p) p :=
  ⟨rfl, rfl, rfl, le_rfl, rfl, rfl, rfl, rfl⟩

/-- What a call of `scheduler` needs, from a state where the invariant holds. -/
theorem Inv.ready {f : FlagCalled} {g : List ℕ} (hi : Inv m q) (hf : Flow m₀)
    (h₀ : m₀ = { m with
      gone := g, pc := update m.pc m.running w, sched := { m.sched with fc := f } })
    (hfirst : m.firstThread = false) (hcur : m.sched.current = some m.running)
    (hmem : m.running ∈ q (.rqs r)) (hhead : f ≠ .first → (q (.rqs r)).head? = some m.running)
    (hafter : w.uncut = false)
    (hready : f ≠ .join → ThreadOk m.exits q m.sched m.running w)
    (hx : m.here.exiting = true → w.exiting = true ∨ f = .pexit)
    (hg : ∀ n ∈ g, n ∈ m.gone ∨ n = m.running ∧ f = .pexit)
    (hpexit : f = .pexit → w = .exit .ret ∧ m.running ∈ g)
    (hjoin : f = .join → (∃ n ∈ q.runnable, n ≠ m.running) ∧
      ∃ t : ℕ, w = .join t .ret ∧ (m.sched.tcb m.running).joinId = t)
    (hblocked : f = .blocked → ∃ k, w = .lock k .test ∧ (m.mutexes k).locked ≠ 0) :
    Ready m₀ q r := by
  subst h₀
  have hhere : update m.pc m.running w m.running = w := update_self ..
  have hrun : m.running < m.nodeCount := hi.flow.running
  refine ⟨hf, hi.linked, hi.wf, hi.priority, hi.memFlag, hi.alloc, fun n ↦ ?_, fun n hn ↦ ?_,
    fun n hn ↦ ?_, fun hfc ↦ ?_, hi.exitList, hi.joins, fun e he ↦ ⟨(hi.exits e he).1, fun hm ↦ ?_⟩,
    hi.nodup, fun n hn ↦ ?_, hfirst, hcur, hmem, hhead, ?_, ?_, ?_⟩
  · show (update m.pc m.running w n).uncut = false
    by_cases hn : n = m.running
    · rw [hn, hhere]
      exact hafter
    · rw [update_of_ne hn]
      exact hi.uncut n hn
  · show ∃ t, update m.pc m.running w n = .join t .ret
    have hne : n ≠ m.running := fun h ↦ hi.running_notMem_joinQueue (h ▸ hn)
    rw [update_of_ne hne]
    exact hi.joining n hn
  · show ThreadOk m.exits q m.sched n (update m.pc m.running w n)
    rw [update_of_ne hn]
    exact hi.threads n
  · show ThreadOk m.exits q m.sched m.running (update m.pc m.running w m.running)
    rw [hhere]
    exact hready hfc
  · show (update m.pc m.running w e.1).exiting = true ∨ e.1 = m.running ∧ f = .pexit
    have hex := (hi.exits e he).2 hm
    by_cases hn : e.1 = m.running
    · rw [hn] at hex ⊢
      rw [hhere]
      exact (hx hex).imp_right fun hfc ↦ ⟨rfl, hfc⟩
    · rw [update_of_ne hn]
      exact .inl hex
  · rcases hg n hn with h | ⟨rfl, hfc⟩
    · exact ⟨(hi.gone n h).1, fun hm ↦ absurd hm (hi.gone n h).2⟩
    · exact ⟨hrun, fun _ ↦ ⟨rfl, hfc⟩⟩
  · intro hfc
    obtain ⟨ha, hgone⟩ := hpexit hfc
    exact ⟨hhere.trans ha, hgone⟩
  · intro hfc
    obtain ⟨hother, t, ha, hid⟩ := hjoin hfc
    exact ⟨hother, t, hhere.trans ha, hid⟩
  · intro hfc
    obtain ⟨k, ha, hl⟩ := hblocked hfc
    exact ⟨k, hhere.trans ha, hl⟩

/-- The priority of the executing thread is its level. -/
theorem Ready.afterCall (h : Ready m q r) (hcall : m.callScheduler = some m') :
    Inv m' (m.afterCall q) := by
  have hinv := h.callScheduler hcall
  rwa [← h.priority r _ h.mem] at hinv

/-- A call of `scheduler` by an active thread, with the request that it has stored. -/
theorem Inv.call {g : List ℕ} (hi : Inv m q) (ha : Active m q r) {f : FlagCalled}
    (hstored : m.here.stored = some f)
    (hf : Flow ({ m with gone := g }.goto w)) (hafter : w.uncut = false)
    (hready : f ≠ .join → ThreadOk m.exits q m.sched m.running w)
    (hx : m.here.exiting = true → w.exiting = true ∨ f = .pexit)
    (hg : ∀ n ∈ g, n ∈ m.gone ∨ n = m.running ∧ f = .pexit)
    (hpexit : f = .pexit → w = .exit .ret ∧ m.running ∈ g)
    (hjoin : f = .join → (∃ n ∈ q.runnable, n ≠ m.running) ∧
      ∃ t : ℕ, w = .join t .ret ∧ (m.sched.tcb m.running).joinId = t)
    (hblocked : f = .blocked → ∃ k, w = .lock k .test ∧ (m.mutexes k).locked ≠ 0)
    (h : ({ m with gone := g }.goto w).callScheduler = some m') : Inv m' (m.afterCall q) := by
  have hfc : m.sched.fc = f := ha.stored f hstored
  refine Ready.afterCall (m := { m with gone := g }.goto w) (hi.ready (f := f) hf ?_ ha.first
    ha.current (List.mem_of_head? ha.head) (fun _ ↦ ha.head) hafter hready hx hg hpexit hjoin
    hblocked) h
  rw [← hfc]
  rfl

/-- Outside an exit nothing is promised. -/
theorem of_exiting {P : Prop} (h : p.exiting = false) (hx : p.exiting = true) : P :=
  nomatch h.symm.trans hx

/-- A statement that changes the thread control block of one thread. -/
theorem Inv.modifyTcb {f : Tcb → Tcb} (hi : Inv m q)
    (hf : Flow ((m.withSched (m.sched.modifyTcb n f)).goto p))
    (hprio : ∀ i, n ∈ q (.rqs i) →
      (f (m.sched.tcb n)).threadPriority = (m.sched.tcb n).threadPriority)
    (hkeep : n ≠ m.running → (f (m.sched.tcb n)).joinId = (m.sched.tcb n).joinId ∧
      (f (m.sched.tcb n)).valuePtr = (m.sched.tcb n).valuePtr)
    (ht : ThreadOk m.exits q (m.sched.modifyTcb n f) m.running p)
    (hp : Pending ((m.withSched (m.sched.modifyTcb n f)).goto p) q p)
    (hx : m.here.exiting = true → p.exiting = true)
    (hmode : Mode ((m.withSched (m.sched.modifyTcb n f)).goto p) q) :
    Inv ((m.withSched (m.sched.modifyTcb n f)).goto p) q := by
  have hself : (m.sched.modifyTcb n f).tcb n = f (m.sched.tcb n) := State.tcb_modifyTcb_self
  have hother : ∀ k, k ≠ n → (m.sched.modifyTcb n f).tcb k = m.sched.tcb k := fun k hk ↦
    State.tcb_modifyTcb_of_ne hk
  have hl : Linked (m.sched.modifyTcb n f) q := hi.linked.congr State.next_modifyTcb rfl
  refine hi.local hf .modifyTcb hl (fun i k hk ↦ ?_) (fun k hk ↦ ?_) ht hp rfl hi.exitList hi.joins
    hx hmode
  · show ((m.sched.modifyTcb n f).tcb k).threadPriority = i
    by_cases hkn : k = n
    · subst hkn
      rw [hself, hprio i hk]
      exact hi.priority i k hk
    · rw [hother k hkn]
      exact hi.priority i k hk
  · show ((m.sched.modifyTcb n f).tcb k).joinId = _ ∧ ((m.sched.modifyTcb n f).tcb k).valuePtr = _
    by_cases hkn : k = n
    · subst hkn
      rw [hself]
      exact hkeep hk
    · rw [hother k hkn]
      exact ⟨rfl, rfl⟩

/-! ### `my_pthread_yield` -/

theorem Inv.yield {y : YieldPc} (hi : Inv m q) (hf : Flow m') (hhere : m.here = .yield y)
    (h : m.stepYield y = some m') : Inv m' (m.advance q .next) := by
  have hx : m.here.exiting = false := by rw [hhere]; rfl
  cases y with
  | test =>
    have hq : m.advance q .next = q := by rw [Machine.advance, hhere]
    rw [hq]
    simp only [Machine.stepYield, Option.bind_eq_bind, Option.bind_eq_some_iff] at h
    obtain ⟨c, hc, f, -, h⟩ := h
    obtain ⟨r, ha⟩ :=
      hi.exists_active (.inr ⟨by rw [hc]; exact Option.some_ne_none _, by rw [hhere]; rfl⟩)
      (by rw [hhere]; rfl)
    split at h <;> cases h
    · exact hi.goto hf .goto rfl rfl trivial trivial rfl hi.exitList hi.joins (of_exiting hx)
        (.active r (ha.step .goto rfl (by rw [hhere]; rfl) rfl))
    · exact hi.goto hf .goto rfl rfl trivial trivial rfl hi.exitList hi.joins (of_exiting hx)
        (.active r (ha.step .goto rfl (by rw [hhere]; rfl) rfl))
  | flag =>
    have hq : m.advance q .next = q := by rw [Machine.advance, hhere]
    rw [hq]
    obtain ⟨r, ha⟩ := hi.exists_active (.inl (by rw [hhere]; rfl)) (by rw [hhere]; rfl)
    cases h
    exact hi.goto hf .setFc rfl rfl trivial trivial rfl hi.exitList hi.joins (of_exiting hx)
      (.active r (ha.store .setFc rfl rfl))
  | call =>
    have hq : m.advance q .next = m.afterCall q := by rw [Machine.advance, hhere]
    rw [hq]
    obtain ⟨r, ha⟩ := hi.exists_active (.inl (by rw [hhere]; rfl)) (by rw [hhere]; rfl)
    exact hi.call (g := m.gone) (f := .yield) (w := .user) ha (by rw [hhere]; rfl)
      (hi.flow.gotoAfter (by rw [hhere]; rfl) (.inl rfl) rfl) rfl (fun _ ↦ trivial)
      (of_exiting hx) (fun _ ↦ .inl) (by rintro ⟨⟩) (by rintro ⟨⟩) (by rintro ⟨⟩) h

/-! ### `my_pthread_exit` -/

/-- The call has begun: the thread is one that exits. -/
theorem Inv.exitNode {v : ℕ} (hi : Inv m q) (hf : Flow m') (hhere : m.here = .exit (.node v))
    (h : m.stepExit (.node v) = some m') : Inv m' q := by
  simp only [Machine.stepExit, Option.bind_eq_bind, Option.bind_eq_some_iff, Option.pure_def,
    Option.some.injEq] at h
  obtain ⟨c, hc, rfl⟩ := h
  obtain ⟨r, ha⟩ :=
    hi.exists_active (.inr ⟨by rw [hc]; exact Option.some_ne_none _, by rw [hhere]; rfl⟩)
    (by rw [hhere]; rfl)
  obtain rfl : c = m.running := hi.flow.current c hc
  have htid : (m.sched.tcb m.running).tid = m.running := hi.flow.tid _ hi.flow.running
  have hmem : q.Mem m.running := ⟨_, List.mem_of_head? ha.head⟩
  have hnew : ∀ e ∈ m.exits, e.1 ≠ m.running := fun e he heq ↦ by
    have hex := (hi.exits e he).2 (heq ▸ hmem)
    rw [heq] at hex
    rw [show m.pc m.running = _ from hhere] at hex
    cases hex
  rw [htid] at hf ⊢
  have hs : Statement m ({ m with exits := (m.running, v) :: m.exits }.goto
      (.exit (.flag (m.running, v)))) (.exit (.flag (m.running, v))) :=
    ⟨rfl, rfl, rfl, le_rfl, rfl, rfl, rfl, rfl⟩
  refine ⟨hf, hi.linked, hi.wf, hi.priority, hi.memFlag, hi.alloc, fun n hn ↦ ?_, fun n hn ↦ ?_,
    fun n ↦ ?_, ?_, fun e he ↦ List.mem_cons_of_mem _ (hi.exitList e he),
    fun e he ↦ List.mem_cons_of_mem _ (hi.joins e he), fun e he ↦ ?_, ?_, hi.gone,
    .active r (ha.step hs rfl (by rw [hhere]; rfl) rfl)⟩
  · rw [hs.pc_of_ne hn]
    exact hi.uncut n hn
  · have hne : n ≠ m.running := fun h ↦ hi.running_notMem_joinQueue (h ▸ hn)
    rw [hs.pc_of_ne hne]
    exact hi.joining n hn
  · by_cases hn : n = m.running
    · rw [hs.pc, hn, update_self]
      exact ⟨List.mem_cons_self, rfl⟩
    · rw [hs.pc_of_ne hn]
      exact (hi.threads n).mono (fun _ ↦ List.mem_cons_of_mem _) Iff.rfl rfl rfl
  · rw [hs.here]
    trivial
  · rcases List.mem_cons.mp he with rfl | he
    · refine ⟨hi.flow.running, fun _ ↦ ?_⟩
      rw [hs.pc, update_self]
      rfl
    · refine ⟨(hi.exits e he).1, fun hm ↦ ?_⟩
      rw [hs.pc_of_ne (hnew e he)]
      exact (hi.exits e he).2 hm
  · show (m.running :: m.exits.map Prod.fst).Nodup
    refine List.nodup_cons.mpr ⟨fun hm ↦ ?_, hi.nodup⟩
    obtain ⟨e, he, heq⟩ := List.mem_map.mp hm
    exact hnew e he heq

/-- A move to the tail keeps the fronts of the other queues. -/
theorem head_move {R src dst : QueueId} (hR : R ≠ src) (h : (q R).head? = some n) :
    (q.move src dst k R).head? = some n := by
  have htake : q.take src k R = q R := update_of_ne hR _ _
  rw [Mlfq.move, Mlfq.put]
  by_cases hd : R = dst
  · subst hd
    rw [update_self, List.head?_append, htake, h]
    rfl
  · rw [update_of_ne hd, htake, h]

/-- What a round of the loop of `my_pthread_exit` does with the front of
`join_queue`. -/
structure Released (s : State) (q : Mlfq) (n c : ℕ) (e : ExitNode) (s' : State) : Prop where
  woken : (s.tcb n).joinId = (s.tcb c).tid → Linked s' (q.move .joinQueue (.rqs 0) n) ∧
    s'.tcb n = { s.tcb n with valuePtr := e.2, threadPriority := 0 }
  kept : (s.tcb n).joinId ≠ (s.tcb c).tid → Linked s' (q.move .joinQueue .joinQueue n) ∧
    s'.tcb n = s.tcb n
  tcb : ∀ k, k ≠ n → s'.tcb k = s.tcb k
  current : s'.current = s.current
  fc : s'.fc = s.fc
  memFlag : s'.memFlag = s.memFlag
  itv : s'.itv = s.itv

theorem exitBody_spec {e : ExitNode} {s' : State} {c : ℕ} {l : List ℕ} (hl : Linked s q)
    (hq : q.WF) (hj : q .joinQueue = n :: l) (hc : s.current = some c)
    (h : Machine.exitBody e s = some s') : Released s q n c e s' := by
  obtain ⟨s₁, hdeq, hl₁, hd₁⟩ := dequeuee_spec hl hj
  have hn : n ∈ q .joinQueue := by simp [hj]
  have hnot := Mlfq.not_mem_take hq hn
  simp only [Machine.exitBody, hdeq, Option.bind_eq_bind, Option.bind_some, hd₁.current, hc,
    hd₁.tcb] at h
  by_cases hid : (s.tcb n).joinId = (s.tcb c).tid
  · rw [if_pos hid] at h
    obtain ⟨s₂, henq, hl₂, hd₂⟩ := enqueuee_spec (Q := .rqs 0)
      (s := (s₁.modifyTcb n fun t ↦ { t with valuePtr := e.2 }).setPriority n 0)
      (hl₁.congr (by simp) (by simp)) hq.take hnot
    obtain rfl : s₂ = s' := Option.some.inj (henq.symm.trans h)
    refine ⟨fun _ ↦ ⟨hl₂, ?_⟩, fun hne ↦ absurd hid hne, fun k hk ↦ ?_,
      hd₂.current.trans hd₁.current,
      hd₂.fc.trans hd₁.fc, hd₂.memFlag.trans hd₁.memFlag, hd₂.itv.trans hd₁.itv⟩
    · rw [hd₂.tcb, State.tcb_setPriority_self, State.tcb_modifyTcb_self, hd₁.tcb]
    · rw [hd₂.tcb, State.tcb_setPriority_of_ne hk, State.tcb_modifyTcb_of_ne hk, hd₁.tcb]
  · rw [if_neg hid] at h
    obtain ⟨s₂, henq, hl₂, hd₂⟩ := enqueuee_spec (Q := .joinQueue) hl₁ hq.take hnot
    obtain rfl : s₂ = s' := Option.some.inj (henq.symm.trans h)
    have hd := hd₁.trans hd₂
    exact ⟨fun h ↦ absurd h hid, fun _ ↦ ⟨hl₂, hd.tcb n⟩, fun k _ ↦ hd.tcb k, hd.current, hd.fc,
      hd.memFlag, hd.itv⟩

/-- A round of the loop hands the value over to a thread that joins this one. -/
theorem Inv.exitBody {e : ExitNode} {i : ℕ} (hi : Inv m q)
    (hf : Flow ((m.withSched s).goto (.exit (.loop e (i + 1)))))
    (hhere : m.here = .exit (.loop e i)) (hlen : i < (q .joinQueue).length)
    (h : Machine.exitBody e m.sched = some s) :
    Inv ((m.withSched s).goto (.exit (.loop e (i + 1)))) (m.afterBody e q) := by
  obtain ⟨r, ha⟩ := hi.exists_active (.inl (by rw [hhere]; rfl)) (by rw [hhere]; rfl)
  obtain ⟨n, l, hj⟩ : ∃ n l, q .joinQueue = n :: l :=
    List.exists_cons_of_length_pos (Nat.zero_lt_of_lt hlen)
  have hn : n ∈ q .joinQueue := by simp [hj]
  have hrel := exitBody_spec hi.linked hi.wf hj ha.current h
  have he : e ∈ m.exits ∧ e.1 = m.running := by
    have := hi.threads m.running
    rw [show m.pc m.running = _ from hhere] at this
    exact this
  have htid : (m.sched.tcb m.running).tid = e.1 := by
    rw [hi.flow.tid _ hi.flow.running, he.2]
  have hs : Statement m ((m.withSched s).goto (.exit (.loop e (i + 1))))
      (.exit (.loop e (i + 1))) :=
    ⟨rfl, rfl, rfl, le_rfl, hrel.current, hrel.memFlag, hrel.itv, rfl⟩
  have hstored : m.here.stored = (Pc.exit (.loop e (i + 1))).stored := by rw [hhere]; rfl
  rw [Machine.afterBody, hj]
  simp only
  by_cases hid : (m.sched.tcb n).joinId = e.1
  · rw [if_pos hid]
    obtain ⟨hl', htcb⟩ := hrel.woken (by rw [hid, htid])
    have hmove : ∀ {k R}, k ∈ q.move .joinQueue (.rqs 0) n R ↔
        (k ∈ q R ∧ k ≠ n) ∨ (R = .rqs 0 ∧ k = n) := Mlfq.mem_move hi.wf hn
    refine hi.move hf hs hl' (hi.wf.move hn fun i hi ↦ by cases hi; decide) (fun i k hk ↦ ?_)
      (fun k ⟨R, hR⟩ ↦ .inl ?_) (fun k hk ↦ ?_) (fun k hk ↦ ?_) he trivial rfl hi.exitList hi.joins
      (fun _ ↦ rfl) (.active r (ha.step hs ?_ hstored hrel.fc))
    · rcases hmove.mp hk with ⟨hk, hne⟩ | ⟨hki, rfl⟩
      · exact (congrArg Tcb.threadPriority (hrel.tcb k hne)).trans (hi.priority i k hk)
      · cases hki
        exact congrArg Tcb.threadPriority htcb
    · rcases hmove.mp hR with ⟨hk, -⟩ | ⟨-, rfl⟩
      · exact ⟨R, hk⟩
      · exact ⟨_, hn⟩
    · rcases hmove.mp hk with ⟨hk, -⟩ | ⟨hk, -⟩
      · exact hk
      · cases hk
    · show ThreadOk m.exits _ s k (m.pc k)
      by_cases hkn : k = n
      · subst hkn
        obtain ⟨t, ht⟩ := hi.joining k hn
        have hok := hi.threads k
        rw [ht] at hok ⊢
        have ht' : t = e.1 := by
          have := (hok.1 hn).symm.trans hid
          exact_mod_cast this
        refine ⟨fun hk ↦ ?_, fun _ ↦ ?_⟩
        · rcases hmove.mp hk with ⟨-, hk⟩ | ⟨hk, -⟩
          · exact absurd rfl hk
          · cases hk
        · rw [htcb, ht']
          exact he.1
      · refine (hi.threads k).mono (fun _ he ↦ he) ?_ (by rw [hrel.tcb k hkn])
          (by rw [hrel.tcb k hkn])
        rw [hmove]
        simp [hkn]
    · rw [ha.head]
      exact head_move nofun ha.head
  · rw [if_neg hid]
    obtain ⟨hl', htcb⟩ := hrel.kept (by rwa [htid])
    have htcb : ∀ k, s.tcb k = m.sched.tcb k := fun k ↦ by
      by_cases hk : k = n
      · rw [hk, htcb]
      · exact hrel.tcb k hk
    have hmove : ∀ {k R}, k ∈ q.move .joinQueue .joinQueue n R ↔ k ∈ q R := by
      intro k R
      rw [Mlfq.mem_move hi.wf hn]
      constructor
      · rintro (⟨hk, -⟩ | ⟨rfl, rfl⟩)
        · exact hk
        · exact hn
      · intro hk
        by_cases hkn : k = n
        · subst hkn
          exact .inr ⟨hi.wf.disjoint hk hn, rfl⟩
        · exact .inl ⟨hk, hkn⟩
    refine hi.move hf hs hl' (hi.wf.move hn nofun) (fun i k hk ↦ ?_)
      (fun k ⟨R, hR⟩ ↦ .inl ⟨R, hmove.mp hR⟩) (fun k hk ↦ hmove.mp hk) (fun k hk ↦ ?_)
        he trivial rfl
      hi.exitList hi.joins (fun _ ↦ rfl) (.active r (ha.step hs ?_ hstored hrel.fc))
    · exact (congrArg Tcb.threadPriority (htcb k)).trans (hi.priority i k (hmove.mp hk))
    · exact (hi.threads k).mono (fun _ he ↦ he) hmove (by rw [← htcb k]; rfl)
        (by rw [← htcb k]; rfl)
    · rw [ha.head]
      exact head_move nofun ha.head

theorem Inv.exit {x : ExitPc} (hi : Inv m q) (hf : Flow m') (hhere : m.here = .exit x)
    (h : m.stepExit x = some m') : Inv m' (m.advance q .next) := by
  have hok : ThreadOk m.exits q m.sched m.running (.exit x) := hhere ▸ hi.threads m.running
  cases x with
  | node v =>
    have hq : m.advance q .next = q := by rw [Machine.advance, hhere]
    rw [hq]
    exact hi.exitNode hf hhere h
  | flag e =>
    have hq : m.advance q .next = q := by rw [Machine.advance, hhere]
    rw [hq]
    obtain ⟨r, ha⟩ := hi.exists_active (.inl (by rw [hhere]; rfl)) (by rw [hhere]; rfl)
    cases h
    exact hi.goto hf .setFc rfl rfl hok trivial rfl hi.exitList hi.joins (fun _ ↦ rfl)
      (.active r (ha.store .setFc rfl rfl))
  | loop e i =>
    have hq : m.advance q .next = if i < (q .joinQueue).length then m.afterBody e q else q := by
      rw [Machine.advance, hhere]
    rw [hq]
    simp only [Machine.stepExit, Option.bind_eq_bind, Option.bind_eq_some_iff] at h
    obtain ⟨count, hcount, h⟩ := h
    have hlen : (q .joinQueue).length ≤ m.nodeCount := by
      have hsub : q .joinQueue ⊆ List.range m.nodeCount := fun n hn ↦
        List.mem_range.mpr (hi.alloc n ⟨_, hn⟩)
      simpa using ((hi.wf.nodup _).subperm hsub).length_le
    obtain rfl : (q .joinQueue).length = count := Option.some.inj
      ((getSpecificCount_spec hi.linked hlen).symm.trans hcount)
    split at h
    · rename_i hlt
      simp only [Option.bind_eq_some_iff, Option.pure_def, Option.some.injEq] at h
      obtain ⟨s, hs, rfl⟩ := h
      rw [if_pos hlt]
      exact hi.exitBody hf hhere hlt hs
    · rename_i hlt
      rw [if_neg hlt]
      obtain ⟨r, ha⟩ := hi.exists_active (.inl (by rw [hhere]; rfl)) (by rw [hhere]; rfl)
      cases h
      exact hi.goto hf .goto rfl rfl hok trivial rfl hi.exitList hi.joins (fun _ ↦ rfl)
        (.active r (ha.step .goto rfl (by rw [hhere]; rfl) rfl))
  | push e =>
    have hq : m.advance q .next = q := by rw [Machine.advance, hhere]
    rw [hq]
    obtain ⟨r, ha⟩ := hi.exists_active (.inl (by rw [hhere]; rfl)) (by rw [hhere]; rfl)
    cases h
    have hs : Statement m ({ m with exitList := e :: m.exitList }.goto (.exit .call))
      (.exit .call) := ⟨rfl, rfl, rfl, le_rfl, rfl, rfl, rfl, rfl⟩
    refine hi.goto hf hs rfl rfl trivial trivial rfl (fun e' he' ↦ ?_) hi.joins (fun _ ↦ rfl)
      (.active r (ha.step hs rfl (by rw [hhere]; rfl) rfl))
    rcases List.mem_cons.mp he' with rfl | he'
    · exact hok.1
    · exact hi.exitList e' he'
  | call =>
    have hq : m.advance q .next = m.afterCall q := by rw [Machine.advance, hhere]
    rw [hq]
    obtain ⟨r, ha⟩ := hi.exists_active (.inl (by rw [hhere]; rfl)) (by rw [hhere]; rfl)
    refine hi.call (g := m.running :: m.gone) (f := .pexit) (w := .exit .ret) ha
      (by rw [hhere]; rfl) (hi.flow.gotoAfter (by rw [hhere]; rfl) (.inl rfl) rfl) rfl
      (fun _ ↦ trivial) (fun _ ↦ .inr rfl) (fun n hn ↦ ?_)
      (fun _ ↦ ⟨rfl, List.mem_cons_self⟩) (by rintro ⟨⟩) (by rintro ⟨⟩) h
    rcases List.mem_cons.mp hn with rfl | hn
    · exact .inr ⟨rfl, rfl⟩
    · exact .inl hn
  | ret =>
    have hq : m.advance q .next = q := by rw [Machine.advance, hhere]
    rw [hq]
    cases h
    exact hi.goto hf .goto rfl rfl trivial trivial rfl hi.exitList hi.joins
      (of_exiting (by rw [hhere]; rfl))
      (hi.mode.step .goto (by rw [hhere]; rfl) rfl rfl (by rw [hhere]; rfl) (by rw [hhere]; rfl)
        fun _ ↦ ⟨rfl, by rintro ⟨⟩⟩)

/-! ### `my_pthread_join` -/

/-- A join returns 0 with the value of an exit. -/
theorem Inv.joinReturns {j : JoinPc} {v : ℕ} (hi : Inv m q) (hf : Flow (m.joinReturns t v))
    (hhere : m.here = .join t j) (hv : (t, v) ∈ m.exits) (hmode : Mode (m.joinReturns t v) q) :
    Inv (m.joinReturns t v) q := by
  have hs : Statement m (m.joinReturns t v) .user := ⟨rfl, rfl, rfl, le_rfl, rfl, rfl, rfl, rfl⟩
  refine hi.goto hf hs rfl rfl trivial trivial rfl hi.exitList (fun e he ↦ ?_)
    (of_exiting (by rw [hhere]; rfl)) hmode
  rcases List.mem_cons.mp he with rfl | he
  · exact hv
  · exact hi.joins e he

/-- A statement of a join that does not return nor call `scheduler`. -/
theorem Inv.join_goto {j : JoinPc} (hi : Inv m q) (hf : Flow (m.goto p))
    (hhere : m.here = .join t j) (hj : j ≠ .call) (hp : p.early = true ∧ p.isCreate = false)
    (hst : p.stored = none) (hok : ThreadOk m.exits q m.sched m.running p)
    (hpend : Pending (m.goto p) q p) : Inv (m.goto p) q := by
  have hstored : m.here.stored = none := by
    rw [hhere]
    cases j <;> first | rfl | exact absurd rfl hj
  refine hi.goto hf .goto rfl rfl hok hpend rfl hi.exitList hi.joins
    (of_exiting (by rw [hhere]; rfl)) (hi.mode.step .goto (hstored.trans hst.symm) rfl rfl
      (by rw [hhere]; rfl) (by rw [hhere]; rfl) fun _ ↦ ⟨hp.1, fun h ↦ ?_⟩)
  rw [hp.2] at h
  cases h

/-- `hasOther` finds a thread to run. -/
theorem Inv.exists_other (hi : Inv m q) (h : m.hasOther = true) :
    ∃ n ∈ q.runnable, n ≠ m.running := by
  simp only [Machine.hasOther, List.any_eq_true, List.mem_range] at h
  obtain ⟨i, -, h⟩ := h
  rw [hi.linked.front] at h
  cases hl : q (.rqs i) with
  | nil =>
    rw [hl] at h
    cases h
  | cons n l =>
    rw [hl] at h
    have hn : n ∈ q.runnable := (Mlfq.mem_runnable hi.wf).mpr ⟨i, by simp [hl]⟩
    simp only [List.head?_cons, Bool.or_eq_true, decide_eq_true_eq] at h
    rcases h with h | h
    · exact ⟨n, hn, h⟩
    · by_cases hne : n = m.running
      · -- the second thread of the level
        have hpath := (hi.linked (.rqs i)).path
        rw [hl] at hpath
        cases l with
        | nil =>
          rw [show m.sched.next n = none from hpath.2] at h
          cases h
        | cons k l =>
          refine ⟨k, (Mlfq.mem_runnable hi.wf).mpr ⟨i, by simp [hl]⟩, fun hk ↦ ?_⟩
          have hnd := hi.wf.nodup (.rqs i)
          rw [hl, List.nodup_cons] at hnd
          exact hnd.1 (hne.trans hk.symm ▸ List.mem_cons_self)
      · exact ⟨n, hn, hne⟩

theorem Inv.join {j : JoinPc} (hi : Inv m q) (hf : Flow m') (hc : Careful m .next)
    (hhere : m.here = .join t j) (h : m.stepJoin t j = some m') :
    Inv m' (m.advance q .next) := by
  have hok : ThreadOk m.exits q m.sched m.running (.join t j) := hhere ▸ hi.threads m.running
  have hx : m.here.exiting = false := by rw [hhere]; rfl
  cases j with
  | list =>
    have hq : m.advance q .next = q := by rw [Machine.advance, hhere]
    rw [hq]
    cases h
    exact hi.join_goto hf hhere (by rintro ⟨⟩) ⟨rfl, rfl⟩ rfl hi.exitList trivial
  | bound temp =>
    have hq : m.advance q .next = q := by rw [Machine.advance, hhere]
    rw [hq]
    simp only [Machine.stepJoin] at h
    split at h <;> cases h
    · exact hi.join_goto hf hhere (by rintro ⟨⟩) ⟨rfl, rfl⟩ rfl trivial trivial
    · exact hi.join_goto hf hhere (by rintro ⟨⟩) ⟨rfl, rfl⟩ rfl hok trivial
  | search temp =>
    have hq : m.advance q .next = q := by rw [Machine.advance, hhere]
    rw [hq]
    cases temp with
    | nil =>
      cases h
      exact hi.join_goto hf hhere (by rintro ⟨⟩) ⟨rfl, rfl⟩ rfl trivial trivial
    | cons e temp =>
      simp only [Machine.stepJoin] at h
      split at h <;> cases h
      · rename_i het
        refine hi.joinReturns hf hhere (het ▸ hok e List.mem_cons_self) ?_
        exact hi.mode.step ⟨rfl, rfl, rfl, le_rfl, rfl, rfl, rfl, rfl⟩ (by rw [hhere]; rfl) rfl rfl
          (by rw [hhere]; rfl) (by rw [hhere]; rfl) fun _ ↦ ⟨rfl, by rintro ⟨⟩⟩
      · exact hi.join_goto hf hhere (by rintro ⟨⟩) ⟨rfl, rfl⟩ rfl
          (fun e' he' ↦ hok e' (List.mem_cons_of_mem _ he')) trivial
  | store =>
    have hq : m.advance q .next = q := by rw [Machine.advance, hhere]
    rw [hq]
    simp only [Machine.stepJoin, Option.bind_eq_bind, Option.bind_eq_some_iff, Option.pure_def,
      Option.some.injEq] at h
    obtain ⟨c, hcur, rfl⟩ := h
    obtain ⟨r, ha⟩ :=
      hi.exists_active (.inr ⟨by rw [hcur]; exact Option.some_ne_none _, by rw [hhere]; rfl⟩)
      (by rw [hhere]; rfl)
    obtain rfl : c = m.running := hi.flow.current c hcur
    refine hi.modifyTcb hf (fun i _ ↦ rfl) (fun h ↦ absurd rfl h) ?_ trivial (of_exiting hx)
      (.active r (ha.step .modifyTcb rfl (by rw [hhere]; rfl) rfl))
    exact congrArg Tcb.joinId State.tcb_modifyTcb_self
  | flag =>
    have hq : m.advance q .next = q := by rw [Machine.advance, hhere]
    rw [hq]
    obtain ⟨r, ha⟩ := hi.exists_active (.inl (by rw [hhere]; rfl)) (by rw [hhere]; rfl)
    cases h
    exact hi.goto hf .setFc rfl rfl hok trivial rfl hi.exitList hi.joins (of_exiting hx)
      (.active r (ha.store .setFc rfl rfl))
  | call =>
    have hq : m.advance q .next = m.afterCall q := by rw [Machine.advance, hhere]
    rw [hq]
    obtain ⟨r, ha⟩ := hi.exists_active (.inl (by rw [hhere]; rfl)) (by rw [hhere]; rfl)
    have hother : m.hasOther = true := by
      rw [Careful, hhere] at hc
      exact hc
    exact hi.call (g := m.gone) (f := .join) (w := .join t .ret) ha (by rw [hhere]; rfl)
      (hi.flow.gotoAfter (by rw [hhere]; rfl) (.inl rfl) rfl) rfl (fun h ↦ absurd rfl h)
      (of_exiting hx) (fun _ ↦ .inl) (by rintro ⟨⟩) (fun _ ↦ ⟨hi.exists_other hother, t, rfl, hok⟩)
        (by rintro ⟨⟩) h
  | ret =>
    have hq : m.advance q .next = q := by rw [Machine.advance, hhere]
    rw [hq]
    simp only [Machine.stepJoin, Option.bind_eq_bind, Option.bind_eq_some_iff, Option.pure_def,
      Option.some.injEq] at h
    obtain ⟨c, hcur, rfl⟩ := h
    obtain ⟨r, ha⟩ := hi.exists_active (.inl (by rw [hhere]; rfl)) (by rw [hhere]; rfl)
    obtain rfl : c = m.running := hi.flow.current c hcur
    exact hi.joinReturns hf hhere (hok.2 hi.running_notMem_joinQueue)
      (.active r (ha.step ⟨rfl, rfl, rfl, le_rfl, rfl, rfl, rfl, rfl⟩ rfl (by rw [hhere]; rfl) rfl))

end Statements

end MyPthread.Api
