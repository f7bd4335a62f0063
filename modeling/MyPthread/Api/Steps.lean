import MyPthread.Api.Blocking

/-!
# Every careful step keeps the queues

The statements of `my_pthread_create`, the ticks, and all steps together:
`exists_inv` is the invariant of the careful runs.
-/

namespace MyPthread.Api

open MyPthread.Lib MyPthread.Sched Function

section Statements

variable {m m' m₀ : Machine} {q : Mlfq} {p w : Pc} {n k r t : ℕ} {s : State}

/-! ### `my_pthread_create` -/

/-- A new node is in no queue. -/
theorem linked_newNode (tid : ℕ) (hl : Linked m.sched q) (hn : ¬q.Mem n) :
    Linked (m.newNode n tid).sched q := fun Q ↦ by
  have hnext : (m.newNode n tid).sched.next = update m.sched.next n none := by
    funext k
    by_cases hk : k = n
    · subst hk
      simp [Machine.newNode, Machine.withSched, State.next]
    · simp [Machine.newNode, Machine.withSched, State.next, hk]
  rw [hnext]
  exact (hl Q).update (fun h ↦ hn ⟨Q, h⟩) none

theorem Inv.boot_of_first (hi : Inv m q) (h : m.firstThread = true) : Boot m q := by
  cases hi.mode with
  | boot hm => exact hm
  | launch hm => cases h.symm.trans hm.first
  | active r hm => cases h.symm.trans hm.first
  | stuck k hm => cases h.symm.trans hm.first
  | finished hm => cases h.symm.trans hm.first

/-- The first call makes a node for its caller as well. -/
theorem Inv.createFirst (hi : Inv m q) (hf : Flow m') (hhere : m.here = .create .node)
    (hfirst : m.firstThread = true) (h : m.stepCreate .node = some m') :
    Inv m' (m.advance q .next) := by
  have hb := hi.boot_of_first hfirst
  have hone : m.nodeCount = 1 := (hi.flow.first hfirst).1
  have hrun : m.running = 0 := Nat.lt_one_iff.mp (hone ▸ hi.flow.running)
  have hq : m.advance q .next = (q.put (.rqs 0) m.nodeCount).put (.rqs 0) 0 := by
    rw [Machine.advance, hhere]
    exact if_pos hfirst
  rw [hq, hone]
  simp only [Machine.stepCreate, if_pos hfirst, Option.bind_eq_bind, Option.bind_eq_some_iff,
    Option.pure_def, Option.some.injEq] at h
  obtain ⟨s₁, hs₁, s₂, hs₂, rfl⟩ := h
  have hempty : ∀ n, ¬q.Mem n := by
    rintro n ⟨Q, hQ⟩
    rw [hb.empty] at hQ
    cases hQ
  have hs₁' : enqueuee (some m.nodeCount) (.rqs 0)
      ((m.newNode m.nodeCount 1).newNode 0 0).sched = some s₁ := hs₁
  rw [hone] at hs₁'
  obtain ⟨t₁, ht₁, hl₁, hd₁⟩ := enqueuee_spec (Q := .rqs 0) (n := 1)
    (linked_newNode 0 (linked_newNode 1 hi.linked (hempty 1)) (hempty 0)) hi.wf
    (hempty 1)
  obtain rfl : t₁ = s₁ := Option.some.inj (ht₁.symm.trans hs₁')
  have hmem₁ : ∀ {n R}, n ∈ q.put (.rqs 0) 1 R ↔ R = .rqs 0 ∧ n = 1 := by
    intro n R
    rw [Mlfq.mem_put, hb.empty]
    simp
  have h0 : ¬(q.put (.rqs 0) 1).Mem 0 := by
    rintro ⟨R, hR⟩
    cases (hmem₁.mp hR).2
  have hwf₁ : (q.put (.rqs 0) 1).WF := hi.wf.put (hempty 1) fun i hi ↦ by cases hi; decide
  obtain ⟨t₂, ht₂, hl₂, hd₂⟩ := enqueuee_spec (Q := .rqs 0) (n := 0)
    (s := { t₁ with current := some 0 }) (hl₁.congr rfl rfl) hwf₁ h0
  obtain rfl : t₂ = s₂ := Option.some.inj (ht₂.symm.trans hs₂)
  have hmem : ∀ {n R}, n ∈ (q.put (.rqs 0) 1).put (.rqs 0) 0 R ↔
      R = .rqs 0 ∧ (n = 1 ∨ n = 0) := by
    intro n R
    rw [Mlfq.mem_put, hmem₁]
    tauto
  have htcb : ∀ n, t₂.tcb n = ((m.newNode 1 1).newNode 0 0).sched.tcb n := fun n ↦
    (hd₂.tcb n).trans (hd₁.tcb n)
  have hexits : ∀ e, e ∉ m.exits := fun e he ↦ by
    rw [hb.exits] at he
    cases he
  have hgone : ∀ n, n ∉ m.gone := fun n hn ↦ by
    rw [hb.gone] at hn
    cases hn
  have hpc : ∀ n, n ≠ 0 → update m.pc m.running (.create .count) n = .user := fun n hn ↦ by
    rw [hrun, update_of_ne hn]
    exact hi.flow.unused n (by omega)
  have hhere' : update m.pc m.running (.create .count) m.running = .create .count :=
    update_self ..
  have hcur : t₂.current = some 0 := hd₂.current
  refine ⟨hf, hl₂, hwf₁.put h0 fun i hi ↦ by cases hi; decide, fun i n hn ↦ ?_,
    (hd₂.memFlag.trans hd₁.memFlag).trans hi.memFlag, fun n hn ↦ ?_, fun n hn ↦ ?_,
    fun n hn ↦ ?_, fun n ↦ ?_, ?_, hi.exitList, hi.joins, fun e he ↦ ?_, hi.nodup, fun n hn ↦ ?_,
    .launch ⟨rfl, hcur.trans (by rw [← hrun]; rfl), ?_, ?_, ?_, .inl hhere'⟩⟩
  · obtain ⟨hR, hn⟩ := hmem.mp hn
    refine (congrArg Tcb.threadPriority (htcb n)).trans ?_
    rw [QueueId.rqs.inj hR]
    rcases hn with rfl | rfl <;> simp [Machine.newNode, Machine.withSched, State.tcb]
  · obtain ⟨R, hR⟩ := hn
    show n < m.nodeCount + 1
    rcases (hmem.mp hR).2 with rfl | rfl <;> omega
  · show (update m.pc m.running (.create .count) n).uncut = false
    rw [hpc n fun h ↦ hn (h.trans hrun.symm)]
    rfl
  · cases (hmem.mp hn).1
  · show ThreadOk m.exits _ t₂ n (update m.pc m.running (.create .count) n)
    by_cases hn : n = 0
    · rw [hn, ← hrun, hhere']
      trivial
    · rw [hpc n hn]
      trivial
  · show Pending _ _ (update m.pc m.running (.create .count) m.running)
    rw [hhere']
    trivial
  · exact absurd he (hexits e)
  · exact absurd hn (hgone n)
  · exact hmem.mpr ⟨rfl, .inr hrun⟩
  · refine (hd₂.fc.trans hd₁.fc).trans (hb.fc.resolve_right ?_)
    rintro ⟨k, hk⟩
    cases hhere.symm.trans hk
  · exact (hd₂.itv.trans hd₁.itv).trans hb.itv

/-- A call after the first makes a node for the new thread. -/
theorem Inv.createNode (hi : Inv m q) (hf : Flow m') (hhere : m.here = .create .node)
    (hfirst : m.firstThread = false) (h : m.stepCreate .node = some m') :
    Inv m' (m.advance q .next) := by
  have hq : m.advance q .next = q := by
    rw [Machine.advance, hhere]
    exact if_neg (by rw [hfirst]; exact Bool.false_ne_true)
  rw [hq]
  simp only [Machine.stepCreate, hfirst, Bool.false_eq_true, if_false, Option.some.injEq] at h
  subst h
  have hnew : ¬q.Mem m.nodeCount := fun hm ↦ lt_irrefl _ (hi.alloc _ hm)
  have hs : Statement m (({ m.newNode m.nodeCount m.threadCount with
      nodeCount := m.nodeCount + 1 }).goto (.create (.enqueue m.nodeCount)))
      (.create (.enqueue m.nodeCount)) := ⟨rfl, rfl, rfl, Nat.le_succ _, rfl, rfl, rfl, rfl⟩
  have htcb : ∀ n, n ≠ m.nodeCount →
      (m.newNode m.nodeCount m.threadCount).sched.tcb n = m.sched.tcb n := fun n hn ↦
    tcb_newNode_of_ne hn
  refine hi.move hf hs (linked_newNode _ hi.linked hnew) hi.wf (fun i n hn ↦ ?_) (fun _ ↦ .inl)
    (fun _ hn ↦ hn) (fun n hn ↦ ?_) trivial ⟨hnew, ?_, fun e he heq ↦ ?_, fun hg ↦ ?_⟩
      rfl hi.exitList
    hi.joins (of_exiting (by rw [hhere]; rfl)) ?_
  · refine (congrArg Tcb.threadPriority (htcb n ?_)).trans (hi.priority i n hn)
    rintro rfl
    exact hnew ⟨_, hn⟩
  · by_cases hne : n = m.nodeCount
    · rw [hne, hi.flow.unused _ le_rfl]
      trivial
    · exact (hi.threads n).mono (fun _ he ↦ he) Iff.rfl (congrArg Tcb.joinId (htcb n hne))
        (congrArg Tcb.valuePtr (htcb n hne))
  · simp [Machine.newNode, Machine.withSched, Machine.goto, State.tcb]
  · exact absurd (hi.exits e he).1 (by rw [heq]; exact lt_irrefl _)
  · exact absurd (hi.gone _ hg).1 (lt_irrefl _)
  · cases hi.mode with
    | boot hm => cases hfirst.symm.trans hm.first
    | launch hm => rcases hm.here with hh | hh <;> cases hhere.symm.trans hh
    | active r hm => exact .active r (hm.step hs rfl (by rw [hhere]; rfl) rfl)
    | stuck k hm => rcases hm.here with hh | hh | ⟨hh | hh, -⟩ <;> cases hhere.symm.trans hh
    | finished hm =>
      exact .finished ⟨hm.first, hm.current, by rw [hs.here]; rfl, hm.fc,
        .inr (by rw [hs.here]; rfl), hm.gone⟩

/-- The new thread is put at the tail of the first level. -/
theorem Inv.createEnqueue (hi : Inv m q) (hf : Flow m') (hhere : m.here = .create (.enqueue n))
    (h : m.stepCreate (.enqueue n) = some m') : Inv m' (m.advance q .next) := by
  have hq : m.advance q .next = q.put (.rqs 0) n := by rw [Machine.advance, hhere]
  rw [hq]
  have hp : Pending m q (.create (.enqueue n)) := hhere ▸ hi.pending
  obtain ⟨hnew, hprio, hexits, hgone⟩ := hp
  simp only [Machine.stepCreate, Option.bind_eq_bind, Option.bind_eq_some_iff, Option.pure_def,
    Option.some.injEq] at h
  obtain ⟨s, hs, rfl⟩ := h
  obtain ⟨s', hs', hl', hd⟩ := enqueuee_spec (Q := .rqs 0) hi.linked hi.wf hnew
  obtain rfl : s' = s := Option.some.inj (hs'.symm.trans hs)
  have hst : Statement m ((m.withSched s').goto (.create .count)) (.create .count) :=
    ⟨rfl, rfl, rfl, le_rfl, hd.current, hd.memFlag, hd.itv, rfl⟩
  have hput : ∀ {j R}, j ∈ q.put (.rqs 0) n R ↔ j ∈ q R ∨ (R = .rqs 0 ∧ j = n) := Mlfq.mem_put
  refine hi.move hf hst hl' (hi.wf.put hnew fun i hi ↦ by cases hi; decide) (fun i j hj ↦ ?_)
    (fun j hj ↦ ?_) (fun j hj ↦ ?_) (fun j hj ↦ ?_) trivial trivial rfl hi.exitList hi.joins
    (of_exiting (by rw [hhere]; rfl)) ?_
  · refine (congrArg Tcb.threadPriority (hd.tcb j)).trans ?_
    rcases hput.mp hj with hjq | ⟨hij, rfl⟩
    · exact hi.priority i j hjq
    · rw [QueueId.rqs.inj hij]
      exact hprio
  · obtain ⟨R, hR⟩ := hj
    rcases hput.mp hR with hjq | ⟨-, rfl⟩
    · exact .inl ⟨R, hjq⟩
    · exact .inr ⟨hi.flow.enqueue j hhere, hexits, hgone⟩
  · exact (hput.mp hj).resolve_right fun h ↦ by cases h.1
  · refine (hi.threads j).mono (fun _ he ↦ he) ?_ (congrArg Tcb.joinId (hd.tcb j))
      (congrArg Tcb.valuePtr (hd.tcb j))
    rw [hput]
    exact or_iff_left fun h ↦ by cases h.1
  · cases hi.mode with
    | boot hm => cases hhere.symm.trans (hm.create (by rw [hhere]; rfl))
    | launch hm => rcases hm.here with hh | hh <;> cases hhere.symm.trans hh
    | active r hm =>
      refine .active r (hm.step hst ?_ (by rw [hhere]; rfl) hd.fc)
      rw [hm.head, Mlfq.put]
      by_cases hr : QueueId.rqs r = .rqs 0
      · rw [hr, update_self, List.head?_append, ← hr, hm.head]
        rfl
      · rw [update_of_ne hr, hm.head]
    | stuck k hm => rcases hm.here with hh | hh | ⟨hh | hh, -⟩ <;> cases hhere.symm.trans hh
    | finished hm =>
      refine .finished ⟨hm.first, hd.current.trans hm.current, by rw [hst.here]; rfl, ?_,
        .inr (by rw [hst.here]; rfl), hm.gone⟩
      show s'.fc ≠ .none ∧ s'.fc ≠ .first
      rw [hd.fc]
      exact hm.fc

theorem Inv.createCount (hi : Inv m q) (hf : Flow m') (hhere : m.here = .create .count)
    (h : m.stepCreate .count = some m') : Inv m' (m.advance q .next) := by
  have hq : m.advance q .next = q := by rw [Machine.advance, hhere]
  rw [hq]
  cases h
  have hs : Statement m ({ m with threadCount := m.threadCount + 1 }.goto (.create .call))
      (.create .call) := ⟨rfl, rfl, rfl, le_rfl, rfl, rfl, rfl, rfl⟩
  refine hi.goto hf hs rfl rfl trivial trivial rfl hi.exitList hi.joins
    (of_exiting (by rw [hhere]; rfl)) ?_
  cases hi.mode with
  | boot hm => cases hhere.symm.trans (hm.create (by rw [hhere]; rfl))
  | launch hm => exact .launch ⟨hm.first, hm.current, hm.mem, hm.fc, hm.itv, .inr hs.here⟩
  | active r hm => exact .active r (hm.step hs rfl (by rw [hhere]; rfl) rfl)
  | stuck k hm => rcases hm.here with hh | hh | ⟨hh | hh, -⟩ <;> cases hhere.symm.trans hh
  | finished hm =>
    exact .finished ⟨hm.first, hm.current, by rw [hs.here]; rfl, hm.fc,
      .inr (by rw [hs.here]; rfl), hm.gone⟩

/-- With no thread to run, a request for the thread that has exited faults. -/
theorem callScheduler_of_current_none {m : Machine} (hflag : m.sched.memFlag = 0)
    (hcur : m.sched.current = none) (h₀ : m.sched.fc ≠ .none) (h₁ : m.sched.fc ≠ .first) :
    m.callScheduler = none := by
  simp [Machine.callScheduler, scheduler_of_serve_none hflag h₀ h₁ (serve_of_current_none hcur)]

/-- The scheduler runs another thread after the first creation, and otherwise lets
the creator go on. -/
theorem Inv.createCall (hi : Inv m q) (hhere : m.here = .create .call)
    (h : m.stepCreate .call = some m') : Inv m' (m.advance q .next) := by
  have hq : m.advance q .next = m.afterCall q := by rw [Machine.advance, hhere]
  rw [hq]
  have hf : Flow ({ m with gone := m.gone }.goto .user) :=
    hi.flow.gotoAfter (by rw [hhere]; rfl) (.inl rfl) rfl
  have key : ∀ r, m.firstThread = false → m.sched.current = some m.running →
      m.running ∈ q (.rqs r) → (m.sched.fc ≠ .first → (q (.rqs r)).head? = some m.running) →
      m.sched.fc = .none ∨ m.sched.fc = .first → Inv m' (m.afterCall q) := by
    intro r hfirst hcur hmem hhead hfc
    have hne : ∀ f : FlagCalled, f ≠ .none → f ≠ .first → m.sched.fc ≠ f := by
      intro f h₀ h₁ hf
      rcases hfc with hfc | hfc
      · exact h₀ (hf.symm.trans hfc)
      · exact h₁ (hf.symm.trans hfc)
    refine Ready.afterCall (m := m.goto .user) (hi.ready (f := m.sched.fc) (g := m.gone) hf rfl
      hfirst hcur hmem hhead rfl (fun _ ↦ trivial) (of_exiting (by rw [hhere]; rfl)) (fun _ ↦ .inl)
      (fun h ↦ absurd h (hne _ (by rintro ⟨⟩) (by rintro ⟨⟩)))
        (fun h ↦ absurd h (hne _ (by rintro ⟨⟩) (by rintro ⟨⟩)))
      fun h ↦ absurd h (hne _ (by rintro ⟨⟩) (by rintro ⟨⟩))) h
  cases hi.mode with
  | boot hm => cases hhere.symm.trans (hm.create (by rw [hhere]; rfl))
  | launch hm => exact key 0 hm.first hm.current hm.mem (absurd hm.fc) (.inr hm.fc)
  | active r hm =>
    exact key r hm.first hm.current (List.mem_of_head? hm.head) (fun _ ↦ hm.head)
      (hm.fc (by rw [hhere]; rfl))
  | stuck k hm => rcases hm.here with hh | hh | ⟨hh | hh, -⟩ <;> cases hhere.symm.trans hh
  | finished hm =>
    have hnone := callScheduler_of_current_none (m := m.goto .user) hi.memFlag hm.current hm.fc.1
      hm.fc.2
    cases hnone.symm.trans h

theorem Inv.create {c : CreatePc} (hi : Inv m q) (hf : Flow m') (hhere : m.here = .create c)
    (h : m.stepCreate c = some m') : Inv m' (m.advance q .next) := by
  cases c with
  | node =>
    by_cases hfirst : m.firstThread = true
    · exact hi.createFirst hf hhere hfirst h
    · exact hi.createNode hf hhere (Bool.eq_false_iff.mpr hfirst) h
  | enqueue n => exact hi.createEnqueue hf hhere h
  | count => exact hi.createCount hf hhere h
  | call => exact hi.createCall hhere h

/-! ### Runs -/

/-- A thread enters a call. -/
theorem Inv.enter {c : Call} (hi : Inv m q) (hu : m.here = .user) (hv : c.Valid m) :
    Inv (m.goto c.entry) q := by
  have hst : c.entry.stored = none := by cases c <;> rfl
  have he : c.entry.early = true := by cases c <;> rfl
  have hc : c.entry.isCreate = true → c.entry = .create .node := by
    cases c with
    | create => exact fun _ ↦ rfl
    | _ => exact nofun
  have hok : ThreadOk m.exits q m.sched m.running c.entry := by cases c <;> trivial
  have hp : Pending (m.goto c.entry) q c.entry := by cases c <;> trivial
  exact hi.goto (hi.flow.enter hu hv) .goto rfl rfl hok hp rfl hi.exitList hi.joins
    (of_exiting (by rw [hu]; rfl))
    (hi.mode.step .goto (by rw [hu, hst]; rfl) rfl rfl (by rw [hu]; rfl) (by rw [hu]; rfl)
      fun _ ↦ ⟨he, hc⟩)

theorem Inv.initMutex (hi : Inv m q) (hu : m.here = .user) : Inv m.initMutex q := by
  have hs : Statement m m.initMutex .user :=
    ⟨by rw [← hu]; exact (update_eq_self _ _).symm, rfl, rfl, le_rfl, rfl, rfl, rfl, rfl⟩
  exact hi.goto hi.flow.initMutex hs rfl rfl trivial trivial rfl hi.exitList hi.joins
    (of_exiting (by rw [hu]; rfl))
    (hi.mode.step hs (by rw [hu]) rfl rfl (by rw [hu]; rfl) (by rw [hu]; rfl)
      fun _ ↦ ⟨rfl, nofun⟩)

/-- A tick outside the stretches. -/
theorem Inv.tick (hi : Inv m q) (hc : m.here.uncut = false) (hitv : m.sched.itv ≠ 0)
    (h : m.timerTriggered = some m') : Inv m' (m.advance q .tick) := by
  show Inv m' ((m.setFc .timer).afterCall q)
  have hself : m.setFc .timer = { m with
      gone := m.gone, pc := update m.pc m.running m.here,
      sched := { m.sched with fc := .timer } } := by
    rw [update_eq_self]
    rfl
  have hfault : m.sched.current = none → Inv m' ((m.setFc .timer).afterCall q) := fun hcur ↦ by
    have hnone := callScheduler_of_current_none (m := m.setFc .timer) hi.memFlag hcur nofun nofun
    cases hnone.symm.trans h
  cases hi.mode with
  | boot hm => exact hfault hm.current
  | launch hm => exact absurd hm.itv hitv
  | active r hm =>
    exact Ready.afterCall (hi.ready (hi.flow.setFc .timer) hself hm.first hm.current
      (List.mem_of_head? hm.head) (fun _ ↦ hm.head) hc (fun _ ↦ hi.threads m.running) .inl
      (fun _ ↦ .inl) nofun nofun nofun) h
  | stuck k hm =>
    have hnone := hi.callScheduler_of_stuck hm (.inl rfl) hself
    cases hnone.symm.trans h
  | finished hm => exact hfault hm.current

/-- A careful step splits no creation. -/
theorem Careful.wholeCreate {a : Action} (h : Careful m a) : WholeCreate m a := by
  rintro rfl
  exact Pc.inCreate_of_uncut h

/-- Every careful step does to the queues what `advance` says, and keeps the
invariant. -/
theorem Inv.step {a : Action} (hi : Inv m q) (hc : Careful m a) (h : m.step a = some m') :
    Inv m' (m.advance q a) := by
  have hf : Flow m' := hi.flow.step hc.wholeCreate h
  cases a with
  | call c =>
    simp only [Machine.step] at h
    split at h
    · rename_i hu
      cases h
      exact hi.enter hu.1 hu.2
    · cases h
  | init =>
    simp only [Machine.step] at h
    split at h
    · rename_i hu
      cases h
      exact hi.initMutex hu
    · cases h
  | next =>
    simp only [Machine.step, Machine.next] at h
    split at h
    · cases h
    · exact hi.create hf ‹_› h
    · exact hi.yield hf ‹_› h
    · exact hi.exit hf ‹_› h
    · exact hi.join hf hc ‹_› h
    · exact hi.lock hf ‹_› h
    · exact hi.unlock hf hc ‹_› h
  | tick =>
    simp only [Machine.step] at h
    split at h
    · rename_i ht
      exact hi.tick hc ht.1 h
    · cases h

theorem inv_init : Inv Machine.init fun _ ↦ [] where
  flow := flow_init
  linked _ := Queued.empty _
  wf := ⟨fun _ ↦ List.nodup_nil, fun h ↦ (nomatch h), fun _ _ ↦ rfl⟩
  priority _ _ h := (nomatch h)
  memFlag := rfl
  alloc _ h := by
    obtain ⟨Q, hQ⟩ := h
    cases hQ
  uncut _ _ := rfl
  joining _ h := (nomatch h)
  threads _ := trivial
  pending := trivial
  exitList _ h := (nomatch h)
  joins _ h := (nomatch h)
  exits _ h := (nomatch h)
  nodup := List.nodup_nil
  gone _ h := (nomatch h)
  mode := .boot ⟨rfl, rfl, rfl, nofun, .inl rfl, rfl, fun _ ↦ rfl, rfl, rfl⟩

/-- The invariant of the careful runs. -/
theorem exists_inv (h : Reachable Careful m) : ∃ q, Inv m q :=
  h.invariant (P := fun m ↦ ∃ q, Inv m q) ⟨_, inv_init⟩ fun _ _ _ ⟨_, hi⟩ hc hs ↦ ⟨_, hi.step hc hs⟩

end Statements

end MyPthread.Api
