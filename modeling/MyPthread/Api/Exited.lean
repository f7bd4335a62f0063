import MyPthread.Api.Conservation
import MyPthread.Api.Yield

/-!
# Joins

A thread that has exited is in `exit_list` with the value it left, and no other thread is.
So what `my_pthread_join` comes to is decided where it is called: it returns at once with
the value of a thread that has exited, refuses a thread that has not been created, and calls
`scheduler` to wait for any other.
-/

namespace MyPthread.Api

open MyPthread.Sched Function

variable {m m' : Machine} {q : Mlfq} {a : Action} {n c t v : ℕ} {temp : List ExitNode}

/-- `exit_list` lists the threads that have exited, and the one that is about to call
`scheduler` for the last time. -/
structure Listed (m : Machine) : Prop where
  gone : ∀ n ∈ m.gone, ∃ v, (n, v) ∈ m.exitList
  call : ∀ n, m.pc n = .exit .call → ∃ v, (n, v) ∈ m.exitList
  exitList : ∀ e ∈ m.exitList, e.1 ∈ m.gone ∨ m.pc e.1 = .exit .call

theorem listed_init : Listed Machine.init where
  gone _ h := by cases h
  call _ h := by cases h
  exitList _ h := by cases h

/-- A thread comes to the last call of its exit where it has been put in `exit_list`. -/
theorem Goes.exitCall (hg : Goes m m' a) (hn : m'.pc n = .exit .call) :
    m.pc n = .exit .call ∨ n = m.running ∧ a = .next ∧ ∃ e, m.here = .exit (.push e) := by
  by_cases hrun : n = m.running
  · rw [hrun] at hn ⊢
    cases hg with
    | enters c _ hpc =>
      rw [hpc, update_self] at hn
      cases c <;> cases hn
    | next hf =>
      have he := hf.edge
      rw [hn] at he
      generalize hh : m.here = p at he
      cases he with
      | exitPush e => exact .inr ⟨rfl, rfl, e, rfl⟩
    | init hpc | tick hpc => exact .inl (hpc ▸ hn)
  · rw [hg.pc_of_ne hrun] at hn
    exact .inl hn

/-- What the push of an exit does. -/
theorem Inv.exitPush {e : ExitNode} (hi : Inv m q) (hh : m.here = .exit (.push e))
    (h : m.next = some m') :
    m'.exitList = (m.running, e.2) :: m.exitList ∧ m'.pc m.running = .exit .call := by
  have hok := hi.threads m.running
  rw [show m.pc m.running = _ from hh] at hok
  simp only [Machine.next, hh, Machine.stepExit, Option.some.injEq] at h
  subst h
  refine ⟨?_, update_self ..⟩
  rw [← hok.2]
  rfl

theorem tick_exitList (h : m.step .tick = some m') : m'.exitList = m.exitList := by
  simp only [Machine.step] at h
  split at h
  · simp only [Machine.timerTriggered, Machine.callScheduler, Option.bind_eq_bind,
      Option.bind_eq_some_iff, Option.pure_def, Option.some.injEq] at h
    obtain ⟨s, -, rfl⟩ := h
    rfl
  · cases h

/-- A thread leaves the last call of its exit as one that has exited. -/
theorem gone_or_exitCall (h : m.step a = some m') (hn : m.pc n = .exit .call) :
    n ∈ m'.gone ∨ m'.pc n = .exit .call := by
  have hgoes := step_goes h
  by_cases hrun : n = m.running
  · rw [hrun] at hn ⊢
    cases hgoes with
    | enters c hu => cases hu.symm.trans hn
    | next _ =>
      rw [gone_of_exitCall hn h]
      exact .inl List.mem_cons_self
    | init hpc | tick hpc => exact .inr (hpc ▸ hn)
  · exact .inr ((hgoes.pc_of_ne hrun).trans hn)

/-- Only the push of an exit adds to `exit_list`. -/
theorem mem_exitList_step {e : ExitNode} (hi : Inv m q) (h : m.step a = some m')
    (he : e ∈ m'.exitList) :
    e ∈ m.exitList ∨ e.1 = m.running ∧ m'.pc m.running = .exit .call := by
  rcases (step_frame hi.flow h).exitList with hx | ⟨d, hh, hx⟩
  · exact .inl (hx ▸ he)
  · cases a with
    | next =>
      obtain ⟨hlist, hpc⟩ := hi.exitPush hh h
      rw [hlist] at he
      rcases List.mem_cons.mp he with rfl | he
      · exact .inr ⟨rfl, hpc⟩
      · exact .inl he
    | tick =>
      rw [tick_exitList h] at he
      exact .inl he
    | call c =>
      rw [Machine.step, if_neg fun hy ↦ by cases hh.symm.trans hy.1] at h
      cases h
    | init =>
      rw [Machine.step, if_neg fun hy ↦ by cases hh.symm.trans hy] at h
      cases h

theorem Listed.step (hl : Listed m) (hi : Inv m q) (h : m.step a = some m') : Listed m' := by
  have hframe := step_frame hi.flow h
  have hgoes := step_goes h
  have hold : ∀ {n v}, (n, v) ∈ m.exitList → ∃ v, (n, v) ∈ m'.exitList := fun hv ↦
    ⟨_, hframe.mem_exitList hv⟩
  refine ⟨fun n hn ↦ ?_, fun n hn ↦ ?_, fun e he ↦ ?_⟩
  · rcases hframe.gone with hg | ⟨hh, hg⟩
    · obtain ⟨v, hv⟩ := hl.gone n (hg ▸ hn)
      exact hold hv
    · rw [hg] at hn
      rcases List.mem_cons.mp hn with rfl | hn
      · obtain ⟨v, hv⟩ := hl.call _ hh
        exact hold hv
      · obtain ⟨v, hv⟩ := hl.gone n hn
        exact hold hv
  · rcases hgoes.exitCall hn with hn | ⟨rfl, rfl, e, hh⟩
    · obtain ⟨v, hv⟩ := hl.call n hn
      exact hold hv
    · rw [(hi.exitPush hh h).1]
      exact ⟨e.2, List.mem_cons_self⟩
  · rcases mem_exitList_step hi h he with he | ⟨hrun, hpc⟩
    · rcases hl.exitList e he with hg | hc
      · exact .inl (hframe.mem_gone hg)
      · exact gone_or_exitCall h hc
    · rw [hrun]
      exact .inr hpc

/-! ## The search of a join -/

section Search

variable {as : List Action}

theorem run_cons_of (hok : Careful m a) (hs : m.step a = some m') :
    m.run Careful (a :: as) = m'.run Careful as := by
  rw [Machine.run, if_pos hok, hs]
  rfl

/-- A statement of a join before its call of `scheduler`. -/
theorem run_join {j : JoinPc} (hj : j ≠ .call)
    (hs : (m.goto (.join t j)).stepJoin t j = some m') :
    (m.goto (.join t j)).run Careful (.next :: as) = m'.run Careful as := by
  have hhere : (m.goto (.join t j)).here = .join t j := update_self ..
  apply run_cons_of
  · unfold Careful
    simp only [hhere]
    split
    · rename_i hx
      cases hx
      exact absurd rfl hj
    · rename_i hx
      cases hx
    · trivial
  · show (m.goto (.join t j)).next = some m'
    simp only [Machine.next, hhere]
    exact hs

@[simp] theorem joinReturns_goto {p : Pc} : (m.goto p).joinReturns t v = m.joinReturns t v := by
  simp only [Machine.joinReturns, Machine.goto, update_idem]

/-- The search finds a thread that is listed. -/
theorem run_search_found (ht : ∃ v, (t, v) ∈ temp) : ∃ v, (t, v) ∈ temp ∧ ∃ j ≤ temp.length,
    (m.goto (.join t (.search temp))).run Careful (List.replicate j .next) =
      some (m.joinReturns t v) := by
  induction temp with
  | nil =>
    obtain ⟨v, hv⟩ := ht
    cases hv
  | cons e temp ih =>
    by_cases he : e.1 = t
    · refine ⟨e.2, ?_, 1, Nat.succ_le_succ (Nat.zero_le _), ?_⟩
      · rw [← he]
        exact List.mem_cons_self
      · refine run_join (by rintro ⟨⟩) ?_
        rw [Machine.stepJoin, if_pos he, joinReturns_goto]
    · obtain ⟨w, hw⟩ := ht
      have hne : (t, w) ≠ e := by
        rintro rfl
        exact he rfl
      obtain ⟨v, hv, j, hj, hr⟩ := ih ⟨w, (List.mem_cons.mp hw).resolve_left hne⟩
      refine ⟨v, List.mem_cons_of_mem _ hv, j + 1, Nat.succ_le_succ hj, ?_⟩
      rw [List.replicate_succ, ← hr]
      refine run_join (by rintro ⟨⟩) ?_
      rw [Machine.stepJoin, if_neg he, goto_goto]

/-- The search for another thread comes to the end of the list. -/
theorem run_search_end (ht : ∀ e ∈ temp, e.1 ≠ t) :
    (m.goto (.join t (.search temp))).run Careful (List.replicate temp.length .next ++ as) =
      (m.goto (.join t (.search []))).run Careful as := by
  induction temp with
  | nil => rfl
  | cons e temp ih =>
    obtain ⟨he, ht⟩ := List.forall_mem_cons.mp ht
    rw [List.length_cons, List.replicate_succ, List.cons_append, ← ih ht]
    refine run_join (by rintro ⟨⟩) ?_
    rw [Machine.stepJoin, if_neg he, goto_goto]

/-- After the search the thread asks to wait. -/
theorem run_wait (hcur : m.sched.current = some c) :
    ∃ m', (m.goto (.join t (.search []))).run Careful (List.replicate 3 .next) = some m' ∧
      m'.here = .join t .call ∧ m'.sched.fc = .join ∧ (m'.sched.tcb c).joinId = t ∧
        m'.joins = m.joins := by
  let s := m.sched.modifyTcb c fun x ↦ { x with joinId := t }
  refine ⟨((m.withSched s).setFc .join).goto (.join t .call), ?_, update_self .., rfl, ?_, rfl⟩
  · have hstore : (m.goto (.join t .store)).stepJoin t .store =
        some ((m.withSched s).goto (.join t .flag)) := by
      simp only [Machine.stepJoin, show (m.goto (.join t .store)).sched.current = some c from hcur,
        Option.bind_eq_bind, Option.bind_some, Option.pure_def]
      exact congrArg some (goto_goto (m := m.withSched s))
    have hflag : ((m.withSched s).goto (.join t .flag)).stepJoin t .flag =
        some (((m.withSched s).setFc .join).goto (.join t .call)) :=
      congrArg some (goto_goto (m := (m.withSched s).setFc .join))
    show (m.goto (.join t (.search []))).run Careful [.next, .next, .next] = _
    rw [run_join (by rintro ⟨⟩) rfl, goto_goto, run_join (by rintro ⟨⟩) hstore,
      run_join (by rintro ⟨⟩) hflag]
    rfl
  · show ((m.sched.modifyTcb c fun x ↦ { x with joinId := t }).tcb c).joinId = t
    simp [State.modifyTcb, State.tcb]

end Search

/-- A join of a thread that was not created is refused; of one that has exited it returns
its value; and of any other it goes on to wait. -/
theorem join_outcome (h : Reachable Careful m) (hu : m.here = .user)
    (hcur : m.sched.current = some c) (t : ℕ) :
    (m.nodeCount ≤ t → m.run Careful [.call (.join t), .next, .next] = some m) ∧
    (t ∈ m.gone → ∃ v, (∀ w, (t, w) ∈ m.exits ↔ w = v) ∧ ∃ j ≤ m.exitList.length + 2,
      m.run Careful (.call (.join t) :: List.replicate j .next) =
        some { m with joins := (t, v) :: m.joins }) ∧
    (t < m.nodeCount → t ∉ m.gone → ∃ m',
      m.run Careful (.call (.join t) :: List.replicate (m.exitList.length + 5) .next) = some m' ∧
        m'.here = .join t .call ∧ m'.sched.fc = .join ∧ (m'.sched.tcb c).joinId = t ∧
          m'.joins = m.joins) := by
  have hinv : ∃ q, Inv m q ∧ Listed m := by
    refine h.invariant (P := fun m ↦ ∃ q, Inv m q ∧ Listed m) ⟨_, inv_init, listed_init⟩ ?_
    rintro m a m' ⟨q, hi, hl⟩ hok hs
    exact ⟨_, hi.step hok hs, hl.step hi hs⟩
  obtain ⟨q, hi, hl⟩ := hinv
  have hcount : m.nodeCount = m.threadCount := by
    have hx := hi.flow.count
    rwa [hu, if_neg (by rintro ⟨⟩), Nat.add_zero] at hx
  -- the call and its first statement
  have hstart : ∀ as, m.run Careful (.call (.join t) :: .next :: as) =
      (m.goto (.join t (.bound m.exitList))).run Careful as := by
    intro as
    have hs : m.step (.call (.join t)) = some (m.goto (.join t .list)) := if_pos ⟨hu, trivial⟩
    rw [run_cons_of (show Careful m (.call (.join t)) from trivial) hs]
    refine run_join (by rintro ⟨⟩) ?_
    rw [Machine.stepJoin, goto_goto]
    rfl
  have hsearch : t < m.nodeCount → ∀ as, m.run Careful (.call (.join t) :: .next :: .next :: as) =
      (m.goto (.join t (.search m.exitList))).run Careful as := by
    intro ht as
    rw [hstart]
    refine run_join (by rintro ⟨⟩) ?_
    rw [Machine.stepJoin, if_neg, goto_goto]
    show ¬m.threadCount - 1 < t
    omega
  refine ⟨fun ht ↦ ?_, fun ht ↦ ?_, fun ht hg ↦ ?_⟩
  · rw [hstart]
    have hlast : (m.goto (.join t (.bound m.exitList))).stepJoin t
      (.bound m.exitList) = some m := by
      rw [Machine.stepJoin, if_pos, goto_goto, goto_here hu]
      show m.threadCount - 1 < t
      have := hi.flow.running
      omega
    exact (run_join (by rintro ⟨⟩) hlast).trans rfl
  · obtain ⟨v, hv, j, hj, hr⟩ := run_search_found (m := m) (hl.gone t ht)
    have hmem := hi.exitList _ hv
    refine ⟨v, fun w ↦ ⟨fun hw ↦ ?_, fun hw ↦ hw ▸ hmem⟩, j + 2, by omega, ?_⟩
    · exact (Prod.mk.inj (List.inj_on_of_nodup_map hi.nodup hw hmem rfl)).2
    · rw [List.replicate_succ, List.replicate_succ, hsearch (hi.gone t ht).1, hr,
        Machine.joinReturns, Machine.goto]
      show some { m with joins := (t, v) :: m.joins, pc := update m.pc m.running .user } = _
      rw [show update m.pc m.running .user = m.pc by rw [← hu]; exact update_eq_self ..]
  · have hnone : ∀ e ∈ m.exitList, e.1 ≠ t := by
      rintro e he rfl
      rcases hl.exitList e he with hx | hx
      · exact hg hx
      · have hne : e.1 ≠ m.running := by
          intro hx'
          rw [hx'] at hx
          cases hu.symm.trans hx
        have hcut := hi.uncut e.1 hne
        rw [hx] at hcut
        cases hcut
    rw [List.replicate_succ, List.replicate_succ, List.replicate_add, hsearch ht,
      run_search_end hnone]
    exact run_wait hcur

/-- The first thread joins one that has exited with 7. -/
theorem join_outcome_exited : ∃ m : Machine, m.gone = [1] ∧ ∃ j ≤ 3,
    m.run Careful (.call (.join 1) :: List.replicate j .next) =
      some { m with joins := [(1, 7)] } := by
  obtain ⟨m, hm, hx⟩ := Reachable.exists_of_run Careful
    [.call .create, .next, .next, .next, .call (.exit 7), .next, .next, .next, .next, .next]
    (fun m ↦ decide (m.here = .user ∧ m.sched.current = some 0 ∧ m.gone = [1] ∧
      m.exitList.length = 1 ∧ m.exits = [(1, 7)] ∧ m.joins = []))
    (show _ = some true by decide)
  obtain ⟨hu, hcur, hgone, hlen, hexits, hjoins⟩ := of_decide_eq_true hx
  obtain ⟨v, hv, j, hj, hr⟩ :=
    (join_outcome hm hu hcur 1).2.1 (by rw [hgone]; exact List.mem_cons_self)
  obtain rfl : 7 = v := (hv 7).mp (by rw [hexits]; exact List.mem_cons_self)
  rw [hlen] at hj
  rw [hjoins] at hr
  exact ⟨m, hgone, j, hj, hr⟩

end MyPthread.Api
