import MyPthread.Api.Faults
import MyPthread.Api.Starvation

/-!
# The calls come to an end

Three loops stand in the calls: the one of `my_pthread_exit` over `join_queue`, of
`my_pthread_join` over `exit_list` and of `my_pthread_mutex_unlock` over
`waiting_queue`.  While nothing interrupts it, a thread is at most `left` statements
away from its own code or from a call of `scheduler` (`calls_end`); the loop of
`my_pthread_mutex_lock` calls `scheduler` in every round.
-/

namespace MyPthread.Api

open MyPthread.Sched MyPthread.Lib Function

/-- The part of `exit_list` that a join is still to search. -/
def Pc.temp : Pc → List ExitNode
  | .join _ (.bound temp) | .join _ (.search temp) => temp
  | _ => []

/-- How many statements are left before the thread is back in its own code or calls
`scheduler`.  A round of an unlock takes three statements. -/
def left (m : Machine) (q : Mlfq) : Pc → ℕ
  | .user => 0
  | .create .node => 3
  | .create (.enqueue _) => 2
  | .create .count => 1
  | .create .call => 0
  | .yield .test => 2
  | .yield .flag => 1
  | .yield .call => 0
  | .exit (.node _) => (q .joinQueue).length + 4
  | .exit (.flag _) => (q .joinQueue).length + 3
  | .exit (.loop _ i) => (q .joinQueue).length - i + 2
  | .exit (.push _) => 1
  | .exit .call => 0
  | .exit .ret => 1
  | .join _ .list => m.exitList.length + 5
  | .join _ (.bound temp) => temp.length + 4
  | .join _ (.search temp) => temp.length + 3
  | .join _ .store => 2
  | .join _ .flag => 1
  | .join _ .call => 0
  | .join _ .ret => 1
  | .lock _ .test => 5
  | .lock _ .flag => 2
  | .lock _ .mid => 1
  | .lock _ .call => 0
  | .lock _ .set => 4
  | .lock _ .tid => 3
  | .lock _ .ready => 2
  | .lock _ .ret => 1
  | .unlock _ .test => 3 * (q .waitingQueue).length + 9
  | .unlock _ .owner => 3 * (q .waitingQueue).length + 8
  | .unlock _ .clear => 3 * (q .waitingQueue).length + 7
  | .unlock _ .tid => 3 * (q .waitingQueue).length + 6
  | .unlock _ .front => 3 * (q .waitingQueue).length + 5
  | .unlock _ (.loop none) => 1
  | .unlock _ (.loop (some n)) =>
    3 * ((q .waitingQueue).length - (q .waitingQueue).idxOf n) + 4
  | .unlock _ (.found n) => 3 * ((q .waitingQueue).length - (q .waitingQueue).idxOf n) + 3
  | .unlock _ (.next n) => 3 * ((q .waitingQueue).length - (q .waitingQueue).idxOf n) + 2
  | .unlock _ (.mid _) => 5
  | .unlock _ (.priority _) => 4
  | .unlock _ .ready => 3
  | .unlock _ .move => 2
  | .unlock _ .ret => 1

/-- The search of an unlock is at a node of the waiting queue. -/
def Walks (q : Mlfq) : Pc → Prop
  | .unlock _ (.loop (some n)) | .unlock _ (.found n) | .unlock _ (.next n) =>
    n ∈ q .waitingQueue
  | _ => True

variable {m m' : Machine} {q : Mlfq} {a : Action} {k n : ℕ} {p p' : Pc}

theorem walks_of_uncut (h : p.uncut = false) : Walks q p := by
  unfold Walks
  split
  · cases h
  · cases h
  · cases h
  · trivial

theorem left_le (hi : Inv m q) (p : Pc) :
    left m q p ≤ 3 * m.nodeCount + m.exitList.length + p.temp.length + 9 := by
  have hj := hi.length_le .joinQueue
  have hw := hi.length_le .waitingQueue
  unfold left
  split <;> simp only [Pc.temp, List.length_nil] <;> omega

/-- The statements that do not call `scheduler` leave the queues, but for the loop of
an exit, an unlock's last statement and a creation. -/
theorem advance_eq (h : m.here.isCall = false) (hloop : ∀ e i, m.here ≠ .exit (.loop e i))
    (hmove : ∀ k, m.here ≠ .unlock k .move) (hc : m.here.isCreate = false) :
    m.advance q .next = q := by
  have hmoved := moved m q .next
  generalize m.advance q .next = q' at hmoved ⊢
  cases hmoved with
  | still => rfl
  | tick ht => cases ht
  | call _ hh => cases h.symm.trans hh
  | first _ hh =>
    rw [hh] at hc
    cases hc
  | created n _ hh =>
    rw [hh] at hc
    cases hc
  | joined e i n l _ hh => exact absurd hh (hloop e i)
  | kept e i n l _ hh => exact absurd hh (hloop e i)
  | woken k n l _ hh => exact absurd hh (hmove k)

/-- The node behind `n` in the waiting queue is the next one. -/
theorem Inv.idxOf_next (hi : Inv m q) {d : ℕ} (hn : n ∈ q .waitingQueue)
    (hd : m.sched.next n = some d) : d ∈ q .waitingQueue ∧
      (q .waitingQueue).idxOf d = (q .waitingQueue).idxOf n + 1 := by
  obtain ⟨pre, suf, hq⟩ := List.append_of_mem hn
  have hpath := (hi.linked .waitingQueue).path
  have hnd := hi.wf.nodup .waitingQueue
  rw [hq] at hpath hnd ⊢
  have hnext : m.sched.next n = suf.head? := hpath.head_next
  rw [hd] at hnext
  obtain ⟨l, rfl⟩ := List.head?_eq_some_iff.mp hnext.symm
  have hn' : n ∉ pre := fun h ↦
    (List.nodup_append.mp hnd).2.2 n h n List.mem_cons_self rfl
  have hd' : d ∉ pre := fun h ↦
    (List.nodup_append.mp hnd).2.2 d h d (List.mem_cons_of_mem _ List.mem_cons_self) rfl
  have hne : n ≠ d := by
    rintro rfl
    exact (List.nodup_cons.mp (List.nodup_append.mp hnd).2.1).1 List.mem_cons_self
  refine ⟨List.mem_append_right _ (List.mem_cons_of_mem _ List.mem_cons_self), ?_⟩
  rw [List.idxOf_append_of_notMem hn', List.idxOf_append_of_notMem hd', List.idxOf_cons_self,
    List.idxOf_cons_ne _ hne, List.idxOf_cons_self]

/-- A round of the loop of an exit: the counter comes nearer to the length. -/
theorem left_loop {e : ExitNode} {i : ℕ} (hh : m.here = .exit (.loop e i))
    (hlt : i < (q .joinQueue).length) :
    (m.advance q .next .joinQueue).length - (i + 1) < (q .joinQueue).length - i := by
  obtain ⟨n, l, hl⟩ := List.exists_cons_of_length_pos (Nat.zero_lt_of_lt hlt)
  have hmem : n ∈ q .joinQueue := by
    rw [hl]
    exact List.mem_cons_self
  have hlen : (m.advance q .next .joinQueue).length ≤ (q .joinQueue).length := by
    simp only [Machine.advance, hh, if_pos hlt, Machine.afterBody, hl]
    rw [← hl]
    have htake := Mlfq.length_take_le (q := q) (Q := .joinQueue) (c := n) (R := .joinQueue)
    split
    · rw [Mlfq.move, Mlfq.length_put, if_neg (by rintro ⟨⟩)]
      exact htake
    · rw [Mlfq.move, Mlfq.length_put, if_pos rfl, Mlfq.take, update_self,
        List.length_erase_of_mem hmem]
      have := List.length_pos_of_mem hmem
      omega
  omega

/-- A statement brings its thread nearer to the end of its call. -/
theorem Inv.left_lt (hi : Inv m q) (hw : Walks q m.here) (hc : m.here.isCall = false)
    (he : Edge m m.here p) :
    left m' (m.advance q .next) p < left m q m.here ∧ Walks (m.advance q .next) p := by
  have hq : (∀ e i, m.here ≠ .exit (.loop e i)) → (∀ k, m.here ≠ .unlock k .move) →
      m.here.isCreate = false → m.advance q .next = q := advance_eq hc
  generalize hh : m.here = w at he hc hq hw ⊢
  cases he with
  | createFirst | createNode | createEnqueue | createCount => exact ⟨by simp [left], trivial⟩
  | createCall | yieldCall | exitCall | joinCall | lockCall => cases hc
  | exitBody e i count hcount hlt =>
    rw [getSpecificCount_spec hi.linked (hi.length_le .joinQueue), Option.some.injEq] at hcount
    subst hcount
    exact ⟨Nat.add_lt_add_right (left_loop hh hlt) 2, trivial⟩
  | exitDone => exact ⟨by simp only [left]; omega, trivial⟩
  | unlockMove => exact ⟨by simp [left], trivial⟩
  | unlockFront k =>
    rw [hq (by rintro e i ⟨⟩) (by rintro j ⟨⟩) rfl, hi.linked.front]
    cases hl : q .waitingQueue with
    | nil => exact ⟨by simp [left], trivial⟩
    | cons n l =>
      refine ⟨?_, ?_⟩
      · simp only [left, hl, List.head?_cons, List.idxOf_cons_self, List.length_cons]
        omega
      · show n ∈ q .waitingQueue
        rw [hl]
        exact List.mem_cons_self
  | unlockLoop k n =>
    rw [hq (by rintro e i ⟨⟩) (by rintro j ⟨⟩) rfl]
    exact ⟨by simp only [left]; omega, hw⟩
  | unlockOther k n =>
    rw [hq (by rintro e i ⟨⟩) (by rintro j ⟨⟩) rfl]
    exact ⟨by simp only [left]; omega, hw⟩
  | unlockFound k n =>
    have hlt : (q .waitingQueue).idxOf n < (q .waitingQueue).length :=
      List.idxOf_lt_length_of_mem hw
    exact ⟨by simp only [left]; omega, trivial⟩
  | unlockNext k n =>
    rw [hq (by rintro e i ⟨⟩) (by rintro j ⟨⟩) rfl]
    have hlt : (q .waitingQueue).idxOf n < (q .waitingQueue).length :=
      List.idxOf_lt_length_of_mem hw
    cases hd : m.sched.next n with
    | none => exact ⟨by simp only [left]; omega, trivial⟩
    | some d =>
      obtain ⟨hmem, hidx⟩ := hi.idxOf_next hw hd
      refine ⟨?_, hmem⟩
      simp only [left, hidx]
      omega
  | _ =>
    rw [hq (by rintro e i ⟨⟩) (by rintro j ⟨⟩) rfl]
    exact ⟨by simp only [left, List.length_cons]; omega, trivial⟩

/-! ### Where the searches stand -/

theorem Walks.step (hw : Walks q m.here) (hi : Inv m q) (hc : Careful m a)
    (h : m.step a = some m') : Walks (m.advance q a) m'.here := by
  have hi' := hi.step hc h
  have hgoes := step_goes h
  by_cases hr : m'.running = m.running
  · rw [Machine.here, hr]
    cases hgoes with
    | enters c hu hpc =>
      rw [hpc, update_self]
      cases c <;> trivial
    | next hf =>
      by_cases hcall : m.here.isCall = true
      · have he := hf.edge
        generalize hh : m.here = w at he hcall
        generalize m'.pc m.running = w' at he
        cases he <;> trivial
      · have hleft : left m (m.advance q .next) (m'.pc m.running) < left m q m.here ∧
            Walks (m.advance q .next) (m'.pc m.running) :=
          hi.left_lt hw (Bool.eq_false_iff.mpr hcall) hf.edge
        exact hleft.2
    | init hpc =>
      rw [hpc]
      exact hw
    | tick hpc =>
      rw [hpc]
      exact walks_of_uncut hc
  · rw [Machine.here, hgoes.pc_of_ne hr]
    exact walks_of_uncut (hi.uncut _ hr)

theorem exists_inv_walks (h : Reachable Careful m) : ∃ q, Inv m q ∧ Walks q m.here := by
  refine h.invariant (P := fun m ↦ ∃ q, Inv m q ∧ Walks q m.here) ⟨_, inv_init, trivial⟩ ?_
  rintro m a m' ⟨q, hi, hw⟩ hc hs
  exact ⟨_, hi.step hc hs, hw.step hi hc hs⟩

/-! ### The end -/

/-- The thread is in its own code, before a call of `scheduler`, or has found a
waiter that is not at the front. -/
def Ends (m : Machine) : Prop := m.here = .user ∨ m.here.isCall = true ∨ ¬Careful m .next

/-- At most `k` statements are left, and `current` is not null. -/
def Busy (k : ℕ) (m : Machine) : Prop :=
  ∃ q, Inv m q ∧ Walks q m.here ∧ left m q m.here ≤ k ∧ m.sched.current ≠ none

/-- A careful statement of a call that has not come to its end. -/
abbrev stepCall (m : Machine) (_ : Unit) : Option Machine :=
  if m.here = .user ∨ m.here.isCall = true then none
  else if Careful m .next then m.next else none

theorem stepCall_eq (he : ¬Ends m) : stepCall m () = m.next := by
  unfold Ends at he
  push Not at he
  unfold stepCall
  rw [if_neg (not_or.mpr ⟨he.1, he.2.1⟩), if_pos he.2.2]

/-- The statements of a call are a careful run. -/
theorem run_of_stepCall {j : ℕ} (h : (List.replicate j ()).foldlM stepCall m = some m') :
    m.run Careful (List.replicate j .next) = some m' := by
  induction j generalizing m with
  | zero => exact h
  | succ j ih =>
    obtain ⟨m₁, hs, hr⟩ := foldlM_cons.mp h
    unfold stepCall at hs
    split at hs
    · cases hs
    split at hs
    · rename_i hc
      rw [List.replicate_succ, Machine.run, if_pos hc, show m.step .next = m.next from rfl, hs]
      exact ih hr
    · cases hs

theorem ranks_busy : Ranks stepCall (fun _ ↦ true) Busy Ends := by
  rintro k m ⟨⟩ m' ⟨q, hi, hw, hk, hcur⟩ h
  unfold stepCall at h
  split at h
  · cases h
  rename_i hne
  split at h
  · rename_i hc
    have hcall : m.here.isCall = false := Bool.eq_false_iff.mpr fun hx ↦ hne (.inr hx)
    have hs := next_stays hcall h
    obtain ⟨hlt, hw'⟩ : left m' (m.advance q .next) (m'.pc m.running) < left m q m.here ∧
        Walks (m.advance q .next) (m'.pc m.running) := hi.left_lt hw hcall (next_follows h).edge
    rw [← hs.running] at hlt hw'
    refine .inr ⟨_, ⟨_, hi.step hc h, hw', le_rfl, ?_⟩, hlt.trans_le hk⟩
    rcases hs.current with hx | hfirst
    · rwa [hx]
    · exact absurd (hi.boot_of_first hfirst).current hcur
  · cases h

/-- While `current` is not null, no statement before the end faults. -/
theorem Busy.exists_step (hb : Busy k m) (he : ¬Ends m) : ∃ m', stepCall m () = some m' := by
  obtain ⟨q, hi, -, -, hcur⟩ := hb
  rw [stepCall_eq he]
  cases hs : m.next with
  | some m' => exact ⟨m', rfl⟩
  | none =>
    rcases (hi.next_faults fun hu ↦ he (.inl hu)).mp hs with ⟨hc, -⟩ | ⟨⟨j, hj⟩, -⟩
    · exact absurd hc hcur
    · exact absurd (.inr (.inl (by rw [hj]; rfl))) he

/-- A call comes to its end, or to the scheduler, in a number of statements linear in
the numbers of threads, of exits and of nodes that a join has still to search; it does
not fault on the way. -/
theorem calls_end (h : Reachable Careful m) (hcur : m.sched.current ≠ none) :
    ∃ j ≤ 3 * m.nodeCount + m.exitList.length + m.here.temp.length + 10,
      ∃ m', m.run Careful (List.replicate j .next) = some m' ∧ Ends m' := by
  obtain ⟨q, hi, hw⟩ := exists_inv_walks h
  obtain ⟨j, hj, m', hr, he⟩ := ranks_busy.exists_run () (fun _ _ ↦ Busy.exists_step)
    (show Busy _ m from ⟨q, hi, hw, left_le hi _, hcur⟩)
  exact ⟨j, hj, m', run_of_stepCall hr, he⟩

/-- An unlock that finds a waiter moves it and returns. -/
theorem calls_end_unlock : ∃ (m m' : Machine) (j : ℕ), m.here = .unlock 0 .test ∧ j ≤ 16 ∧
    m.run Careful (List.replicate j .next) = some m' ∧ Ends m' := by
  obtain ⟨m, hm, hx⟩ := Reachable.exists_of_run Careful
    [.init, .call .create, .next, .next, .next, .call (.lock 0), .next, .next, .next, .next, .next,
      .tick, .call (.lock 0), .next, .next, .next, .next, .call (.unlock 0)]
    (fun m ↦ decide (m.here = .unlock 0 .test ∧ m.sched.current = some 1 ∧ m.nodeCount = 2 ∧
      m.exitList = [] ∧ (m.sched.queues .waitingQueue).front = some 0))
    (show _ = some true by decide)
  obtain ⟨hh, hcur, hnode, hexit, -⟩ := of_decide_eq_true hx
  obtain ⟨j, hj, m', hr, he⟩ := calls_end hm (by rw [hcur]; rintro ⟨⟩)
  rw [hnode, hexit, hh] at hj
  exact ⟨m, m', j, hh, hj, hr, he⟩

end MyPthread.Api
