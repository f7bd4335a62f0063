import MyPthread.Api.Statements

/-!
# The loop of `my_pthread_exit`

The loop takes nodes from the front of `join_queue` as long as a counter is below
the length of the queue.  The counter grows by one a round and the length shrinks
with every joiner that is woken, so that the loop may stop before it has seen all of
the queue.  It sees the joiners of the thread that exits when, behind each of them,
there are at least as many nodes as there are joiners before it.
-/

namespace MyPthread.Api

open MyPthread.Sched Function

variable {s s' s₁ : State} {q q' : Mlfq} {n c v i t : ℕ} {l pre post : List ℕ} {m : Machine}
  {e : ExitNode}

/-- The loop of `my_pthread_exit`, for a thread that exits with `e`. -/
def exitLoop (nodeCount : ℕ) (e : ExitNode) : ℕ → ℕ → State → Option State
  | 0, _, _ => none
  | fuel + 1, i, s => do
    let count ← getSpecificCount nodeCount .joinQueue s
    if i < count then exitLoop nodeCount e fuel (i + 1) (← Machine.exitBody e s)
    else some s

/-- The statements of a thread that is in the loop run it to its end. -/
theorem exitLoop_steps {fuel : ℕ} (h : exitLoop m.nodeCount e fuel i m.sched = some s)
    (hhere : m.here = .exit (.loop e i)) :
    ∃ k, m.run (fun _ _ ↦ True) (List.replicate k .next) =
      some ((m.withSched s).goto (.exit (.push e))) := by
  induction fuel generalizing i m with
  | zero => cases h
  | succ fuel ih =>
    simp only [exitLoop, Option.bind_eq_bind, Option.bind_eq_some_iff] at h
    obtain ⟨count, hcount, h⟩ := h
    have hstep : m.step .next = m.stepExit (.loop e i) := by
      rw [Machine.step, Machine.next, hhere]
    simp only [Machine.stepExit, hcount, Option.bind_eq_bind, Option.bind_some] at hstep
    split at h
    · rename_i hlt
      obtain ⟨s₁, hs₁, h⟩ := Option.bind_eq_some_iff.mp h
      rw [if_pos hlt, hs₁] at hstep
      obtain ⟨k, hk⟩ := ih (m := (m.withSched s₁).goto (.exit (.loop e (i + 1)))) h (update_self ..)
      refine ⟨k + 1, ?_⟩
      rw [List.replicate_succ, Machine.run, if_pos trivial, hstep]
      refine hk.trans ?_
      simp only [Machine.goto, Machine.withSched, update_idem]
    · rename_i hlt
      rw [if_neg hlt] at hstep
      obtain rfl := Option.some.inj h
      refine ⟨1, ?_⟩
      rw [List.replicate_one, Machine.run, if_pos trivial, hstep]
      rfl

/-- The nodes of `l` that wait for the thread `t`. -/
def joiners (s : State) (t : ℕ) (l : List ℕ) : List ℕ :=
  l.filter fun n ↦ decide ((s.tcb n).joinId = t)

/-- The nodes of `l` that wait for another thread. -/
def others (s : State) (t : ℕ) (l : List ℕ) : List ℕ :=
  l.filter fun n ↦ !decide ((s.tcb n).joinId = t)

/-- The queues when the loop has seen the nodes `pre` of `join_queue` and not yet the
nodes `post`. -/
def seen (s : State) (t : ℕ) (pre post : List ℕ) (q : Mlfq) : Mlfq :=
  update (update q .joinQueue (post ++ others s t pre)) (.rqs 0) (q (.rqs 0) ++ joiners s t pre)

/-- What the thread `n` is told when `t` exits with `v`. -/
def told (s : State) (t v n : ℕ) : Tcb :=
  if (s.tcb n).joinId = t then { s.tcb n with valuePtr := v, threadPriority := 0 } else s.tcb n

/-- The state in which the nodes `pre` of `join_queue` have been seen. -/
structure Seen (s : State) (q : Mlfq) (c t v : ℕ) (pre post : List ℕ) (s' : State) : Prop where
  linked : Linked s' (seen s t pre post q)
  wf : (seen s t pre post q).WF
  mem : ∀ n ∈ pre, s'.tcb n = told s t v n
  notMem : ∀ n, n ∉ pre → s'.tcb n = s.tcb n
  current : s'.current = some c

theorem told_joinId : (told s t v n).joinId = (s.tcb n).joinId := by
  unfold told
  split <;> rfl

theorem told_tid : (told s t v n).tid = (s.tcb n).tid := by
  unfold told
  split <;> rfl

@[simp] theorem seen_joinQueue : seen s t pre post q .joinQueue = post ++ others s t pre := by
  rw [seen, update_of_ne (show QueueId.joinQueue ≠ .rqs 0 from nofun), update_self]

@[simp] theorem seen_rqs_zero : seen s t pre post q (.rqs 0) = q (.rqs 0) ++ joiners s t pre :=
  update_self ..

theorem seen_of_ne {Q : QueueId} (h₀ : Q ≠ .rqs 0) (hj : Q ≠ .joinQueue) :
    seen s t pre post q Q = q Q := by
  rw [seen, update_of_ne h₀, update_of_ne hj]

/-- Seeing a joiner. -/
theorem move_seen_joiner (hn : (s.tcb n).joinId = t) :
    (seen s t pre (n :: post) q).move .joinQueue (.rqs 0) n = seen s t (pre ++ [n]) post q := by
  funext Q
  rw [Mlfq.move, Mlfq.put, Mlfq.take]
  by_cases h₀ : Q = .rqs 0
  · subst h₀
    rw [update_self, update_of_ne (show QueueId.rqs 0 ≠ .joinQueue by rintro ⟨⟩), seen_rqs_zero,
      seen_rqs_zero]
    simp [joiners, hn]
  · rw [update_of_ne h₀]
    by_cases hj : Q = .joinQueue
    · subst hj
      rw [update_self, seen_joinQueue, seen_joinQueue]
      simp [others, hn]
    · rw [update_of_ne hj, seen_of_ne h₀ hj, seen_of_ne h₀ hj]

/-- Seeing a node that waits for another thread. -/
theorem move_seen_other (hn : (s.tcb n).joinId ≠ t) :
    (seen s t pre (n :: post) q).move .joinQueue .joinQueue n = seen s t (pre ++ [n]) post q := by
  funext Q
  rw [Mlfq.move, Mlfq.put, Mlfq.take]
  by_cases hj : Q = .joinQueue
  · subst hj
    rw [update_self, update_self, seen_joinQueue, seen_joinQueue]
    simp [others, hn]
  · rw [update_of_ne hj, update_of_ne hj]
    by_cases h₀ : Q = .rqs 0
    · subst h₀
      rw [seen_rqs_zero, seen_rqs_zero]
      simp [joiners, hn]
    · rw [seen_of_ne h₀ hj, seen_of_ne h₀ hj]

/-- A round of the loop returns when there is a node in `join_queue`. -/
theorem exists_exitBody (hl : Linked s q) (hq : q.WF) (hj : q .joinQueue = n :: l)
    (hc : s.current = some c) (e : ExitNode) : ∃ s', Machine.exitBody e s = some s' := by
  obtain ⟨s₁, hdeq, hl₁, hd₁⟩ := dequeuee_spec hl hj
  have hnot := Mlfq.not_mem_take hq (show n ∈ q .joinQueue by simp [hj])
  simp only [Machine.exitBody, hdeq, Option.bind_eq_bind, Option.bind_some, hd₁.current, hc]
  split
  · obtain ⟨s₂, henq, -⟩ := enqueuee_spec (Q := .rqs 0)
      (s := (s₁.modifyTcb n fun t ↦ { t with valuePtr := e.2 }).setPriority n 0)
      (hl₁.congr (by simp) (by simp)) hq.take hnot
    exact ⟨s₂, henq⟩
  · obtain ⟨s₂, henq, -⟩ := enqueuee_spec (Q := .joinQueue) hl₁ hq.take hnot
    exact ⟨s₂, henq⟩

namespace Seen

theorem joinId (h : Seen s q c t v pre post s') (n : ℕ) :
    (s'.tcb n).joinId = (s.tcb n).joinId := by
  by_cases hn : n ∈ pre
  · rw [h.mem n hn, told_joinId]
  · rw [h.notMem n hn]

theorem tid (h : Seen s q c t v pre post s') (n : ℕ) : (s'.tcb n).tid = (s.tcb n).tid := by
  by_cases hn : n ∈ pre
  · rw [h.mem n hn, told_tid]
  · rw [h.notMem n hn]

/-- A round of the loop sees one node more. -/
theorem step (h : Seen s q c t v pre (n :: post) s') (ht : (s.tcb c).tid = t)
    (hnodup : (pre ++ n :: post).Nodup) :
    ∃ s₁, Machine.exitBody (t, v) s' = some s₁ ∧ Seen s q c t v (pre ++ [n]) post s₁ := by
  have hj : seen s t pre (n :: post) q .joinQueue = n :: (post ++ others s t pre) :=
    seen_joinQueue
  have hn : n ∈ seen s t pre (n :: post) q .joinQueue := by simp [hj]
  have hnpre : n ∉ pre := fun hmem ↦
    (List.nodup_append.mp hnodup).2.2 n hmem n List.mem_cons_self rfl
  obtain ⟨s₁, hs₁⟩ := exists_exitBody h.linked h.wf hj h.current (t, v)
  have hrel := exitBody_spec h.linked h.wf hj h.current hs₁
  have htid : (s'.tcb c).tid = t := (h.tid c).trans ht
  have hmem : ∀ m ∈ pre, s₁.tcb m = told s t v m := by
    intro m hm
    rw [hrel.tcb m (ne_of_mem_of_not_mem hm hnpre), h.mem m hm]
  have hnotMem : ∀ m, m ∉ pre ++ [n] → s₁.tcb m = s.tcb m := by
    intro m hm
    rw [List.mem_append, List.mem_singleton, not_or] at hm
    rw [hrel.tcb m hm.2, h.notMem m hm.1]
  refine ⟨s₁, hs₁, ?_⟩
  by_cases hid : (s.tcb n).joinId = t
  · obtain ⟨hlinked, htcb⟩ := hrel.woken (by rw [h.joinId, hid, htid])
    have hdst : ∀ i, QueueId.rqs 0 = .rqs i → i < numPriorities := by
      intro i hi
      cases hi
      decide
    have hwf := h.wf.move hn hdst
    rw [move_seen_joiner hid] at hlinked hwf
    refine ⟨hlinked, hwf, ?_, hnotMem, hrel.current.trans h.current⟩
    intro m hm
    rcases List.mem_append.mp hm with hm | hm
    · exact hmem m hm
    · obtain rfl := List.mem_singleton.mp hm
      rw [htcb, h.notMem m hnpre, told, if_pos hid]
  · obtain ⟨hlinked, htcb⟩ := hrel.kept (by rw [h.joinId, htid]; exact hid)
    have hdst : ∀ i, QueueId.joinQueue = .rqs i → i < numPriorities := nofun
    have hwf := h.wf.move hn hdst
    rw [move_seen_other hid] at hlinked hwf
    refine ⟨hlinked, hwf, ?_, hnotMem, hrel.current.trans h.current⟩
    intro m hm
    rcases List.mem_append.mp hm with hm | hm
    · exact hmem m hm
    · obtain rfl := List.mem_singleton.mp hm
      rw [htcb, h.notMem m hnpre, told, if_neg hid]

end Seen

/-- The nodes of `join_queue` are joiners or wait for another thread. -/
theorem length_joiners_add (pre : List ℕ) :
    (joiners s t pre).length + (others s t pre).length = pre.length :=
  (List.length_eq_length_filter_add _).symm

/-- The loop from a state in which `pre` has been seen goes on while there are more nodes
left than joiners seen. -/
theorem exitLoop_spec {fuel nodeCount : ℕ} (h : Seen s q c t v pre post s')
    (ht : (s.tcb c).tid = t) (hnodup : (pre ++ post).Nodup) (hfuel : post.length < fuel)
    (hcount : (pre ++ post).length ≤ nodeCount) :
    ∃ s₁ mid rest, post = mid ++ rest ∧
      exitLoop nodeCount (t, v) fuel pre.length s' = some s₁ ∧
      Seen s q c t v (pre ++ mid) rest s₁ ∧
      rest.length ≤ (joiners s t (pre ++ mid)).length ∧
      ∀ a n b, mid = a ++ n :: b →
        (joiners s t (pre ++ a)).length < (n :: b ++ rest).length := by
  induction fuel generalizing pre post s' with
  | zero => cases hfuel
  | succ fuel ih =>
    have hlen := length_joiners_add (s := s) (t := t) pre
    have hget : getSpecificCount nodeCount .joinQueue s' =
        some (post ++ others s t pre).length := by
      rw [← seen_joinQueue (q := q)]
      refine getSpecificCount_spec h.linked ?_
      rw [seen_joinQueue, List.length_append]
      rw [List.length_append] at hcount
      omega
    rw [exitLoop, hget]
    simp only [Option.bind_eq_bind, Option.bind_some]
    rw [List.length_append]
    by_cases hlt : pre.length < post.length + (others s t pre).length
    · cases post with
      | nil =>
        rw [List.length_nil] at hlt
        omega
      | cons n post =>
        have happ : pre ++ n :: post = (pre ++ [n]) ++ post := by simp
        obtain ⟨s₂, hs₂, hseen⟩ := h.step ht hnodup
        rw [happ] at hnodup hcount
        obtain ⟨s₁, mid, rest, rfl, hloop, hs₁, hstop, hgo⟩ :=
          ih hseen hnodup (by simpa using hfuel) hcount
        rw [if_pos hlt, hs₂]
        refine ⟨s₁, n :: mid, rest, rfl, ?_, ?_, ?_, ?_⟩
        · simpa using hloop
        · simpa using hs₁
        · simpa using hstop
        · intro a m b hab
          cases a with
          | nil =>
            obtain ⟨rfl, rfl⟩ : n = m ∧ mid = b := by simpa using hab
            rw [List.append_nil]
            rw [List.length_cons, List.length_append] at hlt
            simp only [List.cons_append, List.length_cons, List.length_append]
            omega
          | cons k a =>
            obtain ⟨rfl, rfl⟩ : n = k ∧ mid = a ++ m :: b := by simpa using hab
            simpa using hgo a m b rfl
    · rw [if_neg hlt]
      refine ⟨s', [], post, rfl, rfl, ?_, ?_, ?_⟩
      · rwa [List.append_nil]
      · rw [List.append_nil]
        omega
      · intro a n b hab
        cases a <;> cases hab

/-! ## Waking the joiners -/

/-- What `my_pthread_exit` is to do to the queues `q` of `s`: the joiners of the thread `t`
that exits with `v` go to the tail of `rqs[0]`, in their order, and have been told; the
others stay in `join_queue`. -/
structure Woken (s : State) (q : Mlfq) (t v : ℕ) (s' : State) (q' : Mlfq) : Prop where
  linked : Linked s' q'
  woken : q' (.rqs 0) = q (.rqs 0) ++ joiners s t (q .joinQueue)
  told : ∀ n ∈ joiners s t (q .joinQueue),
    s'.tcb n = { s.tcb n with valuePtr := v, threadPriority := 0 }
  kept : (q' .joinQueue).Perm (others s t (q .joinQueue))
  none_left : ∀ n ∈ q' .joinQueue, (s'.tcb n).joinId ≠ t
  queues : ∀ Q, Q ≠ .rqs 0 → Q ≠ .joinQueue → q' Q = q Q
  tcb : ∀ n, n ∉ joiners s t (q .joinQueue) → s'.tcb n = s.tcb n

/-- Behind each joiner there are as many nodes as there are joiners before it. -/
def Reached (s : State) (t : ℕ) (l : List ℕ) : Prop :=
  ∀ a n b, l = a ++ n :: b → (s.tcb n).joinId = t → (joiners s t a).length ≤ b.length

theorem mem_joiners : n ∈ joiners s t l ↔ n ∈ l ∧ (s.tcb n).joinId = t := by
  simp [joiners]

theorem joiners_append (l l' : List ℕ) :
    joiners s t (l ++ l') = joiners s t l ++ joiners s t l' := List.filter_append ..

theorem others_append (l l' : List ℕ) :
    others s t (l ++ l') = others s t l ++ others s t l' := List.filter_append ..

/-- The loop sees every joiner when it stops with none of them left. -/
theorem Seen.woken_iff (h : Seen s q c t v pre post s') (hq : q .joinQueue = pre ++ post) :
    (∃ q', Woken s q t v s' q') ↔ joiners s t post = [] := by
  constructor
  · rintro ⟨q', hw⟩
    by_contra hne
    obtain ⟨n, hn⟩ := List.exists_mem_of_ne_nil _ hne
    obtain ⟨hnpost, hid⟩ := mem_joiners.mp hn
    have heq : seen s t pre post q .joinQueue = q' .joinQueue :=
      (h.linked .joinQueue).path.unique (hw.linked .joinQueue).path
    refine hw.none_left n ?_ ((h.joinId n).trans hid)
    rw [← heq, seen_joinQueue]
    exact List.mem_append_left _ hnpost
  · intro hnil
    have hjoin : joiners s t (q .joinQueue) = joiners s t pre := by
      rw [hq, joiners_append, hnil, List.append_nil]
    have hpost : others s t post = post := by
      apply List.filter_eq_self.mpr
      intro n hn
      have hnot : n ∉ joiners s t post := by simp [hnil]
      simpa [mem_joiners, hn] using hnot
    refine ⟨seen s t pre post q, h.linked, ?_, ?_, ?_, ?_, ?_, ?_⟩
    · rw [seen_rqs_zero, hjoin]
    · intro n hn
      rw [hjoin] at hn
      obtain ⟨hnpre, hid⟩ := mem_joiners.mp hn
      rw [h.mem n hnpre, Api.told, if_pos hid]
    · rw [seen_joinQueue, hq, others_append, hpost]
      exact List.perm_append_comm
    · intro n hn
      rw [h.joinId]
      rw [seen_joinQueue, List.mem_append] at hn
      rcases hn with hn | hn
      · rw [← hpost] at hn
        simpa using (List.mem_filter.mp hn).2
      · simpa using (List.mem_filter.mp hn).2
    · intro Q h₀ hj
      exact seen_of_ne h₀ hj
    · intro n hn
      rw [hjoin, mem_joiners, not_and] at hn
      by_cases hnpre : n ∈ pre
      · rw [h.mem n hnpre, Api.told, if_neg (hn hnpre)]
      · exact h.notMem n hnpre

/-- The nodes the loop sees are those before the first joiner with too few nodes behind
it. -/
theorem reached_iff (hstop : post.length ≤ (joiners s t pre).length)
    (hgo : ∀ a n b, pre = a ++ n :: b →
      (joiners s t a).length < (n :: b ++ post).length) :
    joiners s t post = [] ↔ Reached s t (pre ++ post) := by
  constructor
  · intro hnil a n b hab hid
    -- the joiner is in `pre`, where the loop went on
    have hlt : a.length < pre.length := by
      by_contra hge
      obtain ⟨r, rfl⟩ : ∃ r, a = pre ++ r :=
        (List.prefix_of_prefix_length_le ⟨_, rfl⟩ ⟨_, hab.symm⟩ (by omega)).imp fun r hr ↦ hr.symm
      rw [List.append_assoc, List.append_cancel_left_eq] at hab
      have hmem : n ∈ joiners s t post := mem_joiners.mpr ⟨by simp [hab], hid⟩
      rw [hnil] at hmem
      cases hmem
    obtain ⟨r, rfl⟩ : ∃ r, pre = a ++ r :=
      (List.prefix_of_prefix_length_le ⟨_, rfl⟩ ⟨_, hab⟩ (by omega)).imp fun r hr ↦ hr.symm
    cases r with
    | nil =>
      rw [List.append_nil] at hlt
      exact absurd hlt (lt_irrefl _)
    | cons k r =>
      rw [List.append_assoc, List.append_cancel_left_eq, List.cons_append, List.cons.injEq] at hab
      have := hgo a k r rfl
      rw [List.cons_append, List.length_cons, hab.2] at this
      omega
  · intro hr
    by_contra hne
    obtain ⟨n, hn⟩ := List.exists_mem_of_ne_nil _ hne
    obtain ⟨hnpost, hid⟩ := mem_joiners.mp hn
    obtain ⟨a, b, rfl⟩ := List.append_of_mem hnpost
    have := hr (pre ++ a) n b (by simp) hid
    rw [joiners_append] at this
    simp only [List.length_append, List.length_cons] at this hstop
    omega

/-- The start of the loop, when nothing of `join_queue` has been seen. -/
theorem Seen.start (hl : Linked s q) (hq : q.WF) (hc : s.current = some c) :
    Seen s q c t v [] (q .joinQueue) s := by
  have hseen : seen s t [] (q .joinQueue) q = q := by
    funext Q
    by_cases h₀ : Q = .rqs 0
    · subst h₀
      rw [seen_rqs_zero, joiners, List.filter_nil, List.append_nil]
    · by_cases hj : Q = .joinQueue
      · subst hj
        rw [seen_joinQueue, others, List.filter_nil, List.append_nil]
      · exact seen_of_ne h₀ hj
  refine ⟨?_, ?_, ?_, ?_, hc⟩
  · rwa [hseen]
  · rwa [hseen]
  · intro n hn
    cases hn
  · intro n _
    rfl

/-- The loop of `my_pthread_exit` returns, and wakes every joiner if and only if each of
them has as many nodes behind it in `join_queue` as there are joiners before it. -/
theorem exit_wakes_iff {fuel nodeCount : ℕ} (hl : Linked s q) (hq : q.WF)
    (hc : s.current = some c) (hfuel : (q .joinQueue).length < fuel)
    (hcount : (q .joinQueue).length ≤ nodeCount) :
    ∃ s', exitLoop nodeCount ((s.tcb c).tid, v) fuel 0 s = some s' ∧
      ((∃ q', Woken s q (s.tcb c).tid v s' q') ↔ Reached s (s.tcb c).tid (q .joinQueue)) := by
  obtain ⟨s₁, mid, rest, hmid, hloop, hs₁, hstop, hgo⟩ :=
    exitLoop_spec (v := v) (Seen.start hl hq hc) rfl (hq.nodup _) hfuel hcount
  refine ⟨s₁, hloop, ?_⟩
  rw [hs₁.woken_iff hmid, hmid]
  exact reached_iff hstop hgo

/-- The thread 0 runs, and the threads 1 and 2 wait for it to exit. -/
def twoJoiners : State where
  nodes n := ⟨⟨n, 0, 0, 0, -1⟩, if n = 1 then some 2 else none⟩
  queues Q :=
    if Q = .rqs 0 then ⟨some 0, some 0⟩
    else if Q = .joinQueue then ⟨some 1, some 2⟩ else ⟨none, none⟩
  current := some 0
  fc := .pexit
  maintenanceCount := 0
  memFlag := 0
  itv := 25000

/-- The queues of `twoJoiners`. -/
def twoJoinersQueues : Mlfq
  | .rqs 0 => [0]
  | .joinQueue => [1, 2]
  | _ => []

theorem twoJoinersQueues_of_ne {Q : QueueId} (h₀ : Q ≠ .rqs 0) (hj : Q ≠ .joinQueue) :
    twoJoinersQueues Q = [] := by
  cases Q with
  | rqs i =>
    cases i with
    | zero => exact absurd rfl h₀
    | succ i => rfl
  | waitingQueue => rfl
  | joinQueue => exact absurd rfl hj

theorem linked_twoJoiners : Linked twoJoiners twoJoinersQueues := by
  intro Q
  by_cases h₀ : Q = .rqs 0
  · subst h₀
    exact ⟨⟨rfl, rfl⟩, fun n hn ↦ by cases hn; rfl⟩
  · by_cases hj : Q = .joinQueue
    · subst hj
      exact ⟨⟨rfl, rfl, rfl⟩, fun n hn ↦ by cases hn; rfl⟩
    · simp only [twoJoiners, if_neg h₀, if_neg hj, twoJoinersQueues_of_ne h₀ hj]
      exact Lib.Queued.empty _

theorem wf_twoJoiners : twoJoinersQueues.WF := by
  have hQ : ∀ Q n, n ∈ twoJoinersQueues Q →
      (Q = .rqs 0 ∧ n = 0) ∨ (Q = .joinQueue ∧ n ≠ 0) := by
    intro Q n hn
    by_cases h₀ : Q = .rqs 0
    · subst h₀
      exact .inl ⟨rfl, List.mem_singleton.mp hn⟩
    · by_cases hj : Q = .joinQueue
      · subst hj
        refine .inr ⟨rfl, ?_⟩
        rintro rfl
        simp [twoJoinersQueues] at hn
      · rw [twoJoinersQueues_of_ne h₀ hj] at hn
        cases hn
  refine ⟨?_, ?_, ?_⟩
  · intro Q
    by_cases h₀ : Q = .rqs 0
    · subst h₀
      exact List.nodup_singleton 0
    · by_cases hj : Q = .joinQueue
      · subst hj
        exact (by decide : [1, 2].Nodup)
      · rw [twoJoinersQueues_of_ne h₀ hj]
        exact List.nodup_nil
  · intro Q R n hnQ hnR
    rcases hQ Q n hnQ with ⟨rfl, rfl⟩ | ⟨rfl, hn⟩ <;> rcases hQ R _ hnR with ⟨rfl, hn'⟩ | ⟨rfl, hn'⟩
    · rfl
    · exact absurd rfl hn'
    · exact absurd hn' hn
    · rfl
  · intro i hi
    apply twoJoinersQueues_of_ne
    · rintro ⟨⟩
      cases hi
    · nofun

theorem exit_wakes_iff_twoJoiners :
    ∃ s', exitLoop 3 (0, 7) 3 0 twoJoiners = some s' ∧
      ((∃ q', Woken twoJoiners twoJoinersQueues 0 7 s' q') ↔
        Reached twoJoiners 0 (twoJoinersQueues .joinQueue)) :=
  exit_wakes_iff (c := 0) linked_twoJoiners wf_twoJoiners rfl (by decide) (by decide)

/-- The first of two joiners is woken, and the loop stops before it has seen the second. -/
theorem not_exit_wakes :
    ¬∀ (s : State) (q : Mlfq) (c v fuel nodeCount : ℕ), Linked s q → q.WF → s.current = some c →
      (q .joinQueue).length < fuel → (q .joinQueue).length ≤ nodeCount →
      ∃ s' q', exitLoop nodeCount ((s.tcb c).tid, v) fuel 0 s = some s' ∧
        Woken s q (s.tcb c).tid v s' q' := by
  intro h
  obtain ⟨s', q', hs', hw⟩ := h twoJoiners twoJoinersQueues 0 7 3 3 linked_twoJoiners
    wf_twoJoiners rfl (by decide) (by decide)
  have hrun : (exitLoop 3 (0, 7) 3 0 twoJoiners).map
      (fun s ↦ ((s.queues .joinQueue).front, (s.tcb 2).joinId)) = some (some 2, 0) := by decide
  rw [show exitLoop 3 (0, 7) 3 0 twoJoiners = some s' from hs'] at hrun
  obtain ⟨hfront, hid⟩ := Prod.mk.inj (Option.some.inj hrun)
  rw [hw.linked.front] at hfront
  exact hw.none_left 2 (List.mem_of_mem_head? hfront) hid

end MyPthread.Api
