import MyPthread.Api.Frame
import MyPthread.Api.Requests

/-!
# No thread is lost

Once there are threads, every node allocated for one is in one place: in a queue, in
no queue because its thread has exited, or in the hands of the
`my_pthread_create` that is about to enqueue it (`created_somewhere`).
-/

namespace MyPthread.Api

open MyPthread.Sched Function

/-- Where the node of a thread is. -/
inductive Place where
  | queue (Q : QueueId)
  | gone
  | creating
deriving DecidableEq, Repr

/-- The node `n` is there. -/
def At (m : Machine) (q : Mlfq) (n : ℕ) : Place → Prop
  | .queue Q => n ∈ q Q
  | .gone => n ∈ m.gone
  | .creating => m.here = .create (.enqueue n)

variable {m m' : Machine} {q : Mlfq} {a : Action} {n : ℕ}

/-- Every node is somewhere. -/
def Complete (m : Machine) (q : Mlfq) : Prop :=
  m.firstThread = false → ∀ n < m.nodeCount, ∃ P, At m q n P

theorem exists_place_of_mem (h : q.Mem n) : ∃ P, At m q n P := by
  obtain ⟨Q, hQ⟩ := h
  exact ⟨.queue Q, hQ⟩

/-- A step that does not call `scheduler` takes no thread out of the queues. -/
theorem Moved.mem {q' : Mlfq} (hm : Moved m q a q') (hi : Inv m q) (ha : a ≠ .tick)
    (hc : m.here.isCall = false) (hn : q.Mem n) : q'.Mem n := by
  have hmove : ∀ {src dst : QueueId} {k : ℕ} {l : List ℕ}, q src = k :: l →
      (q.move src dst k).Mem n := by
    intro src dst k l hl
    have hk : k ∈ q src := by
      rw [hl]
      exact List.mem_cons_self
    by_cases hnk : n = k
    · exact ⟨dst, (Mlfq.mem_move hi.wf hk).mpr (.inr ⟨rfl, hnk⟩)⟩
    · obtain ⟨Q, hQ⟩ := hn
      exact ⟨Q, (Mlfq.mem_move hi.wf hk).mpr (.inl ⟨hQ, hnk⟩)⟩
  obtain ⟨Q, hQ⟩ := id hn
  cases hm with
  | still => exact hn
  | tick ht => exact absurd ht ha
  | call _ hh => cases hc.symm.trans hh
  | first => exact ⟨Q, Mlfq.mem_put.mpr (.inl (Mlfq.mem_put.mpr (.inl hQ)))⟩
  | created k => exact ⟨Q, Mlfq.mem_put.mpr (.inl hQ)⟩
  | joined e i k l _ _ hl | kept e i k l _ _ hl => exact hmove hl
  | woken t k l _ _ hl => exact hmove hl

theorem gone_of_exitCall (hh : m.here = .exit .call) (h : m.next = some m') :
    m'.gone = m.running :: m.gone := by
  simp only [Machine.next, hh, Machine.stepExit, Machine.callScheduler, Option.bind_eq_bind,
    Option.bind_eq_some_iff, Option.pure_def, Option.some.injEq] at h
  obtain ⟨s, -, rfl⟩ := h
  rfl

/-- A node that is being created is enqueued by the next step. -/
theorem mem_of_creating (hc : Careful m a) (hh : m.here = .create (.enqueue n))
    (h : m.step a = some m') : (m.advance q a).Mem n := by
  cases a with
  | call c =>
    simp only [Machine.step, hh] at h
    cases h
  | init =>
    simp only [Machine.step, hh] at h
    cases h
  | tick =>
    simp only [Careful, hh] at hc
    cases hc
  | next =>
    simp only [Machine.advance, hh]
    exact ⟨.rqs 0, Mlfq.mem_put.mpr (.inr ⟨rfl, rfl⟩)⟩

/-- The statement that makes nodes. -/
theorem Complete.createNode (hall : Complete m q) (hi : Inv m q) (hh : m.here = .create .node)
    (h : m.stepCreate .node = some m') : Complete m' (m.advance q .next) := by
  intro _ n hn
  simp only [Machine.stepCreate] at h
  split at h <;> rename_i hfirst
  · simp only [Option.bind_eq_bind, Option.bind_eq_some_iff, Option.pure_def,
      Option.some.injEq] at h
    obtain ⟨s₁, -, s₂, -, rfl⟩ := h
    have hcount := (hi.flow.first hfirst).1
    simp only [Machine.advance, hh, if_pos hfirst]
    have hn' : n < m.nodeCount + 1 := hn
    rcases (show n = 0 ∨ n = m.nodeCount by omega) with rfl | rfl
    · exact exists_place_of_mem ⟨.rqs 0, Mlfq.mem_put.mpr (.inr ⟨rfl, rfl⟩)⟩
    · exact exists_place_of_mem
        ⟨.rqs 0, Mlfq.mem_put.mpr (.inl (Mlfq.mem_put.mpr (.inr ⟨rfl, rfl⟩)))⟩
  · cases h
    simp only [Machine.advance, hh, if_neg hfirst]
    have hn' : n < m.nodeCount + 1 := hn
    have hhere : ({ m.newNode m.nodeCount m.threadCount with
        nodeCount := m.nodeCount + 1 }.goto (.create (.enqueue m.nodeCount))).here =
          .create (.enqueue m.nodeCount) := update_self ..
    rcases (Nat.le_of_lt_succ hn').eq_or_lt with rfl | hlt
    · exact ⟨.creating, hhere⟩
    · obtain ⟨P, hP⟩ := hall (Bool.eq_false_iff.mpr hfirst) n hlt
      cases P with
      | queue Q => exact ⟨.queue Q, hP⟩
      | gone => exact ⟨.gone, hP⟩
      | creating => cases hh.symm.trans hP

theorem Complete.step (hall : Complete m q) (hi : Inv m q) (hc : Careful m a)
    (h : m.step a = some m') : Complete m' (m.advance q a) := by
  by_cases hnode : m.here = .create .node ∧ a = .next
  · obtain ⟨hh, rfl⟩ := hnode
    refine hall.createNode hi hh ?_
    rwa [Machine.step, Machine.next, hh] at h
  have hframe := step_frame hi.flow h
  intro hfirst n hn
  cases hi.turn h with
  | stays ha hst hq =>
    have hmake : m.here ≠ .create .node := fun hh ↦ by
      cases a with
      | call c | init =>
        simp only [Machine.step, hh] at h
        cases h
      | next => exact hnode ⟨hh, rfl⟩
      | tick => exact ha rfl
    rw [hst.nodeCount.resolve_right hmake] at hn
    rw [hst.firstThread.resolve_right hmake] at hfirst
    obtain ⟨P, hP⟩ := hall hfirst n hn
    cases P with
    | queue Q =>
      rcases hq with hq | hq
      · exact exists_place_of_mem ((moved m q a).mem hi ha hq ⟨Q, hP⟩)
      · rw [hq]
        exact ⟨.queue Q, hP⟩
    | gone => exact ⟨.gone, hframe.mem_gone hP⟩
    | creating => exact exists_place_of_mem (mem_of_creating hc hP h)
  | serves f r hs hq hreq =>
    have hfirst₀ : m.firstThread = false := by
      by_contra hx
      have := (hi.boot_of_first (by simpa using hx)).current
      cases this.symm.trans hs.current
    rw [hs.nodeCount] at hn
    obtain ⟨P, hP⟩ := hall hfirst₀ n hn
    cases P with
    | queue Q =>
      by_cases hx : f = .pexit ∧ n = m.running
      · obtain ⟨rfl, rfl⟩ := hx
        refine ⟨.gone, ?_⟩
        cases hreq with
        | stored hst hcall =>
          rcases Pc.stored_of_isCall hcall hst with ⟨-, hf⟩ | ⟨hh, -⟩ | ⟨t, -, hf⟩ | ⟨k, -, hf⟩
          · cases hf
          · rw [At, gone_of_exitCall hh h]
            exact List.mem_cons_self
          · cases hf
          · cases hf
      · rw [hq]
        refine exists_place_of_mem ?_
        obtain ⟨R, hR⟩ : (q.requested f m.sched.maintenanceCount m.running r).Mem n :=
          (Mlfq.mem_requested_iff hi.wf hs.mem).mpr ⟨⟨Q, hP⟩, fun hf hn' ↦ hx ⟨hf, hn'⟩⟩
        exact ⟨R, Mlfq.mem_rotate.mpr hR⟩
    | gone => exact ⟨.gone, hframe.mem_gone hP⟩
    | creating => exact exists_place_of_mem (mem_of_creating hc hP h)

/-- A node is in one place only. -/
theorem Inv.place_unique (hi : Inv m q) {P P' : Place} (h : At m q n P) (h' : At m q n P') :
    P = P' := by
  have hcreating : m.here = .create (.enqueue n) → ¬q.Mem n ∧ n ∉ m.gone := fun hh ↦ by
    have hp := hi.pending
    rw [hh] at hp
    exact ⟨hp.1, hp.2.2.2⟩
  cases P with
  | queue Q =>
    cases P' with
    | queue R => rw [hi.wf.disjoint h h']
    | gone => exact absurd ⟨Q, h⟩ (hi.gone n h').2
    | creating => exact absurd ⟨Q, h⟩ (hcreating h').1
  | gone =>
    cases P' with
    | queue R => exact absurd ⟨R, h'⟩ (hi.gone n h).2
    | gone => rfl
    | creating => exact absurd h (hcreating h').2
  | creating =>
    cases P' with
    | queue R => exact absurd ⟨R, h'⟩ (hcreating h).1
    | gone => exact absurd h' (hcreating h).2
    | creating => rfl

/-- Over the careful runs no thread is lost and none is in two places: each is once in
one queue, or has exited, or is about to be enqueued. -/
theorem created_somewhere (h : Reachable Careful m) : ∃ q, Linked m.sched q ∧
    (∀ Q, (q Q).Nodup) ∧ (∀ n, q.Mem n → n < m.nodeCount) ∧
    (m.firstThread = false → ∀ n < m.nodeCount, ∃! P, At m q n P) := by
  have hinv : ∃ q, Inv m q ∧ Complete m q := by
    refine h.invariant (P := fun m ↦ ∃ q, Inv m q ∧ Complete m q)
      ⟨_, inv_init, fun hf ↦ by cases hf⟩ ?_
    rintro m a m' ⟨q, hi, hall⟩ hc hs
    exact ⟨_, hi.step hc hs, hall.step hi hc hs⟩
  obtain ⟨q, hi, hall⟩ := hinv
  refine ⟨q, hi.linked, hi.wf.nodup, hi.alloc, fun hf n hn ↦ ?_⟩
  obtain ⟨P, hP⟩ := hall hf n hn
  exact ⟨P, hP, fun P' hP' ↦ hi.place_unique hP' hP⟩

/-- Three threads: the second to execute joins the first, the last has exited. -/
theorem created_somewhere_threeThreads : ∃ m : Machine, m.nodeCount = 3 ∧ m.gone = [2] ∧
    ∃ q, Linked m.sched q ∧ (∀ Q, (q Q).Nodup) ∧ (∀ n, q.Mem n → n < m.nodeCount) ∧
      (m.firstThread = false → ∀ n < m.nodeCount, ∃! P, At m q n P) := by
  obtain ⟨m, hm, hx⟩ := Reachable.exists_of_run Careful
    [.call .create, .next, .next, .next, .tick, .call .create, .next, .next, .next, .next,
      .call (.join 1), .next, .next, .next, .next, .next, .next,
      .call (.exit 7), .next, .next, .next, .next, .next, .next]
    (fun m ↦ decide (m.nodeCount = 3 ∧ m.gone = [2])) (show _ = some true by decide)
  obtain ⟨hnode, hgone⟩ := of_decide_eq_true hx
  exact ⟨m, hnode, hgone, created_somewhere hm⟩

end MyPthread.Api
