import MyPthread.Sched.Mlfq

/-!
# The intrusive queues are lists

`Linked s q`: the fronts, backs and links of `s` are those of the lists `q`.  One
lemma for each of `enqueuee`, `dequeuee`, `enqueuee(dequeuee(..), ..)` and the
splice of `updateQueue` says which lists they leave; the stale pointers appear
nowhere else.
-/

namespace MyPthread.Sched

open MyPthread.Lib Function

namespace State

variable {s : State} {n m : ℕ} {p : Option ℕ} {Q : QueueId} {v : Queue} {f : Tcb → Tcb}

@[simp] theorem next_setNext : (s.setNext n p).next = update s.next n p := by
  funext m
  by_cases hm : m = n
  · subst hm
    simp [next, setNext]
  · simp [next, setNext, hm]

@[simp] theorem next_setQueue : (s.setQueue Q v).next = s.next := rfl

@[simp] theorem next_modifyTcb : (s.modifyTcb n f).next = s.next := by
  funext m
  by_cases hm : m = n
  · subst hm
    simp [next, modifyTcb]
  · simp [next, modifyTcb, hm]

@[simp] theorem next_setPriority {r : ℕ} : (s.setPriority n r).next = s.next := next_modifyTcb

@[simp] theorem queues_setNext : (s.setNext n p).queues = s.queues := rfl

@[simp] theorem queues_setQueue : (s.setQueue Q v).queues = update s.queues Q v := rfl

@[simp] theorem queues_modifyTcb : (s.modifyTcb n f).queues = s.queues := rfl

@[simp] theorem queues_setPriority {r : ℕ} : (s.setPriority n r).queues = s.queues := rfl

@[simp] theorem tcb_setNext : (s.setNext n p).tcb m = s.tcb m := by
  by_cases hm : m = n
  · subst hm
    simp [tcb, setNext]
  · simp [tcb, setNext, hm]

@[simp] theorem tcb_setQueue : (s.setQueue Q v).tcb m = s.tcb m := rfl

theorem tcb_modifyTcb_self : (s.modifyTcb n f).tcb n = f (s.tcb n) := by
  simp [tcb, modifyTcb]

theorem tcb_modifyTcb_of_ne (h : m ≠ n) : (s.modifyTcb n f).tcb m = s.tcb m := by
  simp [tcb, modifyTcb, h]

theorem tcb_setPriority_self {r : ℕ} :
    (s.setPriority n r).tcb n = { s.tcb n with threadPriority := r } := tcb_modifyTcb_self

theorem tcb_setPriority_of_ne {r : ℕ} (h : m ≠ n) : (s.setPriority n r).tcb m = s.tcb m :=
  tcb_modifyTcb_of_ne h

end State

/-- The queues of `s` are the lists `q`. -/
def Linked (s : State) (q : Mlfq) : Prop :=
  ∀ Q, Queued s.next (s.queues Q).front (s.queues Q).back (q Q)

/-- Everything but the links and the ends of the queues is the same. -/
structure OnlyLinks (s s' : State) : Prop where
  tcb : ∀ n, s'.tcb n = s.tcb n
  current : s'.current = s.current
  fc : s'.fc = s.fc
  maintenanceCount : s'.maintenanceCount = s.maintenanceCount
  memFlag : s'.memFlag = s.memFlag
  itv : s'.itv = s.itv

namespace OnlyLinks

variable {s s₁ s₂ : State}

theorem refl (s : State) : OnlyLinks s s := ⟨fun _ ↦ rfl, rfl, rfl, rfl, rfl, rfl⟩

theorem trans (h : OnlyLinks s s₁) (h' : OnlyLinks s₁ s₂) : OnlyLinks s s₂ where
  tcb n := (h'.tcb n).trans (h.tcb n)
  current := h'.current.trans h.current
  fc := h'.fc.trans h.fc
  maintenanceCount := h'.maintenanceCount.trans h.maintenanceCount
  memFlag := h'.memFlag.trans h.memFlag
  itv := h'.itv.trans h.itv

theorem setNext (s : State) (n : ℕ) (p : Option ℕ) : OnlyLinks s (s.setNext n p) :=
  ⟨fun _ ↦ State.tcb_setNext, rfl, rfl, rfl, rfl, rfl⟩

theorem setQueue (s : State) (Q : QueueId) (v : Queue) : OnlyLinks s (s.setQueue Q v) :=
  ⟨fun _ ↦ rfl, rfl, rfl, rfl, rfl, rfl⟩

end OnlyLinks

section Queues

variable {s : State} {q : Mlfq} {Q src dst : QueueId} {n : ℕ} {l : List ℕ}

theorem Linked.front (h : Linked s q) (Q : QueueId) : (s.queues Q).front = (q Q).head? :=
  (h Q).front

/-- A queue depends only on its ends and the links of its nodes. -/
theorem Linked.congr {s' : State} (h : Linked s q) (hnext : s'.next = s.next)
    (hqueues : s'.queues = s.queues) : Linked s' q := fun Q ↦ by
  rw [hnext, hqueues]
  exact h Q

/-- `dequeuee` of a queue that is not empty takes its front out. -/
theorem dequeuee_spec (h : Linked s q) (hQ : q Q = n :: l) :
    ∃ s', dequeuee Q s = (some n, s') ∧ Linked s' (q.take Q n) ∧ OnlyLinks s s' := by
  have hfront : (s.queues Q).front = some n := by
    rw [h.front, hQ]
    rfl
  refine ⟨s.setQueue Q { s.queues Q with front := s.next n }, ?_, fun R ↦ ?_,
    OnlyLinks.setQueue _ _ _⟩
  · rw [dequeuee, hfront]
  · rw [State.next_setQueue, State.queues_setQueue, Mlfq.take]
    by_cases hR : R = Q
    · subst hR
      rw [update_self, update_self, hQ, List.erase_cons_head]
      have hqueued := h R
      rw [hQ] at hqueued
      exact hqueued.tail
    · rw [update_of_ne hR, update_of_ne hR]
      exact h R

/-- `dequeuee` of an empty queue is `NULL`. -/
theorem dequeuee_nil (h : Linked s q) (hQ : q Q = []) : dequeuee Q s = (none, s) := by
  have hfront : (s.queues Q).front = none := by
    rw [h.front, hQ]
    rfl
  rw [dequeuee, hfront]

/-- `enqueuee` puts a node that is in no queue at the tail. -/
theorem enqueuee_spec (h : Linked s q) (hq : q.WF) (hn : ¬q.Mem n) :
    ∃ s', enqueuee (some n) Q s = some s' ∧ Linked s' (q.put Q n) ∧ OnlyLinks s s' := by
  have hnot : ∀ R, n ∉ q R := fun R hR ↦ hn ⟨R, hR⟩
  cases hfront : (s.queues Q).front with
  | none =>
    have hnil : q Q = [] := by
      have := h Q
      rw [hfront] at this
      exact this.eq_nil
    refine ⟨(s.setQueue Q ⟨some n, some n⟩).setNext n none, ?_, fun R ↦ ?_,
      (OnlyLinks.setQueue _ _ _).trans (OnlyLinks.setNext _ _ _)⟩
    · simp [enqueuee, hfront]
    · rw [State.next_setNext, State.queues_setNext, State.next_setQueue, State.queues_setQueue,
        Mlfq.put]
      by_cases hR : R = Q
      · subst hR
        rw [update_self, update_self, hnil]
        exact Queued.singleton _ n
      · rw [update_of_ne hR, update_of_ne hR]
        exact (h R).update (hnot R) none
  | some f =>
    have hqueued := h Q
    rw [hfront] at hqueued
    obtain ⟨init, b, hQ, hback⟩ := hqueued.exists_back
    refine ⟨((s.setNext b (some n)).setQueue Q ⟨some f, some n⟩).setNext n none, ?_, fun R ↦ ?_,
      ((OnlyLinks.setNext _ _ _).trans (OnlyLinks.setQueue _ _ _)).trans (OnlyLinks.setNext _ _ _)⟩
    · simp [enqueuee, hfront, hback]
    · rw [State.next_setNext, State.queues_setNext, State.next_setQueue, State.queues_setQueue,
        State.next_setNext, State.queues_setNext, Mlfq.put]
      by_cases hR : R = Q
      · subst hR
        rw [update_self, update_self, hQ]
        rw [hQ] at hqueued
        exact hqueued.concat (hQ ▸ hq.nodup R) (hQ ▸ hnot R)
      · rw [update_of_ne hR, update_of_ne hR]
        refine ((h R).update (fun hb ↦ hR (hq.disjoint hb ?_)) (some n)).update (hnot R) none
        rw [hQ]
        simp

/-- `enqueuee(dequeuee(src), dst)` moves the front of `src`. -/
theorem requeue_spec (dst : QueueId) (h : Linked s q) (hq : q.WF) (hQ : q src = n :: l) :
    ∃ s', requeue src dst s = some s' ∧ Linked s' (q.move src dst n) ∧ OnlyLinks s s' := by
  obtain ⟨s₁, hdeq, hl₁, hd₁⟩ := dequeuee_spec h hQ
  have hn : n ∈ q src := by simp [hQ]
  obtain ⟨s₂, henq, hl₂, hd₂⟩ := enqueuee_spec (Q := dst) hl₁ hq.take (Mlfq.not_mem_take hq hn)
  refine ⟨s₂, ?_, hl₂, hd₁.trans hd₂⟩
  rw [requeue, hdeq]
  exact henq

/-- `enqueuee(dequeuee(src), dst)` faults when `src` is empty. -/
theorem requeue_nil (h : Linked s q) (hQ : q src = []) : requeue src dst s = none := by
  rw [requeue, dequeuee_nil h hQ]
  rfl

/-- The walk over a queue counts it. -/
theorem countFrom_of_path {fuel : ℕ} {p : Option ℕ} (h : Path s.next p l) (hl : l.length ≤ fuel) :
    countFrom s fuel p = some l.length := by
  induction l generalizing p fuel with
  | nil =>
    obtain rfl : p = none := h
    cases fuel <;> rfl
  | cons n l ih =>
    obtain ⟨rfl, h⟩ := h
    cases fuel with
    | zero => simp at hl
    | succ fuel =>
      rw [countFrom, ih h (by simpa using hl)]
      rfl

theorem getSpecificCount_spec {fuel : ℕ} (h : Linked s q) (hl : (q Q).length ≤ fuel) :
    getSpecificCount fuel Q s = some (q Q).length :=
  countFrom_of_path (h Q).path hl

/-! ### Maintenance -/

/-- Everything but the links and the priorities of the threads in `l`, which are
`0`, is the same. -/
structure ResetPriorities (l : List ℕ) (s s' : State) : Prop where
  mem : ∀ n ∈ l, s'.tcb n = { s.tcb n with threadPriority := 0 }
  notMem : ∀ n, n ∉ l → s'.tcb n = s.tcb n
  current : s'.current = s.current
  fc : s'.fc = s.fc
  maintenanceCount : s'.maintenanceCount = s.maintenanceCount
  memFlag : s'.memFlag = s.memFlag
  itv : s'.itv = s.itv

/-- The loop that resets the priorities of a queue. -/
theorem resetFrom_spec {fuel : ℕ} {p : Option ℕ} (h : Path s.next p l) (hnd : l.Nodup)
    (hl : l.length ≤ fuel) : ∃ s', resetFrom fuel p s = some s' ∧ s'.next = s.next ∧
      s'.queues = s.queues ∧ ResetPriorities l s s' := by
  induction l generalizing p fuel s with
  | nil =>
    obtain rfl : p = none := h
    refine ⟨s, ?_, rfl, rfl, fun n hn ↦ ?_, fun n _ ↦ rfl, rfl, rfl, rfl, rfl, rfl⟩
    · cases fuel <;> rfl
    · cases hn
  | cons n l ih =>
    obtain ⟨rfl, h⟩ := h
    rw [List.nodup_cons] at hnd
    cases fuel with
    | zero => simp at hl
    | succ fuel =>
      have hpath : Path (s.setPriority n 0).next ((s.setPriority n 0).next n) l := by
        rw [State.next_setPriority]
        exact h
      obtain ⟨s', hreset, hnext, hqueues, hr⟩ := ih hpath hnd.2 (by simpa using hl)
      refine ⟨s', hreset, hnext.trans State.next_setPriority, hqueues, ?_, ?_, hr.current, hr.fc,
        hr.maintenanceCount, hr.memFlag, hr.itv⟩
      · intro m hm
        rcases List.mem_cons.mp hm with rfl | hm
        · rw [hr.notMem m hnd.1, State.tcb_setPriority_self]
        · rw [hr.mem m hm, State.tcb_setPriority_of_ne (ne_of_mem_of_not_mem hm hnd.1)]
      · intro m hm
        rw [List.mem_cons, not_or] at hm
        rw [hr.notMem m hm.2, State.tcb_setPriority_of_ne hm.1]

theorem ResetPriorities.refl (s : State) : ResetPriorities [] s s :=
  ⟨fun _ hn ↦ (List.not_mem_nil hn).elim, fun _ _ ↦ rfl, rfl, rfl, rfl, rfl, rfl⟩

theorem ResetPriorities.of_onlyLinks {s₁ s₂ : State} (h : OnlyLinks s s₁)
    (h' : ResetPriorities l s₁ s₂) : ResetPriorities l s s₂ where
  mem n hn := by rw [h'.mem n hn, h.tcb]
  notMem n hn := by rw [h'.notMem n hn, h.tcb]
  current := h'.current.trans h.current
  fc := h'.fc.trans h.fc
  maintenanceCount := h'.maintenanceCount.trans h.maintenanceCount
  memFlag := h'.memFlag.trans h.memFlag
  itv := h'.itv.trans h.itv

theorem Mlfq.age_of_nil (h₉ : q (.rqs (numPriorities - 1)) = []) : q.age = q := by
  funext R
  unfold Mlfq.age
  by_cases hR : R = .rqs (numPriorities - 1)
  · rw [hR, update_self, h₉]
  · rw [update_of_ne hR, h₉, List.append_nil, update_eq_self]

/-- Linking the lowest level behind the highest, before the priorities change. -/
theorem linked_age {t : State} (hnext : ∀ R, R ≠ .rqs 0 →
      R ≠ .rqs (numPriorities - 1) → Queued t.next (t.queues R).front (t.queues R).back (q R))
    (h₀ : Queued t.next (t.queues (.rqs 0)).front (t.queues (.rqs 0)).back
      (q (.rqs 0) ++ q (.rqs (numPriorities - 1))))
    (h₉ : (t.queues (.rqs (numPriorities - 1))).front = none) : Linked t q.age := fun R ↦ by
  unfold Mlfq.age
  by_cases hR₉ : R = .rqs (numPriorities - 1)
  · subst hR₉
    rw [update_self, h₉]
    exact Queued.empty _
  · rw [update_of_ne hR₉]
    by_cases hR₀ : R = .rqs 0
    · subst hR₀
      rw [update_self]
      exact h₀
    · rw [update_of_ne hR₀]
      exact hnext R hR₀ hR₉

/-- The state in which `splice` starts to reset priorities. -/
theorem exists_linked_age (h : Linked s q) (hq : q.WF) {g : ℕ} {k : List ℕ}
    (h₉ : q (.rqs (numPriorities - 1)) = g :: k) (fuel : ℕ) :
    ∃ t, splice fuel s = resetFrom fuel (t.queues (.rqs 0)).front t ∧ Linked t q.age ∧
      OnlyLinks s t := by
  have hlow := h (.rqs (numPriorities - 1))
  rw [h₉] at hlow
  have hfront : (s.queues (.rqs 9)).front = some g := hlow.front
  have h09 : QueueId.rqs 0 ≠ .rqs (numPriorities - 1) := by decide
  cases hhigh : (s.queues (.rqs 0)).front with
  | none =>
    have hnil : q (.rqs 0) = [] := by
      have := h (.rqs 0)
      rw [hhigh] at this
      exact this.eq_nil
    let low := s.queues (.rqs (numPriorities - 1))
    refine ⟨(s.setQueue (.rqs 0) ⟨low.front, low.back⟩).setQueue (.rqs (numPriorities - 1))
      ⟨none, none⟩, ?_, linked_age (fun R hR₀ hR₉ ↦ ?_) ?_ ?_,
      (OnlyLinks.setQueue _ _ _).trans (OnlyLinks.setQueue _ _ _)⟩
    · simp [splice, hfront, hhigh, low]
    · simp only [State.next_setQueue, State.queues_setQueue, update_of_ne hR₉, update_of_ne hR₀]
      exact h R
    · simp only [State.next_setQueue, State.queues_setQueue, update_of_ne h09, update_self]
      rw [hnil, List.nil_append]
      exact h _
    · simp
  | some f =>
    have hqueued := h (.rqs 0)
    rw [hhigh] at hqueued
    obtain ⟨init, b, h₀, hback⟩ := hqueued.exists_back
    let low := s.queues (.rqs (numPriorities - 1))
    have hb : b ∈ q (.rqs 0) := by simp [h₀]
    refine ⟨((s.setNext b low.front).setQueue (.rqs 0) ⟨some f, low.back⟩).setQueue
      (.rqs (numPriorities - 1)) ⟨none, none⟩, ?_, linked_age (fun R hR₀ hR₉ ↦ ?_) ?_ ?_,
      ((OnlyLinks.setNext _ _ _).trans (OnlyLinks.setQueue _ _ _)).trans
        (OnlyLinks.setQueue _ _ _)⟩
    · simp [splice, hfront, hhigh, hback, low]
    · simp only [State.next_setQueue, State.queues_setQueue, update_of_ne hR₉, update_of_ne hR₀,
        State.next_setNext, State.queues_setNext]
      exact (h R).update (fun hbR ↦ hR₀ (hq.disjoint hbR hb)) _
    · simp only [State.next_setQueue, State.queues_setQueue, update_of_ne h09, update_self,
        State.next_setNext, State.queues_setNext]
      rw [h₀] at hqueued ⊢
      rw [h₉, List.append_assoc, List.singleton_append]
      refine hqueued.splice hlow (h₀ ▸ hq.nodup _) fun hbk ↦ h09 ?_
      exact hq.disjoint hb (h₉ ▸ hbk)
    · simp

/-- The splice appends the lowest level to the highest and resets its priorities. -/
theorem splice_spec {fuel : ℕ} (h : Linked s q) (hq : q.WF)
    (hfuel : (q.age (.rqs 0)).length ≤ fuel) :
    ∃ s' l, splice fuel s = some s' ∧ Linked s' q.age ∧ ResetPriorities l s s' ∧
      (∀ n ∈ l, n ∈ q.age (.rqs 0)) ∧ ∀ n ∈ q (.rqs (numPriorities - 1)), n ∈ l := by
  cases h₉ : q (.rqs (numPriorities - 1)) with
  | nil =>
    have hfront : (s.queues (.rqs 9)).front = none := by
      rw [h.front]
      exact congrArg List.head? h₉
    refine ⟨s, [], ?_, ?_, ResetPriorities.refl s, fun _ hn ↦ (List.not_mem_nil hn).elim,
      fun _ hn ↦ (List.not_mem_nil hn).elim⟩
    · simp [splice, hfront]
    · rwa [Mlfq.age_of_nil h₉]
  | cons g k =>
    obtain ⟨t, hsplice, hl, hd⟩ := exists_linked_age h hq h₉ fuel
    obtain ⟨s', hreset, hnext, hqueues, hr⟩ :=
      resetFrom_spec (hl (.rqs 0)).path (hq.age.nodup _) hfuel
    refine ⟨s', q.age (.rqs 0), hsplice.trans hreset, hl.congr hnext hqueues,
      ResetPriorities.of_onlyLinks hd hr, fun n hn ↦ hn, fun n hn ↦ ?_⟩
    exact Mlfq.mem_age.mpr (.inr ⟨rfl, h₉ ▸ hn⟩)

end Queues

end MyPthread.Sched
