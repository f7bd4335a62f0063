import MyPthread.Sched.Refine

/-!
# What `scheduler` does to any state

The lemmas of `Sched.Refine` are about states whose queues are well formed.  A
few facts hold of every state, also one whose queues are broken: the functions
here move only pointers to nodes that some pointer pointed to, and change nothing
of a thread but its priority.
-/

namespace MyPthread.Sched

open MyPthread.Lib Function

/-- Every pointer is to one of the first `N` nodes. -/
structure Valid (N : ℕ) (s : State) : Prop where
  front : ∀ Q n, (s.queues Q).front = some n → n < N
  back : ∀ Q n, (s.queues Q).back = some n → n < N
  next : ∀ m n, s.next m = some n → n < N
  current : ∀ n, s.current = some n → n < N

/-- From `s`, whose pointers are valid, `s'` was reached by moving pointers. -/
structure Evolves (N : ℕ) (s s' : State) : Prop where
  valid : Valid N s'
  priorityOnly : PriorityOnly s s'
  memFlag : s'.memFlag = s.memFlag

section Evolves

variable {N n fuel : ℕ} {s s' s₁ s₂ : State} {p : Option ℕ} {Q src dst : QueueId} {v : Queue}

theorem Evolves.refl (h : Valid N s) : Evolves N s s := ⟨h, .refl s, rfl⟩

theorem Evolves.trans (h : Evolves N s s₁) (h' : Evolves N s₁ s₂) : Evolves N s s₂ :=
  ⟨h'.valid, h.priorityOnly.trans h'.priorityOnly, h'.memFlag.trans h.memFlag⟩

/-- Changing none of the pointers. -/
theorem Valid.congr (h : Valid N s) (hq : s'.queues = s.queues) (hn : s'.next = s.next)
    (hc : s'.current = s.current) : Valid N s' := by
  refine ⟨?_, ?_, ?_, ?_⟩
  · rw [hq]
    exact h.front
  · rw [hq]
    exact h.back
  · rw [hn]
    exact h.next
  · rw [hc]
    exact h.current

theorem Valid.mono {M : ℕ} (h : Valid N s) (hNM : N ≤ M) : Valid M s :=
  ⟨fun Q n hn ↦ (h.front Q n hn).trans_le hNM, fun Q n hn ↦ (h.back Q n hn).trans_le hNM,
    fun k n hn ↦ (h.next k n hn).trans_le hNM, fun n hn ↦ (h.current n hn).trans_le hNM⟩

theorem Evolves.setNext (h : Valid N s) (hp : ∀ n, p = some n → n < N) :
    Evolves N s (s.setNext n p) := by
  refine ⟨⟨h.front, h.back, fun m k hk ↦ ?_, h.current⟩, .of_eq fun m ↦ State.tcb_setNext, rfl⟩
  rw [State.next_setNext] at hk
  by_cases hm : m = n
  · rw [hm, update_self] at hk
    exact hp k hk
  · rw [update_of_ne hm] at hk
    exact h.next m k hk

theorem Evolves.setQueue (h : Valid N s) (hf : ∀ n, v.front = some n → n < N)
    (hb : ∀ n, v.back = some n → n < N) : Evolves N s (s.setQueue Q v) := by
  refine ⟨⟨fun R k hk ↦ ?_, fun R k hk ↦ ?_, h.next, h.current⟩, .refl _, rfl⟩
  · rw [State.queues_setQueue] at hk
    by_cases hR : R = Q
    · rw [hR, update_self] at hk
      exact hf k hk
    · rw [update_of_ne hR] at hk
      exact h.front R k hk
  · rw [State.queues_setQueue] at hk
    by_cases hR : R = Q
    · rw [hR, update_self] at hk
      exact hb k hk
    · rw [update_of_ne hR] at hk
      exact h.back R k hk

theorem Evolves.setPriority (h : Valid N s) (r : ℕ) : Evolves N s (s.setPriority n r) :=
  ⟨h.congr rfl State.next_setPriority rfl, .setPriority s n r, rfl⟩

theorem enqueuee_evolves (h : Valid N s) (hp : ∀ n, p = some n → n < N)
    (he : enqueuee p Q s = some s') : Evolves N s s' := by
  cases p with
  | none => cases he
  | some n =>
    have hn : ∀ k, some n = some k → k < N := hp
    have hnone : ∀ k, none = some k → k < N := fun k hk ↦ by cases hk
    cases hf : (s.queues Q).front with
    | none =>
      simp only [enqueuee, hf, Option.bind_eq_bind, Option.bind_some, Option.pure_def,
        Option.some.injEq] at he
      rw [← he]
      have h₁ : Evolves N s (s.setQueue Q ⟨some n, some n⟩) := .setQueue h hn hn
      exact h₁.trans (.setNext h₁.valid hnone)
    | some f =>
      simp only [enqueuee, hf, Option.bind_eq_bind, Option.bind_some, Option.bind_eq_some_iff,
        Option.pure_def, Option.some.injEq] at he
      obtain ⟨b, -, rfl⟩ := he
      have h₁ : Evolves N s (s.setNext b (some n)) := .setNext h hn
      have hff : ∀ k, some f = some k → k < N := fun k hk ↦ h.front Q k (hf.trans hk)
      have h₂ : Evolves N (s.setNext b (some n)) ((s.setNext b (some n)).setQueue Q
        ⟨some f, some n⟩) := .setQueue h₁.valid hff hn
      exact (h₁.trans h₂).trans (.setNext h₂.valid hnone)

theorem dequeuee_evolves (h : Valid N s) : Evolves N s (dequeuee Q s).2 := by
  unfold dequeuee
  cases hf : (s.queues Q).front with
  | none => exact .refl h
  | some n => exact .setQueue h (h.next n) (h.back Q)

theorem dequeuee_fst : (dequeuee Q s).1 = (s.queues Q).front := by
  unfold dequeuee
  cases hf : (s.queues Q).front <;> rfl

theorem requeue_evolves (h : Valid N s) (hr : requeue src dst s = some s') : Evolves N s s' := by
  have h₁ := dequeuee_evolves (Q := src) h
  refine h₁.trans (enqueuee_evolves h₁.valid (fun n hn ↦ ?_) hr)
  rw [dequeuee_fst] at hn
  exact h.front src n hn

theorem resetFrom_evolves (h : Valid N s) (hr : resetFrom fuel p s = some s') :
    Evolves N s s' := by
  induction fuel generalizing p s with
  | zero =>
    cases p with
    | none =>
      cases hr
      exact .refl h
    | some n => cases hr
  | succ fuel ih =>
    cases p with
    | none =>
      cases hr
      exact .refl h
    | some n =>
      have h₁ : Evolves N s (s.setPriority n 0) := .setPriority h 0
      exact h₁.trans (ih h₁.valid hr)

theorem splice_evolves (h : Valid N s) (hs : splice fuel s = some s') : Evolves N s s' := by
  have hnone : ∀ k, none = some k → k < N := fun k hk ↦ by cases hk
  let low := s.queues (.rqs (numPriorities - 1))
  have hlow : ∀ k, low.front = some k → k < N := h.front _
  have hlow' : ∀ k, low.back = some k → k < N := h.back _
  have clear : ∀ t : State, Valid N t →
      Evolves N t (t.setQueue (.rqs (numPriorities - 1)) ⟨none, none⟩) :=
    fun t ht ↦ .setQueue ht hnone hnone
  simp only [splice] at hs
  split at hs
  · cases hs
    exact .refl h
  · split at hs
    · simp only [Option.bind_eq_bind, Option.bind_eq_some_iff, Option.pure_def, Option.some.injEq,
        exists_eq_left'] at hs
      obtain ⟨b, -, hs⟩ := hs
      have h₁ : Evolves N s (s.setNext b low.front) := .setNext h hlow
      have h₂ : Evolves N s ((s.setNext b low.front).setQueue (.rqs 0)
          ⟨(s.queues (.rqs 0)).front, low.back⟩) :=
        h₁.trans (.setQueue h₁.valid (h.front _) hlow')
      have h₃ := h₂.trans (clear _ h₂.valid)
      exact h₃.trans (resetFrom_evolves h₃.valid hs)
    · simp only [Option.bind_eq_bind, Option.bind_some, Option.pure_def] at hs
      have h₂ : Evolves N s (s.setQueue (.rqs 0) ⟨low.front, low.back⟩) := .setQueue h hlow hlow'
      have h₃ := h₂.trans (clear _ h₂.valid)
      exact h₃.trans (resetFrom_evolves h₃.valid hs)

theorem maintain_evolves (h : Valid N s) (hs : maintain fuel s = some s') : Evolves N s s' := by
  unfold maintain at hs
  split at hs
  · have h₁ : Evolves N s { s with maintenanceCount := 0 } :=
      ⟨h.congr rfl rfl rfl, .refl s, rfl⟩
    exact h₁.trans (splice_evolves h₁.valid hs)
  · cases hs
    exact .refl h

/-- Setting the reason of the call moves no pointer. -/
theorem Evolves.setFc (h : Evolves N s s₁) (f : FlagCalled) : Evolves N s { s₁ with fc := f } :=
  ⟨h.valid.congr rfl rfl rfl, h.priorityOnly, h.memFlag⟩

theorem serve_evolves (h : Valid N s) (hs : serve s = some s') : Evolves N s s' := by
  simp only [serve, Option.bind_eq_bind, Option.bind_eq_some_iff] at hs
  obtain ⟨c, -, hs⟩ := hs
  cases hfc : s.fc with
  | none =>
    simp only [hfc, Option.pure_def, Option.some.injEq] at hs
    exact hs ▸ .refl h
  | first =>
    simp only [hfc, Option.pure_def, Option.some.injEq] at hs
    exact hs ▸ .refl h
  | timer =>
    simp only [hfc] at hs
    split at hs
    · simp only [Option.bind_eq_some_iff, Option.pure_def, Option.some.injEq] at hs
      obtain ⟨s₁, hreq, rfl⟩ := hs
      have h₁ : Evolves N s (s.setPriority c ((s.tcb c).threadPriority + 1)) := .setPriority h _
      exact (h₁.trans (requeue_evolves h₁.valid hreq)).setFc _
    · simp only [Option.bind_eq_some_iff, Option.pure_def, Option.some.injEq] at hs
      obtain ⟨s₁, hreq, rfl⟩ := hs
      exact (requeue_evolves h hreq).setFc _
  | yield =>
    simp only [hfc, Option.bind_eq_some_iff, Option.pure_def, Option.some.injEq] at hs
    obtain ⟨s₁, hreq, rfl⟩ := hs
    exact (requeue_evolves h hreq).setFc _
  | join =>
    simp only [hfc, Option.bind_eq_some_iff, Option.pure_def, Option.some.injEq] at hs
    obtain ⟨s₁, hreq, rfl⟩ := hs
    exact (requeue_evolves h hreq).setFc _
  | blocked =>
    simp only [hfc, Option.bind_eq_some_iff, Option.pure_def, Option.some.injEq] at hs
    obtain ⟨s₁, hreq, rfl⟩ := hs
    exact (requeue_evolves h hreq).setFc _
  | pexit =>
    simp only [hfc, Option.pure_def, Option.some.injEq] at hs
    have h₁ := dequeuee_evolves (Q := .rqs (s.tcb c).threadPriority) h
    rw [← hs]
    refine ⟨⟨h₁.valid.front, h₁.valid.back, h₁.valid.next, fun n hn ↦ by cases hn⟩,
      h₁.priorityOnly, h₁.memFlag⟩

theorem updateQueue_evolves {resume : Bool} (h : Valid N s)
    (hs : updateQueue fuel s = some (resume, s')) : Evolves N s s' := by
  have key : ∀ {t}, ((do
      let s ← serve s
      let s ← maintain fuel s
      return (false, s) : Option (Bool × State)) = some t) → Evolves N s t.2 := by
    intro t ht
    simp only [Option.bind_eq_bind, Option.bind_eq_some_iff, Option.pure_def,
      Option.some.injEq] at ht
    obtain ⟨s₁, hserve, s₂, hmaint, rfl⟩ := ht
    have h₁ := serve_evolves h hserve
    exact h₁.trans (maintain_evolves h₁.valid hmaint)
  unfold updateQueue at hs
  split at hs
  · cases hs
    exact .refl h
  · cases hs
    exact .refl h
  · exact key hs

theorem scan_evolves {k i j : ℕ} {x : Option ℕ} (h : Valid N s) (hx : ∀ n, x = some n → n < N)
    (hs : scan s k i x = (j, some n)) : n < N := by
  induction k generalizing i x with
  | zero =>
    cases hs
    exact hx n rfl
  | succ k ih =>
    rw [scan] at hs
    cases hf : (s.queues (.rqs i)).front with
    | some m =>
      rw [hf] at hs
      cases hs
      exact h.front _ _ hf
    | none =>
      rw [hf] at hs
      exact ih (fun n hn ↦ by cases hn) hs

theorem resolve_evolves {i n d : ℕ} (h : Valid N s) (hn : n < N)
    (hs : resolve i n s = some (d, s')) : Evolves N s s' ∧ d < N := by
  unfold resolve at hs
  cases hc : s.current with
  | none =>
    rw [hc] at hs
    cases hs
    exact ⟨.refl h, hn⟩
  | some c =>
    simp only [hc] at hs
    split at hs
    · simp only [avoidCurrent, Option.bind_eq_bind, Option.bind_eq_some_iff, Option.pure_def,
        Option.some.injEq, Prod.mk.injEq] at hs
      obtain ⟨s₁, hreq, rfl, rfl⟩ := hs
      refine ⟨requeue_evolves h hreq, ?_⟩
      have hcN := h.current c hc
      cases hnext : s.next n with
      | some k => exact h.next n k hnext
      | none =>
        simp only
        rcases hscan : (scan s (numPriorities - (i + 1)) (i + 1) (some n)) with ⟨j, _ | k⟩
        · exact hcN
        · exact scan_evolves h (fun k hk ↦ Option.some.inj hk ▸ hn) hscan
    · cases hs
      exact ⟨.refl h, hn⟩

theorem dispatch_evolves {setitimer : ℕ → ℤ} {d : ℕ} (h : Valid N s) (hd : d < N)
    (hs : dispatch setitimer d s = some s') : Evolves N s s' := by
  have hsome : ∀ k, some d = some k → k < N := fun k hk ↦ Option.some.inj hk ▸ hd
  simp only [dispatch] at hs
  split at hs
  · cases hs
    exact ⟨h.congr rfl rfl rfl, .refl s, rfl⟩
  · unfold switchTo at hs
    split at hs
    · cases hs
      exact ⟨⟨h.front, h.back, h.next, hsome⟩, .refl s, rfl⟩
    · simp only [Option.bind_eq_bind, Option.bind_eq_some_iff, Option.pure_def,
        Option.some.injEq] at hs
      obtain ⟨c, -, rfl⟩ := hs
      exact ⟨⟨h.front, h.back, h.next, hsome⟩, .refl s, rfl⟩

/-- Whatever the queues are, `scheduler` moves pointers and sets priorities. -/
theorem scheduler_evolves {setitimer : ℕ → ℤ} (h : Valid N s)
    (hs : scheduler setitimer fuel s = some s') : Evolves N s s' := by
  unfold scheduler at hs
  split at hs
  · simp only [Option.bind_eq_bind, Option.bind_eq_some_iff, Option.pure_def,
      Option.some.injEq] at hs
    obtain ⟨c, -, rfl⟩ := hs
    exact ⟨h.congr rfl rfl rfl, .refl s, rfl⟩
  · simp only [Option.bind_eq_bind, Option.bind_eq_some_iff, Prod.exists] at hs
    obtain ⟨resume, s₁, hu, hs⟩ := hs
    have h₁ := updateQueue_evolves h hu
    split at hs
    · cases hs
      exact h₁
    · simp only [Option.bind_eq_some_iff] at hs
      obtain ⟨-, -, hs⟩ := hs
      obtain ⟨t, ht⟩ : ∃ t : State,
        t = { s₁ with maintenanceCount := (s₁.maintenanceCount + 1) % 2 ^ 32 } := ⟨_, rfl⟩
      have h₂ : Evolves N s t := by
        rw [ht]
        exact ⟨h₁.valid.congr rfl rfl rfl, h₁.priorityOnly, h₁.memFlag⟩
      rw [← ht] at hs
      unfold select at hs
      split at hs
      · cases hs
        exact h₂
      · rename_i i n hscan
        simp only [Option.bind_eq_bind, Option.bind_eq_some_iff, Prod.exists] at hs
        obtain ⟨d, s₃, hres, hdisp⟩ := hs
        have hn := scan_evolves h₂.valid (fun n hn ↦ by cases hn) hscan
        obtain ⟨h₃, hd⟩ := resolve_evolves h₂.valid hn hres
        exact (h₂.trans h₃).trans (dispatch_evolves h₃.valid hd hdisp)

end Evolves

end MyPthread.Sched
