import MyPthread.Paging.Private

/-!
# Protection

Between two calls `mem_flag` is 0, and the frames that are open hold pages of the thread
that executes, each where that thread addresses it.  An access to any other frame faults.
-/

namespace MyPthread.Paging

open MyPthread.Lib MyPthread.Heap Function

variable {B : Block} {s s' : Manager} {ch : ℕ → List PageMetaPtr} {lay : ℕ → ℕ → Layout}
  {a k r x : ℕ} {call : Call} {log : List Entry} {A : Private}

/-- `mem_flag` is 0, and only frames up to `malloc_frame` of a thread with pages are open. -/
structure Guarded (s : Manager) : Prop where
  memFlag : s.memFlag = 0
  opened : ∀ k, s.accessible k = true → s.tcb.firstPage ≠ none ∧ k ≤ s.tcb.mallocFrame

namespace Guarded

theorem of_closed (hf : s.memFlag = 0) (hacc : ∀ k, s.accessible k = false) : Guarded s :=
  ⟨hf, fun k hk ↦ by cases (hacc k).symm.trans hk⟩

theorem leave (s : Manager) : Guarded s.leave := of_closed rfl fun _ ↦ rfl

theorem switch (h : Guarded s) (t : ℕ) : Guarded (switch t s) := of_closed h.memFlag fun _ ↦ rfl

theorem library (s : Manager) (n : ℕ) : Guarded (library n s) := of_closed rfl fun _ ↦ rfl

/-- A fault opens a frame of the thread, and may close the others. -/
theorem swapHandler (h : Guarded s) (hfirst : s.tcb.firstPage ≠ none)
    (hs : swapHandler B a s = some s') : Guarded s' := by
  obtain ⟨-, hle, resident, -, ⟨-, rfl⟩ | ⟨-, temp, s₁, -, hswap, rfl⟩⟩ := swapHandler_eq_some.mp hs
  · refine ⟨h.memFlag, fun k hk ↦ ?_⟩
    by_cases hki : k = (frameOf B a).toNat
    · rw [hki]
      exact ⟨hfirst, hle⟩
    · dsimp only [Manager.unprotectFrame] at hk
      rw [update_of_ne hki] at hk
      exact h.opened k hk
  · have hflag : s₁.memFlag = 0 := by
      obtain ⟨s₂, -, rfl⟩ := swapPages_eq_some.mp hswap
      rfl
    have hst := swapHandler_steady hs
    have htcb : (s₁.protect.unprotectFrame (frameOf B a).toNat).tcb = s.tcb := by
      rw [Manager.tcb, Manager.tcb, hst.tcbs, hst.current]
    refine ⟨hflag, fun k hk ↦ ?_⟩
    by_cases hki : k = (frameOf B a).toNat
    · rw [htcb, hki]
      exact ⟨hfirst, hle⟩
    · dsimp only [Manager.unprotectFrame] at hk
      rw [update_of_ne hki] at hk
      cases hk

theorem access (h : Guarded s) (hfirst : s.tcb.firstPage ≠ none)
    (hs : access B a s = some s') : Guarded s' := by
  rw [Paging.access] at hs
  split at hs
  · exact h.swapHandler hfirst hs
  · cases hs
    exact h

end Guarded

/-- A thread with a pointer has pages. -/
theorem Good.firstPage_ne {c : ℕ → ℕ} {live : ℕ → List (ℕ × ℕ)} {e : ℕ × ℕ}
    (hg : Good B s ch c lay live) (he : e ∈ live s.current) : s.tcb.firstPage ≠ none := by
  obtain ⟨k, b, hk, -⟩ := hg.alloc _ e he
  refine hg.settled.firstPage_ne.mpr ?_
  rintro hnil
  rw [hnil] at hk
  cases hk

/-- A request of up to a page is not refused while `page_counter` stays within the frames. -/
theorem not_refused (hc : Counted s) (hpc : s.pageCounter ≤ 1596) (hx : x ≤ 4064) :
    ¬Refused B x s := by
  rw [Refused, if_neg (not_lt.mpr hx)]
  split_ifs with hfirst
  · omega
  · have hlt : s.tcb.mallocFrame < s.pageCounter := hc.lt_pageCounter hfirst
    rintro ⟨-, hfull⟩
    exact hfull ⟨by omega, by omega⟩

theorem Shows.guarded (h : Shows B s log ch lay A) (hsd : Sound B s) (hc : Counted s)
    (hpc : s.pageCounter ≤ 1596) (hcall : OnePage call s log) (hg : Guarded s)
    (hs : call.exec B s = some (r, s')) : Guarded s' := by
  cases call with
  | malloc x =>
    have hx : x ≤ 4064 := hcall
    obtain ⟨-, -, ho⟩ := myallocate_outcome hsd hc (by omega) hs
    cases ho with
    | refused href => exact absurd href (not_refused hc hpc hx)
    | served _ _ hrel => exact .of_closed hrel.memFlag fun k ↦ by rw [hrel.accessible]
    | grown _ _ hrel => exact .of_closed hrel.memFlag fun k ↦ by rw [hrel.accessible]
  | free p =>
    obtain ⟨-, hs'⟩ := exec_free.mp hs
    obtain ⟨-, q, -, ⟨-, s₁, -, rfl⟩ | ⟨-, -, -, s₁, -, -, -, rfl⟩⟩ := mydeallocate_eq_some.mp hs'
    · exact .leave s₁
    · exact .leave s₁
  | load a =>
    obtain ⟨e, he, -⟩ := hcall
    exact hg.access (h.good.firstPage_ne he) (exec_load.mp hs).1
  | store a v =>
    obtain ⟨e, he, -⟩ := hcall
    obtain ⟨s₁, hs₁, rfl⟩ := store_eq_some.mp (exec_store.mp hs).2
    have hg₁ := hg.access (h.good.firstPage_ne he) hs₁
    exact ⟨hg₁.memFlag, hg₁.opened⟩
  | switch t =>
    cases hs
    exact hg.switch t
  | library n =>
    cases hs
    exact .library s n

theorem Session.guarded (h : Session B OnePage s log) (hpc : s.pageCounter ≤ 1596) :
    Guarded s := by
  induction h with
  | start => exact .of_closed rfl fun _ ↦ rfl
  | call hsession hcall hs ih =>
    obtain ⟨hsd, hc⟩ := hsession.reachable.sound
    have hle := le_trans (hsd.pageCounter_le hc hs) hpc
    obtain ⟨ch, lay, A, -, hshows⟩ := hsession.exists_run hle
    exact hshows.guarded hsd hc hle hcall (ih hle) hs

/-- An open frame holds the page that the current thread addresses there. -/
theorem Session.opened (h : Session B OnePage s log) (hpc : s.pageCounter ≤ 1596)
    (hk : s.accessible k = true) :
    ∃ p, s.frameTable k = some p ∧ (s.metas p).tid = s.current ∧
      follow s.next k s.tcb.firstPage = some p := by
  obtain ⟨ch, lay, A, -, hshows⟩ := h.exists_run hpc
  obtain ⟨hfirst, hle⟩ := (h.guarded hpc).opened k hk
  have hset := hshows.good.settled
  have hlen : (ch s.current).length = s.tcb.mallocFrame + 1 :=
    hset.length _ (hset.firstPage_ne.mp hfirst)
  have hlt : k < (ch s.current).length := by omega
  have hp := List.getElem?_eq_getElem hlt
  refine ⟨_, (hset.pageFrame_iff hp).mp (hshows.mine k _ hk hp), hset.tid hp, ?_⟩
  rw [hset.follow_eq]
  exact hp

end MyPthread.Paging
