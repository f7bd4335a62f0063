import MyPthread.Paging.Private

/-!
# Threads that have no page

The first request of a thread is served from pages made for it, one or a chunk.  The pages that
other threads have in these frames go elsewhere, and nothing else is known of them: this is how
a heap comes to be away.
-/

namespace MyPthread.Paging

open MyPthread.Lib MyPthread.Heap Function

variable {B : Block} {s s' : Manager} {ch : ℕ → List PageMetaPtr} {c c' : ℕ → ℕ}
  {lay : ℕ → ℕ → Layout} {live : ℕ → List (ℕ × ℕ)} {k n x r t : ℕ} {p q : PageMetaPtr}
  {l : List PageMetaPtr}

/-- The pages that a first request of `x` bytes makes. -/
def pagesFor (x : ℕ) : ℕ := if 4064 < x then numOfPages x else 1

theorem Makes.eq_pagesFor (h : Makes B x n s) : n = pagesFor x := by
  unfold Makes at h
  rw [pagesFor]
  split at h
  · rw [if_pos ‹_›, h.1]
  · rw [if_neg ‹_›, h.1]

theorem myallocate_pageCounter_le (hsd : Sound B s) (hc : Counted s) (hx : x < 2 ^ 32)
    (hs : myallocate B x s = some (r, s')) : s'.pageCounter ≤ s.pageCounter + pagesFor x := by
  obtain ⟨-, -, ho⟩ := myallocate_outcome hsd hc hx hs
  cases ho with
  | refused _ _ _ hst => exact hst.pageCounter.le.trans (Nat.le_add_right _ _)
  | served _ _ _ hst => exact hst.pageCounter.le.trans (Nat.le_add_right _ _)
  | grown _ _ _ hm he => rw [he.pageCounter, hm.eq_pagesFor]

theorem pageCounter_of_first (hsd : Sound B s) (hc : Counted s) (hx : x < 2 ^ 32)
    (hnone : s.tcb.firstPage = none) (hs : myallocate B x s = some (r, s'))
    (hsome : s'.tcb.firstPage ≠ none) : s'.pageCounter = s.pageCounter + pagesFor x := by
  obtain ⟨-, -, ho⟩ := myallocate_outcome hsd hc hx hs
  cases ho with
  | refused _ _ _ hst =>
    rw [hst.tcb] at hsome
    exact absurd hnone hsome
  | served _ _ _ hst =>
    rw [hst.tcb] at hsome
    exact absurd hnone hsome
  | grown _ _ _ hm he => rw [he.pageCounter, hm.eq_pagesFor]

/-- What the first request of the thread leaves. -/
structure First (B : Block) (ch : ℕ → List PageMetaPtr) (c c' : ℕ → ℕ) (lay : ℕ → ℕ → Layout)
    (live : ℕ → List (ℕ × ℕ)) (x r : ℕ) (l : List PageMetaPtr) (s s' : Manager) : Prop where
  good : Good B s' (update ch s.current l) c' (grownLay B lay s.current 0 l.length x)
    (afterMalloc live s.current x r)
  length : l.length = pagesFor x
  result : r = (firstLayout B 0 l.length x).1
  pageFrame : ∀ k p, l[k]? = some p → s'.pageFrame p = k
  pageCounter : s'.pageCounter = s.pageCounter + l.length
  current : s'.current = s.current
  moved : ∀ p ∈ s.pages, s'.pageFrame p = s.pageFrame p ∨ s.pageCounter ≤ s'.pageFrame p

theorem Grow.first (hg : Good B s ch c lay live) (hsd : Sound B s) (hc : Counted s)
    (hx : x < 2 ^ 32)
    (hnone : s.tcb.firstPage = none) (hs : myallocate B x s = some (r, s'.leave))
    (hgr : Grow B ch c x r s.enter s' c' l) (hlen : l.length = pagesFor x) :
    First B ch c c' lay live x r l s s'.leave := by
  have hnil : ch s.current = [] := by
    by_contra hne
    exact hg.settled.firstPage_ne.mpr hne hnone
  have hzero : (ch s.enter.current).length = 0 := by
    rw [show ch s.enter.current = [] from hnil]
    rfl
  obtain ⟨last, s₁, hf⟩ := hgr.fresh
  have hgood := (hg.enter.grow hgr).leave
  have hext : extend ch s.enter.current l = update ch s.current l := by
    rw [extend, show ch s.enter.current = [] from hnil]
    rfl
  rw [hext, hzero] at hgood
  have hcur : s'.current = s.current := hf.current.trans hf.grew.current
  refine ⟨hgood, hlen, ?_, ?_, ?_, hcur, ?_⟩
  · have hres := hf.result
    rwa [hzero] at hres
  · intro k p hp
    have hplace := hf.grew.place k p hp
    rw [hzero, Nat.zero_add] at hplace
    exact (congrFun hf.pageFrame p).trans hplace
  · rw [hlen]
    refine pageCounter_of_first hsd hc hx hnone hs ?_
    show (s'.tcbs s'.current).firstPage ≠ none
    refine hgood.settled.firstPage_ne.mpr ?_
    rw [hcur, update_self]
    exact List.ne_nil_of_length_pos hgr.room.2.pos
  · intro p hp
    have hmoved := hf.grew.moved p hp
    rw [← hf.pageFrame] at hmoved
    exact hmoved

/-- The pages of the other threads are away from these frames. -/
theorem First.displaced (h : First B ch c c' lay live x r l s s') (ht : t ≠ s.current)
    (hp : (ch t)[k]? = some p) (hk : k < l.length) :
    ∃ q, l[k]? = some q ∧ s'.frameTable k = some q ∧ (s'.metas q).tid = s.current ∧
      s'.pageFrame p ≠ k := by
  have hset := h.good.settled
  have hq : l[k]? = some l[k] := List.getElem?_eq_getElem hk
  have hq' : (update ch s.current l s.current)[k]? = some l[k] := by rwa [update_self]
  have hp' : (update ch s.current l t)[k]? = some p := by rwa [update_of_ne ht]
  have hloc := h.pageFrame k _ hq
  refine ⟨_, hq, (hset.pageFrame_iff hq').mp hloc, hset.tid hq', fun hin ↦ ?_⟩
  have heq := hset.table.placed.inj _ (hset.mem_pages hp') _ (hset.mem_pages hq')
    (hin.trans hloc.symm)
  rw [← heq] at hq'
  exact ht (hset.table.index_unique hp' hq').1

namespace Good

/-- A thread that has no page gets one. -/
theorem exists_first (hg : Good B s ch c lay live) (hsd : Sound B s) (hc : Counted s)
    (hnone : s.tcb.firstPage = none) (hpc : s.pageCounter < 5692) (hx : x ≤ 4064) :
    ∃ r p s', myallocate B x s = some (r, s') ∧ First B ch c c lay live x r [p] s s' := by
  obtain ⟨r, p, s', hs, hgr⟩ := hg.settled.exists_first hsd hc hnone hpc hx
  refine ⟨r, p, s'.leave, hs, hgr.first hg hsd hc (by omega) hnone hs ?_⟩
  rw [pagesFor, if_neg (not_lt.mpr hx)]
  rfl

/-- A thread that has no page gets a chunk. -/
theorem exists_chunk (hg : Good B s ch c lay live) (hsd : Sound B s) (hc : Counted s)
    (hnone : s.tcb.firstPage = none) (hx : x < 2 ^ 32) (hlarge : 4064 < x)
    (htwo : 2 ≤ numOfPages x) (hle : numOfPages x ≤ 1596) :
    ∃ r l s', myallocate B x s = some (r, s') ∧
      First B ch c (Function.update c s.current (numOfPages x)) lay live x r l s s' := by
  obtain ⟨r, l, s', hs, hgr, hlen⟩ := hg.settled.exists_chunk hsd hc hnone hx hlarge rfl htwo hle
  refine ⟨r, l, s'.leave, hs, hgr.first hg hsd hc hx hnone hs ?_⟩
  rw [pagesFor, if_pos hlarge]
  exact hlen

end Good

/-! ## Two threads -/

/-- Another thread gets its first page: the first page of the caller is away. -/
theorem First.exists_displaced {P : Call → Manager → Prop}
    (h : First B ch c c' lay live x r l s s') (hreach : Reachable B P s')
    (hswitch : P (.switch t) s') (hP : P (.malloc n) (switch t s')) (ht : t ≠ s.current)
    (hnil : ch t = []) (hpc : s'.pageCounter < 5692) (hn : n ≤ 4064) :
    ∃ r₁ d s₁, myallocate B n (switch t s') = some (r₁, s₁) ∧ Reachable B P s₁ ∧
      First B (update ch s.current l) c' c' (grownLay B lay s.current 0 l.length x)
        (afterMalloc live s.current x r) n r₁ [d] (switch t s') s₁ ∧
      ∀ p, l[0]? = some p → s₁.pageFrame p ≠ 0 := by
  have hreach₁ := Reachable.call (c := .switch t) hreach hswitch rfl
  obtain ⟨hsd, hc⟩ := hreach₁.sound
  have hnone : (switch t s').tcb.firstPage = none :=
    h.good.settled.firstPage_none ((update_of_ne ht l ch).trans hnil)
  obtain ⟨r₁, d, s₁, hs₁, hf⟩ := (h.good.switch t).exists_first hsd hc hnone hpc hn
  refine ⟨r₁, d, s₁, hs₁, .call (c := .malloc n) hreach₁ hP hs₁, hf, fun p hp ↦ ?_⟩
  obtain ⟨-, -, -, -, haway⟩ := hf.displaced (k := 0) (p := p) ht.symm
    (by rw [update_self]; exact hp) Nat.one_pos
  exact haway

/-- Threads 0 and 1 have a page each, for the same frame, and that of thread 1 is there. -/
theorem exists_pair : ∃ (s : Manager) (p q : PageMetaPtr) (r r₁ : ℕ) (lay : ℕ → ℕ → Layout)
    (live : ℕ → List (ℕ × ℕ)), Session lowBlock OnePage s [⟨1, .switch 0, 0⟩, ⟨1, .malloc 100, r₁⟩,
      ⟨0, .switch 1, 0⟩, ⟨0, .malloc 100, r⟩] ∧
    Good lowBlock s (update (update (fun _ ↦ []) 0 [p]) 1 [q]) noChunk lay live ∧
    lay 0 0 = (firstLayout lowBlock 0 1 100).2 ∧ s.current = 0 ∧ s.pageCounter = 2 ∧
    s.frameTable 0 = some q ∧ s.pageFrame p ≠ 0 := by
  have hg := Good.start (B := lowBlock) blank_zeroed fun _ _ ↦ Layout.fresh 0 0
  have hstart : Session lowBlock OnePage (blank.start lowBlock) [] := .start blank_zeroed
  have hsmall : 100 ≤ 4064 := by decide
  obtain ⟨r, p, s, hs, hf⟩ := hg.exists_first hstart.reachable.sound.1 hstart.reachable.sound.2
    (x := 100) rfl (by decide) hsmall
  have hsession := hstart.call (show OnePage (.malloc 100) _ [] from hsmall) hs
  have hpc : s.pageCounter = 1 := hf.pageCounter
  have hcur : s.current = 0 := hf.current
  obtain ⟨r₁, q, s₁, hs₁, -, hf₁, haway⟩ := hf.exists_displaced hsession.reachable trivial trivial
    (t := 1) (n := 100) Nat.one_ne_zero rfl (by omega) hsmall
  have hsession₁ := (hsession.switch hcur 1 trivial).call
    (show OnePage (.malloc 100) (switch 1 s) _ from hsmall) hs₁
  have hcur₁ : s₁.current = 1 := hf₁.current
  have hq : s₁.frameTable 0 = some q :=
    (hf₁.good.settled.pageFrame_iff (t := 1) (k := 0) rfl).mp (hf₁.pageFrame 0 q rfl)
  have hpc₁ : s₁.pageCounter = s.pageCounter + 1 := hf₁.pageCounter
  refine ⟨switch 0 s₁, p, q, r, r₁, _, _, hsession₁.switch hcur₁ 0 trivial,
    hf₁.good.switch 0, ?_, rfl, ?_, hq, haway p rfl⟩
  · exact (grownLay_of_ne (fun h ↦ absurd h Nat.zero_ne_one) (le_refl 1)).trans (grownLay_last rfl)
  · show s₁.pageCounter = 2
    omega

end MyPthread.Paging
