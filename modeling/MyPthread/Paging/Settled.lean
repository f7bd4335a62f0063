import MyPthread.Paging.Refusal
import MyPthread.Paging.Moves

/-!
# Chains that are complete

As long as no thread that has pages gets a chunk, the chain of a thread is all its pages in
the order of their frames: its `k`-th page is the one the thread sees in frame `k`.  The page
is in that frame, or at a location past all frames that threads have pages for.  So when a
page in frame `k` is brought in place of the `k`-th page of another thread, that page goes
where no thread looks for a page of its own.

`Settled` says so, and what bringing in and making pages does to it.
-/

namespace MyPthread.Paging

open MyPthread.Lib MyPthread.Heap Function

variable {B : Block} {s s' s₁ s₂ : Manager} {ch : ℕ → List PageMetaPtr} {c : ℕ → ℕ} {H : Set ℕ}
  {t u i j k n : ℕ} {p q r last front : PageMetaPtr} {o o' : Option PageMetaPtr}

/-- The pages of each thread `t` are chained as `ch t` in the order of their frames, the
first `c t` of them as a chunk. -/
structure Settled (s : Manager) (ch : ℕ → List PageMetaPtr) (c : ℕ → ℕ) : Prop where
  table : Table s ch ∅
  complete : ∀ p ∈ s.pages, ∃ t, p ∈ ch t
  length : ∀ t, ch t ≠ [] → (ch t).length = (s.tcbs t).mallocFrame + 1
  span : ∀ t, (ch t).length ≤ s.pageCounter
  small : ∀ t, (ch t).length ≤ 1597
  home : ∀ t k p, (ch t)[k]? = some p → s.home p = k
  away : ∀ t k p, (ch t)[k]? = some p → s.pageFrame p ≠ k → ∀ u, (ch u).length ≤ s.pageFrame p
  front : ∀ t k p, (ch t)[k]? = some p →
    (s.metas p).frontMeta = if k < c t then (ch t)[0]? else none
  chunk : ∀ t, c t ≤ (ch t).length

namespace Settled

theorem start {b : Boot} (hb : b.Zeroed) : Settled (b.start B) (fun _ ↦ []) (fun _ ↦ 0) where
  table := Table.start hb
  complete := nofun
  length _ hne := absurd rfl hne
  span _ := Nat.zero_le _
  small _ := Nat.zero_le _
  home _ _ _ hp := by cases hp
  away _ _ _ hp := by cases hp
  front _ _ _ hp := by cases hp
  chunk _ := le_refl _

theorem mem_pages (h : Settled s ch c) (hp : (ch t)[k]? = some p) : p ∈ s.pages :=
  h.table.chained t p (List.mem_of_getElem? hp)

theorem lt_length (hp : (ch t)[k]? = some p) : k < (ch t).length :=
  (List.getElem?_eq_some_iff.mp hp).1

theorem tid (h : Settled s ch c) (hp : (ch t)[k]? = some p) : (s.metas p).tid = t :=
  h.table.tid t p (List.mem_of_getElem? hp)

/-- A page that is there has a place in a chain. -/
theorem exists_place (h : Settled s ch c) (hp : p ∈ s.pages) : ∃ t k : ℕ, (ch t)[k]? = some p := by
  obtain ⟨t, ht⟩ := h.complete p hp
  obtain ⟨k, hk⟩ := List.getElem?_of_mem ht
  exact ⟨t, k, hk⟩

/-- The page in a frame that a thread has pages for is in place. -/
theorem resident (h : Settled s ch c) (hk : k < (ch t).length) (hq : s.frameTable k = some q) :
    ∃ u, (ch u)[k]? = some q := by
  have hsmall := h.small t
  obtain ⟨hmem, hloc⟩ := (h.table.placed.table_iff k (by omega) (Set.notMem_empty k) q).mp hq
  obtain ⟨u, j, hj⟩ := h.exists_place hmem
  by_cases hjk : s.pageFrame q = j
  · rw [hloc] at hjk
    exact ⟨u, hjk ▸ hj⟩
  · have haway := h.away u j q hj hjk t
    omega

/-- A page of a thread in a frame of the thread is the page of that frame. -/
theorem resident_own (h : Settled s ch c) (hk : k < (ch t).length) (hq : s.frameTable k = some q)
    (htid : (s.metas q).tid = t) : (ch t)[k]? = some q := by
  obtain ⟨u, hu⟩ := h.resident hk hq
  obtain rfl := (h.tid hu).symm.trans htid
  exact hu

/-- There is a page in every frame that a thread has pages for. -/
theorem exists_resident (h : Settled s ch c) (hk : k < (ch t).length) :
    ∃ q, s.frameTable k = some q ∧ s.pageFrame q = k := by
  have hsmall := h.small t
  have hspan := h.span t
  obtain ⟨q, -, hloc, hq⟩ := h.table.placed.exists_table (show k < 1597 by omega)
    (by omega) (Set.notMem_empty k)
  exact ⟨q, hq, hloc⟩

/-- The `k`-th page is in frame `k` when the page table has it there. -/
theorem pageFrame_iff (h : Settled s ch c) (hp : (ch t)[k]? = some p) :
    s.pageFrame p = k ↔ s.frameTable k = some p := by
  have hk := lt_length hp
  have hsmall := h.small t
  rw [h.table.placed.table_iff k (by omega) (Set.notMem_empty k) p]
  exact (and_iff_right (h.mem_pages hp)).symm

/-- Following the chain of the caller. -/
theorem follow_eq (h : Settled s ch c) (k : ℕ) :
    follow s.next k s.tcb.firstPage = (ch s.current)[k]? :=
  Paging.follow_eq (h.table.path s.current) k

/-- The page after the `k`-th one. -/
theorem next_eq (h : Settled s ch c) (hp : (ch t)[k]? = some p) : s.next p = (ch t)[k + 1]? := by
  have hpath := h.table.path t
  rw [← Paging.follow_eq hpath, follow_succ, Paging.follow_eq hpath, hp]
  rfl

theorem firstPage_eq (h : Settled s ch c) (t : ℕ) : (s.tcbs t).firstPage = (ch t).head? :=
  (h.table.path t).head

theorem firstPage_ne (h : Settled s ch c) : (s.tcbs t).firstPage ≠ none ↔ ch t ≠ [] := by
  rw [h.firstPage_eq, ne_eq, List.head?_eq_none_iff]

theorem firstPage_none (h : Settled s ch c) (hnil : ch t = []) : (s.tcbs t).firstPage = none := by
  rw [h.firstPage_eq, hnil]
  rfl

/-- The last page of the chain, where the walk to the end of the chain ends. -/
theorem lastPage (h : Settled s ch c) (hfirst : s.tcb.firstPage = some q)
    (hlast : lastPage s.next (s.pageCounter + 1) q = some p) :
    (ch s.current)[s.tcb.mallocFrame]? = some p := by
  have hpath := h.table.path s.current
  rw [show (s.tcbs s.current).firstPage = some q from hfirst] at hpath
  obtain ⟨l, hl⟩ : ∃ l, ch s.current = q :: l := by
    have hhead := hpath.head
    cases hch : ch s.current with
    | nil =>
      rw [hch] at hhead
      cases hhead
    | cons q' l =>
      rw [hch] at hhead
      obtain rfl := Option.some.inj hhead
      exact ⟨l, rfl⟩
  have hlen := h.length s.current (by rw [hl]; exact List.cons_ne_nil q l)
  have hspan := h.span s.current
  rw [hl] at hpath hlen hspan
  rw [List.length_cons] at hlen hspan
  rw [lastPage_eq hpath (by omega), List.getLast?_eq_getElem?, List.length_cons, ← hl] at hlast
  have hmf : s.tcb.mallocFrame = l.length + 1 - 1 := by
    show (s.tcbs s.current).mallocFrame = _
    omega
  rwa [hmf]

/-! ## Steps that move no page -/

/-- What leaves the page table and the threads alone. -/
theorem of_steady (h : Settled s ch c) (hs : Steady s s') (hloc : s'.pageFrame = s.pageFrame)
    (htable : s'.frameTable = s.frameTable) (hfile : s'.swapFile = s.swapFile) :
    Settled s' ch c := by
  have htouch : Touched s s' := ⟨hfile, htable, hloc, hs.next, hs.osMemPtr.ge, hs.pageCounter,
    hs.current, hs.tid, fun t ↦ by rw [hs.tcbs], hs.made⟩
  refine ⟨h.table.touch htouch, ?_, ?_, ?_, h.small, ?_, ?_, ?_, h.chunk⟩
  · rw [hs.pages]
    exact h.complete
  · rw [hs.tcbs]
    exact h.length
  · rw [hs.pageCounter]
    exact h.span
  · rw [hs.home]
    exact h.home
  · rw [hloc]
    exact h.away
  · intro t k p hp
    rw [hs.frontMeta]
    exact h.front t k p hp

/-! ## Bringing a page in -/

/-- The `k`-th page of the caller comes to frame `k`, and the page of another thread that was
there goes where no thread has a page of its own. -/
theorem bring (h : Settled s ch c) (hp : (ch s.current)[k]? = some p) (hne : s.pageFrame p ≠ k)
    (hs : swapPages B k (some (s.pageFrame p)) s = some s') :
    Settled s' ch c ∧ (∃ q, q ≠ p ∧ s.pageFrame q = k ∧ Swapped k p q s s') ∧
      (s.pageFrame p ≤ 1597 → SameContents B s s') := by
  have hk := lt_length hp
  have hsmall := h.small s.current
  have hspan := h.span s.current
  obtain ⟨s₁, q, hs₁, hq, hqk, hsw, ht, hsame, -⟩ := h.table.swap (B := B) (show k < 1597 by omega)
    (by omega) (Set.notMem_empty k) (h.mem_pages hp) (fun _ ↦ hp) hne
  obtain rfl : s₁ = s' := Option.some.inj (hs₁.symm.trans hs)
  obtain ⟨hkeep, -⟩ := swapPages_keeps hs₁
  have hloc : s.pageFrame q = k :=
    ((h.table.placed.table_iff k (by omega) (Set.notMem_empty k) q).mp hqk).2
  have hqp : q ≠ p := by
    rintro rfl
    exact hne hloc
  refine ⟨⟨ht, ?_, ?_, ?_, h.small, ?_, ?_, ?_, h.chunk⟩, ⟨q, hqp, hloc, hsw⟩,
    fun hle ↦ (hsame hle).2⟩
  · rw [hkeep.pages]
    exact h.complete
  · rw [hkeep.tcbs]
    exact h.length
  · rw [hsw.pageCounter]
    exact h.span
  · rw [hkeep.home]
    exact h.home
  · intro u j r hr hrj
    rw [hsw.pageFrame, update_apply, update_apply] at hrj ⊢
    split_ifs at hrj ⊢ with hrp hrq
    · subst hrp
      exact absurd (h.table.index_unique hp hr).2 hrj
    · exact h.away _ k p hp hne
    · exact h.away u j r hr hrj
  · rw [hkeep.metas]
    exact h.front

end Settled

/-- The pages of the caller that are in place stay so. -/
def Stays (ch : ℕ → List PageMetaPtr) (s s' : Manager) : Prop :=
  ∀ k p, (ch s.current)[k]? = some p → s.pageFrame p = k → s'.pageFrame p = k

theorem Stays.refl (s : Manager) : Stays ch s s := fun _ _ _ hk ↦ hk

theorem Stays.trans (h₁ : Stays ch s s₁) (h₂ : Stays ch s₁ s₂) (hcur : s₁.current = s.current) :
    Stays ch s s₂ := by
  intro k p hp hk
  exact h₂ k p (by rwa [hcur]) (h₁ k p hp hk)

theorem Settled.bring_stays (h : Settled s ch c) (hp : (ch s.current)[k]? = some p)
    (hne : s.pageFrame p ≠ k) (hs : swapPages B k (some (s.pageFrame p)) s = some s') :
    Stays ch s s' ∧ s'.pageFrame p = k := by
  obtain ⟨-, ⟨q, hqp, hqk, hsw⟩, -⟩ := h.bring hp hne hs
  refine ⟨?_, ?_⟩
  · intro j r hr hrj
    rw [hsw.pageFrame, update_apply, update_apply]
    split_ifs with hrp hrq
    · subst hrp
      exact (h.table.index_unique hp hr).2
    · -- the page in frame `k` is not the caller's
      subst hrq
      have hjk : j = k := hrj.symm.trans hqk
      subst hjk
      exact absurd (Option.some.inj (hr.symm.trans hp)) hqp
    · exact hrj
  · rw [hsw.pageFrame, update_self]

end MyPthread.Paging
