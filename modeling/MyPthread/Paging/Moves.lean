import MyPthread.Paging.Table

/-!
# The page table along the calls

Besides the calls of `swap_pages`, the calls of the manager do little to the page table: a new
page is made in a frame that was given up, `first_page` is set to another page, and memory and
heaps change.  Each of these keeps the page table.

The assignment of `first_page` to a later page, which a request of several pages makes, cuts
pages off the chain of the thread; they stay in the table.
-/

namespace MyPthread.Paging

open MyPthread.Lib MyPthread.Heap Function

variable {B : Block} {s s' : Manager} {ch : ℕ → List PageMetaPtr} {H : Set ℕ}
  {p : PageMetaPtr} {i k : ℕ}

/-- The page table, the chains and the swap file are as before. -/
structure Touched (s s' : Manager) : Prop where
  swapFile : s'.swapFile = s.swapFile
  frameTable : s'.frameTable = s.frameTable
  pageFrame : s'.pageFrame = s.pageFrame
  next : s'.next = s.next
  osMemPtr : s.osMemPtr ≤ s'.osMemPtr
  pageCounter : s'.pageCounter = s.pageCounter
  current : s'.current = s.current
  tid : ∀ p, (s'.metas p).tid = (s.metas p).tid
  firstPage : ∀ t, (s'.tcbs t).firstPage = (s.tcbs t).firstPage
  made : s'.made = s.made

/-- The page the code made last, chained as the first page of the thread. -/
def chainFirst (i : ℕ) (init : PageMetaPtr → PageMeta → PageMeta) (s : Manager) : Manager :=
  ((newMeta i init s).2.setFirstPage (newMeta i init s).1).setFrame i (newMeta i init s).1

/-- The page the code made last, chained behind `prev`. -/
def chainAfter (i : ℕ) (init : PageMetaPtr → PageMeta → PageMeta) (prev : PageMetaPtr)
    (s : Manager) : Manager :=
  ((newMeta i init s).2.setNext prev (newMeta i init s).1).setFrame i (newMeta i init s).1

theorem chainFirst_eq (init : PageMetaPtr → PageMeta → PageMeta) : chainFirst i init s =
    { s with
      pageFrame := update s.pageFrame s.osMemPtr i
      next := update s.next s.osMemPtr none
      metas := update s.metas s.osMemPtr (init s.osMemPtr (s.metas s.osMemPtr))
      frameTable := update s.frameTable i (some s.osMemPtr)
      tcbs := update s.tcbs s.current { s.tcb with firstPage := some s.osMemPtr }
      osMemPtr := s.osMemPtr + 48
      memFlag := 1
      accessible := fun _ ↦ true
      made := s.osMemPtr :: s.made
      home := update s.home s.osMemPtr i } := by
  rw [chainFirst, newMeta_eq]
  rfl

theorem chainAfter_eq (init : PageMetaPtr → PageMeta → PageMeta) (prev : PageMetaPtr) :
    chainAfter i init prev s =
      { s with
        pageFrame := update s.pageFrame s.osMemPtr i
        next := update (update s.next s.osMemPtr none) prev (some s.osMemPtr)
        metas := update s.metas s.osMemPtr (init s.osMemPtr (s.metas s.osMemPtr))
        frameTable := update s.frameTable i (some s.osMemPtr)
        osMemPtr := s.osMemPtr + 48
        memFlag := 1
        accessible := fun _ ↦ true
        made := s.osMemPtr :: s.made
        home := update s.home s.osMemPtr i } := by
  rw [chainAfter, newMeta_eq]
  rfl

theorem chainFirst_added (init : PageMetaPtr → PageMeta → PageMeta)
    (hinit : ∀ p m, (init p m).tid = s.current) : Added i s (chainFirst i init s) := by
  rw [chainFirst_eq]
  refine ⟨?_, rfl, rfl, rfl, ?_, ?_, ?_, rfl, rfl, rfl, rfl, rfl⟩
  · exact Nat.lt_add_of_pos_right (by decide)
  · intro q hq
    exact update_of_ne hq ..
  · simp only [update_self]
    exact hinit _ _
  · intro t ht
    exact update_of_ne ht ..

theorem chainAfter_added (init : PageMetaPtr → PageMeta → PageMeta) (prev : PageMetaPtr)
    (hinit : ∀ p m, (init p m).tid = s.current) : Added i s (chainAfter i init prev s) := by
  rw [chainAfter_eq]
  refine ⟨?_, rfl, rfl, rfl, ?_, ?_, ?_, rfl, rfl, rfl, rfl, rfl⟩
  · exact Nat.lt_add_of_pos_right (by decide)
  · intro q hq
    exact update_of_ne hq ..
  · simp only [update_self]
    exact hinit _ _
  · intro t _
    rfl

/-! ## The page table is kept -/

namespace Table

theorem start {b : Boot} (hb : b.Zeroed) : Table (b.start B) (fun _ ↦ []) ∅ := by
  refine ⟨?_, ?_, ?_, ?_, ?_, ?_, ?_, ?_⟩
  · intro t
    rfl
  · intro t p hp
    cases hp
  · intro t
    exact List.nodup_nil
  · intro t p hp
    cases hp
  · intro p hp
    cases hp
  · intro p hp
    cases hp
  · intro i hi
    cases hi
  · have hpages : (b.start B).pages = ∅ := by
      ext p
      exact List.mem_nil_iff p
    rw [hpages]
    exact Placed.empty hb.frameTable

/-- A change that leaves the page table alone. -/
theorem touch (h : Table s ch H) (ht : Touched s s') : Table s' ch H := by
  have hpages : s'.pages = s.pages := by
    rw [Manager.pages, ht.made]
    rfl
  refine ⟨?_, ?_, h.nodup, ?_, ?_, ?_, ?_, ?_⟩
  · intro t
    rw [ht.next, ht.firstPage]
    exact h.path t
  · intro t p hp
    rw [ht.tid]
    exact h.tid t p hp
  · rw [hpages]
    exact h.chained
  · rw [hpages, ht.next]
    exact h.cut
  · intro p hp
    rw [hpages] at hp
    exact lt_of_lt_of_le (h.fresh p hp) ht.osMemPtr
  · rw [ht.pageCounter]
    exact h.holes
  · rw [hpages, ht.pageCounter, ht.frameTable, ht.pageFrame]
    exact h.placed

theorem switch (h : Table s ch H) (t : ℕ) : Table (switch t s) ch H :=
  ⟨h.path, h.tid, h.nodup, h.chained, h.cut, h.fresh, h.holes, h.placed⟩

/-- The first page of a thread that has none. -/
theorem chainFirst (h : Table s ch H) (hiH : i ∈ H) (hnone : s.tcb.firstPage = none)
    (init : PageMetaPtr → PageMeta → PageMeta) (hinit : ∀ p m, (init p m).tid = s.current) :
    Added i s (chainFirst i init s) ∧
      Table (chainFirst i init s) (addPage ch s.current s.osMemPtr) (H \ {i}) := by
  have ha : Added i s _ := chainFirst_added init hinit
  refine ⟨ha, h.add hiH ha ?_ ?_⟩
  · have hnil : ch s.current = [] := by
      have hpath := h.path s.current
      rw [show (s.tcbs s.current).firstPage = none from hnone] at hpath
      exact hpath.eq_nil
    rw [hnil, chainFirst_eq]
    refine ⟨?_, ?_⟩
    · simp only [Manager.tcb, update_self]
    · simp only [update_self]
      rfl
  · intro q hq _
    rw [chainFirst_eq]
    exact update_of_ne (ne_of_mem_of_not_mem hq h.notMem_osMemPtr) ..

/-- The page after the last one of the thread. -/
theorem chainAfter (h : Table s ch H) (hiH : i ∈ H) {last : PageMetaPtr}
    (hlast : (ch s.current).getLast? = some last)
    (init : PageMetaPtr → PageMeta → PageMeta) (hinit : ∀ p m, (init p m).tid = s.current) :
    Added i s (chainAfter i init last s) ∧
      Table (chainAfter i init last s) (addPage ch s.current s.osMemPtr) (H \ {i}) := by
  have hmem : last ∈ ch s.current := List.mem_of_getLast? hlast
  have ha : Added i s _ := chainAfter_added init last hinit
  refine ⟨ha, h.add hiH ha ?_ ?_⟩
  · rw [chainAfter_eq]
    refine path_last (h.path s.current) hlast (h.nodup _) ?_
    intro hp
    exact h.notMem_osMemPtr (h.chained _ _ hp)
  · intro q hq hqc
    rw [chainAfter_eq]
    simp only [update_of_ne (ne_of_mem_of_not_mem hmem hqc).symm,
      update_of_ne (ne_of_mem_of_not_mem hq h.notMem_osMemPtr)]

/-- The chain from a later page on. -/
theorem repoint (h : Table s ch H) (hp : (ch s.current)[k]? = some p) :
    Table (s.setFirstPage p) (update ch s.current ((ch s.current).drop k)) H := by
  have hsub : ∀ t, update ch s.current ((ch s.current).drop k) t <:+ ch t := by
    intro t
    by_cases ht : t = s.current
    · subst ht
      rw [update_self]
      exact List.drop_suffix k _
    · rw [update_of_ne ht]
  obtain ⟨hk, hkp⟩ := List.getElem?_eq_some_iff.mp hp
  have hdrop : (ch s.current).drop k = p :: (ch s.current).drop (k + 1) := by
    rw [List.drop_eq_getElem_cons hk, hkp]
  have hsplit : ch s.current = (ch s.current).take k ++ p :: (ch s.current).drop (k + 1) := by
    rw [← hdrop, List.take_append_drop]
  refine ⟨?_, ?_, ?_, ?_, ?_, h.fresh, h.holes, h.placed⟩
  · intro t
    by_cases ht : t = s.current
    · subst ht
      show Path s.next (update s.tcbs s.current _ s.current).firstPage _
      rw [update_self, update_self, hdrop]
      have hpath := h.path s.current
      rw [hsplit] at hpath
      exact ⟨rfl, hpath.of_append⟩
    · show Path s.next (update s.tcbs s.current _ t).firstPage _
      rw [update_of_ne ht, update_of_ne ht]
      exact h.path t
  · intro t q hq
    exact h.tid t q ((hsub t).subset hq)
  · intro t
    exact (h.nodup t).sublist (hsub t).sublist
  · intro t q hq
    exact h.chained t q ((hsub t).subset hq)
  · intro q hq hcut
    by_cases hqc : q ∈ ch s.current
    · -- a page before `p` is followed by another one
      rw [hsplit, List.mem_append] at hqc
      rcases hqc with hqc | hqc
      · obtain ⟨l, l', heq⟩ := List.append_of_mem hqc
        have hpath := h.path s.current
        rw [hsplit, heq, List.append_assoc, List.cons_append] at hpath
        rw [show (s.setFirstPage p).next = s.next from rfl, hpath.head_next]
        cases l' <;> simp
      · refine absurd ?_ (hcut s.current)
        rw [update_self, hdrop]
        exact hqc
    · refine h.cut q hq fun t hqt ↦ ?_
      have ht : t ≠ s.current := by
        rintro rfl
        exact hqc hqt
      apply hcut t
      rwa [update_of_ne ht]

end Table

end MyPthread.Paging
