import MyPthread.Paging.Calls

/-!
# What makes no page

The functions that bring pages in and work on their heaps leave the threads, the chains
and the number of pages as they are.  Of a page, they change the location and what is
known of its heap.
-/

namespace MyPthread.Paging

open MyPthread.Lib MyPthread.Heap Function

variable {B : Block} {s s' s₁ s₂ : Manager} {i x r k fuel : ℕ} {p cur : PageMetaPtr}
  {o : Option PageMetaPtr}

/-- The pages, their threads and their chains are as before. -/
structure Steady (s s' : Manager) : Prop where
  made : s'.made = s.made
  tid : ∀ p, (s'.metas p).tid = (s.metas p).tid
  frontMeta : ∀ p, (s'.metas p).frontMeta = (s.metas p).frontMeta
  next : s'.next = s.next
  tcbs : s'.tcbs = s.tcbs
  current : s'.current = s.current
  pageCounter : s'.pageCounter = s.pageCounter
  osMemPtr : s'.osMemPtr = s.osMemPtr
  home : s'.home = s.home

theorem Steady.refl (s : Manager) : Steady s s :=
  ⟨rfl, fun _ ↦ rfl, fun _ ↦ rfl, rfl, rfl, rfl, rfl, rfl, rfl⟩

theorem Steady.trans (h₁ : Steady s s₁) (h₂ : Steady s₁ s₂) : Steady s s₂ where
  made := h₂.made.trans h₁.made
  tid p := (h₂.tid p).trans (h₁.tid p)
  frontMeta p := (h₂.frontMeta p).trans (h₁.frontMeta p)
  next := h₂.next.trans h₁.next
  tcbs := h₂.tcbs.trans h₁.tcbs
  current := h₂.current.trans h₁.current
  pageCounter := h₂.pageCounter.trans h₁.pageCounter
  osMemPtr := h₂.osMemPtr.trans h₁.osMemPtr
  home := h₂.home.trans h₁.home

theorem Steady.pages (h : Steady s s') : s'.pages = s.pages := by
  rw [Manager.pages, h.made]
  rfl

theorem Steady.tcb (h : Steady s s') : s'.tcb = s.tcb := by
  rw [Manager.tcb, h.tcbs, h.current]

/-! ## Moving pages -/

/-- What is left alone, and the counter, when nothing is evicted. -/
theorem Keeps.steady (h : Keeps s s') (hpc : s'.pageCounter = s.pageCounter) : Steady s s' := by
  refine ⟨h.made, ?_, ?_, h.next, h.tcbs, h.current, hpc, h.osMemPtr, h.home⟩
  · intro p
    rw [h.metas]
  · intro p
    rw [h.metas]

theorem swapPages_pageCounter {src : ℕ} {dest : Option ℕ} (h : swapPages B src dest s = some s') :
    s'.pageCounter = if dest = none then s.pageCounter + 1 else s.pageCounter := by
  obtain ⟨s₁, h₁, rfl⟩ := swapPages_eq_some.mp h
  cases dest with
  | none =>
    rw [if_pos rfl]
    simp only [movePages, evict] at h₁
    split at h₁
    · split at h₁
      all_goals
        obtain rfl := Option.some.inj h₁
        rfl
    · obtain ⟨p, -, h₁⟩ := Option.bind_eq_some_iff.mp h₁
      obtain rfl := Option.some.inj h₁
      rfl
  | some dest =>
    rw [if_neg (by rintro ⟨⟩)]
    simp only [movePages] at h₁
    split at h₁
    all_goals
      obtain ⟨p, -, h₁⟩ := Option.bind_eq_some_iff.mp h₁
      obtain ⟨q, -, h₁⟩ := Option.bind_eq_some_iff.mp h₁
      obtain rfl := Option.some.inj h₁
      rfl

/-- Bringing a page in makes no page. -/
theorem swapPages_steady {src dest : ℕ} (h : swapPages B src (some dest) s = some s') :
    Steady s s' :=
  (swapPages_keeps h).1.steady (swapPages_pageCounter h)

theorem bringLast_steady (h : bringLast B s = some (p, s')) : Steady s s' := by
  obtain ⟨temp, -, h⟩ := bringLast_eq_some.mp h
  rcases h with ⟨-, -, rfl⟩ | ⟨-, first, -, -, hswap⟩
  · exact Steady.refl s
  · exact swapPages_steady hswap

theorem bringChunk_steady (h : bringChunk B cur fuel i o s = some s') : Steady s s' := by
  induction fuel generalizing i o s with
  | zero => cases h
  | succ fuel ih =>
    rcases bringChunk_eq_some.mp h with ⟨-, rfl⟩ | ⟨-, p, s₁, -, hswap, hrest⟩
    · exact Steady.refl s
    · rcases hswap with ⟨-, rfl⟩ | ⟨-, q, -, hswap⟩
      · exact ih hrest
      · exact (swapPages_steady hswap).trans (ih hrest)

theorem bringFront_steady (h : bringFront B cur s = some s') : Steady s s' := by
  rw [bringFront] at h
  cases hf : (s.metas cur).frontMeta with
  | none =>
    rw [hf] at h
    obtain rfl := Option.some.inj h
    exact Steady.refl s
  | some front =>
    rw [hf] at h
    exact bringChunk_steady h

theorem bringPage_steady (h : bringPage B k p s = some s') : Steady s s' := by
  rcases bringPage_eq_some.mp h with ⟨-, rfl⟩ | ⟨-, hswap⟩
  · exact Steady.refl s
  · exact swapPages_steady hswap

/-! ## Heaps -/

theorem loadHeap_steady (p : PageMetaPtr) (s : Manager) : Steady s (loadHeap p s) :=
  ⟨rfl, fun _ ↦ rfl, fun _ ↦ rfl, rfl, rfl, rfl, rfl, rfl, rfl⟩

theorem resetHeap_steady (p : PageMetaPtr) (s : Manager) : Steady s (resetHeap p s) :=
  ⟨rfl, fun _ ↦ rfl, fun _ ↦ rfl, rfl, rfl, rfl, rfl, rfl, rfl⟩

theorem release_steady (p : PageMetaPtr) (x : ℕ) (s : Manager) : Steady s (release p x s) :=
  ⟨rfl, fun _ ↦ rfl, fun _ ↦ rfl, rfl, rfl, rfl, rfl, rfl, rfl⟩

theorem request_steady {memptr : ℕ} {size : ℤ} (h : request p x memptr size s = some (r, s')) :
    Steady s s' := by
  obtain ⟨heap, -, rfl⟩ := request_eq_some.mp h
  exact ⟨rfl, fun _ ↦ rfl, fun _ ↦ rfl, rfl, rfl, rfl, rfl, rfl, rfl⟩

theorem storeHeap_steady (h : storeHeap p s = some s') : Steady s s' := by
  obtain ⟨free, -, rfl⟩ := storeHeap_eq_some.mp h
  refine ⟨rfl, ?_, ?_, rfl, rfl, rfl, rfl, rfl, rfl⟩
  all_goals
    intro q
    by_cases hq : q = p
    · subst hq
      simp only [update_self]
    · simp only [update_of_ne hq]

theorem enter_steady (s : Manager) : Steady s s.enter :=
  ⟨rfl, fun _ ↦ rfl, fun _ ↦ rfl, rfl, rfl, rfl, rfl, rfl, rfl⟩

theorem leave_steady (s : Manager) : Steady s s.leave :=
  ⟨rfl, fun _ ↦ rfl, fun _ ↦ rfl, rfl, rfl, rfl, rfl, rfl, rfl⟩

theorem tryHeap_steady (h : tryHeap B x p s = some (r, s')) : Steady s s' := by
  obtain ⟨s₁, hfront, hreq⟩ := tryHeap_eq_some.mp h
  exact (bringFront_steady hfront).trans ((loadHeap_steady p s₁).trans (request_steady hreq))

/-! ## Calls -/

theorem searchPages_steady (h : searchPages B x fuel k o s = some (r, s')) : Steady s s' := by
  induction fuel generalizing k o s with
  | zero => cases h
  | succ fuel ih =>
    cases o with
    | none =>
      obtain ⟨-, rfl⟩ := Prod.mk.inj (Option.some.inj h)
      exact Steady.refl s
    | some p =>
      rcases searchPages_eq_some.mp h with ⟨-, hrest⟩ | ⟨-, s₁, r₁, s₂, hbring, htry, h⟩
      · exact ih hrest
      · have hs₂ := (bringPage_steady hbring).trans (tryHeap_steady htry)
        rcases h with ⟨-, -, s₃, hstore, rfl⟩ | ⟨-, hrest⟩
        · exact hs₂.trans ((storeHeap_steady hstore).trans (leave_steady s₃))
        · exact hs₂.trans (ih hrest)

theorem tryPages_steady (h : tryPages B x cur s = some (r, s')) : Steady s s' := by
  obtain ⟨r₁, s₁, s₂, hreq, hstore, h⟩ := tryPages_eq_some.mp h
  have hs₂ := (request_steady hreq).trans (storeHeap_steady hstore)
  rcases h with ⟨-, -, rfl⟩ | ⟨-, hsearch⟩
  · exact hs₂.trans (leave_steady s₂)
  · exact hs₂.trans (searchPages_steady hsearch)

theorem mydeallocate_steady (h : mydeallocate B x s = some s') : Steady s s' := by
  obtain ⟨-, resident, -, h⟩ := mydeallocate_eq_some.mp h
  rcases h with ⟨-, s₁, hstore, rfl⟩ | ⟨-, temp, s₁, s₂, -, hswap, hstore, rfl⟩
  · exact (enter_steady s).trans ((loadHeap_steady resident _).trans
      ((release_steady resident x _).trans ((storeHeap_steady hstore).trans (leave_steady s₁))))
  · exact (enter_steady s).trans ((loadHeap_steady temp _).trans ((swapPages_steady hswap).trans
      ((release_steady temp x s₁).trans ((storeHeap_steady hstore).trans (leave_steady s₂)))))

theorem swapHandler_steady (h : swapHandler B x s = some s') : Steady s s' := by
  obtain ⟨-, -, resident, -, h⟩ := swapHandler_eq_some.mp h
  rcases h with ⟨-, rfl⟩ | ⟨-, temp, s₁, -, hswap, rfl⟩
  · exact ⟨rfl, fun _ ↦ rfl, fun _ ↦ rfl, rfl, rfl, rfl, rfl, rfl, rfl⟩
  · exact (swapPages_steady hswap).trans
      ⟨rfl, fun _ ↦ rfl, fun _ ↦ rfl, rfl, rfl, rfl, rfl, rfl, rfl⟩

theorem access_steady (h : access B x s = some s') : Steady s s' := by
  rw [access] at h
  split at h
  · exact swapHandler_steady h
  · obtain rfl := Option.some.inj h
    exact Steady.refl s

end MyPthread.Paging
