import MyPthread.Paging.View

/-!
# Heaps of pages that may be elsewhere

`Good` says of a state with complete chains that every page that ends a heap has a well-formed
heap in the memory of its thread, that `free_page_mem` is right, and that what a thread has
been handed out and not given back are allocated blocks of its heaps.  The work of a call
keeps it, and so do requests that are served and blocks that are released.
-/

namespace MyPthread.Paging

open MyPthread.Lib MyPthread.Heap Function Relation

variable {B : Block} {Q : Prop} {s s' s₁ s₂ : Manager} {ch ch' : ℕ → List PageMetaPtr}
  {c c' : ℕ → ℕ} {lay lay' : ℕ → ℕ → Layout} {live live' : ℕ → List (ℕ × ℕ)}
  {i j k n o x r t u a lo hi : ℕ} {p q cur last front : PageMetaPtr} {l : List PageMetaPtr}
  {m : Mem} {h h' : Layout}

/-- The pointers after a request of the thread `t` for `x` bytes that returned `r`. -/
def afterMalloc (live : ℕ → List (ℕ × ℕ)) (t x r : ℕ) : ℕ → List (ℕ × ℕ) :=
  if r = 0 then live else Function.update live t ((r, x) :: live t)

theorem afterMalloc_of_ne (h : u ≠ t) : afterMalloc live t x r u = live u := by
  unfold afterMalloc
  split_ifs
  · rfl
  · exact Function.update_of_ne h ..

/-- The pointers after the thread `t` has given `x` back. -/
def afterFree (live : ℕ → List (ℕ × ℕ)) (t x : ℕ) : ℕ → List (ℕ × ℕ) :=
  Function.update live t ((live t).filter fun e ↦ e.1 ≠ x)

theorem mem_afterFree {e : ℕ × ℕ} : e ∈ afterFree live t x u ↔ e ∈ live u ∧ (u = t → e.1 ≠ x) := by
  unfold afterFree
  by_cases hu : u = t
  · subst hu
    rw [Function.update_self, List.mem_filter]
    simp
  · rw [Function.update_of_ne hu]
    simp [hu]

/-- The heaps of the pages are the layouts `lay`, by thread and page, and the pointers `live`
of each thread, with the sizes asked for, are to different allocated blocks. -/
structure Good (B : Block) (s : Manager) (ch : ℕ → List PageMetaPtr) (c : ℕ → ℕ)
    (lay : ℕ → ℕ → Layout) (live : ℕ → List (ℕ × ℕ)) : Prop where
  settled : Settled s ch c
  heap : ∀ t k p, (ch t)[k]? = some p → c t ≤ k + 1 →
    Represents (B.frame (base (c t) k)) (B.frame (k + 1)) (heapOf B s p) (lay t k)
  inner : ∀ t k p, (ch t)[k]? = some p → c t ≤ k + 1 → (lay t k).Inner (B.frame (k + 1))
  free : ∀ t k p, (ch t)[k]? = some p → c t ≤ k + 1 → (s.metas p).freePageMem = (lay t k).room
  idle : ∀ t k p, (ch t)[k]? = some p → k + 1 < c t →
    (s.metas p).head = 0 ∧ (s.metas p).freePageMem < 0
  alloc : ∀ t, ∀ e ∈ live t, ∃ k b, k < (ch t).length ∧ c t ≤ k + 1 ∧ (lay t k).Allocated b ∧
    b.addr + 32 = e.1 ∧ e.2 ≤ b.size
  nodup : ∀ t, ((live t).map Prod.fst).Nodup

namespace Good

theorem start {b : Boot} (hb : b.Zeroed) (lay : ℕ → ℕ → Layout) :
    Good B (b.start B) (fun _ ↦ []) (fun _ ↦ 0) lay fun _ ↦ [] where
  settled := Settled.start hb
  heap _ _ _ hp := by cases hp
  inner _ _ _ hp := by cases hp
  free _ _ _ hp := by cases hp
  idle _ _ _ hp := by cases hp
  alloc _ _ he := by cases he
  nodup _ := List.nodup_nil

theorem heapOf_eq (hg : Good B s ch c lay live) (hp : (ch t)[k]? = some p) :
    heapOf B s p = ⟨view B s t, (s.metas p).head, (s.metas p).middle⟩ := by
  rw [heapOf, hg.settled.tid hp]

/-! ## Steps that change no page -/

/-- Pages that only move keep their heaps. -/
theorem of_contents (hg : Good B s ch c lay live) (hs' : Settled s' ch c)
    (hmetas : s'.metas = s.metas) (hsame : SameContents B s s') : Good B s' ch c lay live := by
  refine ⟨hs', ?_, hg.inner, ?_, ?_, hg.alloc, hg.nodup⟩
  · intro t k p hp hk
    have hr := hg.heap t k p hp hk
    rwa [heapOf, view_of_contents hg.settled hs' hsame, hmetas]
  · rw [hmetas]
    exact hg.free
  · rw [hmetas]
    exact hg.idle

/-! ## Steps on one heap -/

/-- The heap of the `k`-th page of the thread `t` becomes another one; the other heaps, and the
pages before the last of a chunk, are left alone. -/
theorem update (hg : Good B s ch c lay live) (hs' : Settled s' ch c) (hp : (ch t)[k]? = some p)
    (hk : c t ≤ k + 1) (hother : ∀ u, u ≠ t → view B s' u = view B s u)
    (hview : ChangesOnly (heapFrames B (c t) k) (view B s t) (view B s' t))
    (hmetas : ∀ q, q ≠ p → s'.metas q = s.metas q)
    (hrep : Represents (B.frame (base (c t) k)) (B.frame (k + 1)) (heapOf B s' p) h')
    (hinner : h'.Inner (B.frame (k + 1))) (hfree : (s'.metas p).freePageMem = h'.room)
    (hlive : ∀ u, ∀ e ∈ live' u, ∃ j b, j < (ch u).length ∧ c u ≤ j + 1 ∧
      (Function.update lay t (Function.update (lay t) k h') u j).Allocated b ∧
      b.addr + 32 = e.1 ∧ e.2 ≤ b.size)
    (hnodup : ∀ u, ((live' u).map Prod.fst).Nodup) :
    Good B s' ch c (Function.update lay t (Function.update (lay t) k h')) live' := by
  have hcase : ∀ u j q, (ch u)[j]? = some q → u = t ∧ j = k ∧ q = p ∨
      q ≠ p ∧ Function.update lay t (Function.update (lay t) k h') u j = lay u j ∧
        (u = t → j ≠ k) := by
    intro u j q hq
    by_cases hqp : q = p
    · subst hqp
      obtain ⟨rfl, rfl⟩ := hg.settled.table.index_unique hp hq
      exact .inl ⟨rfl, rfl, rfl⟩
    · refine .inr ⟨hqp, ?_, ?_⟩
      · by_cases hut : u = t
        · subst hut
          have hjk : j ≠ k := by
            rintro rfl
            exact hqp (Option.some.inj (hq.symm.trans hp))
          rw [Function.update_self, Function.update_of_ne hjk]
        · rw [Function.update_of_ne hut]
      · rintro rfl rfl
        exact hqp (Option.some.inj (hq.symm.trans hp))
  refine ⟨hs', ?_, ?_, ?_, ?_, hlive, hnodup⟩
  · intro u j q hq hj
    rcases hcase u j q hq with ⟨rfl, rfl, rfl⟩ | ⟨hqp, hlay, hne⟩
    · rw [Function.update_self, Function.update_self]
      exact hrep
    · rw [hlay]
      have hr := hg.heap u j q hq hj
      rw [hg.heapOf_eq hq] at hr
      have hagree := Represents.of_agree (m := view B s' u) hr (by
        intro a hlo hhi
        by_cases hut : u = t
        · subst hut
          exact hview a (disjoint_heapFrames hj hk (hne rfl) (mem_heapFrames_iff.mpr ⟨hlo, hhi⟩))
        · rw [hother u hut])
      rw [heapOf, hs'.tid hq, hmetas q hqp]
      exact hagree
  · intro u j q hq hj
    rcases hcase u j q hq with ⟨rfl, rfl, rfl⟩ | ⟨-, hlay, -⟩
    · rw [Function.update_self, Function.update_self]
      exact hinner
    · rw [hlay]
      exact hg.inner u j q hq hj
  · intro u j q hq hj
    rcases hcase u j q hq with ⟨rfl, rfl, rfl⟩ | ⟨hqp, hlay, -⟩
    · rw [Function.update_self, Function.update_self]
      exact hfree
    · rw [hlay, hmetas q hqp]
      exact hg.free u j q hq hj
  · intro u j q hq hj
    rcases hcase u j q hq with ⟨rfl, rfl, rfl⟩ | ⟨hqp, -, -⟩
    · omega
    · rw [hmetas q hqp]
      exact hg.idle u j q hq hj

/-- The globals are the heap of the `k`-th page when that is loaded and in place. -/
theorem machine (hg : Good B s ch c lay live) (hload : Loaded p s)
    (hp : (ch s.current)[k]? = some p) (hk : c s.current ≤ k + 1) (hhere : HeapHere s ch c k) :
    Represents (B.frame (base (c s.current) k)) (B.frame (k + 1)) s.heap (lay s.current k) := by
  have hr := hg.heap _ k p hp hk
  rw [hg.heapOf_eq hp, ← hload.head, ← hload.middle] at hr
  refine hr.of_agree (m := s.heap.mem) fun a hlo hhi ↦ ?_
  exact (hhere.view hg.settled (Settled.lt_length hp) (mem_heapFrames_iff.mpr ⟨hlo, hhi⟩)).symm

end Good

/-- The heap `h` of the caller's `k`-th page `p`, which is in place, has become `h'`, and has been
stored. -/
structure Operated (B : Block) (ch : ℕ → List PageMetaPtr) (c : ℕ → ℕ) (k : ℕ) (p : PageMetaPtr)
    (h h' : Layout) (s s' : Manager) : Prop where
  place : (ch s.current)[k]? = some p
  last : c s.current ≤ k + 1
  here : HeapHere s ch c k
  pageFrame : s'.pageFrame = s.pageFrame
  swapFile : s'.swapFile = s.swapFile
  current : s'.current = s.current
  mem : ChangesOnly (headers h.blocks ∪ headers h'.blocks) s.heap.mem s'.heap.mem
  represents : Represents (B.frame (base (c s.current) k)) (B.frame (k + 1)) s'.heap h'
  stored : Stored p h' s s'

theorem headers_subset_heapFrames {n : ℕ} (hw : h.WF (B.frame (base n k)) (B.frame (k + 1))) :
    headers h.blocks ⊆ heapFrames B n k := by
  have hadd := frame_add B (base n k) (k + 1 - base n k)
  have hle := base_le n k
  rw [show base n k + (k + 1 - base n k) = k + 1 by omega] at hadd
  exact headers_subset hw.tiles hadd.symm

/-- The caller sees the headers that were written, and no other thread sees anything. -/
theorem Operated.view_changes (ho : Operated B ch c k p h h' s s') (hs : Settled s ch c)
    (hs' : Settled s' ch c) (hw : h.WF (B.frame (base (c s.current) k)) (B.frame (k + 1))) :
    (∀ u, u ≠ s.current → view B s' u = view B s u) ∧
      ChangesOnly (headers h.blocks ∪ headers h'.blocks) (view B s s.current)
        (view B s' s.current) := by
  refine ho.here.view_changes hs hs' (Settled.lt_length ho.place) ho.pageFrame ho.swapFile ?_ ho.mem
  refine Set.union_subset ?_ ?_
  · exact headers_subset_heapFrames hw
  · exact headers_subset_heapFrames ho.represents.wf

namespace Good

theorem wf (hg : Good B s ch c lay live) (hp : (ch t)[k]? = some p) (hk : c t ≤ k + 1) :
    (lay t k).WF (B.frame (base (c t) k)) (B.frame (k + 1)) := (hg.heap t k p hp hk).wf

/-- An operation on the globals, when the heap of the `k`-th page is loaded and in place, is one
on that heap. -/
theorem operate (hg : Good B s ch c lay live) (hs' : Settled s' ch c)
    (ho : Operated B ch c k p (lay s.current k) h' s s') (hinner : h'.Inner (B.frame (k + 1)))
    (hlive : ∀ u, ∀ e ∈ live' u, ∃ j b, j < (ch u).length ∧ c u ≤ j + 1 ∧
      (Function.update lay s.current (Function.update (lay s.current) k h') u j).Allocated b ∧
      b.addr + 32 = e.1 ∧ e.2 ≤ b.size)
    (hnodup : ∀ u, ((live' u).map Prod.fst).Nodup) :
    Good B s' ch c
      (Function.update lay s.current (Function.update (lay s.current) k h')) live' := by
  have hp := ho.place
  have hw := hg.wf hp ho.last
  obtain ⟨hother, hview⟩ := ho.view_changes hg.settled hs' hw
  have hhere' : HeapHere s' ch c k := by
    intro j q hj hjk hq
    rw [ho.current] at hj hq
    rw [ho.pageFrame]
    exact ho.here j q hj hjk hq
  have hrecord : s'.metas p =
      { s.metas p with
        freePageMem := h'.room, head := s'.heap.head, middle := s'.heap.middle } := by
    rw [ho.stored, Function.update_self]
  refine hg.update hs' hp ho.last hother ?_ ?_ ?_ hinner (by rw [hrecord]) hlive hnodup
  · refine hview.mono (Set.union_subset ?_ ?_)
    · exact headers_subset_heapFrames hw
    · exact headers_subset_heapFrames ho.represents.wf
  · intro q hq
    rw [ho.stored, Function.update_of_ne hq]
  · have hview' := ho.represents.of_agree (m := view B s' s.current) fun a hlo hhi ↦ by
      rw [← ho.current]
      refine hhere'.view hs' (by rw [ho.current]; exact Settled.lt_length hp) ?_
      rw [ho.current]
      exact mem_heapFrames_iff.mpr ⟨hlo, hhi⟩
    rw [heapOf, hs'.tid hp, hrecord]
    exact hview'

/-! ## Requests and releases -/

/-- The block of a pointer that the thread `t` has. -/
theorem exists_block (hg : Good B s ch c lay live) {e : ℕ × ℕ} (he : e ∈ live t) :
    ∃ k p b, (ch t)[k]? = some p ∧ c t ≤ k + 1 ∧ (lay t k).Allocated b ∧ b.addr + 32 = e.1 ∧
      e.2 ≤ b.size := by
  obtain ⟨k, b, hlt, hk, hb⟩ := hg.alloc t e he
  exact ⟨k, _, b, List.getElem?_eq_getElem hlt, hk, hb⟩

/-- What a pointer is to, after a step that keeps its block allocated. -/
theorem alloc_update (hg : Good B s ch c lay live) {e : ℕ × ℕ} (he : e ∈ live u)
    (hkeep : u = t → ∀ b, (lay t k).Allocated b → b.addr + 32 = e.1 → h'.Allocated b) :
    ∃ j b, j < (ch u).length ∧ c u ≤ j + 1 ∧
      (Function.update lay t (Function.update (lay t) k h') u j).Allocated b ∧
      b.addr + 32 = e.1 ∧ e.2 ≤ b.size := by
  obtain ⟨j, b, hlt, hj, hb, haddr, hsize⟩ := hg.alloc u e he
  refine ⟨j, b, hlt, hj, ?_, haddr, hsize⟩
  by_cases hut : u = t
  · subst hut
    rw [Function.update_self]
    by_cases hjk : j = k
    · subst hjk
      rw [Function.update_self]
      exact hkeep rfl b hb haddr
    · rwa [Function.update_of_ne hjk]
  · rwa [Function.update_of_ne hut]

theorem mem_heapFrames_of_wf {n : ℕ} (hw : h.WF (B.frame (base n k)) (B.frame (k + 1)))
    {b : Lib.Block} (hb : b ∈ h.blocks) : b.addr ∈ heapFrames B n k := by
  have hbounds := hw.tiles.bounds hb
  unfold Block.stop at hbounds
  exact mem_heapFrames_iff.mpr ⟨hbounds.1, by omega⟩

/-- A pointer that is handed out is not one that the thread has. -/
theorem notMem_live (hg : Good B s ch c lay live) (hp : (ch t)[k]? = some p) (hk : c t ≤ k + 1)
    (hr : ((lay t k).malloc x).1 ≠ 0) : ((lay t k).malloc x).1 ∉ (live t).map Prod.fst := by
  intro hmem
  obtain ⟨e, he, heq⟩ := List.mem_map.mp hmem
  obtain ⟨j, q, d, hq, hj, hd, haddr, -⟩ := hg.exists_block he
  have hw := hg.wf hp hk
  obtain ⟨b, hb, -, halloc, hfresh⟩ := hw.malloc_allocated hr
  by_cases hjk : j = k
  · subst hjk
    have hne := hfresh d hd
    omega
  · refine disjoint_heapFrames hj hk hjk (mem_heapFrames_of_wf (hg.wf hq hj) hd.1) ?_
    have hbmem := mem_heapFrames_of_wf hw.malloc ((halloc b).mpr (.inr rfl)).1
    rwa [show d.addr = b.addr by omega]

/-- A request on the heap of the `k`-th page of the caller, which is loaded. -/
theorem request_operated {memptr : ℕ} {size : ℤ} (hg : Good B s ch c lay live)
    (hload : Loaded p s) (hp : (ch s.current)[k]? = some p) (hk : c s.current ≤ k + 1)
    (hhere : HeapHere s ch c k) (hreq : request p x memptr size s = some (r, s₁))
    (hstore : storeHeap p s₁ = some s' ∨ r = 0 ∧ s₁ = s') :
    Operated B ch c k p (lay s.current k) ((lay s.current k).malloc x).2 s s' ∧
      r = ((lay s.current k).malloc x).1 := by
  have hlt := Settled.lt_length hp
  have hsmall := hg.settled.small s.current
  obtain ⟨heap, hm, rfl⟩ := request_eq_some.mp hreq
  have hr := hg.machine hload hp hk hhere
  have hf := fits_heap (B := B) (n := c s.current) (show k < 1597 by omega)
  have hfuel := heap_lt_fuel (B := B) (n := c s.current) (show k < 1597 by omega)
  obtain ⟨heap', hm', hr', hch⟩ := mymalloc_spec (x := x) hf hr hfuel memptr size
  obtain ⟨rfl, rfl⟩ := Prod.mk.inj (Option.some.inj (hm.symm.trans hm'))
  refine ⟨?_, rfl⟩
  rcases hstore with hstore | ⟨hr₀, rfl⟩
  · obtain ⟨s₂, hstore', hheap, hstored⟩ := storeHeap_represents (p := p)
      (s := { s.note .mymalloc p with heap }) hf hr' hfuel
    obtain rfl := Option.some.inj (hstore'.symm.trans hstore)
    refine ⟨hp, hk, hhere, ?_, ?_, ?_, ?_, ?_, hstored⟩
    all_goals obtain ⟨free, -, rfl⟩ := storeHeap_eq_some.mp hstore
    · rfl
    · rfl
    · rfl
    · exact hch
    · exact hr'
  · -- what is on the page is what would be stored
    refine ⟨hp, hk, hhere, rfl, rfl, rfl, hch, hr', ?_⟩
    have hhead : s.heap.head ≠ 0 := by
      rw [hr.head]
      exact (frame_pos B _).ne'
    rw [hr₀, mymalloc, if_neg hhead] at hm
    have hheap := mymallocFrom_eq_zero hm
    show s.metas = Function.update s.metas p { s.metas p with
      freePageMem := ((lay s.current k).malloc x).2.room, head := heap.head, middle := heap.middle }
    rw [Layout.malloc_eq_self hr₀, hheap, hload.head, hload.middle, ← hg.free _ k p hp hk,
      Function.update_eq_self]

/-- A request on a heap of the caller. -/
theorem attempt_operated (hg : Good B s ch c lay live) (ha : Attempt B True ch c x r s s') :
    ∃ k p, Operated B ch c k p (lay s.current k) ((lay s.current k).malloc x).2 s s' ∧
      r = ((lay s.current k).malloc x).1 := by
  obtain ⟨-, hload, hp, hmemptr, hhere, hreq, hstore⟩ := ha
  rename_i s₁ k p memptr size
  have hk : c s.current ≤ k + 1 := by
    rcases hmemptr with rfl | hle
    · by_contra hlt'
      obtain ⟨heap, hm, -⟩ := request_eq_some.mp hreq
      apply mymalloc_head_ne_zero hm
      rw [hload.head]
      exact (hg.idle _ k p hp (by omega)).1
    · exact hle
  exact ⟨k, p, hg.request_operated hload hp hk (hhere trivial hk) hreq hstore⟩

/-- What the heap of the caller's `k`-th page serves is the caller's. -/
theorem malloc_operated (hg : Good B s ch c lay live) (hs' : Settled s' ch c)
    (ho : Operated B ch c k p (lay s.current k) ((lay s.current k).malloc x).2 s s') :
    Good B s' ch c (Function.update lay s.current
        (Function.update (lay s.current) k ((lay s.current k).malloc x).2))
        (afterMalloc live s.current x ((lay s.current k).malloc x).1) := by
  have hp := ho.place
  have hk := ho.last
  have hlt := Settled.lt_length hp
  have hw := hg.wf hp hk
  refine hg.operate hs' ho ((hg.inner _ k p hp hk).malloc hw) ?_ ?_
  · intro u e he
    by_cases hr₀ : ((lay s.current k).malloc x).1 = 0
    · rw [afterMalloc, if_pos hr₀] at he
      refine hg.alloc_update he fun _ b hb _ ↦ ?_
      rwa [Layout.malloc_eq_self hr₀]
    · obtain ⟨b, hb, hx, halloc, -⟩ := hw.malloc_allocated hr₀
      rw [afterMalloc, if_neg hr₀] at he
      have hkeep : u = s.current → ∀ d, (lay s.current k).Allocated d → d.addr + 32 = e.1 →
          ((lay s.current k).malloc x).2.Allocated d := fun _ d hd _ ↦ (halloc d).mpr (.inl hd)
      have hold : e ∈ live u → _ := fun he ↦ hg.alloc_update he hkeep
      by_cases hu : u = s.current
      · subst hu
        rw [Function.update_self] at he
        rcases List.mem_cons.mp he with rfl | he
        · refine ⟨k, b, hlt, hk, ?_, hb, hx⟩
          rw [Function.update_self, Function.update_self]
          exact (halloc b).mpr (.inr rfl)
        · exact hold he
      · rw [Function.update_of_ne hu] at he
        exact hold he
  · intro u
    by_cases hr₀ : ((lay s.current k).malloc x).1 = 0
    · rw [afterMalloc, if_pos hr₀]
      exact hg.nodup u
    · rw [afterMalloc, if_neg hr₀]
      by_cases hu : u = s.current
      · subst hu
        rw [Function.update_self, List.map_cons, List.nodup_cons]
        exact ⟨hg.notMem_live hp hk hr₀, hg.nodup s.current⟩
      · rw [Function.update_of_ne hu]
        exact hg.nodup u

theorem attempt (hg : Good B s ch c lay live) (ha : Attempt B True ch c x r s s') :
    ∃ k, k < (ch s.current).length ∧ c s.current ≤ k + 1 ∧ r = ((lay s.current k).malloc x).1 ∧
      Good B s' ch c (Function.update lay s.current
        (Function.update (lay s.current) k ((lay s.current k).malloc x).2))
        (afterMalloc live s.current x r) := by
  obtain ⟨k, p, ho, rfl⟩ := hg.attempt_operated ha
  exact ⟨k, Settled.lt_length ho.place, ho.last, rfl, hg.malloc_operated ha.settled ho⟩

theorem nodup_afterFree (hg : Good B s ch c lay live) (t x u : ℕ) :
    ((afterFree live t x u).map Prod.fst).Nodup := by
  unfold afterFree
  by_cases hu : u = t
  · subst hu
    rw [Function.update_self]
    exact (hg.nodup u).sublist (List.filter_sublist.map _)
  · rw [Function.update_of_ne hu]
    exact hg.nodup u

/-- A release in a heap of the caller. -/
theorem release_operated (hg : Good B s ch c lay live) (hrel : Release B True ch c x s s')
    {b : Lib.Block} (hk : c s.current ≤ (frameOf B x).toNat + 1)
    (hb : (lay s.current (frameOf B x).toNat).Allocated b) (hx : b.addr + 32 = x)
    (hle : x ≤ B.frame (base (c s.current) (frameOf B x).toNat) + 4999) :
    ∃ p, Operated B ch c (frameOf B x).toNat p (lay s.current (frameOf B x).toNat)
      ((lay s.current (frameOf B x).toNat).release b.addr) s s' := by
  obtain ⟨-, hload, hp, hkx, hhere, hstore⟩ := hrel
  rename_i k p
  have hkx' := hkx trivial
  rw [hkx'] at hk hb hle ⊢
  have hlt := Settled.lt_length hp
  have hsmall := hg.settled.small s.current
  have hr := hg.machine hload hp hk (hhere trivial hk)
  have hf := fits_heap (B := B) (n := c s.current) (show k < 1597 by omega)
  have hfuel := heap_lt_fuel (B := B) (n := c s.current) (show k < 1597 by omega)
  obtain ⟨heap, hm, hr', hch⟩ := myfree_released hf hr hb (by omega)
  rw [hx] at hm
  have hheap : (Paging.release p x s).heap = heap := by
    show (myfree x s.heap).2 = heap
    rw [hm]
  obtain ⟨s₂, hstore', hheap', hstored⟩ := storeHeap_represents (p := p)
    (s := Paging.release p x s) hf (hheap ▸ hr') hfuel
  obtain rfl := Option.some.inj (hstore'.symm.trans hstore)
  have hsame : s₂.pageFrame = s.pageFrame ∧ s₂.swapFile = s.swapFile ∧ s₂.current = s.current := by
    obtain ⟨free, -, rfl⟩ := storeHeap_eq_some.mp hstore
    exact ⟨rfl, rfl, rfl⟩
  refine ⟨p, hp, hk, hhere trivial hk, hsame.1, hsame.2.1, hsame.2.2, ?_, ?_, hstored⟩
  · rw [hheap', hheap]
    exact hch.mono Set.subset_union_left
  · rw [hheap', hheap]
    exact hr'

/-- A block is released in the heap of its page. -/
theorem release (hg : Good B s ch c lay live) (hrel : Release B True ch c x s s') {b : Lib.Block}
    (hk : c s.current ≤ (frameOf B x).toNat + 1)
    (hb : (lay s.current (frameOf B x).toNat).Allocated b) (hx : b.addr + 32 = x)
    (hle : x ≤ B.frame (base (c s.current) (frameOf B x).toNat) + 4999) :
    Good B s' ch c
      (Function.update lay s.current (Function.update (lay s.current) (frameOf B x).toNat
      ((lay s.current (frameOf B x).toNat).release b.addr))) (afterFree live s.current x) := by
  obtain ⟨p, ho⟩ := hg.release_operated hrel hk hb hx hle
  refine hg.operate hrel.settled ho (hg.inner _ _ p ho.place hk).release ?_ ?_
  · intro u e he
    obtain ⟨he, hne⟩ := mem_afterFree.mp he
    refine hg.alloc_update he fun hu d hd haddr ↦ Layout.WF.allocated_release.mpr ⟨hd, fun hdb ↦ ?_⟩
    apply hne hu
    omega
  · exact hg.nodup_afterFree s.current x

end Good

/-! ## The work of a call -/

/-- The pages of the caller are in the memory or in the first slot of the swap file. -/
def Near (s : Manager) : Prop :=
  ∀ q ∈ s.made, (s.metas q).tid = s.current → s.pageFrame q ≤ 1597

theorem Near.of_steady (h : Near s) (hs : Steady s s') (hloc : s'.pageFrame = s.pageFrame) :
    Near s' := by
  intro q hq htid
  rw [hloc]
  exact h q (hs.made ▸ hq) (by rwa [hs.tid, hs.current] at htid)

/-- A page of another thread may go to the swap file, but none of the caller's. -/
theorem Near.bring (h : Near s) (hset : Settled s ch c) (hp : (ch s.current)[k]? = some p)
    (hne : s.pageFrame p ≠ k)
    (hs : swapPages B k (some (s.pageFrame p)) s = some s') : Near s' := by
  obtain ⟨-, ⟨q, hqp, hqk, hsw⟩, -⟩ := hset.bring hp hne hs
  have hkeep := (swapPages_keeps hs).1
  intro r hr htid
  rw [hkeep.metas, hkeep.current] at htid
  have hrmem : r ∈ s.pages := hkeep.pages.le hr
  have hsmall := hset.small s.current
  have hk := Settled.lt_length hp
  rw [hsw.pageFrame, Function.update_apply, Function.update_apply]
  split_ifs with hrp hrq
  · omega
  · -- the page in frame `k` is not the caller's
    subst hrq
    obtain ⟨t, j, hj⟩ := hset.exists_place hrmem
    obtain rfl := (hset.tid hj).symm.trans htid
    have htable : s.frameTable k = some r :=
      (hset.table.placed.table_iff k (by omega) (Set.notMem_empty k) r).mpr ⟨hrmem, hqk⟩
    have hown := hset.resident_own hk htable htid
    exact absurd (Option.some.inj (hown.symm.trans hp)) hqp
  · exact h r hrmem htid

theorem Work.near (hw : Work B Q ch c x s s') (hset : Settled s ch c) (h : Near s) : Near s' := by
  cases hw with
  | flags => exact h
  | bring _ hp hne hs => exact h.bring hset hp hne hs
  | load _ => exact h
  | fail ha => exact h.of_steady ha.steady.1 ha.steady.2.1

theorem Works.near (hw : Works B Q ch c x s s') (hset : Settled s ch c) (h : Near s) : Near s' := by
  induction hw with
  | refl => exact h
  | tail hws hw ih => exact hw.near (Works.settled hws hset).1 ih

namespace Good

theorem work (hg : Good B s ch c lay live) (hn : Near s) (hw : Work B True ch c x s s') :
    Good B s' ch c lay live := by
  have hs' := (hw.settled hg.settled).1
  cases hw with
  | flags => exact hg.of_contents hs' rfl (SameContents.refl s)
  | bring _ hp hne hs =>
    have hkeep := (swapPages_keeps hs).1
    refine hg.of_contents hs' hkeep.metas ((hg.settled.bring hp hne hs).2.2 ?_)
    exact hn _ (hg.settled.mem_pages hp) (hg.settled.tid hp)
  | load => exact hg.of_contents hs' rfl (SameContents.refl s)
  | fail ha =>
    obtain ⟨k, hlt, hk, hr, hg'⟩ := hg.attempt ha
    rwa [Layout.malloc_eq_self hr.symm, Function.update_eq_self, Function.update_eq_self] at hg'

theorem works (hg : Good B s ch c lay live) (hn : Near s) (hw : Works B True ch c x s s') :
    Good B s' ch c lay live := by
  induction hw with
  | refl => exact hg
  | tail hws hw ih => exact ih.work (Works.near hws hg.settled hn) hw

end Good

end MyPthread.Paging
