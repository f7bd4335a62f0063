import MyPthread.Paging.Limits

/-!
# The shared pages

The frames from 1596 on are shared by the threads, and the manager gives them to none.  A call
writes there only if an eviction does: what it does to the heaps of the caller stays in the frames
of the caller, of which there are at most as many as pages have been made.
-/

namespace MyPthread.Paging

open MyPthread.Lib MyPthread.Heap Function

variable {B : Block} {s s' s₁ s₂ s₃ : Manager} {ch : ℕ → List PageMetaPtr} {c : ℕ → ℕ}
  {lay : ℕ → ℕ → Layout} {live : ℕ → List (ℕ × ℕ)} {i k n x r a : ℕ} {p last front : PageMetaPtr}
  {o o' : Option PageMetaPtr} {h h' : Layout} {log : List Entry} {call : Call}

/-- The shared pages are as they were, if the evictions so far stay inside the private frames. -/
structure Spares (B : Block) (s s' : Manager) : Prop where
  suffix : s.trace <:+ s'.trace
  mem : (∀ e ∈ s'.trace, e.Inside B) →
    ∀ a, B.frame 1596 ≤ a → a < B.frame 1600 → s'.heap.mem a = s.heap.mem a

namespace Spares

theorem of_mem (htrace : s.trace <:+ s'.trace) (hmem : s'.heap.mem = s.heap.mem) : Spares B s s' :=
  ⟨htrace, fun _ _ _ _ ↦ by rw [hmem]⟩

theorem of_eq (htrace : s'.trace = s.trace) (hmem : s'.heap.mem = s.heap.mem) : Spares B s s' :=
  .of_mem (htrace ▸ List.suffix_refl _) hmem

theorem refl (s : Manager) : Spares B s s := .of_eq rfl rfl

theorem trans (h₁ : Spares B s s₁) (h₂ : Spares B s₁ s') : Spares B s s' := by
  refine ⟨h₁.suffix.trans h₂.suffix, fun hin a hlo hhi ↦ ?_⟩
  rw [h₂.mem hin a hlo hhi]
  exact h₁.mem (fun e he ↦ hin e (h₂.suffix.subset he)) a hlo hhi

/-- Writes to the private frames. -/
theorem of_changesOnly {S : Set ℕ} (htrace : s.trace <:+ s'.trace)
    (hch : ChangesOnly S s.heap.mem s'.heap.mem) (hS : ∀ a ∈ S, a < B.frame 1596) :
    Spares B s s' := by
  refine ⟨htrace, fun _ a hlo _ ↦ hch a fun ha ↦ ?_⟩
  exact absurd hlo (not_le.mpr (hS a ha))

end Spares

/-! ## Making pages -/

theorem swapPages_spares {src : ℕ} {dest : Option ℕ} (h : swapPages B src dest s = some s') :
    Spares B s s' := by
  obtain ⟨-, hf⟩ := swapPages_keeps h
  refine ⟨?_, fun hin ↦ ?_⟩
  · rw [hf.trace]
    exact List.suffix_cons _ _
  · have hev := hin
      (.swap (s.frameTable src) src dest (dest.getD s.pageCounter) s.heap.mem s'.heap.mem) (by
      rw [hf.trace]
      exact List.mem_cons_self)
    exact hev.2.2

theorem chainFirst_spares (i : ℕ) (init : PageMetaPtr → PageMeta → PageMeta) (s : Manager) :
    Spares B s (chainFirst i init s) := by
  rw [chainFirst_eq]
  exact .of_eq rfl rfl

theorem chainAfter_spares (i : ℕ) (init : PageMetaPtr → PageMeta → PageMeta) (last : PageMetaPtr)
    (s : Manager) : Spares B s (chainAfter i init last s) := by
  rw [chainAfter_eq]
  exact .of_eq rfl rfl

theorem newFirst_spares (h : newFirst B s = some (p, s')) : Spares B s s' := by
  obtain ⟨s₁, hs₁, -, rfl⟩ := newFirst_eq_some.mp h
  exact (swapPages_spares hs₁).trans (chainFirst_spares _ _ s₁)

theorem newPage_spares (h : newPage B s = some (p, s')) : Spares B s s' := by
  obtain ⟨s₁, prev, hs₁, -, -, rfl⟩ := newPage_eq_some.mp h
  have hframe : Spares B s (s.setMallocFrame (s.tcb.mallocFrame + 1)) := .of_eq rfl rfl
  exact (hframe.trans (swapPages_spares hs₁)).trans (chainAfter_spares _ _ prev s₁)

theorem evictRange_spares (h : evictRange B i n s = some s') : Spares B s s' := by
  induction n generalizing i s with
  | zero =>
    obtain rfl := Option.some.inj h
    exact Spares.refl s
  | succ n ih =>
    obtain ⟨s₁, hs₁, hrest⟩ := Option.bind_eq_some_iff.mp h
    exact (swapPages_spares hs₁).trans (ih hrest)

theorem chunkRest_spares (h : chunkRest front n i k o s = some (o', s')) : Spares B s s' := by
  induction k generalizing i o s with
  | zero =>
    obtain ⟨-, rfl⟩ := Prod.mk.inj (Option.some.inj h)
    exact Spares.refl s
  | succ k ih =>
    obtain ⟨prev, -, hrest⟩ := chunkRest_eq_some.mp h
    exact (chainAfter_spares i _ prev s).trans (ih hrest)

theorem chunkFirst_spares (h : chunkFirst B n s = some (o, s')) : Spares B s s' := by
  obtain ⟨s₁, s₂, hevict, hrest, rfl⟩ := chunkFirst_eq_some.mp h
  have hfront := chainFirst_spares (B := B) 0 (chunkMeta s₁.current n) s₁
  exact ((evictRange_spares hevict).trans hfront).trans
    ((chunkRest_spares hrest).trans (.of_eq rfl rfl))

/-! ## Heaps -/

theorem enter_spares (s : Manager) : Spares B s s.enter := .of_eq rfl rfl

theorem leave_spares (s : Manager) : Spares B s s.leave := .of_eq rfl rfl

theorem lt_of_mem_frames (hin : i + n ≤ 1596) (ha : a ∈ B.frames i n) : a < B.frame 1596 := by
  rw [Block.frames, mem_Range, frame_add] at ha
  exact ha.2.trans_le (frame_mono B hin)

/-- A heap is set up in private frames. -/
theorem newHeap_spares (hin : i + n ≤ 1596) (hone : 1 ≤ n)
    (hreq : request p x (B.frame i) ((4096 * n : ℕ) : ℤ) (resetHeap p s) = some (r, s₁))
    (hstore : storeHeap p s₁ = some s') : Spares B s s'.leave := by
  obtain ⟨s₂, s₃, hreq', hstore', -, hch, -⟩ := exists_freshHeap (B := B) (x := x) (p := p) (s := s)
    (show i + n ≤ 1597 by omega) hone
  obtain ⟨-, rfl⟩ := Prod.mk.inj (Option.some.inj (hreq.symm.trans hreq'))
  obtain rfl := Option.some.inj (hstore.symm.trans hstore')
  refine .of_changesOnly ?_ hch fun a ↦ lt_of_mem_frames hin
  obtain ⟨heap, -, rfl⟩ := request_eq_some.mp hreq
  obtain ⟨free, -, rfl⟩ := storeHeap_eq_some.mp hstore
  exact (List.suffix_cons _ _).trans ((List.suffix_cons _ _).trans (List.suffix_cons _ _))

theorem Attempt.suffix {Q : Prop} (ha : Attempt B Q ch c x r s s') : s.trace <:+ s'.trace := by
  obtain ⟨-, -, -, -, -, hreq, hstore⟩ := ha
  obtain ⟨heap, -, rfl⟩ := request_eq_some.mp hreq
  rcases hstore with hstore | ⟨-, rfl⟩
  · obtain ⟨free, -, rfl⟩ := storeHeap_eq_some.mp hstore
    exact (List.suffix_cons _ _).trans (List.suffix_cons _ _)
  · exact List.suffix_cons _ _

theorem Release.suffix {Q : Prop} (hr : Release B Q ch c x s s') : s.trace <:+ s'.trace := by
  obtain ⟨-, -, -, -, -, hstore⟩ := hr
  obtain ⟨free, -, rfl⟩ := storeHeap_eq_some.mp hstore
  exact (List.suffix_cons _ _).trans (List.suffix_cons _ _)

/-- The headers of the heap of a page are in private frames. -/
theorem Operated.spares (ho : Operated B ch c k p h h' s s') (hset : Settled s ch c)
    (hw : h.WF (B.frame (base (c s.current) k)) (B.frame (k + 1))) (hpc : s.pageCounter ≤ 1596)
    (htrace : s.trace <:+ s'.trace) : Spares B s s' := by
  have hlt := Settled.lt_length ho.place
  have hspan := hset.span s.current
  have hframe : B.frame (k + 1) ≤ B.frame 1596 := frame_mono B (by omega)
  refine .of_changesOnly htrace ho.mem ?_
  rintro a (ha | ha)
  · exact (mem_heapFrames_iff.mp (headers_subset_heapFrames hw ha)).2.trans_le hframe
  · exact (mem_heapFrames_iff.mp (headers_subset_heapFrames ho.represents.wf ha)).2.trans_le hframe

namespace Good

theorem attempt_spares (hg : Good B s ch c lay live) (ha : Attempt B True ch c x r s s')
    (hpc : s.pageCounter ≤ 1596) : Spares B s s' := by
  obtain ⟨k, p, ho, -⟩ := hg.attempt_operated ha
  exact ho.spares hg.settled (hg.wf ho.place ho.last) hpc ha.suffix

theorem work_spares (hg : Good B s ch c lay live) (hw : Work B True ch c x s s')
    (hpc : s.pageCounter ≤ 1596) : Spares B s s' := by
  cases hw with
  | flags flag access => exact .of_eq rfl rfl
  | bring _ _ _ hs => exact swapPages_spares hs
  | load _ => exact .of_mem (List.suffix_cons _ _) rfl
  | fail ha => exact hg.attempt_spares ha hpc

theorem works_spares (hg : Good B s ch c lay live) (hn : Near s) (hw : Works B True ch c x s s')
    (hpc : s.pageCounter ≤ 1596) : Spares B s s' := by
  induction hw with
  | refl => exact .refl s
  | tail hw hlast ih =>
    refine ih.trans ((hg.works hn hw).work_spares hlast ?_)
    rw [(Works.steady hw).pageCounter]
    exact hpc

end Good

/-! ## Calls -/

namespace Good

theorem page_spares (hg : Good B s ch c lay live) (hsd : Sound B s) (hc : Counted s) (hn : Near s)
    (hx : x ≤ 4064) (hfront : FrontHere B x s ch c) (hpc : s'.pageCounter ≤ 1596)
    (hle : s.pageCounter ≤ 1596) (hs : allocatePage B x s = some (r, s')) : Spares B s s' := by
  by_cases hsome : s.tcb.firstPage = none
  · rcases allocatePage_eq_some.mp hs with ⟨hcur, rfl⟩ | ⟨cur, s₁, r₁, s₂, hcur, htry, hend⟩
    · rcases currentPage_eq_some.mp hcur with ⟨-, last, -, -, -, -, hlast, -⟩ |
        ⟨-, -, new, -, -, hnew, -⟩ | ⟨-, -, -, rfl⟩
      · cases hlast
      · cases hnew
      · exact .refl s
    · rcases currentPage_eq_some.mp hcur with ⟨hsome', -⟩ |
        ⟨hnone, hlt, new, s₃, hnew, hnew', rfl⟩ | ⟨-, -, hnone, -⟩
      · exact absurd hsome hsome'
      · -- the first page of the caller
        obtain rfl := Option.some.inj hnew'
        have hmf := (newFirst_counted hsd hc hnone hnew).2.2.mallocFrame
        rw [if_pos hnone] at hmf
        have hmf' : s₃.tcb.mallocFrame = 0 := by omega
        obtain ⟨r₂, s₄, s₅, hreq, hstore, hsearch⟩ := tryPages_eq_some.mp htry
        rw [show (resetHeap new s₃).tcb.mallocFrame = 0 from hmf'] at hreq
        have hr := request_page_ne_zero hx (by omega) rfl hreq
        rcases hsearch with ⟨-, rfl, rfl⟩ | ⟨rfl, -⟩
        · rcases hend with ⟨-, rfl, rfl⟩ | ⟨rfl, -⟩
          · exact (newFirst_spares hnew).trans
              (newHeap_spares (i := 0) (n := 1) (by omega) (le_refl 1) hreq hstore)
          · exact absurd rfl hr
        · exact absurd rfl hr
      · cases hnone
  · rcases allocatePage_found (Q := True) hg.settled hsd hc hsome (fun _ ↦ hfront) hs with hf |
      ⟨s₂, last, hw, hsd₂, -, -, hnew⟩
    · cases hf with
      | nothing _ hw => exact hg.works_spares hn hw hle
      | page _ hw ha hleave =>
        rw [← hleave]
        have hpc₁ := hw.steady.pageCounter
        exact ((hg.works_spares hn hw hle).trans ((hg.works hn hw).attempt_spares ha
          (by omega))).trans (leave_spares _)
    · refine (hg.works_spares hn hw hle).trans ?_
      rcases allocateNew_eq_some.mp hnew with ⟨-, -, rfl⟩ |
        ⟨-, new, s₅, s₆, s₇, hpage, hreq, hstore, rfl⟩
      · exact .refl _
      · have hsome₂ : s₂.tcb.firstPage ≠ none := by
          rw [hw.steady.tcb]
          exact hsome
        obtain ⟨-, hc₅, he⟩ := newPage_counted hsd₂ (hw.counted hc) hsome₂ hpage
        have hlt : s₅.tcb.mallocFrame < s₅.pageCounter := hc₅.lt_pageCounter he.firstPage
        have hst := (resetHeap_steady new s₅).trans ((request_steady hreq).trans
          (storeHeap_steady hstore))
        have hpc₅ : s₅.pageCounter ≤ 1596 := hst.pageCounter.ge.trans hpc
        exact (newPage_spares hpage).trans
          (newHeap_spares (n := 1) (by omega) (le_refl 1) hreq hstore)

theorem chunk_spares (hsd : Sound B s) (hc : Counted s) (hlarge : 4064 < x)
    (hlater : ¬LaterChunk x s)
    (hs : allocateChunk B x s = some (r, s')) : Spares B s s' := by
  rcases allocateChunk_eq_some.mp hs with ⟨-, -, rfl⟩ | ⟨hmany, last, s₁, front, s₂, s₃, hchunk,
    hfront, hreq, hstore, rfl⟩
  · exact .refl s
  · obtain ⟨hn, -⟩ := le_of_not_tooMany hmany
    rcases hchunk with ⟨hnone, hchunk⟩ | ⟨hsome, -⟩
    · have htwo := (chunkFirst_counted hsd hc hnone hchunk).1
      obtain ⟨front', hfront', hloc⟩ := chunkFirst_front hchunk
      obtain rfl := Option.some.inj (hfront'.symm.trans hfront)
      rw [hloc] at hreq
      have hreq' : request last x (B.frame 0) ((4096 * numOfPages x : ℕ) : ℤ) (resetHeap last s₁) =
          some (r, s₂) := by
        push_cast
        exact hreq
      exact (chunkFirst_spares hchunk).trans (newHeap_spares (by omega) (by omega) hreq' hstore)
    · exact absurd ⟨hlarge, hsome, hmany⟩ hlater

theorem malloc_spares (hg : Good B s ch c lay live) (hsd : Sound B s) (hc : Counted s) (hn : Near s)
    (hlater : ¬LaterChunk x s) (hfront : x ≤ 4064 → FrontHere B x s.enter ch c)
    (hle : s.pageCounter ≤ 1596) (hpc : s'.pageCounter ≤ 1596)
    (hs : myallocate B x s = some (r, s')) : Spares B s s' := by
  refine (enter_spares s).trans ?_
  rw [myallocate] at hs
  split_ifs at hs with hlarge
  · exact chunk_spares hsd.enter (hc.steady (enter_steady s)) hlarge hlater hs
  · have hx := not_lt.mp hlarge
    exact hg.enter.page_spares hsd.enter (hc.steady (enter_steady s)) hn hx (hfront hx) hpc hle hs

/-- A block is released in a heap of the caller. -/
theorem free_spares (hg : Good B s ch c lay live) (hsd : Sound B s) (hn : Near s) {e : ℕ × ℕ}
    (he : e ∈ live s.current) (hf : Freeable B e.1 s) (hhome : ChunkFreeHere B e.1 s ch c)
    (hpc : s.pageCounter ≤ 1596) (hs : mydeallocate B e.1 s = some s') : Spares B s s' := by
  obtain ⟨-, p, b, hp, hk, hb, haddr, hsize, hle⟩ := hg.exists_freeable he hf
  have hmf : (frameOf B e.1).toNat ≤ s.tcb.mallocFrame := by
    have hlt := Settled.lt_length hp
    have hlen : (ch s.current).length = s.tcb.mallocFrame + 1 := by
      apply hg.settled.length
      intro hnil
      rw [hnil] at hp
      cases hp
    omega
  obtain ⟨s₁, s₂, hw, hrel, hleave⟩ := mydeallocate_works (Q := True) hg.settled hsd (.inr hmf)
    (fun _ ↦ ⟨hmf, hhome⟩) hs
  obtain ⟨-, hcur, -⟩ := hw.settled hg.settled
  have hg₁ := hg.works hn hw
  have hpc₁ := hw.steady.pageCounter
  rw [← hcur] at hk hb hle
  obtain ⟨q, ho⟩ := hg₁.release_operated hrel hk hb haddr hle
  rw [← hleave]
  refine ((hg.works_spares hn hw hpc).trans ?_).trans (leave_spares s₂)
  exact ho.spares hg₁.settled (hg₁.wf ho.place ho.last) (by omega) hrel.suffix

theorem access_spares (hg : Good B s ch c lay live) (hn : Near s) (hpc : s.pageCounter ≤ 1596)
    (hs : Paging.access B a s = some s') : Spares B s s' :=
  hg.works_spares hn (access_works hg.settled hs) hpc

/-- A call of a thread leaves the shared pages alone. -/
theorem exec_spares (hg : Good B s ch c lay (pointers log)) (hsd : Sound B s) (hc : Counted s)
    (hcall : Tame B call s log) (hpc : s'.pageCounter ≤ 1596) (hs : call.exec B s = some (r, s')) :
    Spares B s s' := by
  have hle := (hsd.pageCounter_le hc hs).trans hpc
  cases call with
  | malloc x =>
    obtain ⟨-, hlater, hfront, hn⟩ := hcall
    exact hg.malloc_spares hsd hc hn hlater (fun hx ↦ hg.settled.frontHere (hfront hx)) hle hpc hs
  | free p =>
    obtain ⟨⟨x, he⟩, hf, hhome, hn⟩ := hcall
    exact hg.free_spares hsd hn he hf (hg.settled.chunkFreeHere hhome) hle (exec_free.mp hs).2
  | load a => exact hg.access_spares hcall.2.2.1 hle (exec_load.mp hs).1
  | store a v =>
    obtain ⟨-, hin, hn, -⟩ := hcall
    obtain ⟨s₁, hs₁, rfl⟩ := store_eq_some.mp (exec_store.mp hs).2
    have hset : Spares B s₁ (Paging.setMem a v s₁) :=
      ⟨List.suffix_refl _, fun _ d hlo _ ↦ setByte_of_ne (hin.trans_le hlo).ne'⟩
    exact (hg.access_spares hn hle hs₁).trans hset
  | switch t =>
    obtain ⟨-, rfl⟩ := Prod.mk.inj (Option.some.inj hs)
    exact .of_eq rfl rfl
  | library n =>
    obtain ⟨-, rfl⟩ := Prod.mk.inj (Option.some.inj hs)
    exact .of_eq rfl rfl

end Good

/-- A run in which no eviction leaves the private frames changes no shared page. -/
theorem Spares.shared (h : Spares B s s') (hsd : Sound B s') (hpc : s'.pageCounter ≤ 1596)
    (hlo : B.frame 1596 ≤ a) (hhi : a < B.frame 1600) : s'.heap.mem a = s.heap.mem a :=
  h.mem (fun e he ↦ ((hsd.within e he).mono hpc).inside) a hlo hhi

end MyPthread.Paging
