import MyPthread.Paging.Supply
import MyPthread.Paging.Sizing

/-!
# Chunks of threads that have pages

A chunk for a thread that has pages is linked behind the last of them, and its front becomes the
`first_page` of the thread: the chain that the code then follows is the chunk alone.  In the runs
in which this does not happen the chains stay complete.
-/

namespace MyPthread.Paging

open MyPthread.Lib MyPthread.Heap Function

variable {B : Block} {s s' : Manager} {ch : ℕ → List PageMetaPtr} {c c' : ℕ → ℕ} {H : Set ℕ}
  {lay : ℕ → ℕ → Layout} {live : ℕ → List (ℕ × ℕ)} {i k n x r t : ℕ} {p q last : PageMetaPtr}
  {l : List PageMetaPtr}

/-- A page in a frame before those given up stays. -/
theorem Table.evictRange_before (h : Table s ch H) (hi : i + n ≤ 1597) (hin : i ≤ s.pageCounter)
    (hH : ∀ j, i ≤ j → j < i + n → j ∉ H) (hlt : s.pageFrame p < i)
    (hs : Paging.evictRange B i n s = some s') : s'.pageFrame p = s.pageFrame p := by
  induction n generalizing i H s with
  | zero =>
    cases hs
    rfl
  | succ n ih =>
    obtain ⟨s₁, hs₁, he, ht₁, -⟩ := h.evict (B := B) (i := i) (by omega) hin
      (hH i (le_refl i) (by omega))
    obtain ⟨s₂, hs₂, hs'⟩ := Option.bind_eq_some_iff.mp hs
    obtain rfl := Option.some.inj (hs₁.symm.trans hs₂)
    have hstay : s₁.pageFrame p = s.pageFrame p := by
      rw [he.pageFrame, if_neg]
      intro htable
      have hloc := ((h.placed.table_iff i (by omega) (hH i (le_refl i) (by omega)) p).mp htable).2
      omega
    have hpc := he.pageCounter
    rw [← hstay]
    refine ih (i := i + 1) ht₁ (by omega) (by omega) (fun j hij hjn hmem ↦ ?_) (by omega) hs'
    rcases hmem with rfl | hmem
    · omega
    · exact hH j (by omega) (by omega) hmem

/-- A chunk for a thread that has pages: the chain of the thread is the chunk. -/
theorem Settled.exists_chunkLater (h : Settled s ch c)
    (hlast : (ch s.current)[s.tcb.mallocFrame]? = some last)
    (hloc : s.pageFrame last = s.tcb.mallocFrame) (htwo : 2 ≤ n)
    (hroom : s.tcb.mallocFrame + 1 + n ≤ 1597) :
    ∃ o s' l, chunkLater B n s = some (some o, s') ∧ s'.current = s.current ∧ l.length = n ∧
      Path s'.next s'.tcb.firstPage l ∧ s'.tcb.mallocFrame = s.tcb.mallocFrame + n := by
  have hne : ch s.current ≠ [] := by
    intro hnil
    rw [hnil] at hlast
    cases hlast
  have hlen : (ch s.current).length = s.tcb.mallocFrame + 1 := h.length _ hne
  have hspan := h.span s.current
  have ht := h.table.touch (touched_setMallocFrame (s.tcb.mallocFrame + 1) s)
  have hH : ∀ j, s.tcb.mallocFrame + 1 ≤ j → j < s.tcb.mallocFrame + 1 + n → j ∉ (∅ : Set ℕ) :=
    fun j _ _ ↦ Set.notMem_empty j
  have hin : s.tcb.mallocFrame + 1 ≤ s.pageCounter := by omega
  obtain ⟨s₁, hs₁, hg, ht₁⟩ := ht.evictRange (B := B) hroom hin hH
  have hstay : s₁.pageFrame last = s.tcb.mallocFrame := by
    refine (ht.evictRange_before (p := last) hroom hin hH ?_ hs₁).trans hloc
    exact hloc.trans_lt (Nat.lt_succ_self _)
  have hcur : s₁.current = s.current := hg.keeps.current
  have hprev : s₁.frameTable s.tcb.mallocFrame = some last := by
    rw [← hstay]
    exact ht₁.placed.table_loc (hg.keeps.pages.ge (h.mem_pages hlast)) (by omega)
  have hget : (ch s₁.current).getLast? = some last := by
    rw [hcur, List.getLast?_eq_getElem?, hlen]
    exact hlast
  obtain ⟨ha, ht₂⟩ := ht₁.chainAfter (i := s.tcb.mallocFrame + 1)
    (.inr ⟨le_refl _, by omega⟩) hget (chunkMeta s₁.current n) fun _ _ ↦ rfl
  generalize hs₂ :
    chainAfter (s.tcb.mallocFrame + 1) (chunkMeta s₁.current n) last s₁ = s₂ at ha ht₂
  -- the front of the chunk becomes the first page
  have hplace : (addPage ch s₁.current s₁.osMemPtr s₂.current)[s.tcb.mallocFrame + 1]? =
      some s₁.osMemPtr := by
    rw [ha.current, addPage_self, hcur, ← hlen, List.getElem?_concat_length]
  have ht₃ := ht₂.repoint hplace
  have hchain : update (addPage ch s₁.current s₁.osMemPtr) s₂.current
      ((addPage ch s₁.current s₁.osMemPtr s₂.current).drop (s.tcb.mallocFrame + 1)) s₂.current =
      [s₁.osMemPtr] := by
    rw [update_self, ha.current, addPage_self, hcur, ← hlen, List.drop_left]
  have hlast₃ : (update (addPage ch s₁.current s₁.osMemPtr) s₂.current
      ((addPage ch s₁.current s₁.osMemPtr s₂.current).drop (s.tcb.mallocFrame + 1))
      (s₂.setFirstPage s₁.osMemPtr).current).getLast? = some s₁.osMemPtr := by
    rw [show (s₂.setFirstPage s₁.osMemPtr).current = s₂.current from rfl, hchain]
    rfl
  have hloc₃ : (s₂.setFirstPage s₁.osMemPtr).pageFrame s₁.osMemPtr + 1 =
      s.tcb.mallocFrame + 1 + 1 := by
    rw [show (s₂.setFirstPage s₁.osMemPtr).pageFrame = s₂.pageFrame from rfl, ha.pageFrame,
      update_self]
  have hH₃ : ∀ j, s.tcb.mallocFrame + 1 + 1 ≤ j → j < s.tcb.mallocFrame + 1 + 1 + (n - 1) →
      j ∈ (∅ ∪ Set.Ico (s.tcb.mallocFrame + 1) (s.tcb.mallocFrame + 1 + n)) \
        {s.tcb.mallocFrame + 1} := by
    intro j hj hjn
    refine ⟨.inr ⟨by omega, by omega⟩, ?_⟩
    rw [Set.mem_singleton_iff]
    omega
  obtain ⟨o', s', hs', -, hsome⟩ := ht₃.exists_chunkRest s₁.osMemPtr (k := n - 1)
    (n := n) (o := none) hH₃ hlast₃ hloc₃ (by omega)
  obtain ⟨o, rfl⟩ := Option.ne_none_iff_exists'.mp (hsome (by omega))
  obtain ⟨l, hl, hb, ht', -, htcbs⟩ := ht₃.chunkRest (B := B) hH₃ hlast₃ hloc₃ (by omega) hs'
  have hcur' : s'.current = s.current := hb.current.trans (ha.current.trans hcur)
  refine ⟨o, s'.setMallocFrame (s.tcb.mallocFrame + 1 + (n - 1)), s₁.osMemPtr :: l, ?_, hcur', ?_,
    ?_, ?_⟩
  · refine chunkLater_eq_some.mpr ⟨s₁, last, s', hs₁, hprev, ?_, rfl⟩
    rw [hs₂]
    exact hs'
  · rw [List.length_cons, hl]
    omega
  · have hpath := ht'.path s'.current
    have hshape : ∀ u, u = s₂.current →
      extend (update (addPage ch s₁.current s₁.osMemPtr) s₂.current
        ((addPage ch s₁.current s₁.osMemPtr s₂.current).drop (s.tcb.mallocFrame + 1))) s₂.current l
          u = s₁.osMemPtr :: l := by
      rintro u rfl
      rw [extend_self, hchain]
      rfl
    rw [Manager.tcb_setMallocFrame]
    rw [show extend _ (s₂.setFirstPage s₁.osMemPtr).current l s'.current = _ from
      hshape _ hb.current] at hpath
    exact hpath
  · rw [Manager.tcb_setMallocFrame]
    show s.tcb.mallocFrame + 1 + (n - 1) = _
    omega

/-- A thread that has pages gets a chunk: its chain has as many pages as the chunk, and its
`malloc_frame` counts the others as well. -/
theorem Settled.exists_later (h : Settled s ch c)
    (hlast : (ch s.current)[s.tcb.mallocFrame]? = some last)
    (hloc : s.pageFrame last = s.tcb.mallocFrame) (hlarge : 4064 < x)
    (htwo : 2 ≤ numOfPages x) (hroom : s.tcb.mallocFrame + numOfPages x ≤ 1595) :
    ∃ r s' l, myallocate B x s = some (r, s') ∧ s'.current = s.current ∧
      l.length = numOfPages x ∧ Path s'.next s'.tcb.firstPage l ∧
      s'.tcb.mallocFrame = s.tcb.mallocFrame + numOfPages x := by
  have hset : Settled s.enter ch c := h.of_steady (enter_steady s) rfl rfl rfl
  obtain ⟨o, s₁, l, hchunk, hcur, hl, hpath, hmf⟩ := hset.exists_chunkLater (B := B) hlast hloc htwo
    (show s.tcb.mallocFrame + 1 + numOfPages x ≤ 1597 by omega)
  obtain ⟨front, hfront, hplace⟩ := chunkLater_front hchunk
  obtain ⟨s₂, s₃, hreq, hstore, -⟩ := exists_freshHeap (B := B) (x := x) (p := o) (s := s₁)
    (i := s.tcb.mallocFrame + 1) (n := numOfPages x) (by omega) (by omega)
  have hst := (resetHeap_steady o s₁).trans ((request_steady hreq).trans (storeHeap_steady hstore))
  have hsome : s.tcb.firstPage ≠ none := by
    refine h.firstPage_ne.mpr fun hnil ↦ ?_
    rw [hnil] at hlast
    cases hlast
  refine ⟨(firstLayout B (s.tcb.mallocFrame + 1) (numOfPages x) x).1, s₃.leave, l, ?_,
    hst.current.trans hcur, hl, ?_, ?_⟩
  · rw [myallocate, if_pos hlarge]
    refine allocateChunk_eq_some.mpr (.inr ⟨?_, o, s₁, front, s₂, s₃, .inr ⟨hsome, hchunk⟩, hfront,
      ?_, hstore, rfl⟩)
    · rw [Manager.TooMany, if_neg (show s.enter.tcb.firstPage ≠ none from hsome)]
      exact not_lt.mpr hroom
    · rw [hplace]
      exact hreq
  · show Path s₃.next s₃.tcb.firstPage l
    rw [hst.tcb, hst.next]
    exact hpath
  · show s₃.tcb.mallocFrame = _
    rw [hst.tcb]
    exact hmf

/-! ## Runs -/

/-- In every run in which no thread that has pages gets a chunk, the chain of every thread is
complete. -/
theorem exists_chainOf (h : Reachable B (Chained B) s) (ht : (s.tcbs t).firstPage ≠ none) :
    ∃ l, ChainOf s t l := by
  obtain ⟨ch, c, hset⟩ := h.settled fun _ _ hp ↦ hp
  exact ⟨ch t, hset.chainOf ht⟩

/-- Thread 0 has a chunk of two pages, the first of which the page of thread 1 displaces. -/
theorem exists_chainOf_first : ∃ (s : Manager) (p : PageMetaPtr), (s.tcbs 0).firstPage = some p ∧
    s.pageFrame p ≠ 0 ∧ (s.tcbs 0).mallocFrame = 1 ∧ ∃ l, ChainOf s 0 l := by
  have hg := Good.start (B := lowBlock) blank_zeroed fun _ _ ↦ Layout.fresh 0 0
  have hstart : Reachable lowBlock (Chained lowBlock) (blank.start lowBlock) := .start blank_zeroed
  obtain ⟨hsd, hc⟩ := hstart.sound
  have hpages : numOfPages 5000 = 2 := by decide
  obtain ⟨r, l, s, hs, hf⟩ := hg.exists_chunk hsd hc (x := 5000) rfl (by decide) (by decide)
    (by decide) (by decide)
  have hreach : Reachable lowBlock (Chained lowBlock) s :=
    .call (c := .malloc 5000) hstart ⟨by decide, fun hlater ↦ hlater.2.1 rfl⟩ hs
  obtain ⟨a, b, rfl⟩ := List.length_eq_two.mp (hf.length.trans hpages)
  have hpc : s.pageCounter = 2 := hf.pageCounter
  obtain ⟨r₁, d, s₁, hs₁, hreach₁, hf₁, haway⟩ := hf.exists_displaced hreach trivial
    ⟨by decide, fun hlater ↦ absurd hlater.1 (by decide)⟩ (t := 1) (n := 100) (by decide) rfl
    (by omega) (by decide)
  have hset := hf₁.good.settled
  have hfirst : (s₁.tcbs 0).firstPage = some a := (hset.table.path 0).head
  have hlen := hset.length 0 (List.cons_ne_nil a [b])
  refine ⟨s₁, a, hfirst, haway a rfl, (Nat.succ_injective hlen).symm,
    exists_chainOf hreach₁ (hfirst.trans_ne (Option.some_ne_none a))⟩

/-- A request of 100 bytes and one of 5000: of the three pages of the thread two are in its
chain. -/
theorem not_exists_chainOf : ∃ s : Manager, Reachable lowBlock (fun _ _ ↦ True) s ∧
    s.pageCounter ≤ 1596 ∧ (s.tcbs 0).firstPage ≠ none ∧ ∀ l, ¬ChainOf s 0 l := by
  have hg := Good.start (B := lowBlock) blank_zeroed fun _ _ ↦ Layout.fresh 0 0
  have hstart : Reachable lowBlock (fun _ _ ↦ True) (blank.start lowBlock) := .start blank_zeroed
  obtain ⟨hsd, hc⟩ := hstart.sound
  obtain ⟨r, p, s, hs, hf⟩ := hg.exists_first hsd hc (x := 100) rfl (by decide) (by decide)
  have hreach := Reachable.call (c := .malloc 100) hstart trivial hs
  obtain ⟨hsd₁, hc₁⟩ := hreach.sound
  have hset := hf.good.settled
  have hcur : s.current = 0 := hf.current
  have hch : update (fun _ ↦ []) (blank.start lowBlock).current [p] s.current = [p] := by
    rw [hcur]
    exact update_self ..
  have hmf : s.tcb.mallocFrame = 0 := by
    have hlen := hset.length s.current
    rw [hch] at hlen
    exact (Nat.succ_injective (hlen (List.cons_ne_nil _ _))).symm
  have hpages : numOfPages 5000 = 2 := by decide
  -- the chunk
  obtain ⟨r', s', l, hs', hcur', hl, hpath, hmf'⟩ := hset.exists_later (B := lowBlock) (x := 5000)
    (show _ = some p by rw [hch, hmf]; rfl) ((hf.pageFrame 0 p rfl).trans hmf.symm) (by decide)
    (by decide) (by rw [hmf, hpages]; decide)
  rw [hpages] at hl hmf'
  have hcur₀ : s'.current = 0 := hcur'.trans hcur
  refine ⟨s', .call (c := .malloc 5000) hreach trivial hs', ?_, ?_, fun k hk ↦ ?_⟩
  · have hle := myallocate_pageCounter_le hsd₁ hc₁ (by decide) hs'
    rw [hf.pageCounter, show pagesFor 5000 = 2 from hpages] at hle
    exact hle.trans (show 0 + 1 + 2 ≤ 1596 by decide)
  · rw [← hcur₀]
    intro hnil
    rw [hnil] at hpath
    rw [hpath.unique (show Path s'.next none [] from rfl)] at hl
    cases hl
  · have hlen := hk.length
    have hsame := hk.path
    rw [← hcur₀] at hlen hsame
    rw [← hpath.unique hsame, hl, hmf', hmf] at hlen
    cases hlen

end MyPthread.Paging
