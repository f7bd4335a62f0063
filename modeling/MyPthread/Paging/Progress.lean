import MyPthread.Paging.Payloads

/-!
# Calls return

As long as what the threads see is good, the loops of a call come to their ends and find the
pages they look for, and every heap operation returns.  A request for which a page of the
caller has room is served by one of those pages.
-/

namespace MyPthread.Paging

open MyPthread.Lib MyPthread.Heap Function Relation

variable {B : Block} {s s' s₁ s₂ : Manager} {ch : ℕ → List PageMetaPtr} {c : ℕ → ℕ}
  {lay : ℕ → ℕ → Layout} {live : ℕ → List (ℕ × ℕ)} {i j k n o x r t a fuel : ℕ}
  {p q cur last front : PageMetaPtr}

/-! ## Bringing pages in -/

theorem Settled.exists_bring (h : Settled s ch c) (hp : (ch s.current)[k]? = some p)
    (hne : s.pageFrame p ≠ k) : ∃ s', swapPages B k (some (s.pageFrame p)) s = some s' := by
  have hk := lt_length hp
  have hsmall := h.small s.current
  have hspan := h.span s.current
  obtain ⟨s', -, hs', -⟩ := h.table.swap (B := B) (show k < 1597 by omega) (by omega)
    (Set.notMem_empty k) (h.mem_pages hp) (fun _ ↦ hp) hne
  exact ⟨s', hs'⟩

/-- The walk to the end of the chain of the caller. -/
theorem Settled.exists_lastPage (h : Settled s ch c) (hne : ch s.current ≠ []) :
    ∃ first last, s.tcb.firstPage = some first ∧
      Paging.lastPage s.next (s.pageCounter + 1) first = some last := by
  obtain ⟨first, l, hl⟩ := List.exists_cons_of_ne_nil hne
  have hpath := h.table.path s.current
  have hspan := h.span s.current
  have hfirst := h.firstPage_eq s.current
  rw [hl] at hpath hspan hfirst
  rw [List.length_cons] at hspan
  rw [hfirst] at hpath
  refine ⟨first, (first :: l).getLast (List.cons_ne_nil first l), hfirst, ?_⟩
  rw [lastPage_eq hpath (by omega), List.getLast?_eq_some_getLast]

theorem Settled.exists_bringLast (h : Settled s ch c) (hne : ch s.current ≠ []) :
    ∃ last s', bringLast B s = some (last, s') := by
  have hlen : (ch s.current).length = s.tcb.mallocFrame + 1 := h.length _ hne
  obtain ⟨temp, htemp, -⟩ :=
    h.exists_resident (show s.tcb.mallocFrame < (ch s.current).length by omega)
  by_cases htid : (s.metas temp).tid = s.current
  · exact ⟨temp, s, bringLast_eq_some.mpr ⟨temp, htemp, .inl ⟨htid, rfl, rfl⟩⟩⟩
  · obtain ⟨first, last, hfirst, hlast⟩ := h.exists_lastPage hne
    have hp := h.lastPage hfirst hlast
    have haway : s.pageFrame last ≠ s.tcb.mallocFrame := by
      intro hin
      have htable := (h.pageFrame_iff hp).mp hin
      obtain rfl := Option.some.inj (htable.symm.trans htemp)
      exact htid (h.tid hp)
    obtain ⟨s', hs'⟩ := h.exists_bring (B := B) hp haway
    exact ⟨last, s', bringLast_eq_some.mpr
      ⟨temp, htemp, .inr ⟨htid, first, hfirst, hlast, hs'⟩⟩⟩

theorem Settled.exists_bringPage (h : Settled s ch c) (hp : (ch s.current)[k]? = some p) :
    ∃ s', bringPage B k p s = some s' := by
  by_cases hin : s.pageFrame p = k
  · exact ⟨s, bringPage_eq_some.mpr (.inl ⟨hin, rfl⟩)⟩
  · obtain ⟨s', hs'⟩ := h.exists_bring (B := B) hp hin
    exact ⟨s', bringPage_eq_some.mpr (.inr ⟨hin, hs'⟩)⟩

/-- The loop over the pages of a chunk before the `k`-th page. -/
theorem Settled.exists_bringChunk (h : Settled s ch c) (hcur : (ch s.current)[k]? = some cur)
    (hin : s.pageFrame cur = k) (hik : i ≤ k) (hfuel : k < fuel + i) :
    ∃ s', bringChunk B cur fuel i ((ch s.current)[i]?) s = some s' := by
  induction fuel generalizing i s with
  | zero => omega
  | succ fuel ih =>
    rcases Nat.eq_or_lt_of_le hik with rfl | hlt
    · exact ⟨s, bringChunk_eq_some.mpr (.inl ⟨hin.le, rfl⟩)⟩
    · have hlen := lt_length hcur
      obtain ⟨p, hp⟩ : ∃ p, (ch s.current)[i]? = some p := ⟨_, List.getElem?_eq_getElem (by omega)⟩
      obtain ⟨s₁, hs₁, hb⟩ : ∃ s₁, (s.frameTable i = (ch s.current)[i]? ∧ s = s₁ ∨
          s.frameTable i ≠ (ch s.current)[i]? ∧ ∃ q, s.frameTable i = some q ∧
            swapPages B (s.pageFrame q) (some (s.pageFrame p)) s = some s₁) ∧
          Brought B True ch c 0 s s₁ := by
        by_cases htable : s.frameTable i = (ch s.current)[i]?
        · exact ⟨s, .inl ⟨htable, rfl⟩, h.brought⟩
        · have haway : s.pageFrame p ≠ i := by
            intro hpi
            exact htable (((h.pageFrame_iff hp).mp hpi).trans hp.symm)
          obtain ⟨q, hq, hloc⟩ := h.exists_resident (lt_length hp)
          obtain ⟨s₁, hs₁⟩ := h.exists_bring (B := B) hp haway
          exact ⟨s₁, .inr ⟨htable, q, hq, hloc.symm ▸ hs₁⟩, (h.brought_one hp haway hs₁).1⟩
      have hcur₁ := hb.keeps.current
      obtain ⟨s', hs'⟩ := ih hb.settled (by rwa [hcur₁]) (hb.stays k cur hcur hin) hlt (by omega)
      refine ⟨s', bringChunk_eq_some.mpr (.inr ⟨by omega, p, s₁, hp, hs₁, ?_⟩)⟩
      rw [hb.keeps.next, h.next_eq hp, ← hcur₁]
      exact hs'

theorem Settled.exists_bringFront (h : Settled s ch c) (hcur : (ch s.current)[k]? = some cur)
    (hin : s.pageFrame cur = k) : ∃ s', bringFront B cur s = some s' := by
  have hk := lt_length hcur
  have hspan := h.span s.current
  have hfront := h.front _ k cur hcur
  rw [bringFront]
  by_cases hkc : k < c s.current
  · obtain ⟨front, hf⟩ : ∃ front, (ch s.current)[0]? = some front :=
      ⟨_, List.getElem?_eq_getElem (by omega)⟩
    rw [if_pos hkc, hf] at hfront
    rw [hfront]
    dsimp only
    by_cases hhome : s.pageFrame front = 0
    · rw [hhome, ← hf]
      exact h.exists_bringChunk hcur hin (Nat.zero_le k) (by omega)
    · have haway := h.away _ 0 front hf hhome s.current
      exact ⟨s, bringChunk_eq_some.mpr (.inl ⟨by omega, rfl⟩)⟩
  · rw [if_neg hkc] at hfront
    rw [hfront]
    exact ⟨s, rfl⟩

/-! ## Requests -/

namespace Good

/-- A request on a heap that is loaded and in place returns, and so does storing the heap. -/
theorem exists_request (hg : Good B s ch c lay live) (hload : Loaded p s)
    (hp : (ch s.current)[k]? = some p) (hk : c s.current ≤ k + 1) (hhere : HeapHere s ch c k)
    (x memptr : ℕ) (size : ℤ) :
    ∃ s₁ s₂, request p x memptr size s = some (((lay s.current k).malloc x).1, s₁) ∧
      storeHeap p s₁ = some s₂ ∧ s₁.metas = s.metas ∧ s₁.next = s.next := by
  have hlt := Settled.lt_length hp
  have hsmall := hg.settled.small s.current
  have hr := hg.machine hload hp hk hhere
  have hf := fits_heap (B := B) (n := c s.current) (show k < 1597 by omega)
  have hfuel := heap_lt_fuel (B := B) (n := c s.current) (show k < 1597 by omega)
  obtain ⟨heap, hm, hr', -⟩ := mymalloc_spec (x := x) hf hr hfuel memptr size
  obtain ⟨s₂, hs₂, -⟩ :=
    storeHeap_represents (p := p) (s := { s.note .mymalloc p with heap }) hf hr'
    hfuel
  exact ⟨_, s₂, request_eq_some.mpr ⟨heap, hm, rfl⟩, hs₂, rfl, rfl⟩

/-- A heap that has room for a request is one that the search tries. -/
theorem le_freePageMem (hg : Good B s ch c lay live) (hp : (ch t)[k]? = some p) (hk : c t ≤ k + 1)
    (hx : x < 2 ^ 31) (hroom : ((lay t k).malloc x).1 ≠ 0) : toI32 x ≤ (s.metas p).freePageMem := by
  rw [hg.free t k p hp hk]
  have hle := Layout.le_room hroom
  have hint : toI32 (x : ℤ) = x := toI32_of_nonneg ⟨by omega, by omega⟩
  omega

/-- A heap that the search tries is that of a last page. -/
theorem chunk_le (hg : Good B s ch c lay live) (hp : (ch t)[k]? = some p) (hx : x < 2 ^ 31)
    (hfree : toI32 x ≤ (s.metas p).freePageMem) : c t ≤ k + 1 := by
  by_contra hlt
  have hidle := (hg.idle t k p hp (by omega)).2
  have hint : toI32 (x : ℤ) = x := toI32_of_nonneg ⟨by omega, by omega⟩
  omega

/-- The search returns, and finds a heap that has room if there is one. -/
theorem exists_searchPages (hg : Good B s ch c lay live) (hn : Near s) (hx : x < 2 ^ 31)
    (hQ : ∀ j p, (ch s.current)[j]? = some p → toI32 x ≤ (s.metas p).freePageMem →
      ChunkHere s ch c j) (hk : k ≤ (ch s.current).length)
    (hfuel : (ch s.current).length < fuel + k) :
    ∃ r s', searchPages B x fuel k ((ch s.current)[k]?) s = some (r, s') ∧
      ∀ j, k ≤ j → j < (ch s.current).length → c s.current ≤ j + 1 →
        ((lay s.current j).malloc x).1 ≠ 0 → r ≠ 0 := by
  induction fuel generalizing k s with
  | zero => omega
  | succ fuel ih =>
    cases hp : (ch s.current)[k]? with
    | none =>
      have hge := List.getElem?_eq_none_iff.mp hp
      exact ⟨0, s, rfl, fun j hj hlt ↦ by omega⟩
    | some p =>
      have hlt := Settled.lt_length hp
      have hnext : ∀ s₁ : Manager, s₁.next = s.next → s₁.current = s.current →
          s₁.next p = (ch s₁.current)[k + 1]? := by
        intro s₁ hs₁ hcur
        rw [hs₁, hcur, hg.settled.next_eq hp]
      by_cases hfree : toI32 x ≤ (s.metas p).freePageMem
      · have hk := hg.chunk_le hp hx hfree
        obtain ⟨s₁, hbring⟩ := hg.settled.exists_bringPage (B := B) hp
        obtain ⟨hb, hin⟩ := bringPage_brought (Q := True) (x := x) hg.settled hp hbring
        have hp₁ : (ch s₁.current)[k]? = some p := by rwa [hb.keeps.current]
        obtain ⟨s₂, hfront⟩ := hb.settled.exists_bringFront (B := B) hp₁ hin
        obtain ⟨hb', hhere⟩ := bringFront_brought (Q := True) (x := x) hb.settled hp₁ hin hfront
        have hbb := hb.trans hb'
        have hcur₂ := hbb.keeps.current
        have hp₂ : (ch s₂.current)[k]? = some p := by rwa [hcur₂]
        have hw : Works B True ch c x s (loadHeap p s₂) := hbb.works.tail (.load hp₂)
        have hg₂ := hg.works hn hw
        have hn₂ := hw.near hg.settled hn
        have hhere₂ : HeapHere (loadHeap p s₂) ch c k := by
          refine hhere fun hlt front hf ↦ ?_
          rw [hb.keeps.current] at hlt hf
          exact hb.stays 0 front hf (hQ k p hp hfree (by omega) front hf)
        have hk₂ : c (loadHeap p s₂).current ≤ k + 1 := by
          show c s₂.current ≤ k + 1
          rwa [hcur₂]
        obtain ⟨s₃, s₄, hreq, hstore, hmetas, hnext₃⟩ :=
          hg₂.exists_request (loaded_loadHeap p s₂) hp₂ hk₂ hhere₂ x 0 0
        have htry : tryHeap B x p s₁ = some (((lay s₂.current k).malloc x).1, s₃) :=
          tryHeap_eq_some.mpr ⟨s₂, hfront, hreq⟩
        by_cases hr : ((lay s₂.current k).malloc x).1 = 0
        · -- the heap has no room, and the search goes on
          have hreq₀ : request p x 0 0 (loadHeap p s₂) = some (0, s₃) := hr ▸ hreq
          have hfail : Attempt B True ch c x 0 (loadHeap p s₂) s₃ :=
            .intro hg₂.settled (loaded_loadHeap p s₂) hp₂ (.inl rfl) (fun _ _ ↦ hhere₂) hreq₀
              (.inr ⟨rfl, rfl⟩)
          have hw₃ : Works B True ch c x s s₃ := hw.tail (.fail hfail)
          obtain ⟨hset₃, hcur₃, -, hstay₃⟩ := hw₃.settled hg.settled
          have hmetas₃ : s₃.metas = s.metas := hmetas.trans hbb.keeps.metas
          obtain ⟨r, s', hs', hfound⟩ := ih (hg.works hn hw₃) (hw₃.near hg.settled hn)
            (k := k + 1) (fun j q hq hfree' ↦ by
              rw [hcur₃] at hq
              rw [hmetas₃] at hfree'
              exact (hQ j q hq hfree').mono hstay₃ hcur₃)
            (by rw [hcur₃]; exact hlt) (by rw [hcur₃]; omega)
          refine ⟨r, s', searchPages_eq_some.mpr (.inr ⟨hfree, s₁, _, s₃, hbring, htry,
            .inr ⟨hr, ?_⟩⟩), fun j hj hlt hjc hroom ↦ ?_⟩
          · rw [hnext s₃ (hnext₃.trans hbb.keeps.next) hcur₃]
            exact hs'
          · rw [hcur₃] at hfound
            rcases Nat.eq_or_lt_of_le hj with rfl | hlt'
            · rw [hcur₂] at hr
              exact absurd hr hroom
            · exact hfound j hlt' hlt hjc hroom
        · exact ⟨_, s₄.leave, searchPages_eq_some.mpr (.inr ⟨hfree, s₁, _, s₃, hbring, htry,
            .inl ⟨hr, rfl, s₄, hstore, rfl⟩⟩), fun _ _ _ _ _ ↦ hr⟩
      · obtain ⟨r, s', hs', hfound⟩ := ih hg hn (k := k + 1) hQ hlt (by omega)
        refine ⟨r, s', searchPages_eq_some.mpr (.inl ⟨not_le.mp hfree, ?_⟩),
          fun j hj hlt hjc hroom ↦ ?_⟩
        · rw [hnext s rfl rfl]
          exact hs'
        · rcases Nat.eq_or_lt_of_le hj with rfl | hlt'
          · exact absurd (hg.le_freePageMem hp hjc hx hroom) hfree
          · exact hfound j hlt' hlt hjc hroom

/-- The heap of the last page of the caller is brought in and loaded. -/
theorem exists_currentPage (hg : Good B s ch c lay live) (hne : ch s.current ≠ [])
    (hfront : ChunkHere s ch c s.tcb.mallocFrame) :
    ∃ cur s₁, currentPage B s = some (some cur, s₁) ∧
      (ch s.current)[s.tcb.mallocFrame]? = some cur ∧ Works B True ch c x s s₁ ∧ Loaded cur s₁ ∧
      HeapHere s₁ ch c s.tcb.mallocFrame ∧ s₁.metas = s.metas := by
  obtain ⟨cur, s₁, hlast⟩ := hg.settled.exists_bringLast (B := B) hne
  obtain ⟨hb, hp, hin⟩ := bringLast_brought (Q := True) (x := x) hg.settled hne hlast
  have hp₁ : (ch s₁.current)[s.tcb.mallocFrame]? = some cur := by rwa [hb.keeps.current]
  obtain ⟨s₂, hs₂⟩ := hb.settled.exists_bringFront (B := B) hp₁ hin
  obtain ⟨hb', hhere⟩ := bringFront_brought (Q := True) (x := x) hb.settled hp₁ hin hs₂
  have hbb := hb.trans hb'
  have hlen : (ch s.current).length = s.tcb.mallocFrame + 1 := hg.settled.length _ hne
  have hchunk := hg.settled.chunk s.current
  refine ⟨cur, loadHeap cur s₂, ?_, hp, ?_, loaded_loadHeap cur s₂, ?_, hbb.keeps.metas⟩
  · exact currentPage_eq_some.mpr
      (.inl ⟨hg.settled.firstPage_ne.mpr hne, cur, s₁, s₂, hlast, hs₂, rfl, rfl⟩)
  · refine hbb.works.tail (.load (k := s.tcb.mallocFrame) ?_)
    rwa [hbb.keeps.current]
  · refine hhere fun hlt front hf ↦ ?_
    rw [hb.keeps.current] at hlt hf
    exact hb.stays 0 front hf (hfront (by omega) front hf)

/-- The request on the last page and then on the others returns, and is served if one of them
has room. -/
theorem exists_tryPages (hg : Good B s ch c lay live) (hn : Near s) (hx : x < 2 ^ 31)
    (hload : Loaded cur s) (hcur : (ch s.current)[s.tcb.mallocFrame]? = some cur)
    (hhere : HeapHere s ch c s.tcb.mallocFrame)
    (hQ : (∃ s₁, request cur x (B.frame s.tcb.mallocFrame) 4096 s = some (0, s₁)) →
      ∀ j p, (ch s.current)[j]? = some p → toI32 x ≤ (s.metas p).freePageMem → ChunkHere s ch c j) :
    ∃ r s', tryPages B x cur s = some (r, s') ∧
      ∀ j, j < (ch s.current).length → c s.current ≤ j + 1 → ((lay s.current j).malloc x).1 ≠ 0 →
        r ≠ 0 := by
  have hlt := Settled.lt_length hcur
  have hlen : (ch s.current).length = s.tcb.mallocFrame + 1 := by
    apply hg.settled.length
    intro hnil
    rw [hnil] at hcur
    cases hcur
  have hchunk := hg.settled.chunk s.current
  have hk : c s.current ≤ s.tcb.mallocFrame + 1 := by omega
  obtain ⟨s₁, s₂, hreq, hstore, hmetas, hnext⟩ :=
    hg.exists_request hload hcur hk hhere x (B.frame s.tcb.mallocFrame) 4096
  by_cases hr : ((lay s.current s.tcb.mallocFrame).malloc x).1 = 0
  · have hreq₀ : request cur x (B.frame s.tcb.mallocFrame) 4096 s = some (0, s₁) := hr ▸ hreq
    have hfail : Attempt B True ch c x 0 s s₂ :=
      .intro hg.settled hload hcur (.inr hk) (fun _ _ ↦ hhere) hreq₀ (.inl hstore)
    have hw : Works B True ch c x s s₂ := .single (.fail hfail)
    obtain ⟨hset₂, hcur₂, htcbs₂, hstay₂⟩ := hw.settled hg.settled
    have hg₂ := hg.works hn hw
    have hspan := hset₂.span s₂.current
    have hmetas₂ : ∀ (j : ℕ) p, (ch s.current)[j]? = some p →
        (s₂.metas p).freePageMem = (s.metas p).freePageMem := by
      intro j p hp
      by_cases hj : c s.current ≤ j + 1
      · rw [hg.free _ j p hp hj, hg₂.free _ j p hp hj]
      · have hpc : p ≠ cur := by
          rintro rfl
          have hjk := (hg.settled.table.index_unique hp hcur).2
          omega
        obtain ⟨heap, -, rfl⟩ := request_eq_some.mp hreq₀
        obtain ⟨free, -, rfl⟩ := storeHeap_eq_some.mp hstore
        show (Function.update s.metas cur _ p).freePageMem = _
        rw [Function.update_of_ne hpc]
    have hfirst : s₂.tcb.firstPage = (ch s₂.current)[0]? := by
      rw [Manager.tcb, hset₂.firstPage_eq, List.head?_eq_getElem?]
    obtain ⟨r, s', hs', hfound⟩ := hg₂.exists_searchPages (hw.near hg.settled hn) (k := 0)
      hx (fun j p hp hfree ↦ by
        rw [hcur₂] at hp
        rw [hmetas₂ j p hp] at hfree
        exact (hQ ⟨s₁, hreq₀⟩ j p hp hfree).mono hstay₂ hcur₂) (Nat.zero_le _)
      (show _ < s₂.pageCounter + 1 + 0 by omega)
    refine ⟨r, s', tryPages_eq_some.mpr ⟨0, s₁, s₂, hreq₀, hstore, .inr ⟨rfl, ?_⟩⟩,
      fun j hj hjc hroom ↦ ?_⟩
    · rw [hfirst]
      exact hs'
    · rw [hcur₂] at hfound
      exact hfound j (Nat.zero_le j) hj hjc hroom
  · exact ⟨_, s₂.leave, tryPages_eq_some.mpr ⟨_, s₁, s₂, hreq, hstore, .inl ⟨hr, rfl, rfl⟩⟩,
      fun _ _ _ _ ↦ hr⟩

/-- A new page for the request. -/
theorem exists_allocateNew (hg : Good B s ch c lay live)
    (hlast : (ch s.current)[s.tcb.mallocFrame]? = some last)
    (hloc : s.pageFrame last = s.tcb.mallocFrame) (x : ℕ) :
    ∃ r s', allocateNew B x s = some (r, s') := by
  by_cases hroom : s.pageCounter < 5692 ∧ s.tcb.mallocFrame < 1596
  · obtain ⟨p, s₁, hnew⟩ := hg.settled.exists_newPage (B := B) hlast hloc hroom.2
    have hmf : s₁.tcb.mallocFrame = s.tcb.mallocFrame + 1 := by
      obtain ⟨s₂, prev, hs₂, -, -, rfl⟩ := newPage_eq_some.mp hnew
      have hk := (swapPages_keeps hs₂).1
      rw [chainAfter_eq]
      show (s₂.tcbs s₂.current).mallocFrame = _
      rw [hk.tcbs, hk.current]
      exact congrArg Tcb.mallocFrame (Manager.tcb_setMallocFrame _ s)
    obtain ⟨s₂, s₃, hreq, hstore, -⟩ := exists_freshHeap (B := B) (x := x) (p := p) (s := s₁)
      (i := s.tcb.mallocFrame + 1) (n := 1) (by omega) (le_refl 1)
    have hreq' : request p x (B.frame s₁.tcb.mallocFrame) 4096 (resetHeap p s₁) =
        some ((firstLayout B (s.tcb.mallocFrame + 1) 1 x).1, s₂) := by
      rw [hmf]
      exact hreq
    exact ⟨_, s₃.leave,
      allocateNew_eq_some.mpr (.inr ⟨hroom, p, s₁, s₂, s₃, hnew, hreq', hstore, rfl⟩)⟩
  · exact ⟨0, s, allocateNew_eq_some.mpr (.inl ⟨hroom, rfl, rfl⟩)⟩

/-- A heap of the thread `t` has room for the request. -/
def HasRoom (ch : ℕ → List PageMetaPtr) (c : ℕ → ℕ) (lay : ℕ → ℕ → Layout) (t x : ℕ) : Prop :=
  ∃ j, j < (ch t).length ∧ c t ≤ j + 1 ∧ ((lay t j).malloc x).1 ≠ 0

/-- A request of up to a page of a thread that has pages returns, and is served by one of them if
there is room. -/
theorem exists_allocatePage (hg : Good B s ch c lay live) (hn : Near s) (hx : x ≤ 4064)
    (hne : ch s.current ≠ []) (hQ : FrontHere B x s ch c) :
    ∃ r s', allocatePage B x s = some (r, s') ∧
      (HasRoom ch c lay s.current x → r ≠ 0 ∧ s'.made = s.made) := by
  have hlen : (ch s.current).length = s.tcb.mallocFrame + 1 := hg.settled.length _ hne
  have hend : ChunkHere s ch c s.tcb.mallocFrame :=
    hQ _ _ (List.getElem?_eq_getElem (by omega)) (.inl rfl)
  obtain ⟨cur, s₁, hcurPage, hcur, hw, hload, hhere, hmetas⟩ :=
    hg.exists_currentPage (x := x) hne hend
  obtain ⟨hset₁, hcur₁, htcbs₁, hstay₁⟩ := hw.settled hg.settled
  have hg₁ := hg.works hn hw
  have hn₁ := hw.near hg.settled hn
  have hmf₁ : s₁.tcb.mallocFrame = s.tcb.mallocFrame := by
    rw [Manager.tcb, htcbs₁, hcur₁]
  have hp₁ : (ch s₁.current)[s₁.tcb.mallocFrame]? = some cur := by rwa [hcur₁, hmf₁]
  have hhere₁ : HeapHere s₁ ch c s₁.tcb.mallocFrame := hmf₁.symm ▸ hhere
  have hin₁ : s₁.pageFrame cur = s₁.tcb.mallocFrame :=
    hhere₁ _ cur (base_le _ _) (le_refl _) hp₁
  have hall : (∃ s₂, request cur x (B.frame s₁.tcb.mallocFrame) 4096 s₁ = some (0, s₂)) →
      ∀ (j : ℕ) p, (ch s₁.current)[j]? = some p → toI32 x ≤ (s₁.metas p).freePageMem →
        ChunkHere s₁ ch c j := by
    rintro ⟨s₂, hreq⟩ j p hp hfree
    rw [hcur₁] at hp
    rw [hmetas] at hfree
    refine (hQ j p hp (.inr ⟨hfree, ?_⟩)).mono hstay₁ hcur₁
    rintro ⟨cur', s₁', r', s₃, hcur', hreq', hr'⟩
    obtain ⟨heq, rfl⟩ := Prod.mk.inj (Option.some.inj (hcurPage.symm.trans hcur'))
    obtain rfl := Option.some.inj heq
    rw [hmf₁] at hreq
    exact hr' (Prod.mk.inj (Option.some.inj (hreq'.symm.trans hreq))).1
  obtain ⟨r, s₂, htry, hfound⟩ :=
    hg₁.exists_tryPages hn₁ (show x < 2 ^ 31 by omega) hload hp₁ hhere₁ hall
  have hst : Steady s s₂ := by
    rcases currentPage_eq_some.mp hcurPage with ⟨-, last, s₃, s₄, hlast, hfront, -, rfl⟩ |
      ⟨hnone, -⟩ | ⟨hnone, -⟩
    · exact (bringLast_steady hlast).trans ((bringFront_steady hfront).trans
        ((loadHeap_steady _ _).trans (tryPages_steady htry)))
    · exact absurd hnone (hg.settled.firstPage_ne.mpr hne)
    · exact absurd hnone (hg.settled.firstPage_ne.mpr hne)
  by_cases hr : r = 0
  · subst hr
    have hw₂ : Works B True ch c x s₁ s₂ := by
      cases tryPages_works (Q := True) hset₁ hload hp₁ (fun _ ↦ hhere₁) (fun _ ↦ hall) htry with
      | nothing _ hw' => exact hw'
      | page hr => exact absurd rfl hr
    obtain ⟨hset₂, hcur₂, htcbs₂, hstay₂⟩ := hw₂.settled hset₁
    have hg₂ := hg₁.works hn₁ hw₂
    have hmf₂ : s₂.tcb.mallocFrame = s₁.tcb.mallocFrame := by
      rw [Manager.tcb, htcbs₂, hcur₂]
    obtain ⟨r, s', hs'⟩ := hg₂.exists_allocateNew (show _ = some cur by rwa [hcur₂, hmf₂])
      (by rw [hmf₂]; exact hstay₂ _ cur hp₁ hin₁) x
    refine ⟨r, s', allocatePage_eq_some.mpr
      (.inr ⟨cur, s₁, 0, s₂, hcurPage, htry, .inr ⟨rfl, hs'⟩⟩), ?_⟩
    rintro ⟨j, hj, hjc, hroom⟩
    rw [hcur₁] at hfound
    exact absurd rfl (hfound j hj hjc hroom)
  · exact ⟨r, s₂, allocatePage_eq_some.mpr
      (.inr ⟨cur, s₁, r, s₂, hcurPage, htry, .inl ⟨hr, rfl, rfl⟩⟩), fun _ ↦ ⟨hr, hst.made⟩⟩

end Good

/-! ## Releases -/

/-- The frame of an address. -/
theorem frameOf_eq (hi : i < 2048) (ho : o < 4096) : frameOf B (B.frame i + o) = i := by
  have hdiff : ((B.frame i + o : ℕ) : ℤ) - B.addr = ((i * 4096 + o : ℕ) : ℤ) := by
    unfold Block.frame
    omega
  rw [frameOf, hdiff, toI32_of_nonneg ⟨by omega, by omega⟩,
    Int.tdiv_eq_ediv_of_nonneg (by omega)]
  omega

theorem Settled.findPage (h : Settled s ch c) (hp : (ch s.current)[k]? = some p) :
    findPage k s = some p := by
  have hk := lt_length hp
  have hfollow := h.follow_eq k
  rw [hp] at hfollow
  rw [Paging.findPage]
  split_ifs with hzero
  · obtain ⟨before, hbefore, -⟩ := h.exists_resident (show k - 1 < (ch s.current).length by omega)
    refine Option.bind_eq_some_iff.mpr ⟨before, hbefore, ?_⟩
    split_ifs with htid
    · have hat := h.resident_own (show k - 1 < (ch s.current).length by omega) hbefore htid
      rw [h.next_eq hat, show k - 1 + 1 = k by omega, hp]
    · exact hfollow
  · exact hfollow

/-- The page of the caller for the frame of `x` is brought in and its heap loaded, and then the
block at `x` is released. -/
theorem Settled.exists_mydeallocate (h : Settled s ch c) (hx : 0 ≤ frameOf B x)
    (hp : (ch s.current)[(frameOf B x).toNat]? = some p) (hhome : ChunkFreeHere B x s ch c) :
    ∃ s₁, Works B True ch c x s s₁ ∧ Loaded p s₁ ∧
      (c s.current ≤ (frameOf B x).toNat + 1 → HeapHere s₁ ch c (frameOf B x).toNat) ∧
      ∀ s₂, storeHeap p (release p x s₁) = some s₂ → mydeallocate B x s = some s₂.leave := by
  have hw₀ : Works B True ch c x s (loadHeap p s.enter) :=
    (Relation.ReflTransGen.single (enter_works s)).tail (.load hp)
  obtain ⟨hset₀, -⟩ := hw₀.settled h
  obtain ⟨resident, hres, hloc⟩ := h.exists_resident (lt_length hp)
  by_cases htid : (s.metas resident).tid = s.current
  · have hown := h.resident_own (lt_length hp) hres htid
    obtain rfl := Option.some.inj (hown.symm.trans hp)
    refine ⟨_, hw₀, loaded_loadHeap resident s.enter, fun hck ↦ ?_, fun s₂ hs₂ ↦ ?_⟩
    · exact heapHere_of_chunk (s := loadHeap resident s.enter) hp hloc hck hhome
    · exact mydeallocate_eq_some.mpr ⟨hx, resident, hres, .inl ⟨htid, s₂, hs₂, rfl⟩⟩
  · have haway : s.pageFrame p ≠ (frameOf B x).toNat := by
      intro hin
      obtain rfl := Option.some.inj (((h.pageFrame_iff hp).mp hin).symm.trans hres)
      exact htid (h.tid hp)
    obtain ⟨s₁, hs₁⟩ := hset₀.exists_bring (B := B) hp haway
    obtain ⟨hstay, hin⟩ := hset₀.bring_stays hp haway hs₁
    have hkeep := (swapPages_keeps hs₁).1
    have hcur : s₁.current = s.current := hkeep.current
    refine ⟨s₁, hw₀.tail (.bring hset₀ hp haway hs₁), ?_, fun hck ↦ ?_, fun s₂ hs₂ ↦ ?_⟩
    · refine ⟨hkeep.head.trans ?_, hkeep.middle.trans ?_⟩
      · rw [hkeep.metas]
        rfl
      · rw [hkeep.metas]
        rfl
    · refine heapHere_of_chunk (p := p) (by rwa [hcur]) hin (by rwa [hcur]) fun hkc j q hj hq ↦ ?_
      rw [hcur] at hkc hq
      exact hstay j q hq (hhome hkc j q hj hq)
    · exact mydeallocate_eq_some.mpr ⟨hx, resident, hres,
        .inr ⟨htid, p, s₁, s₂, h.findPage hp, hs₁, hs₂, rfl⟩⟩

/-- The page of the caller for the frame of `x` holds a heap, and `x` is not past the bound that
`myfree` checks. -/
def Freeable (B : Block) (x : ℕ) (s : Manager) : Prop :=
  ∃ p, follow s.next (frameOf B x).toNat s.tcb.firstPage = some p ∧ (s.metas p).head ≠ 0 ∧
    x ≤ (s.metas p).head + 4999

namespace Good

/-- The block of a pointer is in the heap of the page at its frame, if that holds a heap. -/
theorem exists_freeable (hg : Good B s ch c lay live) {e : ℕ × ℕ} (he : e ∈ live s.current)
    (hf : Freeable B e.1 s) : 0 ≤ frameOf B e.1 ∧ ∃ p b,
      (ch s.current)[(frameOf B e.1).toNat]? = some p ∧
      c s.current ≤ (frameOf B e.1).toNat + 1 ∧
      (lay s.current (frameOf B e.1).toNat).Allocated b ∧ b.addr + 32 = e.1 ∧ e.2 ≤ b.size ∧
      e.1 ≤ B.frame (base (c s.current) (frameOf B e.1).toNat) + 4999 := by
  obtain ⟨k, q, b, hq, hk, hb, haddr, hsize⟩ := hg.exists_block he
  have hinner := hg.inner _ k q hq hk b hb.1
  have hmem := mem_heapFrames_of_wf (hg.wf hq hk) hb.1
  have hsmall := hg.settled.small s.current
  have hlt := Settled.lt_length hq
  have hin : e.1 ∈ heapFrames B (c s.current) k := by
    rw [mem_heapFrames_iff] at hmem ⊢
    omega
  obtain ⟨i, o, ho, hx⟩ := exists_frame (le_trans (addr_le_frame B _) (mem_heapFrames_iff.mp hin).1)
  rw [hx, mem_heapFrames ho] at hin
  have hframe : frameOf B e.1 = i := by
    rw [hx]
    exact frameOf_eq (by omega) ho
  have hnat : (frameOf B e.1).toNat = i := by omega
  obtain ⟨p, hfollow, hhead, hle⟩ := hf
  rw [hnat, hg.settled.follow_eq] at hfollow
  rw [hnat]
  have hci : c s.current ≤ i + 1 := by
    by_contra hlt'
    exact hhead (hg.idle _ i p hfollow (by omega)).1
  have hik : i = k := by
    unfold base at hin
    split_ifs at hin <;> omega
  subst hik
  have hr := hg.heap _ i p hfollow hk
  refine ⟨by omega, p, b, hfollow, hk, hb, haddr, hsize, ?_⟩
  rw [← hr.head]
  exact hle

/-- `mydeallocate` returns on a pointer whose page holds its heap, and releases its block. -/
theorem exists_mydeallocate (hg : Good B s ch c lay live) (hn : Near s) {e : ℕ × ℕ}
    (he : e ∈ live s.current) (hf : Freeable B e.1 s) (hhome : ChunkFreeHere B e.1 s ch c) :
    ∃ s', mydeallocate B e.1 s = some s' := by
  obtain ⟨hx, p, b, hp, hk, hb, haddr, -, hle⟩ := hg.exists_freeable he hf
  obtain ⟨s₁, hw, hload, hhere, hret⟩ := hg.settled.exists_mydeallocate hx hp hhome
  obtain ⟨-, hcur, -⟩ := hw.settled hg.settled
  have hg₁ := hg.works hn hw
  have hlt := Settled.lt_length hp
  have hsmall := hg.settled.small s.current
  have hr := hg₁.machine hload (by rwa [hcur]) (by rwa [hcur]) (hhere hk)
  rw [hcur] at hr
  have hfits := fits_heap (B := B) (n := c s.current) (show (frameOf B e.1).toNat < 1597 by omega)
  have hfuel :=
    heap_lt_fuel (B := B) (n := c s.current) (show (frameOf B e.1).toNat < 1597 by omega)
  obtain ⟨heap, hm, hr', -⟩ := myfree_released hfits hr hb (by omega)
  rw [haddr] at hm
  have hheap : (Paging.release p e.1 s₁).heap = heap := by
    show (myfree e.1 s₁.heap).2 = heap
    rw [hm]
  obtain ⟨s₂, hs₂, -⟩ := storeHeap_represents (p := p) (s := Paging.release p e.1 s₁) hfits
    (hheap ▸ hr') hfuel
  exact ⟨_, hret s₂ hs₂⟩

end Good

/-! ## Loads and stores -/

/-- The frames that are open hold the pages of the caller. -/
def Mine (s : Manager) (ch : ℕ → List PageMetaPtr) : Prop :=
  ∀ k p, s.accessible k = true → (ch s.current)[k]? = some p → s.pageFrame p = k

/-- An access in a frame of the caller returns, and then its page is there unless the frame was
open. -/
theorem Settled.exists_access (h : Settled s ch c) (hp : (ch s.current)[i]? = some p)
    (hi : i < 1596) (ho : o < 4096) :
    ∃ s', access B (B.frame i + o) s = some s' ∧ (Mine s ch → Mine s' ch) ∧
      (s.accessible i = false ∨ s.pageFrame p = i → s'.pageFrame p = i) := by
  have hlt := lt_length hp
  have hle := addr_le_frame B i
  have hframe := frameOf_eq (B := B) (show i < 2048 by omega) ho
  have hnat : (frameOf B (B.frame i + o)).toNat = i := by omega
  have hlen : (ch s.current).length = s.tcb.mallocFrame + 1 := by
    apply h.length
    intro hnil
    rw [hnil] at hp
    cases hp
  rw [access, frame_div B i ho]
  split_ifs with hclosed
  · have hdiff : ((B.frame i + o : ℕ) : ℤ) - B.addr = ((i * 4096 + o : ℕ) : ℤ) := by
      unfold Block.frame
      omega
    have hrange : ¬(toI32 (((B.frame i + o : ℕ) : ℤ) - B.addr) < 0 ∨
        1596 * 4096 < toI32 (((B.frame i + o : ℕ) : ℤ) - B.addr)) := by
      rw [hdiff, toI32_of_nonneg ⟨by omega, by omega⟩]
      omega
    obtain ⟨resident, hres, hloc⟩ := h.exists_resident hlt
    by_cases htid : (s.metas resident).tid = s.current
    · have hown := h.resident_own hlt hres htid
      obtain rfl := Option.some.inj (hown.symm.trans hp)
      refine ⟨_, swapHandler_eq_some.mpr ⟨hrange, by omega, resident, by rwa [hnat],
        .inl ⟨htid, rfl⟩⟩, fun hmine k q hk hq ↦ ?_, fun _ ↦ hloc⟩
      rw [hnat, Manager.unprotectFrame] at hk
      by_cases hki : k = i
      · subst hki
        obtain rfl := Option.some.inj (hq.symm.trans hp)
        exact hloc
      · dsimp only at hk
        rw [Function.update_of_ne hki] at hk
        exact hmine k q hk hq
    · have haway : s.pageFrame p ≠ i := by
        intro hin
        obtain rfl := Option.some.inj (((h.pageFrame_iff hp).mp hin).symm.trans hres)
        exact htid (h.tid hp)
      obtain ⟨s₁, hs₁⟩ := h.exists_bring (B := B) hp haway
      obtain ⟨-, hin⟩ := h.bring_stays hp haway hs₁
      refine ⟨_, swapHandler_eq_some.mpr ⟨hrange, by omega, resident, by rwa [hnat],
        .inr ⟨htid, p, s₁, by rw [hnat, h.follow_eq, hp], by rwa [hnat], rfl⟩⟩,
        fun _ k q hk hq ↦ ?_, fun _ ↦ hin⟩
      rw [hnat, Manager.unprotectFrame] at hk
      by_cases hki : k = i
      · subst hki
        have hq' : (ch s.current)[k]? = some q := by
          rwa [← (swapPages_keeps hs₁).1.current]
        obtain rfl := Option.some.inj (hq'.symm.trans hp)
        exact hin
      · dsimp only at hk
        rw [Function.update_of_ne hki] at hk
        cases hk
  · refine ⟨s, rfl, id, fun hcase ↦ ?_⟩
    rcases hcase with hcase | hcase
    · have hlt' : B.frame i + o < B.frame 1596 := by
        unfold Block.frame
        omega
      exact absurd ⟨by omega, hlt', hcase⟩ hclosed
    · exact hcase

end MyPthread.Paging
