import MyPthread.Paging.Chains
import MyPthread.Heap.Count

/-!
# Requests that make pages return

A thread that has no page gets one, or a chunk, as long as there is room: the loops that give
frames up and make pages come to their ends, and the heap that is set up in the new pages has
room for the request.
-/

namespace MyPthread.Paging

open MyPthread.Lib MyPthread.Heap Function Relation

variable {B : Block} {Q : Prop} {s s' s₁ s₂ : Manager} {ch : ℕ → List PageMetaPtr} {c c' : ℕ → ℕ}
  {H : Set ℕ} {i j k n x r t : ℕ} {p q cur last front : PageMetaPtr} {l : List PageMetaPtr}
  {o : Option PageMetaPtr}

/-! ## Heaps -/

/-- The bytes of the frames `i`, .., `i + n - 1`. -/
def Block.frames (B : Block) (i n : ℕ) : Set ℕ := Range (B.frame i) (4096 * n)

/-- What a heap is after it has been set up in the frames from `i` to `i + n` for a request of
`x` bytes. -/
def firstLayout (B : Block) (i n x : ℕ) : ℕ × Layout :=
  (Layout.fresh (B.frame i) (B.frame (i + n))).malloc x

/-- The globals of the page `p` have been stored, with the free bytes of the layout `h`. -/
def Stored (p : PageMetaPtr) (h : Layout) (s s' : Manager) : Prop :=
  s'.metas = update s.metas p
    { s.metas p with freePageMem := h.room, head := s'.heap.head, middle := s'.heap.middle }

theorem fits_frames (hn : i + n ≤ 2048) : Fits (B.frame i) (B.frame (i + n)) := by
  refine ⟨frame_pos B i, frame_le hn, ?_⟩
  have hadd := frame_add B i n
  omega

theorem frames_lt_fuel (hn : n ≤ 1597) : B.frame (i + n) < B.frame i + 32 * heapFuel := by
  have hadd := frame_add B i n
  unfold heapFuel
  omega

theorem storeHeap_represents {lo hi : ℕ} {h : Layout} (hf : Fits lo hi)
    (hr : Represents lo hi s.heap h) (hfuel : hi < lo + 32 * heapFuel) :
    ∃ s', storeHeap p s = some s' ∧ s'.heap = s.heap ∧ Stored p h s s' := by
  have hcount := freeMemCount_spec hf hr hfuel
  exact ⟨_, storeHeap_eq_some.mpr ⟨_, hcount, rfl⟩, rfl, rfl⟩

/-- The heap of new pages is set up, and the request is served. -/
theorem exists_freshHeap (hin : i + n ≤ 1597) (hone : 1 ≤ n) :
    ∃ s₁ s', request p x (B.frame i) ((4096 * n : ℕ) : ℤ) (resetHeap p s) =
        some ((firstLayout B i n x).1, s₁) ∧ storeHeap p s₁ = some s' ∧
      Represents (B.frame i) (B.frame (i + n)) s'.heap (firstLayout B i n x).2 ∧
      ChangesOnly (B.frames i n) s.heap.mem s'.heap.mem ∧
      Stored p (firstLayout B i n x).2 s s' := by
  have hadd := frame_add B i n
  have hf : Fits (B.frame i) (B.frame (i + n)) := fits_frames (by omega)
  have hfuel := frames_lt_fuel (B := B) (i := i) (show n ≤ 1597 by omega)
  obtain ⟨heap, hm, hr, hch⟩ := mymalloc_fresh (x := x) hf (by omega) hfuel
    (show (resetHeap p s).heap.head = 0 from rfl)
  have hsize : ((B.frame (i + n) : ℕ) : ℤ) - B.frame i = ((4096 * n : ℕ) : ℤ) := by omega
  rw [hsize] at hm
  obtain ⟨s', hstore, hheap, hst⟩ := storeHeap_represents (p := p)
    (s := { (resetHeap p s).note .mymalloc p with heap }) hf hr hfuel
  refine ⟨_, s', request_eq_some.mpr ⟨heap, hm, rfl⟩, hstore, ?_, ?_, hst⟩
  · rw [hheap]
    exact hr
  · rw [hheap]
    refine hch.mono (Set.union_subset ?_ ?_)
    · exact headers_subset (Layout.wf_fresh (by omega)).tiles hadd.symm
    · exact headers_subset hr.wf.tiles hadd.symm

/-! ## Making pages -/

/-- The loop that makes the pages of a chunk after its front. -/
theorem Table.exists_chunkRest (h : Table s ch H) (front : PageMetaPtr)
    (hH : ∀ j, i ≤ j → j < i + k → j ∈ H)
    (hlast : (ch s.current).getLast? = some last) (hloc : s.pageFrame last + 1 = i)
    (hi : i + k ≤ 1597) :
    ∃ o' s', Paging.chunkRest front n i k o s = some (o', s') ∧ (k = 0 → o' = o) ∧
      (k ≠ 0 → o' ≠ none) := by
  induction k generalizing i o s ch H last with
  | zero => exact ⟨o, s, rfl, fun _ ↦ rfl, fun hk ↦ absurd rfl hk⟩
  | succ k ih =>
    have hprev := h.placed.table_loc (h.chained _ _ (List.mem_of_getLast? hlast)) (by omega)
    rw [show s.pageFrame last = i - 1 by omega] at hprev
    obtain ⟨ha, ht₁⟩ := h.chainAfter (hH i (le_refl i) (by omega)) hlast
      (fun _ ↦ chunkMeta s.current n front) fun _ _ ↦ rfl
    obtain ⟨o', s', hs', hzero, hsucc⟩ := ih (i := i + 1) (o := some s.osMemPtr) ht₁
      (fun j hij hjk ↦ by
        refine ⟨hH j (by omega) (by omega), ?_⟩
        rw [Set.mem_singleton_iff]
        omega)
      (show _ = some s.osMemPtr by rw [ha.current, addPage_self, List.getLast?_concat])
      (by rw [ha.pageFrame, update_self]) (by omega)
    refine ⟨o', s', chunkRest_eq_some.mpr ⟨last, hprev, hs'⟩, nofun, fun _ ↦ ?_⟩
    rcases Nat.eq_zero_or_pos k with hk | hk
    · rw [hzero hk]
      nofun
    · exact hsucc (by omega)

theorem Settled.exists_chunkFirst (h : Settled s ch c) (hnone : s.tcb.firstPage = none)
    (htwo : 2 ≤ n) (hn : n ≤ 1596) : ∃ last s', chunkFirst B n s = some (some last, s') := by
  obtain ⟨s₁, hs₁, hg, ht₁⟩ := h.table.evictRange (B := B) (i := 0) (n := n) (by omega)
    (Nat.zero_le _) fun j _ _ ↦ Set.notMem_empty j
  have hnone₁ : s₁.tcb.firstPage = none := by
    rw [Manager.tcb, hg.keeps.tcbs, hg.keeps.current]
    exact hnone
  obtain ⟨ha, ht₂⟩ := ht₁.chainFirst (i := 0) (.inr ⟨le_refl _, by omega⟩) hnone₁
    (chunkMeta s₁.current n) fun _ _ ↦ rfl
  obtain ⟨o', s', hs', -, hsome⟩ := ht₂.exists_chunkRest s₁.osMemPtr (i := 1) (k := n - 1)
    (n := n) (o := none)
    (fun j hj hjn ↦ by
      refine ⟨.inr ⟨Nat.zero_le _, by omega⟩, ?_⟩
      rw [Set.mem_singleton_iff]
      omega)
    (show _ = some s₁.osMemPtr by rw [ha.current, addPage_self, List.getLast?_concat])
    (by rw [ha.pageFrame, update_self]) (by omega)
  obtain ⟨last, rfl⟩ := Option.ne_none_iff_exists'.mp (hsome (by omega))
  exact ⟨last, _, chunkFirst_eq_some.mpr ⟨s₁, s', hs₁, hs', rfl⟩⟩

theorem Settled.exists_newFirst (h : Settled s ch c) : ∃ p s', newFirst B s = some (p, s') := by
  obtain ⟨s₁, hs₁, -⟩ := h.table.evict (B := B) (i := 0) (by omega) (Nat.zero_le _)
    (Set.notMem_empty _)
  exact ⟨_, _, newFirst_eq_some.mpr ⟨s₁, hs₁, rfl, rfl⟩⟩

theorem Settled.exists_newPage (h : Settled s ch c)
    (hlast : (ch s.current)[s.tcb.mallocFrame]? = some last)
    (hloc : s.pageFrame last = s.tcb.mallocFrame) (hroom : s.tcb.mallocFrame < 1596) :
    ∃ p s', newPage B s = some (p, s') := by
  obtain ⟨s₁, hs₁, -, -, hlast₁⟩ := h.evict_next (B := B) hlast hloc hroom
  exact ⟨_, _, newPage_eq_some.mpr ⟨s₁, last, hs₁, hlast₁, rfl, rfl⟩⟩

/-! ## Calls that make pages -/

/-- The heap in the pages that the caller has got. -/
structure Fresh (B : Block) (ch : ℕ → List PageMetaPtr) (c' : ℕ → ℕ) (l : List PageMetaPtr)
    (x r : ℕ) (last : PageMetaPtr) (s s₁ s' : Manager) : Prop where
  grew : Grew B ch c' l s s₁
  getLast : l.getLast? = some last
  result : r = (firstLayout B (ch s.current).length l.length x).1
  represents : Represents (B.frame (ch s.current).length)
    (B.frame ((ch s.current).length + l.length))
    s'.heap (firstLayout B (ch s.current).length l.length x).2
  mem : ChangesOnly (B.frames (ch s.current).length l.length) s₁.heap.mem s'.heap.mem
  stored : Stored last (firstLayout B (ch s.current).length l.length x).2 s₁ s'
  pageFrame : s'.pageFrame = s₁.pageFrame
  swapFile : s'.swapFile = s₁.swapFile
  current : s'.current = s₁.current

theorem Grow.fresh (h : Grow B ch c x r s s' c' l) :
    ∃ last s₁, Fresh B ch c' l x r last s s₁ s' := by
  obtain ⟨-, hgrew, hlast, hcase, -, -, -, hx, hlen, hreq, hstore⟩ := h
  rename_i last s₁ s₂
  have hone : 1 ≤ l.length := by
    rcases hcase with ⟨hone, -⟩ | ⟨-, htwo, -⟩ <;> omega
  obtain ⟨s₃, s₄, hreq', hstore', hr, hch, hst⟩ := exists_freshHeap (x := x) (p := last) (s := s₁)
    hlen hone
  obtain ⟨rfl, rfl⟩ := Prod.mk.inj (Option.some.inj (hreq.symm.trans hreq'))
  obtain rfl := Option.some.inj (hstore.symm.trans hstore')
  obtain ⟨heap, -, heq⟩ := request_eq_some.mp hreq
  obtain ⟨free, -, heq'⟩ := storeHeap_eq_some.mp hstore
  refine ⟨last, s₁, hgrew, hlast, rfl, hr, hch, hst, ?_, ?_, ?_⟩
  all_goals
    rw [← heq', ← heq]
    rfl

/-- A thread that has no page gets one. -/
theorem Settled.exists_first (h : Settled s ch c) (hsd : Sound B s) (hc : Counted s)
    (hnone : s.tcb.firstPage = none) (hpc : s.pageCounter < 5692) (hx : x ≤ 4064) :
    ∃ r p s', myallocate B x s = some (r, s'.leave) ∧ Grow B ch c x r s.enter s' c [p] := by
  have hset : Settled s.enter ch c := h.of_steady (enter_steady s) rfl rfl rfl
  have hc' := hc.steady (enter_steady s)
  obtain ⟨p, s₁, hnew⟩ := hset.exists_newFirst (B := B)
  have hmf := (newFirst_counted hsd.enter hc' hnone hnew).2.2.mallocFrame
  rw [if_pos (show s.enter.tcb.firstPage = none from hnone)] at hmf
  have hmf' : s₁.tcb.mallocFrame = 0 := by omega
  obtain ⟨s₂, s₃, hreq, hstore, -⟩ := exists_freshHeap (B := B) (x := x) (p := p) (s := s₁) (i := 0)
    (n := 1) (by omega) (le_refl 1)
  have hreq' : request p x (B.frame s₁.tcb.mallocFrame) 4096 (resetHeap p s₁) =
      some ((firstLayout B 0 1 x).1, s₂) := by
    rw [hmf']
    exact hreq
  have hr : (firstLayout B 0 1 x).1 ≠ 0 := request_page_ne_zero hx (by omega) rfl hreq'
  refine ⟨_, p, s₃, ?_, newFirst_grow hset hsd.enter hc' hnone hx hnew hreq' hstore⟩
  have hcur : currentPage B s.enter = some (some p, resetHeap p s₁) :=
    currentPage_eq_some.mpr (.inr (.inl ⟨hnone, hpc, p, s₁, hnew, rfl, rfl⟩))
  have htry : tryPages B x p (resetHeap p s₁) = some ((firstLayout B 0 1 x).1, s₃.leave) :=
    tryPages_eq_some.mpr ⟨_, s₂, s₃, hreq', hstore, .inl ⟨hr, rfl, rfl⟩⟩
  rw [myallocate, if_neg (not_lt.mpr hx)]
  exact allocatePage_eq_some.mpr (.inr ⟨p, _, _, _, hcur, htry, .inl ⟨hr, rfl, rfl⟩⟩)

/-- A thread that has no page gets a chunk. -/
theorem Settled.exists_chunk (h : Settled s ch c) (hsd : Sound B s) (hc : Counted s)
    (hnone : s.tcb.firstPage = none) (hx : x < 2 ^ 32) (hlarge : 4064 < x) (hn : numOfPages x = n)
    (htwo : 2 ≤ n) (hle : n ≤ 1596) :
    ∃ r l s', myallocate B x s = some (r, s'.leave) ∧
      Grow B ch c x r s.enter s' (update c s.current n) l ∧ l.length = n := by
  have hset : Settled s.enter ch c := h.of_steady (enter_steady s) rfl rfl rfl
  have hc' := hc.steady (enter_steady s)
  obtain ⟨last, s₁, hchunk⟩ := hset.exists_chunkFirst (B := B) hnone htwo hle
  obtain ⟨front, hfront, hloc⟩ := chunkFirst_front hchunk
  have hnil : ch s.current = [] := by
    by_contra hsome
    exact h.firstPage_ne.mpr hsome hnone
  have hlen : (ch s.current).length = 0 := by
    rw [hnil]
    rfl
  obtain ⟨s₂, s₃, hreq, hstore, -⟩ :=
    exists_freshHeap (B := B) (x := x) (p := last) (s := s₁) (i := 0)
    (n := n) (by omega) (by omega)
  obtain ⟨-, hsuf, hswaps⟩ := chunkFirst_swaps hchunk
  obtain ⟨l, hl, hlast, hgrew⟩ := chunkFirst_settled hset hsd.enter hc' hnone hle hchunk
  refine ⟨(firstLayout B 0 n x).1, l, s₃, ?_,
    .intro hset hgrew hlast (.inr ⟨hnil, ?_, ?_⟩) hswaps hsuf (hset.chunkFirst_vacates hle hchunk)
      ?_ ?_ ?_ hstore, hl⟩
  · rw [myallocate, if_pos hlarge]
    refine allocateChunk_eq_some.mpr (.inr ⟨?_, last, s₁, front, s₂, s₃, .inl ⟨hnone, ?_⟩, hfront,
      ?_, hstore, rfl⟩)
    · rw [Manager.TooMany, if_pos (show s.enter.tcb.firstPage = none from hnone)]
      omega
    · rw [hn]
      exact hchunk
    · rw [hloc, hn]
      exact hreq
  · omega
  · rw [hl]
    rfl
  · rw [hl]
    subst hn
    exact le_numOfPages hx htwo
  · show (ch s.current).length + l.length ≤ 1597
    omega
  · show request last x (B.frame (ch s.current).length) ((4096 * l.length : ℕ) : ℤ) _ = _
    rw [hlen, hl]
    exact hreq

end MyPthread.Paging
