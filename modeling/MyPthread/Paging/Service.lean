import MyPthread.Paging.Work
import MyPthread.Paging.Locked

/-!
# How calls end

A request of a thread whose chains are complete is refused or served by one heap after some
work, or it is served from new pages.  A call of `mydeallocate` releases one block after some
work, and an access to the memory is work only.
-/

namespace MyPthread.Paging

open MyPthread.Lib MyPthread.Heap Function Relation

variable {B : Block} {Q : Prop} {s s' s₁ s₂ : Manager} {ch : ℕ → List PageMetaPtr} {c : ℕ → ℕ}
  {i j k n x r fuel : ℕ} {p q cur last front : PageMetaPtr} {o : Option PageMetaPtr}

/-! ## Requests of up to a page -/

theorem HeapHere.chunkHere (h : HeapHere s ch c k) : ChunkHere s ch c k := by
  intro hk front hf
  refine h 0 front ?_ (Nat.zero_le k) hf
  rw [base, if_pos (by omega)]

theorem tryPages_works (h : Settled s ch c) (hload : Loaded cur s)
    (hcur : (ch s.current)[s.tcb.mallocFrame]? = some cur)
    (hhere : Q → HeapHere s ch c s.tcb.mallocFrame)
    (hQ : Q → (∃ s₁, request cur x (B.frame s.tcb.mallocFrame) 4096 s = some (0, s₁)) →
      ∀ j p, (ch s.current)[j]? = some p → toI32 x ≤ (s.metas p).freePageMem → ChunkHere s ch c j)
    (hs : tryPages B x cur s = some (r, s')) : Found B Q ch c x r s s' := by
  obtain ⟨r₁, s₁, s₂, hreq, hstore, hs⟩ := tryPages_eq_some.mp hs
  have hchunk : c s.current ≤ s.tcb.mallocFrame + 1 := by
    have hlen : (ch s.current).length = s.tcb.mallocFrame + 1 := by
      apply h.length
      intro hnil
      rw [hnil] at hcur
      cases hcur
    have hle := h.chunk s.current
    omega
  have ha : Attempt B Q ch c x r₁ s s₂ :=
    .intro h hload hcur (.inr hchunk) (fun hq _ ↦ hhere hq) hreq (.inl hstore)
  rcases hs with ⟨hr, rfl, rfl⟩ | ⟨rfl, hsearch⟩
  · exact .page hr .refl ha rfl
  · have hw : Works B Q ch c x s s₂ := .single (.fail ha)
    obtain ⟨hset, hcur₂, -, hstay⟩ := hw.settled h
    have hmetas : ∀ q, q ≠ cur → s₂.metas q = s.metas q := by
      intro q hq
      obtain ⟨heap, -, rfl⟩ := request_eq_some.mp hreq
      obtain ⟨free, -, rfl⟩ := storeHeap_eq_some.mp hstore
      exact update_of_ne hq ..
    have hfirst : s₂.tcb.firstPage = (ch s₂.current)[0]? := by
      rw [Manager.tcb, hset.firstPage_eq, List.head?_eq_getElem?]
    rw [hfirst] at hsearch
    refine (searchPages_works hset (fun hq j p hp hfree ↦ ?_) hsearch).of_works hw
    rw [hcur₂] at hp
    by_cases hpc : p = cur
    · subst hpc
      rw [(h.table.index_unique hp hcur).2]
      exact (hhere hq).chunkHere.mono hstay hcur₂
    · rw [hmetas p hpc] at hfree
      exact (hQ hq ⟨s₁, hreq⟩ j p hp hfree).mono hstay hcur₂

/-- The heap of the caller's last page, which a request is tried on first, has room for it. -/
def LastServes (B : Block) (x : ℕ) (s : Manager) : Prop :=
  ∃ cur s₁ r s₂, currentPage B s = some (some cur, s₁) ∧
    request cur x (B.frame s.tcb.mallocFrame) 4096 s₁ = some (r, s₂) ∧ r ≠ 0

/-- The chunk of the caller has its front in its frame if the request may come to its heap:
its last page is the last one of the caller, or the request is not served there and the chunk
may have room for it. -/
def FrontHere (B : Block) (x : ℕ) (s : Manager) (ch : ℕ → List PageMetaPtr) (c : ℕ → ℕ) : Prop :=
  ∀ k p, (ch s.current)[k]? = some p →
    (k = s.tcb.mallocFrame ∨ toI32 x ≤ (s.metas p).freePageMem ∧ ¬LastServes B x s) →
    ChunkHere s ch c k

/-- The caller gets pages, and the request is served by the heap that is set up in them. -/
inductive Grow (B : Block) (ch : ℕ → List PageMetaPtr) (c : ℕ → ℕ) (x r : ℕ)
    (s s' : Manager) : (ℕ → ℕ) → List PageMetaPtr → Prop where
  | intro {c' : ℕ → ℕ} {l : List PageMetaPtr} {last : PageMetaPtr} {s₁ s₂ : Manager} :
      Settled s ch c → Grew B ch c' l s s₁ → l.getLast? = some last →
      (l.length = 1 ∧ c' = c ∨
        ch s.current = [] ∧ 2 ≤ l.length ∧ c' = update c s.current l.length) →
      During Event.IsSwap s s₁ → s.trace <:+ s₁.trace → Vacates B s s₁ →
      x + 32 ≤ 4096 * l.length → (ch s.current).length + l.length ≤ 1597 →
      request last x (B.frame (ch s.current).length) ((4096 * l.length : ℕ) : ℤ)
        (resetHeap last s₁) = some (r, s₂) →
      storeHeap last s₂ = some s' → Grow B ch c x r s s' c' l

theorem newFirst_grow (h : Settled s ch c) (hsd : Sound B s) (hc : Counted s)
    (hnone : s.tcb.firstPage = none) (hx : x ≤ 4064) (hnew : newFirst B s = some (p, s₁))
    (hreq : request p x (B.frame s₁.tcb.mallocFrame) 4096 (resetHeap p s₁) = some (r, s₂))
    (hstore : storeHeap p s₂ = some s') : Grow B ch c x r s s' c [p] := by
  have hnil : ch s.current = [] := by
    by_contra hsome
    exact h.firstPage_ne.mpr hsome hnone
  have hlen : (ch s.current).length = 0 := by
    rw [hnil]
    rfl
  obtain ⟨-, hsuf, hswaps⟩ := newFirst_swaps hnew
  have hmf := (newFirst_counted hsd hc hnone hnew).2.2.mallocFrame
  rw [if_pos hnone] at hmf
  have hmf' : s₁.tcb.mallocFrame = 0 := by omega
  rw [hmf'] at hreq
  refine .intro h (newFirst_settled h hsd hc hnone hnew) rfl (.inl ⟨rfl, rfl⟩) hswaps hsuf
    (h.newFirst_vacates hnew) ?_ ?_ (?_ : request p x _ _ _ = _) hstore
  · rw [List.length_singleton]
    omega
  · rw [hlen, List.length_singleton]
    omega
  · rw [hlen]
    exact hreq

theorem newPage_grow (h : Settled s ch c) (hsd : Sound B s) (hc : Counted s)
    (hlast : (ch s.current)[s.tcb.mallocFrame]? = some last)
    (hloc : s.pageFrame last = s.tcb.mallocFrame) (hroom : s.tcb.mallocFrame < 1596) (hx : x ≤ 4064)
    (hnew : newPage B s = some (p, s₁))
    (hreq : request p x (B.frame s₁.tcb.mallocFrame) 4096 (resetHeap p s₁) = some (r, s₂))
    (hstore : storeHeap p s₂ = some s') : Grow B ch c x r s s' c [p] := by
  have hne : ch s.current ≠ [] := by
    intro hnil
    rw [hnil] at hlast
    cases hlast
  have hlen : (ch s.current).length = s.tcb.mallocFrame + 1 := h.length _ hne
  obtain ⟨-, hsuf, hswaps⟩ := newPage_swaps hnew
  have hmf := (newPage_counted hsd hc (h.firstPage_ne.mpr hne) hnew).2.2.mallocFrame
  rw [if_neg (h.firstPage_ne.mpr hne)] at hmf
  have hmf' : s₁.tcb.mallocFrame = s.tcb.mallocFrame + 1 := by omega
  rw [hmf'] at hreq
  refine .intro h (newPage_settled h hsd hc hlast hloc hroom hnew) rfl (.inl ⟨rfl, rfl⟩) hswaps hsuf
    (h.newPage_vacates hlast hroom hnew) ?_ ?_ (?_ : request p x _ _ _ = _) hstore
  · rw [List.length_singleton]
    omega
  · rw [hlen, List.length_singleton]
    omega
  · rw [hlen]
    exact hreq

/-- How a request ends. -/
inductive Ending (B : Block) (Q : Prop) (ch : ℕ → List PageMetaPtr) (c : ℕ → ℕ) (x r : ℕ)
    (s s' : Manager) : Prop where
  | found : Found B Q ch c x r s s' → Ending B Q ch c x r s s'
  | grown {s₁ s₂ : Manager} {c' : ℕ → ℕ} {l : List PageMetaPtr} : r ≠ 0 → Works B Q ch c x s s₁ →
      Grow B ch c x r s₁ s₂ c' l → (x ≤ 4064 → l.length = 1 ∧ c' = c) → s₂.leave = s' →
      Ending B Q ch c x r s s'

theorem Ending.of_works (hw : Works B Q ch c x s s₁) (he : Ending B Q ch c x r s₁ s') :
    Ending B Q ch c x r s s' := by
  cases he with
  | found hf => exact .found (hf.of_works hw)
  | grown hr hw' hg hone hs => exact .grown hr (hw.trans hw') hg hone hs

theorem Work.steady (hw : Work B Q ch c x s s') : Steady s s' := by
  cases hw with
  | flags flag access => exact ⟨rfl, fun _ ↦ rfl, fun _ ↦ rfl, rfl, rfl, rfl, rfl, rfl, rfl⟩
  | bring _ _ _ hs => exact swapPages_steady hs
  | load _ => exact loadHeap_steady _ s
  | fail ha => exact ha.steady.1

theorem Works.steady (hw : Works B Q ch c x s s') : Steady s s' := by
  induction hw with
  | refl => exact .refl s
  | tail _ hw ih => exact ih.trans hw.steady

theorem Works.counted (hw : Works B Q ch c x s s') (hc : Counted s) : Counted s' :=
  hc.steady hw.steady

/-- A request of up to a page of a thread that has pages: it is served from one of them, or their
heaps have no room. -/
theorem allocatePage_found (h : Settled s ch c) (hsd : Sound B s) (hc : Counted s)
    (hsome : s.tcb.firstPage ≠ none) (hQ : Q → FrontHere B x s ch c)
    (hs : allocatePage B x s = some (r, s')) : Found B Q ch c x r s s' ∨
      ∃ s₂ last, Works B Q ch c x s s₂ ∧ Sound B s₂ ∧
        (ch s₂.current)[s₂.tcb.mallocFrame]? = some last ∧
        s₂.pageFrame last = s₂.tcb.mallocFrame ∧ allocateNew B x s₂ = some (r, s') := by
  rcases allocatePage_eq_some.mp hs with ⟨hcur, rfl⟩ | ⟨cur, s₁, r₁, s₂, hcur, htry, hend⟩
  · rcases currentPage_eq_some.mp hcur with ⟨-, last, -, -, -, -, hlast, -⟩ |
      ⟨-, -, new, -, -, hnew, -⟩ | ⟨hnone, -⟩
    · cases hlast
    · cases hnew
    · exact absurd hnone hsome
  · have hsd₂ := (currentPage_counted hsd hc hcur).1.tryPages htry
    rcases currentPage_eq_some.mp hcur with ⟨-, last, s₃, s₄, hlast, hfront, hlast', rfl⟩ |
      ⟨hnone, -⟩ | ⟨hnone, -⟩
    · -- the last page of the caller is brought in, and its heap loaded
      obtain rfl := Option.some.inj hlast'
      obtain ⟨hb, hp, hin⟩ := bringLast_brought (Q := Q) (x := x) h (h.firstPage_ne.mp hsome) hlast
      have hcur₃ := hb.keeps.current
      have hp₃ : (ch s₃.current)[s.tcb.mallocFrame]? = some last := by rwa [hcur₃]
      obtain ⟨hb', hhere⟩ := bringFront_brought (Q := Q) (x := x) hb.settled hp₃ hin hfront
      have hbb := hb.trans hb'
      have hcur₄ := hbb.keeps.current
      have hp₄ : (ch s₄.current)[s.tcb.mallocFrame]? = some last := by rwa [hcur₄]
      have hmf : (loadHeap last s₄).tcb.mallocFrame = s.tcb.mallocFrame := by
        show (s₄.tcbs s₄.current).mallocFrame = _
        rw [hbb.keeps.tcbs, hcur₄]
      have hw : Works B Q ch c x s (loadHeap last s₄) := hbb.works.tail (.load hp₄)
      obtain ⟨hset, -, -, hstay⟩ := hw.settled h
      have hlastHere : Q → HeapHere s₄ ch c s.tcb.mallocFrame := by
        intro hq
        refine hhere fun hlt front hf ↦ ?_
        have hlen : (ch s.current).length = s.tcb.mallocFrame + 1 :=
          h.length _ (h.firstPage_ne.mp hsome)
        have hle := h.chunk s.current
        rw [hcur₃] at hlt hf
        exact hb.stays 0 front hf (hQ hq _ last hp (.inl rfl) (by omega) front hf)
      have hfound : Found B Q ch c x r₁ (loadHeap last s₄) s₂ := by
        refine tryPages_works hset (loaded_loadHeap last s₄) (by rwa [hmf]) ?_ ?_ htry
        · rw [hmf]
          exact hlastHere
        · rintro hq ⟨s₅, hreq⟩ j p hpj hfree
          have hpj' : (ch s.current)[j]? = some p := by rwa [← hcur₄]
          have hfree' : toI32 x ≤ (s.metas p).freePageMem := by rwa [← hbb.keeps.metas]
          refine (hQ hq j p hpj' (.inr ⟨hfree', ?_⟩)).mono hstay hcur₄
          rintro ⟨cur', s₁', r', s₅', hcur', hreq', hr'⟩
          obtain ⟨heq, rfl⟩ := Prod.mk.inj (Option.some.inj (hcur.symm.trans hcur'))
          obtain rfl := Option.some.inj heq
          rw [hmf] at hreq
          exact hr' (Prod.mk.inj (Option.some.inj (hreq.symm.trans hreq'))).1.symm
      rcases hend with ⟨hr, rfl, rfl⟩ | ⟨rfl, hend⟩
      · exact .inl (hfound.of_works hw)
      · obtain ⟨hw₂, hin₂⟩ : Works B Q ch c x s s₂ ∧ s₂.pageFrame last = s.tcb.mallocFrame := by
          have hin₄ : s₄.pageFrame last = s.tcb.mallocFrame := hb'.stays _ last hp₃ hin
          cases hfound with
          | nothing _ hw' => exact ⟨hw.trans hw', (hw'.settled hset).2.2.2 _ last hp₄ hin₄⟩
          | page hr => exact absurd rfl hr
        obtain ⟨hset₂, hcur₂, htcbs₂, -⟩ := hw₂.settled h
        have hmf₂ : s₂.tcb.mallocFrame = s.tcb.mallocFrame := by
          show (s₂.tcbs s₂.current).mallocFrame = _
          rw [htcbs₂, hcur₂]
        refine .inr ⟨s₂, last, hw₂, hsd₂, ?_, ?_, hend⟩
        · rwa [hmf₂, hcur₂]
        · rwa [hmf₂]
    · exact absurd hnone hsome
    · exact absurd hnone hsome

/-- A request of up to a page. -/
theorem allocatePage_ending (h : Settled s ch c) (hsd : Sound B s) (hc : Counted s) (hx : x ≤ 4064)
    (hQ : Q → FrontHere B x s ch c) (hs : allocatePage B x s = some (r, s')) :
    Ending B Q ch c x r s s' := by
  by_cases hsome : s.tcb.firstPage = none
  · rcases allocatePage_eq_some.mp hs with ⟨hcur, rfl⟩ | ⟨cur, s₁, r₁, s₂, hcur, htry, hend⟩
    · rcases currentPage_eq_some.mp hcur with ⟨-, last, -, -, -, -, hlast, -⟩ |
        ⟨-, -, new, -, -, hnew, -⟩ | ⟨-, -, -, rfl⟩
      · cases hlast
      · cases hnew
      · exact .found (.nothing rfl .refl)
    · rcases currentPage_eq_some.mp hcur with ⟨hsome', -⟩ |
        ⟨hnone, hpc, new, s₃, hnew, hnew', rfl⟩ | ⟨-, -, hnone, -⟩
      · exact absurd hsome hsome'
      · -- the first page of the caller
        obtain rfl := Option.some.inj hnew'
        have hmf := (newFirst_counted hsd hc hnone hnew).2.2.mallocFrame
        rw [if_pos hnone] at hmf
        have hmf' : (resetHeap new s₃).tcb.mallocFrame = 0 := by
          show s₃.tcb.mallocFrame = 0
          omega
        have hr₁ := tryPages_ne_zero hx (show (resetHeap new s₃).heap.head = 0 from rfl) hmf' htry
        rcases hend with ⟨hr, rfl, rfl⟩ | ⟨rfl, -⟩
        · obtain ⟨r₂, s₄, s₅, hreq, hstore, hend⟩ := tryPages_eq_some.mp htry
          rcases hend with ⟨-, rfl, rfl⟩ | ⟨rfl, -⟩
          · refine .grown hr .refl (newFirst_grow h hsd hc hnone hx hnew hreq hstore) ?_ rfl
            exact fun _ ↦ ⟨rfl, rfl⟩
          · exact absurd rfl (request_page_ne_zero hx (by omega) rfl hreq)
        · exact absurd rfl hr₁
      · cases hnone
  · rcases allocatePage_found h hsd hc hsome hQ hs with hf | ⟨s₂, last, hw, hsd₂, hlast, hin, hnew⟩
    · exact .found hf
    · rcases allocateNew_eq_some.mp hnew with ⟨-, rfl, rfl⟩ |
        ⟨hroom, new, s₅, s₆, s₇, hpage, hreq, hstore, rfl⟩
      · exact .found (.nothing rfl hw)
      · obtain ⟨hset₂, -⟩ := hw.settled h
        have hsome₂ : s₂.tcb.firstPage ≠ none := by
          rw [hw.steady.tcb]
          exact hsome
        have hg := newPage_grow (x := x) hset₂ hsd₂ (hw.counted hc) hlast hin hroom.2 hx hpage hreq
          hstore
        have hne := allocateNew_ne_zero hx hsd₂ (hw.counted hc) hsome₂ hroom hnew
        exact .grown hne.1 hw hg (fun _ ↦ ⟨rfl, rfl⟩) rfl

/-! ## Requests of several pages -/

/-- A chunk for a thread that has pages, and is not refused. -/
def LaterChunk (x : ℕ) (s : Manager) : Prop :=
  4064 < x ∧ s.tcb.firstPage ≠ none ∧ ¬s.TooMany (numOfPages x)

theorem allocateChunk_ending (h : Settled s ch c) (hsd : Sound B s) (hc : Counted s)
    (hx : x < 2 ^ 32) (hlarge : 4064 < x) (hlater : ¬LaterChunk x s)
    (hs : allocateChunk B x s = some (r, s')) : Ending B Q ch c x r s s' := by
  rcases allocateChunk_eq_some.mp hs with ⟨-, rfl, rfl⟩ | ⟨hmany, last, s₁, front, s₂, s₃, hchunk,
    hfront, hreq, hstore, rfl⟩
  · exact .found (.nothing rfl .refl)
  · have hr := allocateChunk_ne_zero hsd hc hx hmany hs
    rcases hchunk with ⟨hnone, hchunk⟩ | ⟨hsome, -⟩
    · obtain ⟨hn, -⟩ := le_of_not_tooMany hmany
      have hnil : ch s.current = [] := by
        by_contra hsome
        exact h.firstPage_ne.mpr hsome hnone
      have hlen : (ch s.current).length = 0 := by
        rw [hnil]
        rfl
      have htwo := (chunkFirst_counted hsd hc hnone hchunk).1
      obtain ⟨front', hfront', hloc⟩ := chunkFirst_front hchunk
      obtain rfl := Option.some.inj (hfront'.symm.trans hfront)
      obtain ⟨-, hsuf, hswaps⟩ := chunkFirst_swaps hchunk
      obtain ⟨l, hl, hlast, hgrew⟩ := chunkFirst_settled h hsd hc hnone hn hchunk
      rw [hloc] at hreq
      refine .grown hr .refl (.intro (l := l) h hgrew hlast ?_ hswaps hsuf
          (h.chunkFirst_vacates hn hchunk) ?_ ?_ ?_ hstore)
        (fun hle ↦ absurd hlarge (not_lt.mpr hle)) rfl
      · refine .inr ⟨hnil, ?_, ?_⟩
        · rw [hl]
          exact htwo
        · rw [hl]
      · rw [hl]
        exact le_numOfPages hx htwo
      · omega
      · rw [hlen, hl]
        push_cast
        exact hreq
    · exact absurd ⟨hlarge, hsome, hmany⟩ hlater

/-! ## Calls -/

theorem enter_works (s : Manager) : Work B Q ch c x s s.enter := .flags 1 _

/-- A request of a thread whose chains are complete. -/
theorem myallocate_ending (h : Settled s ch c) (hsd : Sound B s) (hc : Counted s)
    (hx : x < 2 ^ 32) (hlater : ¬LaterChunk x s)
    (hQ : Q → x ≤ 4064 → FrontHere B x s.enter ch c) (hs : myallocate B x s = some (r, s')) :
    Ending B Q ch c x r s s' := by
  have hw : Works B Q ch c x s s.enter := .single (enter_works s)
  have hset := (hw.settled h).1
  rw [myallocate] at hs
  split_ifs at hs with hlarge
  · exact (allocateChunk_ending hset hsd.enter (hw.counted hc) hx hlarge hlater hs).of_works hw
  · have hx' := not_lt.mp hlarge
    exact (allocatePage_ending hset hsd.enter (hw.counted hc) hx' (fun hq ↦ hQ hq hx')
      hs).of_works hw

/-- `mydeallocate(x)` is called with an address in a frame of the caller, or where a page of
the caller is. -/
def OwnFrame (B : Block) (x : ℕ) (s : Manager) : Prop :=
  (∃ p, s.frameTable (frameOf B x).toNat = some p ∧ (s.metas p).tid = s.current) ∨
    (frameOf B x).toNat ≤ s.tcb.mallocFrame

/-- The heap of a chunk that `mydeallocate(x)` works on has its other pages in their frames. -/
def ChunkFreeHere (B : Block) (x : ℕ) (s : Manager) (ch : ℕ → List PageMetaPtr)
    (c : ℕ → ℕ) : Prop :=
  (frameOf B x).toNat + 1 = c s.current → ∀ j p, j < (frameOf B x).toNat →
    (ch s.current)[j]? = some p → s.pageFrame p = j

/-- A page of a thread is in its chain, wherever it is. -/
theorem exists_own (h : Settled s ch c) (hsd : Sound B s) (hp : s.frameTable i = some p)
    (htid : (s.metas p).tid = s.current) : ∃ k : ℕ, (ch s.current)[k]? = some p := by
  obtain ⟨t, k, hk⟩ := h.exists_place (show p ∈ s.pages from (hsd.table i p hp).1)
  obtain rfl := (h.tid hk).symm.trans htid
  exact ⟨k, hk⟩

/-- The page that `mydeallocate` finds for a frame of the caller. -/
theorem findPage_eq (h : Settled s ch c) (hsd : Sound B s) (hk : k ≤ s.tcb.mallocFrame)
    (hs : findPage k s = some p) : (ch s.current)[k]? = some p := by
  rw [findPage] at hs
  split_ifs at hs with hzero
  · obtain ⟨before, hbefore, hnext⟩ := Option.bind_eq_some_iff.mp hs
    split_ifs at hnext with htid
    · -- the page in the frame before is the one before in the chain
      obtain ⟨i, hi⟩ := exists_own h hsd hbefore htid
      have hlen : (ch s.current).length = s.tcb.mallocFrame + 1 := by
        apply h.length
        intro hnil
        rw [hnil] at hi
        cases hi
      have hat := h.resident_own (show k - 1 < (ch s.current).length by omega) hbefore htid
      obtain ⟨j, rfl⟩ : ∃ j, k = j + 1 := ⟨k - 1, by omega⟩
      have hfollow := h.follow_eq (j + 1)
      rw [Nat.add_sub_cancel] at hat
      rw [follow_succ, h.follow_eq j, hat] at hfollow
      exact hfollow.symm.trans hnext
    · rwa [h.follow_eq k] at hnext
  · rwa [h.follow_eq k] at hs

/-- The pages of a heap are in their frames when its last page is, and the other pages of the
chunk, if it is one. -/
theorem heapHere_of_chunk (hp : (ch s.current)[k]? = some p) (hin : s.pageFrame p = k)
    (hck : c s.current ≤ k + 1)
    (hall : k + 1 = c s.current → ∀ j q, j < k → (ch s.current)[j]? = some q → s.pageFrame q = j) :
    HeapHere s ch c k := by
  intro j q hj hjk hq
  rcases Nat.eq_or_lt_of_le hjk with rfl | hlt
  · obtain rfl := Option.some.inj (hp.symm.trans hq)
    exact hin
  · refine hall ?_ j q hlt hq
    rw [base] at hj
    split_ifs at hj <;> omega

/-- `mydeallocate` releases a block of a page of the caller, which it may bring in. -/
theorem mydeallocate_works (h : Settled s ch c) (hsd : Sound B s) (hown : OwnFrame B x s)
    (hQ : Q → (frameOf B x).toNat ≤ s.tcb.mallocFrame ∧ ChunkFreeHere B x s ch c)
    (hs : mydeallocate B x s = some s') :
    ∃ s₁ s₂, Works B Q ch c x s s₁ ∧ Release B Q ch c x s₁ s₂ ∧ s₂.leave = s' := by
  obtain ⟨-, resident, hres, hend⟩ := mydeallocate_eq_some.mp hs
  rcases hend with ⟨htid, s₂, hstore, hleave⟩ | ⟨htid, temp, s₁, s₂, hfind, hswap, hstore, hleave⟩
  · obtain ⟨k, hk⟩ := exists_own h hsd hres htid
    have hw : Works B Q ch c x s (loadHeap resident s.enter) :=
      (Relation.ReflTransGen.single (enter_works s)).tail (.load hk)
    have hin : Q → (ch s.current)[(frameOf B x).toNat]? = some resident := by
      intro hq
      have hlen : (ch s.current).length = s.tcb.mallocFrame + 1 := by
        apply h.length
        intro hnil
        rw [hnil] at hk
        cases hk
      have hle := (hQ hq).1
      exact h.resident_own (by omega) hres htid
    refine ⟨_, s₂, hw, .intro (hw.settled h).1 (loaded_loadHeap _ _) hk ?_ ?_ hstore, hleave⟩
    · intro hq
      exact (h.table.index_unique (hin hq) hk).2
    · intro hq hck
      have hkx := (h.table.index_unique (hin hq) hk).2
      refine heapHere_of_chunk hk ?_ hck fun hkc j q hj hq' ↦ ?_
      · rw [← hkx] at hk ⊢
        exact (h.pageFrame_iff hk).mpr hres
      · exact (hQ hq).2 (hkx ▸ hkc) j q (hkx ▸ hj) hq'
  · have hle : (frameOf B x).toNat ≤ s.tcb.mallocFrame := by
      rcases hown with ⟨p, hp, htid'⟩ | hle
      · obtain rfl := Option.some.inj (hres.symm.trans hp)
        exact absurd htid' htid
      · exact hle
    have hk := findPage_eq h hsd hle hfind
    have hne : s.pageFrame temp ≠ (frameOf B x).toNat := by
      intro hin
      obtain rfl := Option.some.inj (((h.pageFrame_iff hk).mp hin).symm.trans hres)
      exact htid (h.tid hk)
    have hw₀ : Works B Q ch c x s (loadHeap temp s.enter) :=
      (Relation.ReflTransGen.single (enter_works s)).tail (.load hk)
    have hset₀ := (hw₀.settled h).1
    have hw : Works B Q ch c x s s₁ := hw₀.tail (.bring hset₀ hk hne hswap)
    obtain ⟨hstay, hin⟩ := hset₀.bring_stays hk hne hswap
    have hkeep := (swapPages_keeps hswap).1
    have hcur : s₁.current = s.current := hkeep.current
    have hk₁ : (ch s₁.current)[(frameOf B x).toNat]? = some temp := by rwa [hcur]
    refine ⟨s₁, s₂, hw, .intro (hw.settled h).1 ?_ hk₁ (fun _ ↦ rfl) ?_ hstore, hleave⟩
    · refine ⟨hkeep.head.trans ?_, hkeep.middle.trans ?_⟩
      · rw [hkeep.metas]
        rfl
      · rw [hkeep.metas]
        rfl
    · intro hq hck
      refine heapHere_of_chunk hk₁ hin hck fun hkc j q hj hq' ↦ ?_
      rw [hcur] at hkc hq'
      exact hstay j q hq' ((hQ hq).2 hkc j q hj hq')

/-- An access to the memory may bring a page of the caller in. -/
theorem access_works (h : Settled s ch c) (hs : access B x s = some s') :
    Works B Q ch c x s s' := by
  rw [access] at hs
  split_ifs at hs
  · obtain ⟨-, -, resident, hres, hend⟩ := swapHandler_eq_some.mp hs
    rcases hend with ⟨-, rfl⟩ | ⟨htid, temp, s₁, hfollow, hswap, rfl⟩
    · exact .single (.flags s.memFlag _)
    · rw [h.follow_eq] at hfollow
      have hne : s.pageFrame temp ≠ (frameOf B x).toNat := by
        intro hin
        obtain rfl := Option.some.inj (((h.pageFrame_iff hfollow).mp hin).symm.trans hres)
        exact htid (h.tid hfollow)
      have hw : Works B Q ch c x s s₁ := .single (.bring h hfollow hne hswap)
      exact hw.tail (.flags s₁.memFlag _)
  · obtain rfl := Option.some.inj hs
    exact .refl

end MyPthread.Paging
