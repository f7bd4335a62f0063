import MyPthread.Paging.Residence

/-!
# `mem_flag` while the manager works on a heap

The timer makes `scheduler()` run at any moment; it returns at once while `mem_flag` is not
0.  The manager sets the flag when it is entered, and `swap_pages` clears it at its end.  So
a call holds the flag from the moment it loads a heap until the heap is stored exactly when
it has to bring no page in: the pages of the heaps it comes to are in place.
-/

namespace MyPthread.Paging

open MyPthread.Lib MyPthread.Heap Function

variable {B : Block} {s s' s₁ s₂ : Manager} {i j x r k n fuel : ℕ} {p q cur front : PageMetaPtr}
  {o o' : Option PageMetaPtr} {Q : Event → Prop}

/-- The timer goes off: `scheduler()`, when it would choose the thread `tid`. -/
def tick (tid : ℕ) (s : Manager) : Manager := if s.memFlag ≠ 0 then s else switch tid s

/-- A heap operation is done with `mem_flag = 1`, and a tick then switches to no thread. -/
def Event.Locked : Event → Prop
  | .swap .. => True
  | .heap _ _ _ memFlag .. => memFlag = 1 ∧ ∀ (tid : ℕ) (s : Manager), s.memFlag = memFlag →
      tick tid s = s

theorem Event.locked_heap_iff {op : HeapOp} {tid head first last : ℕ} {memFlag : ℤ}
    {held : ℕ → Option (ℕ × ℕ)} :
    (Event.heap op tid head memFlag first last held).Locked ↔ memFlag = 1 := by
  refine ⟨And.left, fun h ↦ ⟨h, ?_⟩⟩
  intro t s hs
  rw [tick, if_pos]
  rw [hs, h]
  exact one_ne_zero

/-! ## What happens during a call -/

/-- Everything that happened between `s` and `s'` satisfies `Q`. -/
def During (Q : Event → Prop) (s s' : Manager) : Prop :=
  ∀ evs, s'.trace = evs ++ s.trace → ∀ e ∈ evs, Q e

theorem During.refl (s : Manager) : During Q s s := by
  intro evs hevs e he
  obtain rfl : evs = [] := List.self_eq_append_left.mp hevs
  cases he

/-- A call in two parts. -/
theorem during_iff (h₁ : s.trace <:+ s₁.trace) (h₂ : s₁.trace <:+ s'.trace) :
    During Q s s' ↔ During Q s s₁ ∧ During Q s₁ s' := by
  obtain ⟨evs₁, h₁⟩ := h₁
  obtain ⟨evs₂, h₂⟩ := h₂
  constructor
  · intro h
    have hall := h (evs₂ ++ evs₁) (by rw [List.append_assoc, h₁, h₂])
    constructor
    · intro evs hevs e he
      obtain rfl := List.append_cancel_right (hevs.symm.trans h₁.symm)
      exact hall e (List.mem_append.mpr (.inr he))
    · intro evs hevs e he
      obtain rfl := List.append_cancel_right (hevs.symm.trans h₂.symm)
      exact hall e (List.mem_append.mpr (.inl he))
  · rintro ⟨hall₁, hall₂⟩ evs hevs e he
    rw [← h₂, ← h₁, ← List.append_assoc] at hevs
    obtain rfl := List.append_cancel_right hevs
    rcases List.mem_append.mp he with he | he
    · exact hall₂ _ h₂.symm e he
    · exact hall₁ _ h₁.symm e he

/-- One event. -/
theorem during_cons {e : Event} (h : s'.trace = e :: s.trace) : During Q s s' ↔ Q e := by
  have h' : s'.trace = [e] ++ s.trace := h
  constructor
  · intro hall
    exact hall [e] h' e List.mem_cons_self
  · intro he evs hevs d hd
    obtain rfl := List.append_cancel_right (h'.symm.trans hevs)
    rw [List.mem_singleton.mp hd]
    exact he

theorem Swapping.suffix (h : Swapping s s') : s.trace <:+ s'.trace := by
  obtain ⟨evs, htrace, -⟩ := h.trace
  exact ⟨evs, htrace.symm⟩

theorem During.mono {R : Event → Prop} (h : During Q s s') (hQ : ∀ e, Q e → R e) :
    During R s s' :=
  fun evs hevs e he ↦ hQ e (h evs hevs e he)

theorem Swapping.swaps (h : Swapping s s') : During Event.IsSwap s s' := by
  obtain ⟨evs, htrace, hevs⟩ := h.trace
  intro evs' htrace' e he
  obtain rfl := List.append_cancel_right (htrace.symm.trans htrace')
  exact hevs e he

/-- `swap_pages` is no heap operation. -/
theorem Event.IsSwap.locked {e : Event} (h : e.IsSwap) : e.Locked := by
  cases e with
  | swap => trivial
  | heap => exact h.elim

theorem Swapping.locked (h : Swapping s s') : During Event.Locked s s' :=
  h.swaps.mono fun _ ↦ Event.IsSwap.locked

/-! ## Heaps -/

theorem loadHeap_trace (p : PageMetaPtr) (s : Manager) : ∃ head first last held,
    (loadHeap p s).trace = .heap .load s.current head s.memFlag first last held :: s.trace :=
  ⟨_, _, _, _, rfl⟩

theorem resetHeap_trace (p : PageMetaPtr) (s : Manager) : ∃ head first last held,
    (resetHeap p s).trace = .heap .reset s.current head s.memFlag first last held :: s.trace :=
  ⟨_, _, _, _, rfl⟩

theorem request_trace {memptr : ℕ} {size : ℤ} (h : request p x memptr size s = some (r, s')) :
    s'.memFlag = s.memFlag ∧ ∃ head first last held,
      s'.trace = .heap .mymalloc s.current head s.memFlag first last held :: s.trace := by
  obtain ⟨heap, -, rfl⟩ := request_eq_some.mp h
  exact ⟨rfl, _, _, _, _, rfl⟩

theorem release_trace (p : PageMetaPtr) (x : ℕ) (s : Manager) : ∃ head first last held,
    (release p x s).trace = .heap .myfree s.current head s.memFlag first last held :: s.trace :=
  ⟨_, _, _, _, rfl⟩

theorem storeHeap_trace (h : storeHeap p s = some s') :
    s'.memFlag = s.memFlag ∧ ∃ head first last held,
      s'.trace = .heap .store s.current head s.memFlag first last held :: s.trace := by
  obtain ⟨free, -, rfl⟩ := storeHeap_eq_some.mp h
  exact ⟨rfl, _, _, _, _, rfl⟩

/-- A heap operation is locked when `mem_flag` is 1 before it. -/
theorem locked_heap {op : HeapOp} (h : ∃ head first last held,
    s'.trace = .heap op s.current head s.memFlag first last held :: s.trace) :
    s.trace <:+ s'.trace ∧ (During Event.Locked s s' ↔ s.memFlag = 1) := by
  obtain ⟨head, first, last, held, htrace⟩ := h
  refine ⟨⟨[_], htrace.symm⟩, ?_⟩
  rw [during_cons htrace]
  exact Event.locked_heap_iff

/-- A request on a heap that is stored afterwards. -/
theorem requestStore_locked {memptr : ℕ} {size : ℤ}
    (hreq : request p x memptr size s = some (r, s₁))
    (hstore : storeHeap p s₁ = some s') :
    s'.memFlag = s.memFlag ∧ s.trace <:+ s'.trace ∧
      (During Event.Locked s s' ↔ s.memFlag = 1) := by
  obtain ⟨hflag₁, htrace₁⟩ := request_trace hreq
  obtain ⟨hflag, htrace⟩ := storeHeap_trace hstore
  obtain ⟨hsuf₁, hlock₁⟩ := locked_heap htrace₁
  obtain ⟨hsuf, hlock⟩ := locked_heap htrace
  refine ⟨hflag.trans hflag₁, hsuf₁.trans hsuf, ?_⟩
  rw [during_iff hsuf₁ hsuf, hlock₁, hlock, hflag₁, and_self_iff]

/-! ## The search -/

/-- The heap of the page `p` has no room for `x` bytes. -/
def Full (s : Manager) (x : ℕ) (p : PageMetaPtr) : Prop :=
  ∃ heap, mymalloc heapFuel x 0 0
    ⟨s.heap.mem, (s.metas p).head, (s.metas p).middle⟩ = some (0, heap)

/-- The search for `x` bytes that begins at `o` comes to the heap of its `j`-th page, `p`:
enough bytes of it are free, and the heaps before it have no room. -/
def Searched (s : Manager) (x : ℕ) (o : Option PageMetaPtr) (j : ℕ) (p : PageMetaPtr) : Prop :=
  follow s.next j o = some p ∧ toI32 x ≤ (s.metas p).freePageMem ∧
    ∀ i < j, ∀ q, follow s.next i o = some q → toI32 x ≤ (s.metas q).freePageMem → Full s x q

/-- The page `p` is in frame `k`, and the other pages of its heap are in their frames. -/
def InPlace (s : Manager) (k : ℕ) (p : PageMetaPtr) : Prop := s.pageFrame p = k ∧ FrontInPlace s p

theorem searched_zero : Searched s x (some p) 0 q ↔ p = q ∧ toI32 x ≤ (s.metas p).freePageMem := by
  constructor
  · rintro ⟨hp, hfree, -⟩
    obtain rfl := Option.some.inj hp
    exact ⟨rfl, hfree⟩
  · rintro ⟨rfl, hfree⟩
    exact ⟨rfl, hfree, fun i hi ↦ absurd hi (Nat.not_lt_zero i)⟩

theorem searched_succ : Searched s x (some p) (j + 1) q ↔
    (toI32 x ≤ (s.metas p).freePageMem → Full s x p) ∧ Searched s x (s.next p) j q := by
  constructor
  · rintro ⟨hq, hfree, hall⟩
    refine ⟨fun hp ↦ hall 0 (Nat.succ_pos j) p rfl hp, hq, hfree, ?_⟩
    intro i hi
    exact hall (i + 1) (Nat.succ_lt_succ hi)
  · rintro ⟨hfull, hq, hfree, hall⟩
    refine ⟨hq, hfree, ?_⟩
    intro i hi q' hq' hfree'
    cases i with
    | zero =>
      obtain rfl := Option.some.inj hq'
      exact hfull hfree'
    | succ i => exact hall i (Nat.lt_of_succ_lt_succ hi) q' hq' hfree'

/-- Every page that the search comes to, from the page `o` at frame `k` on, is in place. -/
def SearchInPlace (s : Manager) (x k : ℕ) (o : Option PageMetaPtr) : Prop :=
  ∀ j p, Searched s x o j p → InPlace s (k + j) p

theorem searchInPlace_none : SearchInPlace s x k none := by
  rintro j p ⟨hp, -, -⟩
  cases j <;> cases hp

/-- A page that cannot hold the request is passed over. -/
theorem searchInPlace_skip (h : (s.metas p).freePageMem < toI32 x) :
    SearchInPlace s x k (some p) ↔ SearchInPlace s x (k + 1) (s.next p) := by
  constructor
  · intro hin j q hq
    have hq' := hin (j + 1) q (searched_succ.mpr ⟨fun hp ↦ absurd hp (not_le.mpr h), hq⟩)
    rwa [Nat.add_assoc, Nat.add_comm 1 j]
  · intro hin j q hq
    cases j with
    | zero => exact absurd (searched_zero.mp hq).2 (not_le.mpr h)
    | succ j =>
      have hq' := hin j q (searched_succ.mp hq).2
      rwa [Nat.add_assoc, Nat.add_comm 1 j] at hq'

/-- A page that may hold it is tried, and the search goes on if it has no room. -/
theorem searchInPlace_try (h : toI32 x ≤ (s.metas p).freePageMem) :
    SearchInPlace s x k (some p) ↔
      InPlace s k p ∧ (Full s x p → SearchInPlace s x (k + 1) (s.next p)) := by
  constructor
  · intro hin
    refine ⟨hin 0 p (searched_zero.mpr ⟨rfl, h⟩), fun hfull j q hq ↦ ?_⟩
    have hq' := hin (j + 1) q (searched_succ.mpr ⟨fun _ ↦ hfull, hq⟩)
    rwa [Nat.add_assoc, Nat.add_comm 1 j]
  · rintro ⟨hp, hin⟩ j q hq
    cases j with
    | zero =>
      obtain ⟨rfl, -⟩ := searched_zero.mp hq
      exact hp
    | succ j =>
      obtain ⟨hfull, hq⟩ := searched_succ.mp hq
      have hq' := hin (hfull h) j q hq
      rwa [Nat.add_assoc, Nat.add_comm 1 j] at hq'

/-- The search looks at the page table, the records of the pages and the memory only. -/
theorem searchInPlace_congr (hnext : s'.next = s.next)
    (hmetas : s'.metas = s.metas) (hloc : s'.pageFrame = s.pageFrame)
    (htable : s'.frameTable = s.frameTable) (hmem : s'.heap.mem = s.heap.mem) :
    SearchInPlace s' x k o ↔ SearchInPlace s x k o := by
  unfold SearchInPlace Searched Full InPlace FrontInPlace
  rw [hnext, hmetas, hloc, htable, hmem]

/-- The request on the heap of `p` is served exactly when the heap is not full. -/
theorem request_full (h : request p x 0 0 (loadHeap p s) = some (r, s')) :
    (Full s x p ↔ r = 0) ∧ (r = 0 → s'.heap.mem = s.heap.mem) := by
  obtain ⟨heap, hm, rfl⟩ := request_eq_some.mp h
  constructor
  · constructor
    · rintro ⟨heap', hm'⟩
      exact (Prod.mk.inj (Option.some.inj (hm.symm.trans hm'))).1
    · rintro rfl
      exact ⟨heap, hm⟩
  · rintro rfl
    show heap.mem = s.heap.mem
    rw [mymalloc_eq_zero hm]
    rfl

/-- Bringing in a page and the other pages of its heap. -/
theorem bring_cases (hpage : bringPage B k p s = some s₁) (hfront : bringFront B p s₁ = some s') :
    InPlace s k p ∧ s' = s ∨ ¬InPlace s k p ∧ Swapping s s' := by
  rcases bringPage_cases hpage with ⟨hk, rfl⟩ | ⟨hk, hsw⟩
  · rcases bringFront_cases hfront with ⟨hin, rfl⟩ | ⟨hin, hsw⟩
    · exact .inl ⟨⟨hk, hin⟩, rfl⟩
    · exact .inr ⟨fun h ↦ hin h.2, hsw⟩
  · refine .inr ⟨fun h ↦ hk h.1, ?_⟩
    rcases bringFront_cases hfront with ⟨-, rfl⟩ | ⟨-, hsw'⟩
    · exact hsw
    · exact hsw.trans hsw'

/-- A request on a heap once its pages are brought in. -/
theorem bringRequest_locked (hbring : s₁ = s ∨ Swapping s s₁)
    (hreq : request p x 0 0 (loadHeap p s₁) = some (r, s')) :
    s'.memFlag = s₁.memFlag ∧ s.trace <:+ s'.trace ∧
      (During Event.Locked s s' ↔ s₁.memFlag = 1) := by
  obtain ⟨hload, hlock⟩ := locked_heap (loadHeap_trace p s₁)
  obtain ⟨hflag, htrace⟩ := request_trace hreq
  obtain ⟨hreq, hlock'⟩ := locked_heap htrace
  have hiff : During Event.Locked s₁ s' ↔ s₁.memFlag = 1 := by
    rw [during_iff hload hreq, hlock, hlock']
    exact and_self_iff
  rcases hbring with rfl | hsw
  · exact ⟨hflag, hload.trans hreq, hiff⟩
  · refine ⟨hflag, hsw.suffix.trans (hload.trans hreq), ?_⟩
    rw [during_iff hsw.suffix (hload.trans hreq), hiff]
    exact and_iff_right hsw.locked

theorem searchPages_suffix (hs : searchPages B x fuel k o s = some (r, s')) :
    s.trace <:+ s'.trace := by
  induction fuel generalizing k o s with
  | zero => cases hs
  | succ fuel ih =>
    cases o with
    | none =>
      obtain ⟨-, rfl⟩ := Prod.mk.inj (Option.some.inj hs)
      exact List.suffix_refl _
    | some p =>
      rcases searchPages_eq_some.mp hs with ⟨-, hrest⟩ | ⟨-, s₁, r₁, s₂, hbring, htry, hs⟩
      · exact ih hrest
      · obtain ⟨s₃, hfront, hreq⟩ := tryHeap_eq_some.mp htry
        have hcases : s₃ = s ∨ Swapping s s₃ := (bring_cases hbring hfront).imp And.right And.right
        have hsuf := (bringRequest_locked hcases hreq).2.1
        rcases hs with ⟨-, -, s₄, hstore, rfl⟩ | ⟨-, hrest⟩
        · exact hsuf.trans (locked_heap (storeHeap_trace hstore).2).1
        · exact hsuf.trans (ih hrest)

/-- The search holds the flag exactly when it brings no page in. -/
theorem searchPages_locked (hflag : s.memFlag = 1)
    (hs : searchPages B x fuel k o s = some (r, s')) :
    During Event.Locked s s' ↔ SearchInPlace s x k o := by
  induction fuel generalizing k o s with
  | zero => cases hs
  | succ fuel ih =>
    cases o with
    | none =>
      obtain ⟨-, rfl⟩ := Prod.mk.inj (Option.some.inj hs)
      exact ⟨fun _ ↦ searchInPlace_none, fun _ ↦ During.refl s⟩
    | some p =>
      rcases searchPages_eq_some.mp hs with ⟨hlt, hrest⟩ | ⟨hle, s₁, r₁, s₂, hbring, htry, hend⟩
      · rw [searchInPlace_skip hlt]
        exact ih hflag hrest
      · rw [searchInPlace_try hle]
        obtain ⟨s₃, hfront, hreq⟩ := tryHeap_eq_some.mp htry
        have hcases := bring_cases hbring hfront
        obtain ⟨hflag₂, hsuf, hlock⟩ :=
          bringRequest_locked (hcases.imp And.right And.right) hreq
        have hsuf' : s₂.trace <:+ s'.trace := by
          rcases hend with ⟨-, -, s₄, hstore, rfl⟩ | ⟨-, hrest⟩
          · exact (locked_heap (storeHeap_trace hstore).2).1
          · exact searchPages_suffix hrest
        rw [during_iff hsuf hsuf', hlock]
        rcases hcases with ⟨hin, rfl⟩ | ⟨hin, hsw⟩
        · -- the pages are in place, and the flag is still held
          rw [and_iff_right hflag, and_iff_right hin]
          obtain ⟨hfull, hmem⟩ := request_full hreq
          rcases hend with ⟨hr, -, s₄, hstore, rfl⟩ | ⟨hr, hrest⟩
          · obtain ⟨-, hlock⟩ := locked_heap (storeHeap_trace hstore).2
            constructor
            · intro _ hp
              exact absurd (hfull.mp hp) hr
            · intro _
              exact hlock.mpr (hflag₂.trans hflag)
          · obtain ⟨heap, -, heq⟩ := request_eq_some.mp hreq
            have hnext : s₂.next = s₃.next := by
              rw [← heq]
              rfl
            have hcongr : SearchInPlace s₂ x (k + 1) (s₃.next p) ↔
                SearchInPlace s₃ x (k + 1) (s₃.next p) := by
              refine searchInPlace_congr hnext ?_ ?_ ?_ (hmem hr)
              all_goals
                rw [← heq]
                rfl
            rw [ih (hflag₂.trans hflag) hrest, hnext, hcongr]
            exact (imp_iff_right (hfull.mpr hr)).symm
        · constructor
          · rintro ⟨hone, -⟩
            rw [hsw.memFlag] at hone
            exact absurd hone zero_ne_one
          · rintro ⟨hp, -⟩
            exact absurd hp hin

/-! ## Requests -/

/-- The request with the heap of `cur` loaded brings no page in. -/
def HeapsInPlace (B : Block) (x : ℕ) (cur : PageMetaPtr) (s : Manager) : Prop :=
  ∀ s₁ s₂, request cur x (B.frame s.tcb.mallocFrame) 4096 s = some (0, s₁) →
    storeHeap cur s₁ = some s₂ → SearchInPlace s₂ x 0 s₂.tcb.firstPage

/-- A request of up to a page brings no page in: the last page of the caller is in place, and,
when it has no room, so are the pages that the search comes to. -/
def RequestInPlace (B : Block) (x : ℕ) (s : Manager) : Prop :=
  s.tcb.firstPage ≠ none → LastInPlace s ∧ ∀ cur, s.frameTable s.tcb.mallocFrame = some cur →
    FrontInPlace s cur ∧ HeapsInPlace B x cur (loadHeap cur s.enter)

theorem tryPages_suffix (hs : tryPages B x cur s = some (r, s')) : s.trace <:+ s'.trace := by
  obtain ⟨r₁, s₁, s₂, hreq, hstore, hs⟩ := tryPages_eq_some.mp hs
  have hsuf := (requestStore_locked hreq hstore).2.1
  rcases hs with ⟨-, -, rfl⟩ | ⟨-, hsearch⟩
  · exact hsuf
  · exact hsuf.trans (searchPages_suffix hsearch)

theorem tryPages_locked (hflag : s.memFlag = 1) (hs : tryPages B x cur s = some (r, s')) :
    During Event.Locked s s' ↔ HeapsInPlace B x cur s := by
  obtain ⟨r₁, s₁, s₂, hreq, hstore, hs⟩ := tryPages_eq_some.mp hs
  obtain ⟨hflag₂, hsuf, hlock⟩ := requestStore_locked hreq hstore
  rcases hs with ⟨hr, rfl, rfl⟩ | ⟨rfl, hsearch⟩
  · constructor
    · intro _ s₁' s₂' hreq' _
      exact absurd (Prod.mk.inj (Option.some.inj (hreq.symm.trans hreq'))).1 hr
    · intro _
      exact hlock.mpr hflag
  · rw [during_iff hsuf (searchPages_suffix hsearch), hlock,
      searchPages_locked (hflag₂.trans hflag) hsearch]
    constructor
    · rintro ⟨-, hin⟩ s₁' s₂' hreq' hstore'
      obtain ⟨-, rfl⟩ := Prod.mk.inj (Option.some.inj (hreq.symm.trans hreq'))
      obtain rfl := Option.some.inj (hstore.symm.trans hstore')
      exact hin
    · intro hin
      exact ⟨hflag, hin s₁ s₂ hreq hstore⟩

/-- A heap that is set up and stored. -/
theorem newHeap_locked {memptr : ℕ} {size : ℤ} (hflag : s.memFlag = 1)
    (hreq : request p x memptr size (resetHeap p s) = some (r, s₁))
    (hstore : storeHeap p s₁ = some s') : s.trace <:+ s'.trace ∧ During Event.Locked s s' := by
  obtain ⟨hreset, hlock⟩ := locked_heap (resetHeap_trace p s)
  obtain ⟨-, hsuf, hlock'⟩ := requestStore_locked hreq hstore
  refine ⟨hreset.trans hsuf, ?_⟩
  rw [during_iff hreset hsuf, hlock, hlock']
  exact ⟨hflag, hflag⟩

theorem newFirst_swaps (hs : newFirst B s = some (p, s')) :
    s'.memFlag = 1 ∧ s.trace <:+ s'.trace ∧ During Event.IsSwap s s' := by
  obtain ⟨s₁, hs₁, -, rfl⟩ := newFirst_eq_some.mp hs
  have hsw := swapPages_swapping hs₁
  rw [chainFirst_eq]
  exact ⟨rfl, hsw.suffix, hsw.swaps⟩

/-- The first page of a thread is the only one, and in place. -/
theorem newFirst_heapsInPlace (hs : newFirst B s = some (p, s')) :
    HeapsInPlace B x p (resetHeap p s') := by
  obtain ⟨s₁, hs₁, rfl, rfl⟩ := newFirst_eq_some.mp hs
  rw [chainFirst_eq]
  intro s₂ s₃ hreq hstore j q hq
  have hst := (resetHeap_steady _ _).trans ((request_steady hreq).trans (storeHeap_steady hstore))
  have hloc : s₃.pageFrame = update s₁.pageFrame s₁.osMemPtr 0 := by
    obtain ⟨heap, -, rfl⟩ := request_eq_some.mp hreq
    obtain ⟨free, -, rfl⟩ := storeHeap_eq_some.mp hstore
    rfl
  have hfirst : s₃.tcb.firstPage = some s₁.osMemPtr := by
    rw [hst.tcb]
    simp only [Manager.tcb, update_self]
  have hnext : s₃.next s₁.osMemPtr = none := by
    rw [hst.next]
    exact update_self ..
  rw [hfirst] at hq
  cases j with
  | zero =>
    obtain ⟨rfl, -⟩ := searched_zero.mp hq
    refine ⟨?_, ?_⟩
    · rw [hloc, update_self]
    · intro front hfront
      rw [hst.frontMeta] at hfront
      simp only [update_self] at hfront
      cases hfront
  | succ j =>
    rw [searched_succ, hnext] at hq
    obtain ⟨-, hq, -, -⟩ := hq
    cases j <;> cases hq

theorem newPage_swaps (hs : newPage B s = some (p, s')) :
    s'.memFlag = 1 ∧ s.trace <:+ s'.trace ∧ During Event.IsSwap s s' := by
  obtain ⟨s₁, prev, hs₁, -, -, rfl⟩ := newPage_eq_some.mp hs
  have hsw := swapPages_swapping hs₁
  rw [chainAfter_eq]
  exact ⟨rfl, hsw.suffix, hsw.swaps⟩

theorem allocateNew_locked (hs : allocateNew B x s = some (r, s')) :
    s.trace <:+ s'.trace ∧ During Event.Locked s s' := by
  rcases allocateNew_eq_some.mp hs with ⟨-, -, rfl⟩ | ⟨-, cur, s₁, s₂, s₃, hnew, hreq, hstore, rfl⟩
  · exact ⟨List.suffix_refl _, During.refl s⟩
  · obtain ⟨hflag, hsuf₁, hswaps⟩ := newPage_swaps hnew
    obtain ⟨hsuf, hlock⟩ := newHeap_locked hflag hreq hstore
    refine ⟨hsuf₁.trans hsuf, (during_iff hsuf₁ hsuf).mpr ⟨?_, hlock⟩⟩
    exact hswaps.mono fun _ ↦ Event.IsSwap.locked

theorem allocatePage_locked (hs : allocatePage B x s.enter = some (r, s')) :
    During Event.Locked s s' ↔ RequestInPlace B x s := by
  show During Event.Locked s.enter s' ↔ _
  have hflag : s.enter.memFlag = 1 := rfl
  rcases allocatePage_eq_some.mp hs with ⟨hcur, -⟩ | ⟨cur, s₁, r₁, s₂, hcur, htry, hs⟩
  · rcases currentPage_eq_some.mp hcur with ⟨-, last, -, -, -, -, hlast, -⟩ |
      ⟨-, -, new, -, -, hnew, -⟩ | ⟨hnone, -, -, rfl⟩
    · cases hlast
    · cases hnew
    · exact ⟨fun _ hsome ↦ absurd hnone hsome, fun _ ↦ During.refl _⟩
  · have hend : s₂.trace <:+ s'.trace ∧ During Event.Locked s₂ s' := by
      rcases hs with ⟨-, -, rfl⟩ | ⟨-, hnew⟩
      · exact ⟨List.suffix_refl _, During.refl s₂⟩
      · exact allocateNew_locked hnew
    have htail := (tryPages_suffix htry).trans hend.1
    have hiff : During Event.Locked s₁ s' ↔ During Event.Locked s₁ s₂ := by
      rw [during_iff (tryPages_suffix htry) hend.1]
      exact and_iff_left hend.2
    rcases currentPage_eq_some.mp hcur with ⟨hsome, last, s₃, s₄, hlast, hfront, hlast', rfl⟩ |
      ⟨hnone, -, new, s₃, hnew, hnew', rfl⟩ | ⟨-, -, hnone, -⟩
    · obtain rfl := Option.some.inj hlast'
      obtain ⟨hload, hlock⟩ := locked_heap (loadHeap_trace last s₄)
      have hcases : LastInPlace s.enter ∧ FrontInPlace s.enter last ∧
            s.enter.frameTable s.enter.tcb.mallocFrame = some last ∧ s₄ = s.enter ∨
          ¬(LastInPlace s.enter ∧ ∀ cur, s.enter.frameTable s.enter.tcb.mallocFrame = some cur →
            FrontInPlace s.enter cur) ∧ Swapping s.enter s₄ := by
        rcases bringLast_cases hlast with ⟨hin, htable, rfl⟩ | ⟨hin, hsw⟩
        · rcases bringFront_cases hfront with ⟨hin', rfl⟩ | ⟨hin', hsw⟩
          · exact .inl ⟨hin, hin', htable, rfl⟩
          · exact .inr ⟨fun h ↦ hin' (h.2 last htable), hsw⟩
        · refine .inr ⟨fun h ↦ hin h.1, ?_⟩
          rcases bringFront_cases hfront with ⟨-, rfl⟩ | ⟨-, hsw'⟩
          · exact hsw
          · exact hsw.trans hsw'
      rcases hcases with ⟨hin, hin', htable, rfl⟩ | ⟨hin, hsw⟩
      · have hflag₁ : (loadHeap last s.enter).memFlag = 1 := rfl
        rw [during_iff hload htail, hlock, hiff, tryPages_locked hflag₁ htry, and_iff_right hflag]
        constructor
        · intro hheaps _
          refine ⟨hin, fun cur hcur ↦ ?_⟩
          obtain rfl := Option.some.inj (htable.symm.trans hcur)
          exact ⟨hin', hheaps⟩
        · intro h
          exact ((h hsome).2 last htable).2
      · constructor
        · intro hall
          have hone := hlock.mp ((during_iff hsw.suffix hload).mp
            ((during_iff (hsw.suffix.trans hload) htail).mp hall).1).2
          rw [hsw.memFlag] at hone
          exact absurd hone zero_ne_one
        · intro h
          exact absurd ⟨(h hsome).1, fun cur hcur ↦ ((h hsome).2 cur hcur).1⟩ hin
    · -- a new page is alone, and nothing is brought in
      obtain rfl := Option.some.inj hnew'
      obtain ⟨hflag₃, hsuf₃, hswaps₃⟩ := newFirst_swaps hnew
      obtain ⟨hreset, hlock⟩ := locked_heap (resetHeap_trace new s₃)
      refine ⟨fun _ hsome ↦ absurd hnone hsome, fun _ ↦ ?_⟩
      have hflag₄ : (resetHeap new s₃).memFlag = 1 := hflag₃
      rw [during_iff hsuf₃ (hreset.trans htail), during_iff hreset htail, hlock, hiff,
        tryPages_locked hflag₄ htry]
      exact ⟨hswaps₃.mono fun _ ↦ Event.IsSwap.locked, hflag₃, newFirst_heapsInPlace hnew⟩
    · cases hnone

theorem evictRange_swaps (hs : evictRange B i n s = some s') :
    s.trace <:+ s'.trace ∧ During Event.IsSwap s s' := by
  induction n generalizing i s with
  | zero =>
    obtain rfl := Option.some.inj hs
    exact ⟨List.suffix_refl _, During.refl s⟩
  | succ n ih =>
    obtain ⟨s₁, hs₁, hs⟩ := Option.bind_eq_some_iff.mp hs
    have hsw := swapPages_swapping hs₁
    obtain ⟨hsuf, hswaps⟩ := ih hs
    exact ⟨hsw.suffix.trans hsuf, (during_iff hsw.suffix hsuf).mpr ⟨hsw.swaps, hswaps⟩⟩

theorem chunkRest_locked (hflag : s.memFlag = 1) (hs : chunkRest front n i k o s = some (o', s')) :
    s'.memFlag = 1 ∧ s'.trace = s.trace := by
  induction k generalizing i o s with
  | zero =>
    obtain ⟨-, rfl⟩ := Prod.mk.inj (Option.some.inj hs)
    exact ⟨hflag, rfl⟩
  | succ k ih =>
    obtain ⟨prev, -, hs⟩ := chunkRest_eq_some.mp hs
    obtain ⟨hflag', htrace'⟩ :
      (chainAfter i (fun _ ↦ chunkMeta s.current n front) prev s).memFlag = 1 ∧
        (chainAfter i (fun _ ↦ chunkMeta s.current n front) prev s).trace = s.trace := by
      rw [chainAfter_eq]
      exact ⟨rfl, rfl⟩
    obtain ⟨hflag, htrace⟩ := ih hflag' hs
    exact ⟨hflag, htrace.trans htrace'⟩

theorem chunkFirst_swaps (hs : chunkFirst B n s = some (o, s')) :
    s'.memFlag = 1 ∧ s.trace <:+ s'.trace ∧ During Event.IsSwap s s' := by
  obtain ⟨s₀, s₂, hevict, hrest, rfl⟩ := chunkFirst_eq_some.mp hs
  rw [chainFirst_eq] at hrest
  obtain ⟨hflag, htrace⟩ := chunkRest_locked rfl hrest
  have hevict' := evictRange_swaps hevict
  unfold During at hevict' ⊢
  dsimp only [Manager.setMallocFrame] at htrace ⊢
  rw [htrace]
  exact ⟨hflag, hevict'⟩

theorem chunkLater_swaps (hs : chunkLater B n s = some (o, s')) :
    s'.memFlag = 1 ∧ s.trace <:+ s'.trace ∧ During Event.IsSwap s s' := by
  obtain ⟨s₀, prev, s₂, hevict, -, hrest, rfl⟩ := chunkLater_eq_some.mp hs
  rw [chainAfter_eq] at hrest
  obtain ⟨hflag, htrace⟩ := chunkRest_locked rfl hrest
  have hevict' := evictRange_swaps hevict
  unfold During at hevict' ⊢
  dsimp only [Manager.setMallocFrame, Manager.setFirstPage] at htrace hevict' ⊢
  rw [htrace]
  exact ⟨hflag, hevict'⟩

/-- A request of several pages makes its pages before it sets their heap up. -/
theorem allocateChunk_locked (hs : allocateChunk B x s = some (r, s')) :
    During Event.Locked s s' := by
  rcases allocateChunk_eq_some.mp hs with ⟨-, -, rfl⟩ | ⟨-, last, s₁, front, s₂, s₃, hchunk, -,
    hreq, hstore, rfl⟩
  · exact During.refl s
  · obtain ⟨hflag, hsuf, hswaps⟩ : s₁.memFlag = 1 ∧ s.trace <:+ s₁.trace ∧
        During Event.IsSwap s s₁ := by
      rcases hchunk with ⟨-, hchunk⟩ | ⟨-, hchunk⟩
      · exact chunkFirst_swaps hchunk
      · exact chunkLater_swaps hchunk
    obtain ⟨hsuf', hlock'⟩ := newHeap_locked hflag hreq hstore
    exact (during_iff hsuf hsuf').mpr ⟨hswaps.mono fun _ ↦ Event.IsSwap.locked, hlock'⟩

/-! ## `mydeallocate` -/

/-- The page that `mydeallocate(x)` releases a block of is in its frame. -/
def FreeInPlace (B : Block) (x : ℕ) (s : Manager) : Prop :=
  ∀ p, s.frameTable (frameOf B x).toNat = some p → (s.metas p).tid = s.current

theorem mydeallocate_locked (hs : mydeallocate B x s = some s') :
    During Event.Locked s s' ↔ FreeInPlace B x s := by
  obtain ⟨-, resident, hres, hs⟩ := mydeallocate_eq_some.mp hs
  rcases hs with ⟨htid, s₁, hstore, rfl⟩ | ⟨htid, temp, s₁, s₂, -, hswap, hstore, rfl⟩
  · obtain ⟨hload, hlock⟩ := locked_heap (loadHeap_trace resident s.enter)
    obtain ⟨hrel, hlock'⟩ := locked_heap (release_trace resident x (loadHeap resident s.enter))
    obtain ⟨hsuf, hlock''⟩ := locked_heap (storeHeap_trace hstore).2
    constructor
    · intro _ q hq
      obtain rfl := Option.some.inj (hres.symm.trans hq)
      exact htid
    · intro _
      refine (during_iff hload (hrel.trans hsuf)).mpr ⟨hlock.mpr rfl, ?_⟩
      exact (during_iff hrel hsuf).mpr ⟨hlock'.mpr rfl, hlock''.mpr rfl⟩
  · have hsw := swapPages_swapping hswap
    obtain ⟨hload, -⟩ := locked_heap (loadHeap_trace temp s.enter)
    obtain ⟨hrel, hlock⟩ := locked_heap (release_trace temp x s₁)
    obtain ⟨hsuf, -⟩ := locked_heap (storeHeap_trace hstore).2
    constructor
    · intro hall
      -- `swap_pages` has cleared the flag when the block is released
      have hfree := ((during_iff hrel hsuf).mp
        ((during_iff (hload.trans hsw.suffix) (hrel.trans hsuf)).mp hall).2).1
      have hone := hlock.mp hfree
      rw [hsw.memFlag] at hone
      exact absurd hone zero_ne_one
    · intro hin
      exact absurd (hin resident hres) htid

end MyPthread.Paging
