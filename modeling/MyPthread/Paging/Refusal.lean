import MyPthread.Paging.Counters
import MyPthread.Paging.Residence
import MyPthread.Heap.Search
import MyPthread.Os.Region

/-!
# Requests that are refused

A request is refused when the thread would have too many pages, or when all pages are used
up; every other request is served, for a heap that has just been set up has room for what
it was set up for.  A request that is served leaves the region closed with `mem_flag = 0`,
one that is refused returns before that.
-/

namespace MyPthread.Paging

open MyPthread.Lib MyPthread.Heap Function

variable {B : Block} {s s' s₁ s₂ : Manager} {i x r k n m lo fuel : ℕ}
  {p q cur front last : PageMetaPtr}
  {o : Option PageMetaPtr} {P : Call → Manager → Prop}

/-! ## Requests on a heap that is set up for them -/

/-- A heap of up to 1596 pages that is set up for a request has room for it. -/
theorem request_ne_zero {size : ℤ} (hlo : 0 < lo) (hfit : lo + n ≤ 2 ^ 64) (hn : n ≤ 1596 * 4096)
    (hx : x + 32 ≤ n) (hsize : size = n) (hhead : s.heap.head = 0)
    (h : request p x lo size s = some (r, s')) : r ≠ 0 := by
  obtain ⟨heap, hm, -⟩ := request_eq_some.mp h
  have hf : Fits lo (lo + n) := ⟨hlo, hfit, by omega⟩
  obtain ⟨heap', hm', -⟩ := mymalloc_fresh (x := x) hf (by omega)
    (show lo + n < lo + 32 * heapFuel by unfold heapFuel; omega) hhead
  have hcast : ((lo + n : ℕ) : ℤ) - lo = size := by omega
  rw [hcast, hm] at hm'
  rw [(Prod.mk.inj (Option.some.inj hm')).1]
  apply Layout.fresh_malloc_ne_zero
  omega

theorem frame_pos (B : Block) (i : ℕ) : 0 < B.frame i := Nat.add_pos_left B.pos _

/-- The frames of the block are addresses. -/
theorem frame_le (hi : i ≤ 2048) : B.frame i ≤ 2 ^ 64 := by
  have hfits := B.fits
  unfold Block.frame
  omega

theorem frame_add (B : Block) (i n : ℕ) : B.frame i + 4096 * n = B.frame (i + n) := by
  unfold Block.frame
  omega

/-- A page that is set up has room for a request of up to a page. -/
theorem request_page_ne_zero (hx : x ≤ 4064) (hi : i ≤ 1596) (hhead : s.heap.head = 0)
    (h : request p x (B.frame i) 4096 s = some (r, s')) : r ≠ 0 := by
  have hstop : B.frame i + 4096 ≤ 2 ^ 64 := by
    have hle := frame_le (B := B) (show i + 1 ≤ 2048 by omega)
    rwa [← frame_add B i 1, Nat.mul_one] at hle
  have hsize : ((4096 : ℕ) : ℤ) = 4096 := Nat.cast_ofNat
  exact request_ne_zero (frame_pos B i) hstop (by omega) (by omega) hsize.symm hhead h

/-- The pages of a chunk are as many as the request and its header need. -/
theorem le_numOfPages (hx : x < 2 ^ 32) (hn : 2 ≤ numOfPages x) : x + 32 ≤ 4096 * numOfPages x := by
  unfold numOfPages at hn ⊢
  dsimp only at hn ⊢
  split_ifs at hn ⊢ <;> omega

/-- A chunk that is not too long ends in the block. -/
theorem le_of_not_tooMany (h : ¬s.TooMany n) :
    n ≤ 1596 ∧ (if s.tcb.firstPage = none then 0 else s.tcb.mallocFrame + 1) + n ≤ 1596 := by
  unfold Manager.TooMany at h
  split_ifs at h ⊢ <;> omega

/-- The pages of a chunk point at its front, which stays in its frame. -/
theorem chunkRest_front (hfront : front < s.osMemPtr)
    (ho : ∀ p, o = some p → p < s.osMemPtr ∧ (s.metas p).frontMeta = some front)
    (hs : chunkRest front n i k o s = some (some last, s')) :
    (s'.metas last).frontMeta = some front ∧ s'.pageFrame front = s.pageFrame front := by
  induction k generalizing i o s with
  | zero =>
    obtain ⟨rfl, rfl⟩ := Prod.mk.inj (Option.some.inj hs)
    exact ⟨(ho last rfl).2, rfl⟩
  | succ k ih =>
    obtain ⟨prev, -, hs⟩ := chunkRest_eq_some.mp hs
    have ha := chainAfter_added (s := s) (i := i) (fun _ ↦ chunkMeta s.current n front) prev
      fun _ _ ↦ rfl
    have hmeta : ((chainAfter i (fun _ ↦ chunkMeta s.current n front) prev s).metas
        s.osMemPtr).frontMeta = some front := by
      rw [chainAfter_eq]
      simp only [update_self]
      rfl
    generalize chainAfter i (fun _ ↦ chunkMeta s.current n front) prev s = s₀ at *
    obtain ⟨hlast, hloc⟩ := ih (lt_trans hfront ha.osMemPtr) (fun p hp ↦ by
      obtain rfl := Option.some.inj hp
      exact ⟨ha.osMemPtr, hmeta⟩) hs
    refine ⟨hlast, hloc.trans ?_⟩
    rw [ha.pageFrame, update_of_ne (ne_of_lt hfront)]

theorem chunkFirst_front (hs : chunkFirst B n s = some (some last, s')) :
    ∃ front, (s'.metas last).frontMeta = some front ∧ s'.pageFrame front = 0 := by
  obtain ⟨s₁, s₂, -, hrest, rfl⟩ := chunkFirst_eq_some.mp hs
  have ha := chainFirst_added (s := s₁) (i := 0) (chunkMeta s₁.current n) fun _ _ ↦ rfl
  generalize chainFirst 0 (chunkMeta s₁.current n) s₁ = s₀ at *
  obtain ⟨hlast, hloc⟩ := chunkRest_front ha.osMemPtr (fun _ hp ↦ by cases hp) hrest
  refine ⟨s₁.osMemPtr, hlast, hloc.trans ?_⟩
  rw [ha.pageFrame, update_self]

theorem chunkLater_front (hs : chunkLater B n s = some (some last, s')) :
    ∃ front, (s'.metas last).frontMeta = some front ∧
      s'.pageFrame front = s.tcb.mallocFrame + 1 := by
  obtain ⟨s₁, prev, s₂, -, -, hrest, rfl⟩ := chunkLater_eq_some.mp hs
  have ha := chainAfter_added (s := s₁) (i := s.tcb.mallocFrame + 1) (chunkMeta s₁.current n) prev
    fun _ _ ↦ rfl
  generalize chainAfter (s.tcb.mallocFrame + 1) (chunkMeta s₁.current n) prev s₁ = s₀ at *
  obtain ⟨hlast, hloc⟩ := chunkRest_front (s := s₀.setFirstPage s₁.osMemPtr) ha.osMemPtr
    (fun _ hp ↦ by cases hp) hrest
  refine ⟨s₁.osMemPtr, hlast, hloc.trans ?_⟩
  exact (congrFun ha.pageFrame _).trans (update_self ..)

/-- A request of several pages that is not refused is served. -/
theorem allocateChunk_ne_zero (h : Sound B s) (hc : Counted s) (hx : x < 2 ^ 32)
    (hmany : ¬s.TooMany (numOfPages x)) (hs : allocateChunk B x s = some (r, s')) : r ≠ 0 := by
  have hcount := (allocateChunk_counted h hc hs).2.2
  rcases allocateChunk_eq_some.mp hs with ⟨hmany', -⟩ | ⟨-, last, s₁, front, s₂, s₃, hchunk, hfront,
    hreq, -, -⟩
  · exact absurd hmany' hmany
  · obtain ⟨hn, hle⟩ := le_of_not_tooMany hmany
    have htwo : 2 ≤ numOfPages x := by
      rcases hcount with ⟨hmany', -⟩ | ⟨-, htwo, -⟩
      · exact absurd hmany' hmany
      · exact htwo
    have hplace : s₁.pageFrame front =
        if s.tcb.firstPage = none then 0 else s.tcb.mallocFrame + 1 := by
      rcases hchunk with ⟨hnone, hchunk⟩ | ⟨hsome, hchunk⟩
      · obtain ⟨front', hfront', hloc⟩ := chunkFirst_front hchunk
        obtain rfl := Option.some.inj (hfront'.symm.trans hfront)
        rw [hloc, if_pos hnone]
      · obtain ⟨front', hfront', hloc⟩ := chunkLater_front hchunk
        obtain rfl := Option.some.inj (hfront'.symm.trans hfront)
        rw [hloc, if_neg hsome]
    rw [← hplace] at hle
    refine request_ne_zero (n := 4096 * numOfPages x) (frame_pos B _) ?_ (by omega)
      (le_numOfPages hx htwo) (by push_cast; rfl) rfl hreq
    rw [frame_add]
    exact frame_le (by omega)

/-! ## How a request ends -/

/-- The region is closed, and the manager is free. -/
structure Manager.Released (s : Manager) : Prop where
  memFlag : s.memFlag = 0
  accessible : s.accessible = fun _ ↦ false

theorem released_leave (s : Manager) : s.leave.Released := ⟨rfl, rfl⟩

/-- None of the pages of the caller has room for a request of up to a page. -/
def NoRoom (B : Block) (x : ℕ) (s : Manager) : Prop :=
  ∃ cur s₁ s₂, currentPage B s.enter = some (some cur, s₁) ∧ tryPages B x cur s₁ = some (0, s₂)

/-- The request is refused: the thread would have too many pages, or there is no page for it. -/
def Refused (B : Block) (x : ℕ) (s : Manager) : Prop :=
  if 4064 < x then s.TooMany (numOfPages x)
  else if s.tcb.firstPage = none then 5692 ≤ s.pageCounter
  else NoRoom B x s ∧ ¬(s.pageCounter < 5692 ∧ s.tcb.mallocFrame < 1596)

/-- The request is served from `n` new pages. -/
def Makes (B : Block) (x n : ℕ) (s : Manager) : Prop :=
  if 4064 < x then n = numOfPages x ∧ ¬s.TooMany n
  else n = 1 ∧ (s.tcb.firstPage ≠ none → NoRoom B x s) ∧ s.pageCounter < 5692 ∧
    s.tcb.mallocFrame < 1596

/-- How a request ends. -/
inductive Outcome (B : Block) (x : ℕ) (s : Manager) (r : ℕ) (s' : Manager) : Prop where
  /-- It is refused. -/
  | refused : Refused B x s → r = 0 → s'.accessible = (fun _ ↦ true) → Steady s s' →
      Outcome B x s r s'
  /-- It is served from a page that there is. -/
  | served : ¬Refused B x s → r ≠ 0 → s'.Released → Steady s s' → Outcome B x s r s'
  /-- It is served from new pages. -/
  | grown {n : ℕ} : ¬Refused B x s → r ≠ 0 → s'.Released → Makes B x n s → Extended n s s' →
      Outcome B x s r s'

theorem request_accessible {memptr : ℕ} {size : ℤ}
    (h : request p x memptr size s = some (r, s')) : s'.accessible = s.accessible := by
  obtain ⟨heap, -, rfl⟩ := request_eq_some.mp h
  rfl

theorem storeHeap_accessible (h : storeHeap p s = some s') : s'.accessible = s.accessible := by
  obtain ⟨free, -, rfl⟩ := storeHeap_eq_some.mp h
  rfl

/-- A search that finds nothing leaves the region open. -/
theorem searchPages_accessible (hopen : s.accessible = fun _ ↦ true)
    (hs : searchPages B x fuel k o s = some (0, s')) : s'.accessible = fun _ ↦ true := by
  induction fuel generalizing k o s with
  | zero => cases hs
  | succ fuel ih =>
    cases o with
    | none =>
      obtain ⟨-, rfl⟩ := Prod.mk.inj (Option.some.inj hs)
      exact hopen
    | some p =>
      rcases searchPages_eq_some.mp hs with ⟨-, hrest⟩ | ⟨-, s₁, r₁, s₂, hbring, htry, hs⟩
      · exact ih hopen hrest
      · have hopen₁ : s₁.accessible = fun _ ↦ true := by
          rcases bringPage_cases hbring with ⟨-, rfl⟩ | ⟨-, hsw⟩
          · exact hopen
          · exact hsw.accessible
        obtain ⟨s₃, hfront, hreq⟩ := tryHeap_eq_some.mp htry
        have hopen₃ : s₃.accessible = fun _ ↦ true := by
          rcases bringFront_cases hfront with ⟨-, rfl⟩ | ⟨-, hsw⟩
          · exact hopen₁
          · exact hsw.accessible
        rcases hs with ⟨hr, rfl, -⟩ | ⟨-, hrest⟩
        · exact absurd rfl hr
        · exact ih ((request_accessible hreq).trans hopen₃) hrest

/-- A search that finds a page ends the call. -/
theorem searchPages_released (hr : r ≠ 0) (hs : searchPages B x fuel k o s = some (r, s')) :
    s'.Released := by
  induction fuel generalizing k o s with
  | zero => cases hs
  | succ fuel ih =>
    cases o with
    | none =>
      obtain ⟨rfl, -⟩ := Prod.mk.inj (Option.some.inj hs)
      exact absurd rfl hr
    | some p =>
      rcases searchPages_eq_some.mp hs with ⟨-, hrest⟩ | ⟨-, s₁, r₁, s₂, -, -, hs⟩
      · exact ih hrest
      · rcases hs with ⟨-, -, s₃, -, rfl⟩ | ⟨-, hrest⟩
        · exact released_leave s₃
        · exact ih hrest

theorem tryPages_accessible (hopen : s.accessible = fun _ ↦ true)
    (hs : tryPages B x cur s = some (0, s')) : s'.accessible = fun _ ↦ true := by
  obtain ⟨r₁, s₁, s₂, hreq, hstore, hs⟩ := tryPages_eq_some.mp hs
  rcases hs with ⟨hr, rfl, -⟩ | ⟨-, hsearch⟩
  · exact absurd rfl hr
  · refine searchPages_accessible ?_ hsearch
    rw [storeHeap_accessible hstore, request_accessible hreq, hopen]

theorem tryPages_released (hr : r ≠ 0) (hs : tryPages B x cur s = some (r, s')) : s'.Released := by
  obtain ⟨r₁, s₁, s₂, -, -, hs⟩ := tryPages_eq_some.mp hs
  rcases hs with ⟨-, -, rfl⟩ | ⟨-, hsearch⟩
  · exact released_leave s₂
  · exact searchPages_released hr hsearch

/-- The page a request is tried on first, with the region open. -/
theorem currentPage_accessible {c : Option PageMetaPtr} (hopen : s.accessible = fun _ ↦ true)
    (hs : currentPage B s = some (c, s')) : s'.accessible = fun _ ↦ true := by
  rcases currentPage_eq_some.mp hs with ⟨-, last, s₁, s₂, hlast, hfront, -, rfl⟩ |
    ⟨-, -, new, s₁, hnew, -, rfl⟩ | ⟨-, -, -, rfl⟩
  · have hopen₁ : s₁.accessible = fun _ ↦ true := by
      rcases bringLast_cases hlast with ⟨-, -, rfl⟩ | ⟨-, hsw⟩
      · exact hopen
      · exact hsw.accessible
    rcases bringFront_cases hfront with ⟨-, rfl⟩ | ⟨-, hsw⟩
    · exact hopen₁
    · exact hsw.accessible
  · obtain ⟨s₀, -, -, rfl⟩ := newFirst_eq_some.mp hnew
    rw [chainFirst_eq]
    rfl
  · exact hopen

/-- The first page of a thread has room. -/
theorem tryPages_ne_zero (hx : x ≤ 4064) (hhead : s.heap.head = 0) (hmf : s.tcb.mallocFrame = 0)
    (hs : tryPages B x cur s = some (r, s')) : r ≠ 0 := by
  obtain ⟨r₁, s₁, s₂, hreq, -, hs⟩ := tryPages_eq_some.mp hs
  have hr₁ := request_page_ne_zero hx (by omega) hhead hreq
  rcases hs with ⟨-, rfl, -⟩ | ⟨rfl, -⟩
  · exact hr₁
  · exact absurd rfl hr₁

/-- A new page has room. -/
theorem allocateNew_ne_zero (hx : x ≤ 4064) (h : Sound B s) (hc : Counted s)
    (hsome : s.tcb.firstPage ≠ none) (hroom : s.pageCounter < 5692 ∧ s.tcb.mallocFrame < 1596)
    (hs : allocateNew B x s = some (r, s')) : r ≠ 0 ∧ s'.Released ∧ Extended 1 s s' := by
  rcases allocateNew_eq_some.mp hs with ⟨hfull, -⟩ | ⟨-, cur, s₁, s₂, s₃, hnew, hreq, hstore, rfl⟩
  · exact absurd hroom hfull
  · have he := (newPage_counted h hc hsome hnew).2.2
    have hmf := he.mallocFrame
    rw [if_neg hsome] at hmf
    refine ⟨request_page_ne_zero hx (by omega) rfl hreq, released_leave s₃, he.steady ?_⟩
    exact (resetHeap_steady cur s₁).trans ((request_steady hreq).trans
      ((storeHeap_steady hstore).trans (leave_steady s₃)))

/-- A request of up to a page. -/
theorem allocatePage_outcome (h : Sound B s) (hc : Counted s) (hx : x ≤ 4064)
    (hs : allocatePage B x s.enter = some (r, s')) :
    Sound B s' ∧ Counted s' ∧ Outcome B x s r s' := by
  have hx' : ¬4064 < x := not_lt.mpr hx
  have hin := enter_steady s
  rcases allocatePage_eq_some.mp hs with ⟨hcur, rfl⟩ | ⟨cur, s₁, r₁, s₂, hcur, htry, hs⟩
  · -- there is no page left for a thread that has none
    rcases currentPage_eq_some.mp hcur with ⟨-, last, -, -, -, -, hlast, -⟩ |
      ⟨-, -, new, -, -, hnew, -⟩ | ⟨hnone, hpc, -, rfl⟩
    · cases hlast
    · cases hnew
    · refine ⟨h.enter, hc.steady hin, .refused ?_ rfl rfl hin⟩
      rw [Refused, if_neg hx', if_pos (show s.tcb.firstPage = none from hnone)]
      exact hpc
  · obtain ⟨h₁, hc₁, hcase⟩ := currentPage_counted h.enter (hc.steady hin) hcur
    have h₂ := h₁.tryPages htry
    have hst := tryPages_steady htry
    have hc₂ := hc₁.steady hst
    rcases hcase with ⟨hsome, hst₁⟩ | ⟨hnone, hpc, he⟩ | ⟨-, hcur', -⟩
    · have hst₂ := hin.trans (hst₁.trans hst)
      have hsome' : s.tcb.firstPage ≠ none := hsome
      rcases hs with ⟨hr, rfl, rfl⟩ | ⟨rfl, hs⟩
      · -- a page of the caller has room
        refine ⟨h₂, hc₂, .served ?_ hr (tryPages_released hr htry) hst₂⟩
        rw [Refused, if_neg hx', if_neg hsome']
        rintro ⟨⟨cur', s₁', s₂', hcur', htry'⟩, -⟩
        obtain ⟨heq, rfl⟩ := Prod.mk.inj (Option.some.inj (hcur.symm.trans hcur'))
        obtain rfl := Option.some.inj heq
        exact hr (Prod.mk.inj (Option.some.inj (htry.symm.trans htry'))).1
      · have hno : NoRoom B x s := ⟨cur, s₁, s₂, hcur, htry⟩
        have hsome₂ : s₂.tcb.firstPage ≠ none := by
          rw [hst₂.tcb]
          exact hsome'
        by_cases hroom : s.pageCounter < 5692 ∧ s.tcb.mallocFrame < 1596
        · -- a page is made
          have hroom₂ : s₂.pageCounter < 5692 ∧ s₂.tcb.mallocFrame < 1596 := by
            rwa [hst₂.pageCounter, hst₂.tcb]
          obtain ⟨hr, hrel, he⟩ := allocateNew_ne_zero hx h₂ hc₂ hsome₂ hroom₂ hs
          obtain ⟨h₃, hc₃, -⟩ := allocateNew_counted h₂ hc₂ hsome₂ hs
          refine ⟨h₃, hc₃, .grown ?_ hr hrel ?_ (hst₂.extended he)⟩
          · rw [Refused, if_neg hx', if_neg hsome']
            exact fun href ↦ href.2 hroom
          · rw [Makes, if_neg hx']
            exact ⟨rfl, fun _ ↦ hno, hroom⟩
        · rcases allocateNew_eq_some.mp hs with ⟨-, rfl, rfl⟩ | ⟨hroom₂, -⟩
          · refine ⟨h₂, hc₂, .refused ?_ rfl ?_ hst₂⟩
            · rw [Refused, if_neg hx', if_neg hsome']
              exact ⟨hno, hroom⟩
            · exact tryPages_accessible (currentPage_accessible rfl hcur) htry
          · rw [hst₂.pageCounter, hst₂.tcb] at hroom₂
            exact absurd hroom₂ hroom
    · -- the first page of the thread
      have hnone' : s.tcb.firstPage = none := hnone
      have hpc' : s.pageCounter < 5692 := hpc
      have hmf : s₁.tcb.mallocFrame = 0 := by
        have hframe := he.mallocFrame
        rw [if_pos hnone] at hframe
        omega
      have hhead : s₁.heap.head = 0 := by
        rcases currentPage_eq_some.mp hcur with ⟨hsome, -⟩ | ⟨-, -, new, s₀, -, -, rfl⟩ |
          ⟨-, -, hcur', -⟩
        · exact absurd hnone hsome
        · rfl
        · cases hcur'
      have hr₁ := tryPages_ne_zero hx hhead hmf htry
      rcases hs with ⟨hr, rfl, rfl⟩ | ⟨rfl, -⟩
      · refine ⟨h₂, hc₂, .grown (n := 1) ?_ hr (tryPages_released hr htry) ?_
          (hin.extended (he.steady hst))⟩
        · rw [Refused, if_neg hx', if_pos hnone']
          omega
        · rw [Makes, if_neg hx']
          refine ⟨rfl, fun hsome ↦ absurd hnone' hsome, hpc', ?_⟩
          rw [(hc.idle _ hnone').1]
          omega
      · exact absurd rfl hr₁
    · cases hcur'

/-- How a request ends, and what it keeps. -/
theorem myallocate_outcome (h : Sound B s) (hc : Counted s) (hx : x < 2 ^ 32)
    (hs : myallocate B x s = some (r, s')) : Sound B s' ∧ Counted s' ∧ Outcome B x s r s' := by
  rw [myallocate] at hs
  split_ifs at hs with hlarge
  · have hin := enter_steady s
    obtain ⟨h', hc', hcase⟩ := allocateChunk_counted h.enter (hc.steady hin) hs
    refine ⟨h', hc', ?_⟩
    rcases hcase with ⟨hmany, hst⟩ | ⟨hmany, -, he⟩
    · rcases allocateChunk_eq_some.mp hs with ⟨-, rfl, rfl⟩ | ⟨hmany', -⟩
      · refine .refused ?_ rfl rfl hin
        rw [Refused, if_pos hlarge]
        exact hmany
      · exact absurd hmany hmany'
    · have hrel : s'.Released := by
        rcases allocateChunk_eq_some.mp hs with ⟨hmany', -⟩ | ⟨-, -, -, -, -, s₃, -, -, -, -, rfl⟩
        · exact absurd hmany' hmany
        · exact released_leave s₃
      have hne := allocateChunk_ne_zero h.enter (hc.steady hin) hx hmany hs
      refine .grown (n := numOfPages x) ?_ hne hrel ?_ (hin.extended he)
      · rw [Refused, if_pos hlarge]
        exact hmany
      · rw [Makes, if_pos hlarge]
        exact ⟨rfl, hmany⟩
  · exact allocatePage_outcome h hc (not_lt.mp hlarge) hs

/-! ## Runs -/

theorem Sound.exec {c : Call} (h : Sound B s) (hc : Counted s) (hs : c.exec B s = some (r, s')) :
    Sound B s' ∧ Counted s' := by
  cases c with
  | malloc x =>
    rw [Call.exec, myallocate] at hs
    split_ifs at hs with hlarge
    · obtain ⟨h', hc', -⟩ := allocateChunk_counted h.enter (hc.steady (enter_steady s)) hs
      exact ⟨h', hc'⟩
    · obtain ⟨h', hc', -⟩ := allocatePage_outcome h hc (not_lt.mp hlarge) hs
      exact ⟨h', hc'⟩
  | free p =>
    obtain ⟨-, hs⟩ := exec_free.mp hs
    exact ⟨h.mydeallocate hs, hc.steady (mydeallocate_steady hs)⟩
  | load a =>
    obtain ⟨hs, -⟩ := exec_load.mp hs
    exact ⟨h.access hs, hc.steady (access_steady hs)⟩
  | store a v =>
    obtain ⟨-, hs⟩ := exec_store.mp hs
    obtain ⟨s₁, hs₁, rfl⟩ := store_eq_some.mp hs
    have hst : Steady s₁ { s₁ with heap.mem := setByte s₁.heap.mem a v } :=
      ⟨rfl, fun _ ↦ rfl, fun _ ↦ rfl, rfl, rfl, rfl, rfl, rfl, rfl⟩
    exact ⟨(h.access hs₁).of_steady hst rfl rfl fun _ he ↦ .inl he,
      (hc.steady (access_steady hs₁)).steady hst⟩
  | switch t =>
    obtain ⟨-, rfl⟩ := Prod.mk.inj (Option.some.inj hs)
    exact ⟨⟨h.nodup, h.fresh, h.placed, h.table, h.next, h.first, h.front, h.zero,
      h.length, h.within⟩,
      ⟨hc.length, hc.frames, hc.idle⟩⟩
  | library n =>
    obtain ⟨-, rfl⟩ := Prod.mk.inj (Option.some.inj hs)
    refine ⟨⟨h.nodup, ?_, h.placed, h.table, h.next, h.first, h.front, ?_, h.length, h.within⟩,
      ⟨hc.length, hc.frames, hc.idle⟩⟩
    · intro p hp
      exact lt_of_lt_of_le (h.fresh p hp) (Nat.le_add_right _ _)
    · intro p hp
      exact h.zero p (le_trans (Nat.le_add_right _ _) hp)

/-- The page table and the counters are sound in every reachable state. -/
theorem Reachable.sound (h : Reachable B P s) : Sound B s ∧ Counted s := by
  induction h with
  | start hb => exact ⟨.start hb, ⟨rfl, fun _ hsome ↦ absurd rfl hsome, fun _ _ ↦ ⟨rfl, rfl⟩⟩⟩
  | call _ _ hs ih => exact ih.1.exec ih.2 hs

/-! ## Refusals -/

/-- The threads, their chains, the heaps of the pages and the bytes of the pages are as
before; a page may be in another frame or slot. -/
structure Unchanged (B : Block) (s s' : Manager) : Prop where
  tcbs : s'.tcbs = s.tcbs
  made : s'.made = s.made
  next : ∀ p ∈ s.made, s'.next p = s.next p
  metas : ∀ p ∈ s.made, s'.metas p = s.metas p
  contents : SameContents B s s'

/-- A request ends with the region closed and the manager free, and changes nothing when it
returns `NULL`, exactly when it is not refused. -/
theorem released_iff (hr : Reachable B P s) (hx : x < 2 ^ 32)
    (hs : myallocate B x s = some (r, s')) :
    s'.Released ∧ (r = 0 → Unchanged B s s') ↔ ¬Refused B x s := by
  obtain ⟨h, hc⟩ := hr.sound
  obtain ⟨-, -, hout⟩ := myallocate_outcome h hc hx hs
  cases hout with
  | refused href hr hopen hst =>
    constructor
    · rintro ⟨hrel, -⟩
      have hclosed := congrFun (hrel.accessible.symm.trans hopen) 0
      cases hclosed
    · intro hnot
      exact absurd href hnot
  | served hnot hr hrel hst => exact ⟨fun _ ↦ hnot, fun _ ↦ ⟨hrel, fun hr₀ ↦ absurd hr₀ hr⟩⟩
  | grown hnot hr hrel hmakes he => exact ⟨fun _ ↦ hnot, fun _ ↦ ⟨hrel, fun hr₀ ↦ absurd hr₀ hr⟩⟩

/-- What a refused request leaves as it was: it makes no page, the chains and the threads keep
theirs, and when it is refused at its first test nothing is changed but the protection. -/
theorem unchanged_of_refused (hr : Reachable B P s) (hx : x < 2 ^ 32) (href : Refused B x s)
    (hs : myallocate B x s = some (r, s')) :
    r = 0 ∧ Steady s s' ∧
      (4064 < x ∨ s.tcb.firstPage = none → s' = s.enter ∧ Unchanged B s s') := by
  obtain ⟨h, hc⟩ := hr.sound
  obtain ⟨-, -, hout⟩ := myallocate_outcome h hc hx hs
  cases hout with
  | served hnot => exact absurd href hnot
  | grown hnot => exact absurd href hnot
  | refused _ hr hopen hst =>
    refine ⟨hr, hst, fun hfirst ↦ ?_⟩
    obtain rfl : s' = s.enter := by
      rw [myallocate] at hs
      rw [Refused] at href
      split_ifs at hs href with hlarge hnone
      · obtain ⟨-, -, heq⟩ | ⟨hmany, -⟩ := allocateChunk_eq_some.mp hs
        · exact heq.symm
        · exact absurd href hmany
      · obtain ⟨hcur, -⟩ | ⟨cur, s₁, r₁, s₂, hcur, -⟩ := allocatePage_eq_some.mp hs
        all_goals
          obtain ⟨hsome, -⟩ | ⟨-, hpc, -⟩ | ⟨-, -, hcur', heq⟩ := currentPage_eq_some.mp hcur
          · exact absurd hnone hsome
          · exact absurd href (not_le.mpr hpc)
        · exact heq.symm
        · cases hcur'
      · exact absurd hfirst (not_or.mpr ⟨hlarge, hnone⟩)
    exact ⟨rfl, rfl, rfl, fun _ _ ↦ rfl, fun _ _ ↦ rfl, fun _ _ _ _ ↦ rfl⟩

/-- The first request, of 1596 pages without a header, is refused. -/
theorem myallocate_blank : myallocate lowBlock 6537216 (blank.start lowBlock) =
    some (0, (blank.start lowBlock).enter) := by
  rw [myallocate, if_pos (by decide), allocateChunk]
  exact if_pos (show 1596 < numOfPages 6537216 by decide)

theorem released_iff_blank :
    (blank.start lowBlock).enter.Released ∧
        (0 = 0 → Unchanged lowBlock (blank.start lowBlock) (blank.start lowBlock).enter) ↔
      ¬Refused lowBlock 6537216 (blank.start lowBlock) :=
  released_iff (P := fun _ _ ↦ True) (.start blank_zeroed) (by decide) myallocate_blank

/-- It returns with `mem_flag = 1`. -/
theorem not_released : ¬∀ (B : Block) (s s' : Manager) (x r : ℕ),
    Reachable B (fun _ _ ↦ True) s → x < 2 ^ 32 → s.memFlag = 0 →
      myallocate B x s = some (r, s') → s'.Released ∧ (r = 0 → Unchanged B s s') := by
  intro hall
  have h := hall _ _ _ 6537216 0 (.start blank_zeroed) (by decide) rfl myallocate_blank
  exact absurd h.1.memFlag (by decide)

end MyPthread.Paging
