import MyPthread.Paging.Returns

/-!
# The limits

`swap_pages` moves an evicted page to the location `page_counter`, which it takes for a frame below
1597; the private frames end at 1596.  Every location below `page_counter` was given to a page that
was evicted, so the history tells how far the evictions have come.

Requests are checked against the pages that there are and those that a thread may have, but a
request of several pages not against the former, and a further page not rightly against the latter.
-/

namespace MyPthread.Paging

open MyPthread.Lib MyPthread.Heap Function

variable {B : Block} {s s' s₁ : Manager} {i k n x r d t fuel : ℕ} {p cur front last : PageMetaPtr}
  {o o' : Option PageMetaPtr} {P : Call → Manager → Prop} {call : Call}

/-- `swap_pages` uses and writes frames before 1596 only, besides the scratch page and the swap
file, and no shared page changes.  The page in frame `src` moves to `loc`, which is a frame for
`swap_pages` when it is below 1597. -/
def Event.Inside (B : Block) : Event → Prop
  | .swap _ src _ loc before after => (∀ i, i = src ∨ i = loc ∧ loc < 1597 → i < 1596) ∧
      ChangesOnly (B.frames 0 1596 ∪ Range B.swapTemp 4096) before after ∧
      ∀ a, B.frame 1596 ≤ a → a < B.frame 1600 → after a = before a
  | .heap .. => True

/-- The page in a frame was moved to the location `d`, which was not in use. -/
def Event.Evicts (d : ℕ) (e : Event) : Prop :=
  ∃ page src before after, e = .swap page src none d before after

/-- The locations that came into use are those that evicted pages were moved to. -/
structure Recorded (s s' : Manager) : Prop where
  suffix : s.trace <:+ s'.trace
  le : s.pageCounter ≤ s'.pageCounter
  evicted : ∀ d, s.pageCounter ≤ d → d < s'.pageCounter → ∃ e ∈ s'.trace, e.Evicts d

theorem recorded_of_same (htrace : s.trace <:+ s'.trace) (hpc : s'.pageCounter = s.pageCounter) :
    Recorded s s' := by
  refine ⟨htrace, hpc.ge, fun d hd hlt ↦ ?_⟩
  rw [hpc] at hlt
  exact absurd hd (not_le.mpr hlt)

namespace Recorded

theorem of_eq (htrace : s'.trace = s.trace) (hpc : s'.pageCounter = s.pageCounter) :
    Recorded s s' := recorded_of_same (htrace ▸ List.suffix_refl _) hpc

theorem refl (s : Manager) : Recorded s s := .of_eq rfl rfl

theorem trans (h₁ : Recorded s s₁) (h₂ : Recorded s₁ s') : Recorded s s' := by
  refine ⟨h₁.suffix.trans h₂.suffix, h₁.le.trans h₂.le, fun d hd hlt ↦ ?_⟩
  rcases Nat.lt_or_ge d s₁.pageCounter with hd₁ | hd₁
  · obtain ⟨e, he, hev⟩ := h₁.evicted d hd hd₁
    exact ⟨e, h₂.suffix.subset he, hev⟩
  · exact h₂.evicted d hd₁ hlt

end Recorded

/-! ## The functions -/

theorem swapPages_recorded {src : ℕ} {dest : Option ℕ} (h : swapPages B src dest s = some s') :
    Recorded s s' := by
  have hpc := swapPages_pageCounter h
  obtain ⟨hk, hf⟩ := swapPages_keeps h
  have hsuf : s.trace <:+ s'.trace := by
    rw [hf.trace]
    exact List.suffix_cons _ _
  cases dest with
  | none =>
    rw [if_pos rfl] at hpc
    refine ⟨hsuf, by omega, fun d hd hlt ↦ ?_⟩
    obtain rfl : d = s.pageCounter := by omega
    refine ⟨_, ?_, s.frameTable src, src, s.heap.mem, s'.heap.mem, rfl⟩
    rw [hf.trace]
    exact List.mem_cons_self
  | some dest => exact recorded_of_same hsuf hpc

theorem chainFirst_recorded (i : ℕ) (init : PageMetaPtr → PageMeta → PageMeta) (s : Manager) :
    Recorded s (chainFirst i init s) := by
  rw [chainFirst_eq]
  exact .of_eq rfl rfl

theorem chainAfter_recorded (i : ℕ) (init : PageMetaPtr → PageMeta → PageMeta) (last : PageMetaPtr)
    (s : Manager) : Recorded s (chainAfter i init last s) := by
  rw [chainAfter_eq]
  exact .of_eq rfl rfl

theorem newHeap_recorded {memptr : ℕ} {size : ℤ}
    (hreq : request p x memptr size (resetHeap p s) = some (r, s₁))
    (hstore : storeHeap p s₁ = some s') : Recorded s s'.leave := by
  have hst := (resetHeap_steady p s).trans ((request_steady hreq).trans (storeHeap_steady hstore))
  obtain ⟨heap, -, rfl⟩ := request_eq_some.mp hreq
  obtain ⟨free, -, rfl⟩ := storeHeap_eq_some.mp hstore
  refine recorded_of_same ?_ hst.pageCounter
  exact (List.suffix_cons _ _).trans ((List.suffix_cons _ _).trans (List.suffix_cons _ _))

theorem newFirst_recorded (h : newFirst B s = some (p, s')) : Recorded s s' := by
  obtain ⟨s₁, hs₁, -, rfl⟩ := newFirst_eq_some.mp h
  exact (swapPages_recorded hs₁).trans (chainFirst_recorded _ _ s₁)

theorem newPage_recorded (h : newPage B s = some (p, s')) : Recorded s s' := by
  obtain ⟨s₁, prev, hs₁, -, -, rfl⟩ := newPage_eq_some.mp h
  have hframe : Recorded s (s.setMallocFrame (s.tcb.mallocFrame + 1)) := .of_eq rfl rfl
  exact (hframe.trans (swapPages_recorded hs₁)).trans (chainAfter_recorded _ _ prev s₁)

theorem evictRange_recorded (h : evictRange B i n s = some s') : Recorded s s' := by
  induction n generalizing i s with
  | zero =>
    obtain rfl := Option.some.inj h
    exact Recorded.refl s
  | succ n ih =>
    obtain ⟨s₁, hs₁, hrest⟩ := Option.bind_eq_some_iff.mp h
    exact (swapPages_recorded hs₁).trans (ih hrest)

theorem chunkRest_recorded (h : chunkRest front n i k o s = some (o', s')) : Recorded s s' := by
  induction k generalizing i o s with
  | zero =>
    obtain ⟨-, rfl⟩ := Prod.mk.inj (Option.some.inj h)
    exact Recorded.refl s
  | succ k ih =>
    obtain ⟨prev, -, hrest⟩ := chunkRest_eq_some.mp h
    exact (chainAfter_recorded i _ prev s).trans (ih hrest)

theorem chunkFirst_recorded (h : chunkFirst B n s = some (o, s')) : Recorded s s' := by
  obtain ⟨s₁, s₂, hevict, hrest, rfl⟩ := chunkFirst_eq_some.mp h
  have hfront := chainFirst_recorded 0 (chunkMeta s₁.current n) s₁
  exact ((evictRange_recorded hevict).trans hfront).trans
    ((chunkRest_recorded hrest).trans (.of_eq rfl rfl))

theorem chunkLater_recorded (h : chunkLater B n s = some (o, s')) : Recorded s s' := by
  obtain ⟨s₁, prev, s₂, hevict, -, hrest, rfl⟩ := chunkLater_eq_some.mp h
  have hframe : Recorded s (s.setMallocFrame (s.tcb.mallocFrame + 1)) := .of_eq rfl rfl
  have hfront := chainAfter_recorded (s.tcb.mallocFrame + 1) (chunkMeta s₁.current n) prev s₁
  have hfirst : Recorded s₁ ((chainAfter (s.tcb.mallocFrame + 1)
      (chunkMeta s₁.current n) prev s₁).setFirstPage s₁.osMemPtr) :=
    hfront.trans (.of_eq rfl rfl)
  exact ((hframe.trans (evictRange_recorded hevict)).trans hfirst).trans
    ((chunkRest_recorded hrest).trans (.of_eq rfl rfl))

theorem currentPage_recorded (h : currentPage B s = some (o, s')) : Recorded s s' := by
  rcases currentPage_eq_some.mp h with ⟨-, last, s₁, s₂, hlast, hfront, -, rfl⟩ |
    ⟨-, -, new, s₁, hnew, -, rfl⟩ | ⟨-, -, -, rfl⟩
  · have hst := (bringLast_steady hlast).trans ((bringFront_steady hfront).trans
      (loadHeap_steady last s₂))
    refine recorded_of_same ?_ hst.pageCounter
    have h₁ : s.trace <:+ s₁.trace := by
      rcases bringLast_cases hlast with ⟨-, -, rfl⟩ | ⟨-, hsw⟩
      · exact List.suffix_refl _
      · exact hsw.suffix
    have h₂ : s₁.trace <:+ s₂.trace := by
      rcases bringFront_cases hfront with ⟨-, rfl⟩ | ⟨-, hsw⟩
      · exact List.suffix_refl _
      · exact hsw.suffix
    exact (h₁.trans h₂).trans (List.suffix_cons _ _)
  · have hreset : Recorded s₁ (resetHeap new s₁) :=
      recorded_of_same (List.suffix_cons _ _) (resetHeap_steady new s₁).pageCounter
    exact (newFirst_recorded hnew).trans hreset
  · exact Recorded.refl s

theorem allocateNew_recorded (h : allocateNew B x s = some (r, s')) : Recorded s s' := by
  rcases allocateNew_eq_some.mp h with ⟨-, -, rfl⟩ | ⟨-, cur, s₁, s₂, s₃, hnew, hreq, hstore, rfl⟩
  · exact Recorded.refl s
  · exact (newPage_recorded hnew).trans (newHeap_recorded hreq hstore)

theorem allocatePage_recorded (h : allocatePage B x s = some (r, s')) : Recorded s s' := by
  rcases allocatePage_eq_some.mp h with ⟨hcur, -⟩ | ⟨cur, s₁, r₁, s₂, hcur, htry, hs⟩
  · exact currentPage_recorded hcur
  · have hmid := (currentPage_recorded hcur).trans
      (recorded_of_same (tryPages_suffix htry) (tryPages_steady htry).pageCounter)
    rcases hs with ⟨-, -, rfl⟩ | ⟨-, hnew⟩
    · exact hmid
    · exact hmid.trans (allocateNew_recorded hnew)

theorem allocateChunk_recorded (h : allocateChunk B x s = some (r, s')) : Recorded s s' := by
  rcases allocateChunk_eq_some.mp h with ⟨-, -, rfl⟩ | ⟨-, last, s₁, front, s₂, s₃, hchunk, -, hreq,
    hstore, rfl⟩
  · exact Recorded.refl s
  · refine Recorded.trans ?_ (newHeap_recorded hreq hstore)
    rcases hchunk with ⟨-, hchunk⟩ | ⟨-, hchunk⟩
    · exact chunkFirst_recorded hchunk
    · exact chunkLater_recorded hchunk

theorem mydeallocate_recorded (h : mydeallocate B x s = some s') : Recorded s s' := by
  refine recorded_of_same ?_ (mydeallocate_steady h).pageCounter
  obtain ⟨-, resident, -, hs⟩ := mydeallocate_eq_some.mp h
  rcases hs with ⟨-, s₁, hstore, rfl⟩ | ⟨-, temp, s₁, s₂, -, hswap, hstore, rfl⟩
  · have hload : s.trace <:+ (release resident x (loadHeap resident s.enter)).trace :=
      (List.suffix_cons _ _).trans (List.suffix_cons _ _)
    obtain ⟨free, -, rfl⟩ := storeHeap_eq_some.mp hstore
    exact hload.trans (List.suffix_cons _ _)
  · have hload : s.trace <:+ (loadHeap temp s.enter).trace := List.suffix_cons _ _
    have hrel : s₁.trace <:+ (release temp x s₁).trace := List.suffix_cons _ _
    obtain ⟨free, -, rfl⟩ := storeHeap_eq_some.mp hstore
    exact ((hload.trans (swapPages_swapping hswap).suffix).trans hrel).trans (List.suffix_cons _ _)

theorem access_recorded (h : access B x s = some s') : Recorded s s' := by
  refine recorded_of_same ?_ (access_steady h).pageCounter
  rw [access] at h
  split_ifs at h
  · obtain ⟨-, -, resident, -, ⟨-, rfl⟩ | ⟨-, temp, s₁, -, hswap, rfl⟩⟩ := swapHandler_eq_some.mp h
    · exact List.suffix_refl _
    · exact (swapPages_swapping hswap).suffix
  · obtain rfl := Option.some.inj h
    exact List.suffix_refl _

theorem exec_recorded (h : call.exec B s = some (r, s')) : Recorded s s' := by
  cases call with
  | malloc x =>
    have h : myallocate B x s = some (r, s') := h
    rw [myallocate] at h
    have henter : Recorded s s.enter := .of_eq rfl rfl
    split_ifs at h
    · exact henter.trans (allocateChunk_recorded h)
    · exact henter.trans (allocatePage_recorded h)
  | free p => exact mydeallocate_recorded (exec_free.mp h).2
  | load a => exact access_recorded (exec_load.mp h).1
  | store a v =>
    obtain ⟨s₁, hs₁, rfl⟩ := store_eq_some.mp (exec_store.mp h).2
    exact (access_recorded hs₁).trans (.of_eq rfl rfl)
  | switch t =>
    obtain ⟨-, rfl⟩ := Prod.mk.inj (Option.some.inj h)
    exact .of_eq rfl rfl
  | library n =>
    obtain ⟨-, rfl⟩ := Prod.mk.inj (Option.some.inj h)
    exact .of_eq rfl rfl

theorem Reachable.exists_evicts (h : Reachable B P s) (hd : d < s.pageCounter) :
    ∃ e ∈ s.trace, e.Evicts d := by
  induction h with
  | start hb => exact absurd hd (Nat.not_lt_zero d)
  | @call c r s s' hr hp hs ih =>
    have hrec := exec_recorded hs
    rcases Nat.lt_or_ge d s.pageCounter with hlt | hge
    · obtain ⟨e, he, hev⟩ := ih hlt
      exact ⟨e, hrec.suffix.subset he, hev⟩
    · exact hrec.evicted d hge hd

/-! ## The shared pages -/

/-- Between frames before 1596 the shared pages are not written. -/
theorem Event.Within.inside {e : Event} (h : e.Within B 1596) : e.Inside B := by
  cases e with
  | heap => trivial
  | swap page src dest loc before after =>
    obtain ⟨hsrc, hloc, hch⟩ := h
    have hsub : ∀ i, i < 1596 → Range (B.frame i) 4096 ⊆ B.frames 0 1596 := by
      intro i hi a ha
      obtain ⟨hlo, hhi⟩ := mem_Range.mp ha
      have hlast : B.frame i + 4096 * 1 ≤ B.frame (0 + 1596) := by
        rw [frame_add]
        exact frame_mono B (by omega)
      refine mem_Range.mpr ⟨(frame_mono B (Nat.zero_le i)).trans hlo, ?_⟩
      rw [frame_add]
      exact hhi.trans_le hlast
    have hwritten : ChangesOnly (B.frames 0 1596 ∪ Range B.swapTemp 4096) before after := by
      refine hch.mono ?_
      rintro a ((ha | ha) | ha)
      · exact .inl (hsub src hsrc ha)
      · exact .inl (hsub loc hloc ha)
      · exact .inr ha
    refine ⟨?_, hwritten, fun a hlo hhi ↦ hwritten a ?_⟩
    · rintro i (rfl | ⟨rfl, -⟩)
      · exact hsrc
      · exact hloc
    · rintro (ha | ha)
      · rw [Block.frames, mem_Range, frame_add] at ha
        exact absurd ha.2 (not_lt.mpr hlo)
      · exact absurd (mem_Range.mp ha).1 (not_le.mpr hhi)

theorem Reachable.pageCounter_le (h : Reachable B P s) (hin : ∀ e ∈ s.trace, e.Inside B) :
    s.pageCounter ≤ 1596 := by
  by_contra hlt
  obtain ⟨e, he, page, src, before, after, rfl⟩ := h.exists_evicts (d := 1596) (not_le.mp hlt)
  obtain ⟨hidx, -⟩ := hin _ he
  exact absurd (hidx 1596 (.inr ⟨rfl, by decide⟩)) (lt_irrefl _)

/-- Each of `n` threads has got 1596 pages. -/
theorem exists_chunks (n : ℕ) : ∃ (s : Manager) (ch : ℕ → List PageMetaPtr) (c : ℕ → ℕ)
    (lay : ℕ → ℕ → Layout) (live : ℕ → List (ℕ × ℕ)), Reachable lowBlock (fun _ _ ↦ True) s ∧
      Good lowBlock s ch c lay live ∧ s.pageCounter = 1596 * n ∧ ∀ t, n ≤ t → ch t = [] := by
  induction n with
  | zero =>
    exact ⟨_, _, _, _, _, .start blank_zeroed, Good.start blank_zeroed fun _ _ ↦ Layout.fresh 0 0,
      rfl, fun _ _ ↦ rfl⟩
  | succ n ih =>
    obtain ⟨s, ch, c, lay, live, hreach, hg, hpc, hnil⟩ := ih
    have hreach₁ := Reachable.call (c := .switch n) hreach trivial rfl
    obtain ⟨hsd, hc⟩ := hreach₁.sound
    have hpages : numOfPages 6537184 = 1596 := by decide
    have hnone : (switch n s).tcb.firstPage = none := hg.settled.firstPage_none (hnil n (le_refl n))
    obtain ⟨r, l, s', hs', hf⟩ := (hg.switch n).exists_chunk hsd hc (x := 6537184) hnone (by decide)
      (by decide) (by rw [hpages]; decide) (by rw [hpages])
    have hlen : l.length = 1596 := hf.length.trans hpages
    refine ⟨s', _, _, _, _, .call (c := .malloc 6537184) hreach₁ trivial hs', hf.good, ?_, ?_⟩
    · rw [hf.pageCounter, hlen, show (switch n s).pageCounter = s.pageCounter from rfl, hpc]
      omega
    · intro t ht
      have hne : t ≠ (switch n s).current := (Nat.lt_of_succ_le ht).ne'
      rw [update_of_ne hne]
      exact hnil t (Nat.le_of_succ_le ht)

/-- The evictions of a run stay inside the private frames exactly when at most 1596 pages are
made. -/
theorem inside_iff (h : Reachable B P s) :
    (∀ e ∈ s.trace, e.Inside B) ↔ s.pageCounter ≤ 1596 := by
  refine ⟨h.pageCounter_le, fun hpc e he ↦ ?_⟩
  exact ((h.sound.1.within e he).mono hpc).inside

/-- With a page each, two threads evict inside the frames; with 1596 pages each they do not. -/
theorem inside_iff_first :
    (∃ s : Manager, (∃ e ∈ s.trace, e.Evicts 1) ∧ ∀ e ∈ s.trace, e.Inside lowBlock) ∧
      ∃ s : Manager, s.pageCounter = 3192 ∧ ¬∀ e ∈ s.trace, e.Inside lowBlock := by
  constructor
  · obtain ⟨s, _, _, _, _, _, _, hs, -, -, -, hpc, -⟩ := exists_pair
    exact ⟨s, hs.reachable.exists_evicts (by omega), (inside_iff hs.reachable).mpr (by omega)⟩
  · obtain ⟨s, _, _, _, _, hreach, -, hpc, -⟩ := exists_chunks 2
    refine ⟨s, hpc, fun hin ↦ ?_⟩
    have hle := (inside_iff hreach).mp hin
    omega

/-- A thread has 1596 pages, and another one gets its first. -/
theorem not_inside : ∃ s : Manager, Reachable lowBlock (fun _ _ ↦ True) s ∧
    ∃ e ∈ s.trace, ¬e.Inside lowBlock := by
  obtain ⟨s, ch, c, lay, live, hreach, hg, hpc, hnil⟩ := exists_chunks 1
  have hreach₁ := Reachable.call (c := .switch 1) hreach trivial rfl
  obtain ⟨hsd, hc⟩ := hreach₁.sound
  have hnone : (switch 1 s).tcb.firstPage = none := hg.settled.firstPage_none (hnil 1 (le_refl 1))
  have hpc₁ : (switch 1 s).pageCounter = 1596 := hpc
  obtain ⟨r, p, s', hs', hf⟩ := (hg.switch 1).exists_first hsd hc (x := 100) hnone (by omega)
    (by decide)
  have hreach₂ := Reachable.call (c := .malloc 100) hreach₁ trivial hs'
  refine ⟨s', hreach₂, ?_⟩
  by_contra hall
  push Not at hall
  have hle := hreach₂.pageCounter_le hall
  rw [hf.pageCounter, hpc₁] at hle
  exact absurd hle (Nat.not_succ_le_self 1596)

/-! ## Requests that are too much -/

/-- The request does not pass a limit unnoticed: a chunk that is accepted leaves `page_counter` at
most 5692, and a thread that has 1596 pages needs no further page. -/
def Capacity (B : Block) : Call → Manager → Prop
  | .malloc x, s => x < 2 ^ 32 ∧
      if 4064 < x then ¬s.TooMany (numOfPages x) → s.pageCounter + numOfPages x ≤ 5692
      else ¬(s.tcb.firstPage ≠ none ∧ s.tcb.mallocFrame = 1595 ∧
        s.pageCounter < 5692 ∧ NoRoom B x s)
  | _, _ => True

/-- The limits of the pages. -/
structure Capped (s : Manager) : Prop where
  pageCounter : s.pageCounter ≤ 5692
  owned : ∀ t, s.owned t ≤ 1596
  mallocFrame : ∀ t, (s.tcbs t).mallocFrame ≤ 1595

/-- The request needs new pages, and with them there would be too many. -/
def Overruns (B : Block) (x : ℕ) (s : Manager) : Prop :=
  (4064 < x ∨ s.tcb.firstPage = none ∨ NoRoom B x s) ∧
    (5692 < s.pageCounter + pagesFor x ∨ 1596 < s.owned s.current + pagesFor x)

/-- The pages of a thread are counted by its `malloc_frame`. -/
theorem Counted.capped (hc : Counted s) (hpc : s.pageCounter ≤ 5692)
    (hmf : ∀ t, (s.tcbs t).mallocFrame ≤ 1595) : Capped s := by
  refine ⟨hpc, fun t ↦ ?_, hmf⟩
  by_cases hfirst : (s.tcbs t).firstPage = none
  · rw [(hc.idle t hfirst).2]
    exact Nat.zero_le _
  · rw [hc.frames t hfirst]
    exact Nat.succ_le_succ (hmf t)

theorem Capped.steady (h : Capped s) (hst : Steady s s') : Capped s' := by
  refine ⟨?_, fun t ↦ ?_, fun t ↦ ?_⟩
  · rw [hst.pageCounter]
    exact h.pageCounter
  · rw [hst.owned]
    exact h.owned t
  · rw [hst.tcbs]
    exact h.mallocFrame t

/-- A request that passes no limit unnoticed keeps them. -/
theorem Capped.malloc (h : Capped s) (hsd : Sound B s) (hc : Counted s)
    (hcap : Capacity B (.malloc x) s) (hs : myallocate B x s = some (r, s')) : Capped s' := by
  obtain ⟨hx, hcap⟩ := hcap
  obtain ⟨-, hc', ho⟩ := myallocate_outcome hsd hc hx hs
  cases ho with
  | refused _ _ _ hst => exact h.steady hst
  | served _ _ _ hst => exact h.steady hst
  | @grown n _ _ _ hm he =>
    have hframe := he.mallocFrame
    have hmf : s.pageCounter + n ≤ 5692 ∧ s'.tcb.mallocFrame ≤ 1595 := by
      unfold Makes at hm
      split_ifs at hm hcap with hlarge
      · obtain ⟨rfl, hmany⟩ := hm
        refine ⟨hcap hmany, ?_⟩
        rw [Manager.TooMany] at hmany
        split_ifs at hmany hframe <;> omega
      · obtain ⟨rfl, hroom, hpc, hlt⟩ := hm
        refine ⟨hpc, ?_⟩
        by_cases hfirst : s.tcb.firstPage = none
        · rw [if_pos hfirst] at hframe
          omega
        · rw [if_neg hfirst] at hframe
          have hne : s.tcb.mallocFrame ≠ 1595 := fun hmf ↦ hcap ⟨hfirst, hmf, hpc, hroom hfirst⟩
          omega
    refine hc'.capped (he.pageCounter.trans_le hmf.1) fun t ↦ ?_
    rcases eq_or_ne t s.current with rfl | ht
    · rw [← he.current]
      exact hmf.2
    · rw [he.tcbs t ht]
      exact h.mallocFrame t

theorem Capped.exec (h : Capped s) (hsd : Sound B s) (hc : Counted s) (hcap : Capacity B call s)
    (hs : call.exec B s = some (r, s')) : Capped s' := by
  cases call with
  | malloc x => exact h.malloc hsd hc hcap hs
  | free p => exact h.steady (mydeallocate_steady (exec_free.mp hs).2)
  | load a => exact h.steady (access_steady (exec_load.mp hs).1)
  | store a v =>
    obtain ⟨s₁, hs₁, rfl⟩ := store_eq_some.mp (exec_store.mp hs).2
    have h₁ := h.steady (access_steady hs₁)
    exact ⟨h₁.pageCounter, h₁.owned, h₁.mallocFrame⟩
  | switch t =>
    obtain ⟨-, rfl⟩ := Prod.mk.inj (Option.some.inj hs)
    exact ⟨h.pageCounter, h.owned, h.mallocFrame⟩
  | library n =>
    obtain ⟨-, rfl⟩ := Prod.mk.inj (Option.some.inj hs)
    exact ⟨h.pageCounter, h.owned, h.mallocFrame⟩

/-- A request with which there would be too many pages is refused. -/
theorem refused_of_overruns (hc : Counted s) (hcap : Capacity B (.malloc x) s)
    (hover : Overruns B x s) : ∃ s', myallocate B x s = some (0, s') := by
  obtain ⟨-, hcap⟩ := hcap
  obtain ⟨hnew, hover⟩ := hover
  have howned : s.owned s.current =
      if s.tcb.firstPage = none then 0 else s.tcb.mallocFrame + 1 := by
    split_ifs with hfirst
    · exact (hc.idle _ hfirst).2
    · exact hc.frames _ hfirst
  rw [myallocate]
  split_ifs at hcap ⊢ with hlarge
  · have hmany : s.enter.TooMany (numOfPages x) := by
      by_contra hmany
      have hmany : ¬s.TooMany (numOfPages x) := hmany
      have hpc := hcap hmany
      rw [pagesFor, if_pos hlarge, howned] at hover
      rw [Manager.TooMany] at hmany
      split_ifs at hmany hover <;> omega
    exact ⟨s.enter, allocateChunk_eq_some.mpr (.inl ⟨hmany, rfl, rfl⟩)⟩
  · rw [pagesFor, if_neg hlarge, howned] at hover
    by_cases hfirst : s.tcb.firstPage = none
    · rw [if_pos hfirst] at hover
      have hpc : 5692 ≤ s.enter.pageCounter := show 5692 ≤ s.pageCounter by omega
      have hcur : currentPage B s.enter = some (none, s.enter) :=
        currentPage_eq_some.mpr (.inr (.inr ⟨hfirst, hpc, rfl, rfl⟩))
      exact ⟨s.enter, allocatePage_eq_some.mpr (.inl ⟨hcur, rfl⟩)⟩
    · rw [if_neg hfirst] at hover
      rcases hnew with hlarge' | hnone | ⟨cur, s₁, s₂, hcur, htry⟩
      · exact absurd hlarge' hlarge
      · exact absurd hnone hfirst
      · -- no page of the caller has room, and there is no further one
        have hroom : NoRoom B x s := ⟨cur, s₁, s₂, hcur, htry⟩
        rcases currentPage_eq_some.mp hcur with ⟨-, last, s₃, s₄, hlast, hfront, -, rfl⟩ |
          ⟨hnone, -⟩ | ⟨hnone, -⟩
        · have hst := (bringLast_steady hlast).trans ((bringFront_steady hfront).trans
            ((loadHeap_steady last s₄).trans (tryPages_steady htry)))
          have hpc₂ : s₂.pageCounter = s.pageCounter := hst.pageCounter
          have hmf₂ : s₂.tcb.mallocFrame = s.tcb.mallocFrame := by
            rw [hst.tcb]
            rfl
          have hlimit : ¬(s₂.pageCounter < 5692 ∧ s₂.tcb.mallocFrame < 1596) := by
            rintro ⟨hpc, hmf⟩
            rw [hpc₂] at hpc
            rw [hmf₂] at hmf
            have hne : s.tcb.mallocFrame ≠ 1595 := fun hmf ↦ hcap ⟨hfirst, hmf, hpc, hroom⟩
            omega
          have hnew := allocateNew_eq_some (B := B) (x := x).mpr (.inl ⟨hlimit, rfl, rfl⟩)
          exact ⟨s₂, allocatePage_eq_some.mpr
            (.inr ⟨cur, _, 0, s₂, hcur, htry, .inr ⟨rfl, hnew⟩⟩)⟩
        · exact absurd hnone hfirst
        · exact absurd hnone hfirst

theorem Session.capped {Q : Call → Manager → List Entry → Prop} {log : List Entry}
    (h : Session B Q s log) (hcap : ∀ call s log, Q call s log → Capacity B call s) : Capped s := by
  induction h with
  | start hb => exact ⟨Nat.zero_le _, fun _ ↦ Nat.zero_le _, fun _ ↦ Nat.zero_le _⟩
  | call hr hq hs ih =>
    obtain ⟨hsd, hc⟩ := hr.reachable.sound
    exact ih.exec hsd hc (hcap _ _ _ hq) hs

/-- The ranges that requests have returned are in the private frames. -/
theorem Session.inside {Q : Call → Manager → List Entry → Prop} {log : List Entry}
    (h : Session B Q s log) (hcap : ∀ call s log, Q call s log → Capacity B call s)
    (htame : ∀ call s log, Q call s log → Tame B call s log) {e : Entry} (he : e ∈ log)
    (hcall : e.call = .malloc x) (hr : e.result ≠ 0) : Range e.result x ⊆ B.frames 0 1596 := by
  induction h with
  | start hb => cases he
  | @call call r s s' log hrun hq hs ih =>
    rcases List.mem_cons.mp he with rfl | he
    · subst hcall
      have hcapped := (Session.call hrun hq hs).capped hcap
      obtain ⟨ch, c, lay, hg⟩ := hrun.tame htame
      obtain ⟨hsd, hc⟩ := hrun.reachable.sound
      obtain ⟨ch', c', lay', hg'⟩ := hg.tame hsd hc (htame _ _ _ hq) hs
      have hlive : (r, x) ∈ pointers (⟨s.current, .malloc x, r⟩ :: log) s.current := by
        rw [pointers, afterMalloc, if_neg hr, update_self]
        exact List.mem_cons_self
      have hlen : (ch' s.current).length ≤ 1596 := by
        by_cases hne : ch' s.current = []
        · rw [hne]
          exact Nat.zero_le _
        · rw [hg'.settled.length _ hne]
          exact Nat.succ_le_succ (hcapped.mallocFrame _)
      refine (hg'.bytesOf_subset hlive).trans fun a ha ↦ ?_
      obtain ⟨hlo, hhi⟩ := mem_Range.mp ha
      refine mem_Range.mpr ⟨hlo, hhi.trans_le ?_⟩
      rw [frame_add, frame_add]
      exact frame_mono B (Nat.add_le_add_left hlen 0)
    · exact ih he

/-- In every run in which no request passes a limit unnoticed the limits hold, and a request with
which they would not returns `NULL`; when the calls are tame, what requests return is in the private
frames. -/
theorem limits {Q : Call → Manager → List Entry → Prop} {log : List Entry} (h : Session B Q s log)
    (hcap : ∀ call s log, Q call s log → Capacity B call s) :
    Capped s ∧
      (∀ x, Q (.malloc x) s log → Overruns B x s → ∃ s', myallocate B x s = some (0, s')) ∧
      ((∀ call s log, Q call s log → Tame B call s log) → ∀ e ∈ log, ∀ x, e.call = .malloc x →
        e.result ≠ 0 → Range e.result x ⊆ B.frames 0 1596) := by
  refine ⟨h.capped hcap, fun x hq hover ↦ ?_, fun htame e he x hcall hr ↦ ?_⟩
  · exact refused_of_overruns h.reachable.sound.2 (hcap _ _ _ hq) hover
  · exact h.inside hcap htame he hcall hr

theorem Counted.capacity {log : List Entry} (hc : Counted s) (hpc : s.pageCounter ≤ 1595)
    (hcall : OnePage call s log) : Capacity B call s := by
  cases call with
  | malloc x =>
    change x ≤ 4064 at hcall
    refine ⟨by omega, ?_⟩
    rw [if_neg (not_lt.mpr hcall)]
    rintro ⟨hfirst, hmf, -⟩
    have hlt : s.tcb.mallocFrame < s.pageCounter := hc.lt_pageCounter hfirst
    omega
  | _ => trivial

/-- Two threads store to their pages and load from them.  A chunk of 1596 pages more is refused. -/
theorem limits_first : ∃ (s s' : Manager) (r r₁ : ℕ), Capped s ∧ r ≠ 0 ∧ r₁ ≠ 0 ∧
    Range r 100 ⊆ lowBlock.frames 0 1596 ∧ Range r₁ 100 ⊆ lowBlock.frames 0 1596 ∧
    myallocate lowBlock 6537184 s = some (0, s') := by
  obtain ⟨s, r, r₁, n, hs, hpc, hfirst, hr, hr₁⟩ := exists_session
  have hrun : Session lowBlock
      (fun call s log ↦ Capacity lowBlock call s ∧ Tame lowBlock call s log) s _ :=
    hs.imp hpc (by decide) fun _ _ _ _ _ _ hshows hsd hc hle hcall ↦
      ⟨hc.capacity hle hcall, hshows.tame hsd (by omega) hcall⟩
  obtain ⟨hcapped, hrefused, hin⟩ := limits hrun fun _ _ _ h ↦ h.1
  have hin := hin fun _ _ _ h ↦ h.2
  obtain ⟨hsd, hc⟩ := hrun.reachable.sound
  have hpages : numOfPages 6537184 = 1596 := by decide
  have hmany : s.TooMany (numOfPages 6537184) := by
    rw [Manager.TooMany, if_neg hfirst, hpages]
    omega
  have hcap : Capacity lowBlock (.malloc 6537184) s := by
    refine ⟨by decide, ?_⟩
    rw [if_pos (by decide)]
    exact fun hnot ↦ absurd hmany hnot
  have hover : Overruns lowBlock 6537184 s := by
    refine ⟨.inl (by decide), .inr ?_⟩
    rw [hc.frames _ hfirst, pagesFor, if_pos (by decide), hpages]
    omega
  obtain ⟨s', hs'⟩ := hrefused 6537184 ⟨hcap, by decide, fun hlater ↦ hlater.2.2 hmany,
    fun hsmall ↦ absurd hsmall (by decide), hsd.near (by omega)⟩ hover
  exact ⟨s, s', r, r₁, hcapped, hr, hr₁, hin ⟨0, .malloc 100, r⟩ (by simp) 100 rfl hr,
    hin ⟨1, .malloc 100, r₁⟩ (by simp) 100 rfl hr₁, hs'⟩

/-- Four threads have got 1596 pages each. -/
theorem not_limits :
    ∃ s : Manager, Reachable lowBlock (fun _ _ ↦ True) s ∧ 5692 < s.pageCounter := by
  obtain ⟨s, ch, c, lay, live, hreach, -, hpc, -⟩ := exists_chunks 4
  exact ⟨s, hreach, by omega⟩

end MyPthread.Paging
