import MyPthread.Paging.Supply
import MyPthread.Paging.Locked

/-!
# Heaps whose pages are away

A chunk keeps its heap on its last page.  When that page is in its frame and the front of the
chunk is not before it, the loop that brings the chunk in has nothing to do, and `mymalloc` works
on whatever is in the frames: on the heap of another thread, if that is what is there.

A page that is away is brought in by `swap_pages`, which clears `mem_flag` before the heap of the
page is worked on.
-/

namespace MyPthread.Paging

open MyPthread.Lib MyPthread.Heap Function

variable {B : Block} {s s' : Manager} {ch : ℕ → List PageMetaPtr} {c c' : ℕ → ℕ}
  {lay : ℕ → ℕ → Layout} {live : ℕ → List (ℕ × ℕ)} {k n x r t lo hi : ℕ}
  {p q cur front : PageMetaPtr} {l : List PageMetaPtr} {h h' : Layout}

/-- A chunk whose front is behind its last page is left as it is. -/
theorem bringFront_of_le (hfront : (s.metas cur).frontMeta = some front)
    (hle : s.pageFrame cur ≤ s.pageFrame front) : bringFront B cur s = some s := by
  rw [bringFront, hfront]
  exact bringChunk_eq_some.mpr (.inl ⟨hle, rfl⟩)

/-- A chunk of two pages that are in place is left as it is. -/
theorem bringFront_of_place (hfront : (s.metas cur).frontMeta = some front)
    (hin : s.pageFrame front = 0) (htable : s.frameTable 0 = some front)
    (hlast : s.pageFrame cur = 1) (hpc : 0 < s.pageCounter) : bringFront B cur s = some s := by
  rw [bringFront, hfront]
  dsimp only
  obtain ⟨fuel, hfuel⟩ := Nat.exists_eq_add_of_lt hpc
  rw [hin, show s.pageCounter + 1 = fuel + 1 + 1 by omega]
  refine bringChunk_eq_some.mpr (.inr ⟨by omega, front, s, rfl, .inl ⟨htable, rfl⟩, ?_⟩)
  exact bringChunk_eq_some.mpr (.inl ⟨hlast.le, rfl⟩)

/-- The last page of the caller is in its frame, and its chunk is left as it is: the request is
served from the heap that is at the head of the page. -/
theorem exists_borrowed (hin : s.frameTable s.tcb.mallocFrame = some cur)
    (htid : (s.metas cur).tid = s.current) (hsome : s.tcb.firstPage ≠ none)
    (hbring : bringFront B cur s.enter = some s.enter)
    (hf : Fits lo hi) (hfuel : hi < lo + 32 * heapFuel)
    (hr : Represents lo hi (loadHeap cur s).heap h) (hx : x ≤ 4064) (hne : (h.malloc x).1 ≠ 0) :
    ∃ s', myallocate B x s = some ((h.malloc x).1, s') ∧
      .heap .mymalloc s.current lo 1 (s.home (s.frontOf cur)) (s.home cur) s.held ∈ s'.trace := by
  have hlast : bringLast B s.enter = some (cur, s.enter) :=
    bringLast_eq_some.mpr ⟨cur, hin, .inl ⟨htid, rfl, rfl⟩⟩
  have hcur : currentPage B s.enter = some (some cur, loadHeap cur s.enter) :=
    currentPage_eq_some.mpr (.inl ⟨hsome, cur, s.enter, s.enter, hlast, hbring, rfl, rfl⟩)
  obtain ⟨heap, hm, hr', -⟩ := mymalloc_spec (x := x) hf hr hfuel
    (B.frame (loadHeap cur s.enter).tcb.mallocFrame) 4096
  have hreq : request cur x (B.frame (loadHeap cur s.enter).tcb.mallocFrame) 4096
      (loadHeap cur s.enter) =
        some ((h.malloc x).1, { (loadHeap cur s.enter).note .mymalloc cur with heap }) :=
    request_eq_some.mpr ⟨heap, hm, rfl⟩
  obtain ⟨s₂, hs₂, hheap, -⟩ := storeHeap_represents (p := cur)
    (s := { (loadHeap cur s.enter).note .mymalloc cur with heap }) hf hr' hfuel
  have htry : tryPages B x cur (loadHeap cur s.enter) = some ((h.malloc x).1, s₂.leave) :=
    tryPages_eq_some.mpr ⟨_, _, s₂, hreq, hs₂, .inl ⟨hne, rfl, rfl⟩⟩
  refine ⟨s₂.leave, ?_, ?_⟩
  · rw [myallocate, if_neg (not_lt.mpr hx)]
    exact allocatePage_eq_some.mpr (.inr ⟨cur, _, _, _, hcur, htry, .inl ⟨hne, rfl, rfl⟩⟩)
  · obtain ⟨free, -, rfl⟩ := storeHeap_eq_some.mp hs₂
    have hhead : (loadHeap cur s.enter).heap.head = lo := hr.head
    rw [← hhead]
    exact List.mem_cons_of_mem _ List.mem_cons_self

/-- The last page of the caller stays where it is while the other threads have no page for its
frame. -/
theorem Settled.pageFrame_of_alone (h : Settled s ch c) (hp : (ch t)[k]? = some p)
    (halone : ∀ u, u ≠ t → (ch u).length ≤ k) : s.pageFrame p = k := by
  obtain ⟨q, hq, -⟩ := h.exists_resident (Settled.lt_length hp)
  obtain ⟨u, hu⟩ := h.resident (Settled.lt_length hp) hq
  have hut : u = t := by
    by_contra hne
    have hlen := Settled.lt_length hu
    have := halone u hne
    omega
  subst hut
  rw [h.pageFrame_iff hp, hq, ← hu, hp]

/-- What is in a frame is the heap of the page there. -/
theorem Good.represents_here (hg : Good B s ch c lay live) (hp : (ch t)[k]? = some p)
    (hk : c t ≤ k) (hin : s.pageFrame p = k) :
    Represents (B.frame k) (B.frame (k + 1)) ⟨s.heap.mem, (s.metas p).head, (s.metas p).middle⟩
      (lay t k) := by
  have hr := hg.heap t k p hp (hk.trans (Nat.le_succ k))
  rw [hg.heapOf_eq hp, base, if_neg (not_lt.mpr hk)] at hr
  refine hr.of_agree fun a hlo hhi ↦ ?_
  obtain ⟨i, o, ho, rfl⟩ := exists_frame ((addr_le_frame B k).trans hlo)
  obtain rfl : i = k := by
    simp only [Block.frame] at hlo hhi
    omega
  exact (view_here hg.settled hp hin ho).symm

/-- The caller has a chunk of two pages. -/
theorem Settled.chunk_two {a b : PageMetaPtr} (h : Settled s ch c) (hch : ch s.current = [a, b])
    (htwo : c s.current = 2) : (ch s.current)[0]? = some a ∧ (ch s.current)[1]? = some b ∧
      s.tcb.firstPage ≠ none ∧ s.tcb.mallocFrame = 1 ∧ (s.metas b).frontMeta = some a := by
  have ha : (ch s.current)[0]? = some a := by
    rw [hch]
    rfl
  have hb : (ch s.current)[1]? = some b := by
    rw [hch]
    rfl
  have hne : ch s.current ≠ [] := by
    rw [hch]
    exact List.cons_ne_nil _ _
  have hlen := h.length s.current hne
  rw [hch] at hlen
  refine ⟨ha, hb, h.firstPage_ne.mpr hne, (Nat.succ_injective hlen).symm, ?_⟩
  rw [h.front _ 1 b hb, htwo, if_pos Nat.one_lt_two, ha]

/-- The caller has a chunk of two pages that are in place.  A request comes to its heap. -/
theorem Good.exists_local {a b : PageMetaPtr} (hg : Good B s ch c lay live)
    (hch : ch s.current = [a, b]) (htwo : c s.current = 2) (hain : s.pageFrame a = 0)
    (hbin : s.pageFrame b = 1) (hl : lay s.current 1 = h) (hx : x ≤ 4064)
    (hne : (h.malloc x).1 ≠ 0) :
    FrontHome B x s ∧ ∃ s', myallocate B x s = some ((h.malloc x).1, s') ∧
      .heap .mymalloc s.current (B.frame 0) 1 0 1 s.held ∈ s'.trace := by
  have hset := hg.settled
  obtain ⟨ha, hb, hsome, hmf, hfront⟩ := hset.chunk_two hch htwo
  have hahome : s.home a = 0 := hset.home _ 0 a ha
  have hbhome : s.home b = 1 := hset.home _ 1 b hb
  constructor
  · rintro q front hq htid ⟨hqm, -⟩ -
    obtain ⟨t, k, hk⟩ := hset.exists_place hq
    obtain rfl : t = s.current := (hset.tid hk).symm.trans htid
    have hqm' := hset.front _ k q hk
    rw [hqm, ha] at hqm'
    split_ifs at hqm' with hchunk
    obtain rfl : front = a := Option.some.inj hqm'
    exact hain.trans hahome.symm
  · -- the heap of the chunk is loaded
    have hload : Good B (loadHeap b s) ch c lay live :=
      hg.of_contents (hset.of_steady (loadHeap_steady b s) rfl rfl rfl) rfl (SameContents.refl s)
    have hhere : HeapHere (loadHeap b s) ch c 1 := by
      rintro j q - hj hq
      rw [show ch (loadHeap b s).current = [a, b] from hch] at hq
      rcases Nat.le_one_iff_eq_zero_or_eq_one.mp hj with rfl | rfl
      · obtain rfl := Option.some.inj hq
        exact hain
      · obtain rfl := Option.some.inj hq
        exact hbin
    have hr := hload.machine (loaded_loadHeap b s) hb htwo.le hhere
    rw [show c (loadHeap b s).current = 2 from htwo,
      show lay (loadHeap b s).current 1 = h from hl] at hr
    have hpc := Settled.lt_length ha
    have hspan := hset.span s.current
    obtain ⟨s', hs', he⟩ := exists_borrowed (B := B) (x := x)
      (hmf ▸ (hset.pageFrame_iff hb).mp hbin) (hset.tid hb) hsome
      (bringFront_of_place (s := s.enter) hfront hain ((hset.pageFrame_iff ha).mp hain) hbin
        (show 0 < s.pageCounter by omega))
      (fits_frames (i := 0) (n := 2) (by omega)) (frames_lt_fuel (i := 0) (n := 2) (by omega)) hr
      hx hne
    rw [Manager.frontOf, hfront, Option.getD_some, hahome, hbhome] at he
    exact ⟨s', hs', he⟩

/-- The caller has a chunk of two pages whose front is away, and the first page of the thread `t`
is where the front belongs.  A request comes to the heap of the thread `t`. -/
theorem Good.exists_foreign {a b d : PageMetaPtr} (hg : Good B s ch c lay live)
    (hch : ch s.current = [a, b]) (htwo : c s.current = 2) (haway : s.pageFrame a ≠ 0)
    (halone : ∀ u, u ≠ s.current → (ch u).length ≤ 1) (ht : t ≠ s.current)
    (hd : (ch t)[0]? = some d) (hct : c t = 0) (hin : s.pageFrame d = 0)
    (hl : lay s.current 1 = h) (hl' : lay t 0 = h') (hmiddle : h.middle = h'.middle)
    (hx : x ≤ 4064) (hne : (h'.malloc x).1 ≠ 0) :
    ∃ r s', myallocate B x s = some (r, s') ∧ ∃ e ∈ s'.trace, ¬e.Own := by
  have hset := hg.settled
  obtain ⟨ha, hb, hsome, hmf, hfront⟩ := hset.chunk_two hch htwo
  have hbin : s.pageFrame b = 1 := hset.pageFrame_of_alone hb halone
  -- the globals loaded from the caller's page are those of the page that is there
  have hrb := hg.heap _ 1 b hb htwo.le
  have hrd := hg.represents_here hd hct.le hin
  rw [htwo, hl] at hrb
  rw [hl'] at hrd
  have hload : (loadHeap b s).heap = ⟨s.heap.mem, (s.metas d).head, (s.metas d).middle⟩ := by
    have hhead : (s.metas b).head = (s.metas d).head := hrb.head.trans hrd.head.symm
    have hmid : (s.metas b).middle = (s.metas d).middle :=
      hrb.middle.trans (hmiddle.trans hrd.middle.symm)
    show HeapState.mk s.heap.mem (s.metas b).head (s.metas b).middle = _
    rw [hhead, hmid]
  rw [← hload] at hrd
  have hbtable : s.frameTable s.tcb.mallocFrame = some b := by
    rw [hmf]
    exact (hset.pageFrame_iff hb).mp hbin
  obtain ⟨s', hs', he⟩ := exists_borrowed (B := B) (x := x) hbtable (hset.tid hb) hsome
    (bringFront_of_le (s := s.enter) hfront (show s.pageFrame b ≤ s.pageFrame a by omega))
    (fits_frames (i := 0) (n := 1) (by omega))
    (frames_lt_fuel (i := 0) (n := 1) (by omega)) hrd hx hne
  refine ⟨_, s', hs', _, he, fun hown ↦ ?_⟩
  have hheld := hown (.inl rfl) (frame_pos B 0).ne' 0 (by
    rw [Manager.frontOf, hfront]
    exact (hset.home _ 0 a ha).le) (Nat.zero_le _)
  rw [Manager.held, (hset.pageFrame_iff hd).mp hin, Option.map_some, hset.tid hd] at hheld
  exact ht (congrArg Prod.fst (Option.some.inj hheld))

/-! ## Heaps in other frames -/

/-- In every run in which the heaps of chunks are worked on when they are in place, every
heap operation sees pages of its caller only. -/
theorem heaps_own (h : Reachable B (HeapsHome B) s) : ∀ e ∈ s.trace, e.Own := by
  obtain ⟨ch, c, htidy⟩ := h.tidy
  exact htidy.own

/-- Thread 0 has a page, which the chunk of thread 1 displaces.  A further request of thread 1 comes
to the heap of its chunk. -/
theorem heaps_own_first : ∃ (s s' : Manager) (r : ℕ), (∃ d ∈ s.made, s.pageFrame d ≠ s.home d) ∧
    myallocate lowBlock 50 s = some (r, s') ∧
    (∃ held, .heap .mymalloc 1 (lowBlock.frame 0) 1 0 1 held ∈ s'.trace) ∧
    ∀ e ∈ s'.trace, e.Own := by
  have hg := Good.start (B := lowBlock) blank_zeroed fun _ _ ↦ Layout.fresh 0 0
  have hstart : Reachable lowBlock (HeapsHome lowBlock) (blank.start lowBlock) :=
    .start blank_zeroed
  obtain ⟨hsd, hc⟩ := hstart.sound
  obtain ⟨r, d, s, hs, hf⟩ := hg.exists_first hsd hc (x := 100) rfl (by decide) (by decide)
  have hreach : Reachable lowBlock (HeapsHome lowBlock) s := by
    refine .call (c := .malloc 100) hstart ⟨by decide, ?_, ?_⟩ hs
    · rintro ⟨hlarge, -⟩
      exact absurd hlarge (by decide)
    · rintro - p front hp
      cases hp
  have hreach₁ := Reachable.call (c := .switch 1) hreach trivial rfl
  obtain ⟨hsd₁, hc₁⟩ := hreach₁.sound
  have hnone : (switch 1 s).tcb.firstPage = none :=
    hf.good.settled.firstPage_none (update_of_ne Nat.one_ne_zero _ _)
  have hpages : numOfPages 5000 = 2 := by decide
  obtain ⟨r₁, l, s₁, hs₁, hf₁⟩ := (hf.good.switch 1).exists_chunk hsd₁ hc₁ (x := 5000) hnone
    (by decide) (by decide) (by decide) (by decide)
  have hreach₂ : Reachable lowBlock (HeapsHome lowBlock) s₁ := by
    refine .call (c := .malloc 5000) hreach₁ ⟨by decide, fun hlater ↦ hlater.2.1 hnone, ?_⟩ hs₁
    intro hsmall
    exact absurd hsmall (by decide)
  obtain ⟨a, b, rfl⟩ := List.length_eq_two.mp (hf₁.length.trans hpages)
  have hset := hf₁.good.settled
  have hcur : s₁.current = 1 := hf₁.current
  have hlay :
      grownLay lowBlock (grownLay lowBlock (fun _ _ ↦ Layout.fresh 0 0) 0 0 1 100) 1 0 2 5000 1 1 =
        (firstLayout lowBlock 0 2 5000).2 := grownLay_last rfl
  have hfit : ((firstLayout lowBlock 0 2 5000).2.malloc 50).1 ≠ 0 := by decide
  obtain ⟨hfront, s', hs', he⟩ := hf₁.good.exists_local (x := 50) (a := a) (b := b)
    (hcur.symm ▸ rfl) (hcur.symm ▸ hpages) (hf₁.pageFrame 0 a rfl) (hf₁.pageFrame 1 b rfl)
    (hcur.symm ▸ hlay) (by decide) hfit
  rw [hcur] at he
  have hdisplaced : s₁.pageFrame d ≠ s₁.home d := by
    obtain ⟨-, -, -, -, haway⟩ := hf₁.displaced (t := 0) (k := 0) (p := d) Nat.zero_ne_one rfl
      Nat.two_pos
    rwa [hset.home 0 0 d rfl]
  refine ⟨s₁, s', _, ⟨d, hset.mem_pages (t := 0) (k := 0) rfl, hdisplaced⟩, hs', ⟨s₁.held, he⟩,
    heaps_own (.call (c := .malloc 50) hreach₂ ⟨by decide, ?_, fun _ ↦ hfront⟩ hs')⟩
  rintro ⟨hlarge, -⟩
  exact absurd hlarge (by decide)

/-- Thread 0 has a chunk of two pages, and thread 1 gets its first page.  A request of thread 0
then comes to the heap of thread 1. -/
theorem not_heaps_own : ∃ s : Manager, Reachable lowBlock (fun _ _ ↦ True) s ∧
    s.pageCounter ≤ 1596 ∧ ∃ e ∈ s.trace, ¬e.Own := by
  have hg := Good.start (B := lowBlock) blank_zeroed fun _ _ ↦ Layout.fresh 0 0
  have hstart : Reachable lowBlock (fun _ _ ↦ True) (blank.start lowBlock) := .start blank_zeroed
  obtain ⟨hsd, hc⟩ := hstart.sound
  have hpages : numOfPages 5000 = 2 := by decide
  obtain ⟨r, l, s, hs, hf⟩ := hg.exists_chunk hsd hc (x := 5000) rfl (by decide) (by decide)
    (by decide) (by decide)
  have hreach := Reachable.call (c := .malloc 5000) hstart trivial hs
  have hlen : l.length = 2 := hf.length.trans hpages
  obtain ⟨a, b, rfl⟩ := List.length_eq_two.mp hlen
  have hpc : s.pageCounter = 2 := hf.pageCounter
  obtain ⟨r₁, d, s₁, hs₁, hreach₁, hf₁, haway⟩ := hf.exists_displaced hreach trivial trivial
    (t := 1) (n := 100) (by decide) rfl (by omega) (by decide)
  have hg₁ := hf₁.good.switch 0
  have hreach₂ := Reachable.call (c := .switch 0) hreach₁ trivial rfl
  have hl : grownLay lowBlock (grownLay lowBlock (fun _ _ ↦ Layout.fresh 0 0) 0 0 2 5000) 1 0 1 100
      0 1 = (firstLayout lowBlock 0 2 5000).2 :=
    (grownLay_of_ne (fun h ↦ absurd h Nat.zero_ne_one) (le_refl 1)).trans (grownLay_last rfl)
  have hl' : grownLay lowBlock (grownLay lowBlock (fun _ _ ↦ Layout.fresh 0 0) 0 0 2 5000) 1 0 1 100
      1 0 = (firstLayout lowBlock 0 1 100).2 := grownLay_last rfl
  have hmiddle :
    (firstLayout lowBlock 0 2 5000).2.middle = (firstLayout lowBlock 0 1 100).2.middle := by
    decide
  have hfit : ((firstLayout lowBlock 0 1 100).2.malloc 50).1 ≠ 0 := by decide
  have halone : ∀ u, u ≠ 0 → (update (update (fun _ ↦ []) 0 [a, b]) 1 [d] u).length ≤ 1 := by
    intro u hu
    rcases eq_or_ne u 1 with rfl | h1
    · rw [update_self]
      exact le_refl 1
    · rw [update_of_ne h1, update_of_ne hu]
      exact Nat.zero_le 1
  obtain ⟨r₂, s₂, hs₂, he⟩ :=
    hg₁.exists_foreign (t := 1) (x := 50) (a := a) (b := b) (d := d) rfl rfl
    (haway a rfl) halone Nat.one_ne_zero rfl rfl (hf₁.pageFrame 0 d rfl) hl hl' hmiddle (by decide)
    hfit
  refine ⟨s₂, .call (c := .malloc 50) hreach₂ trivial hs₂, ?_, he⟩
  have hpc₁ : s₁.pageCounter = s.pageCounter + 1 := hf₁.pageCounter
  have hle := myallocate_pageCounter_le hreach₂.sound.1 hreach₂.sound.2 (by decide) hs₂
  rw [show (switch 0 s₁).pageCounter = s₁.pageCounter from rfl,
    show pagesFor 50 = 1 from rfl] at hle
  omega

/-! ## Heaps brought in -/

/-- The manager is locked while it works on a heap exactly when the call brings no page in. -/
theorem locked_iff (B : Block) (s s' : Manager) :
    (∀ x r, myallocate B x s = some (r, s') →
      (During Event.Locked s s' ↔ (x ≤ 4064 → RequestInPlace B x s))) ∧
    ∀ x, mydeallocate B x s = some s' → (During Event.Locked s s' ↔ FreeInPlace B x s) := by
  refine ⟨fun x r hs ↦ ?_, fun x hs ↦ mydeallocate_locked hs⟩
  rw [myallocate] at hs
  split_ifs at hs with hlarge
  · have hlock : During Event.Locked s.enter s' := allocateChunk_locked hs
    exact ⟨fun _ hx ↦ absurd hx (not_le.mpr hlarge), fun _ ↦ hlock⟩
  · rw [allocatePage_locked hs]
    exact (imp_iff_right (not_lt.mp hlarge)).symm

/-- Threads 0 and 1 have a page each.  When thread 0 gives its block back, its page is brought in
while the block is released with the manager unlocked. -/
theorem not_locked : ∃ (s s' : Manager) (p : ℕ), Reachable lowBlock (fun _ _ ↦ True) s ∧
    mydeallocate lowBlock p s = some s' ∧ ¬During Event.Locked s s' := by
  have hg := Good.start (B := lowBlock) blank_zeroed fun _ _ ↦ Layout.fresh 0 0
  have hstart : Reachable lowBlock (fun _ _ ↦ True) (blank.start lowBlock) := .start blank_zeroed
  obtain ⟨hsd, hc⟩ := hstart.sound
  obtain ⟨r, a, s, hs, hf⟩ := hg.exists_first hsd hc (x := 100) rfl (by decide) (by decide)
  have hreach := Reachable.call (c := .malloc 100) hstart trivial hs
  have hpc : s.pageCounter = 1 := hf.pageCounter
  obtain ⟨r₁, d, s₁, hs₁, hreach₁, hf₁, haway⟩ := hf.exists_displaced hreach trivial trivial
    (t := 1) (n := 100) (by decide) rfl (by omega) (by decide)
  have hg₁ := hf₁.good.switch 0
  have hreach₂ := Reachable.call (c := .switch 0) hreach₁ trivial rfl
  have hr : r = (firstLayout lowBlock 0 1 100).1 := hf.result
  have hr₁ : r₁ = (firstLayout lowBlock 0 1 100).1 := hf₁.result
  have hframe : (frameOf lowBlock (firstLayout lowBlock 0 1 100).1).toNat = 0 := by decide
  have hne : (firstLayout lowBlock 0 1 100).1 ≠ 0 := by decide
  have hlive : (r, 100) ∈ afterMalloc (afterMalloc (fun _ ↦ []) 0 100 r) 1 100 r₁ 0 := by
    rw [afterMalloc, if_neg (hr₁.trans_ne hne), update_of_ne Nat.zero_ne_one, afterMalloc,
      if_neg (hr.trans_ne hne), update_self]
    exact List.mem_cons_self
  have hpc₁ : (switch 0 s₁).pageCounter ≤ 1597 := by
    have hpc₁ : s₁.pageCounter = s.pageCounter + 1 := hf₁.pageCounter
    show s₁.pageCounter ≤ 1597
    omega
  obtain ⟨s', hs'⟩ := hg₁.exists_mydeallocate (hreach₂.sound.1.near hpc₁) hlive
    (hg₁.freeable hlive) chunkFreeHere_noChunk
  refine ⟨_, s', r, hreach₂, hs', fun hlock ↦ ?_⟩
  have hd : s₁.frameTable 0 = some d :=
    (hf₁.good.settled.pageFrame_iff (t := 1) (k := 0) rfl).mp (hf₁.pageFrame 0 d rfl)
  have htid : (s₁.metas d).tid = 1 := hf₁.good.settled.tid (t := 1) (k := 0) rfl
  have hin := (mydeallocate_locked hs').mp hlock d
  rw [hr, hframe] at hin
  rw [show (switch 0 s₁).metas = s₁.metas from rfl, htid] at hin
  exact Nat.one_ne_zero (hin hd)

end MyPthread.Paging
