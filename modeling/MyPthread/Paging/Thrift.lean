import MyPthread.Paging.Supply

/-!
# No premature growth

In a session of requests for up to a page, the `free_page_mem` of every page is the size of the
free blocks of its heap, and a thread that has pages gets a further one just when none of its
pages, wherever they are, has a free block that is large enough.
-/

namespace MyPthread.Paging

open MyPthread.Lib MyPthread.Heap Function Relation

variable {B : Block} {s s' : Manager} {ch : ℕ → List PageMetaPtr} {c c' : ℕ → ℕ}
  {lay : ℕ → ℕ → Layout} {live : ℕ → List (ℕ × ℕ)} {k x r t : ℕ} {p q : PageMetaPtr}
  {l : List PageMetaPtr} {log : List Entry} {h : Layout}

/-- The heap of a page, as its thread sees it, has the layout `h`. -/
def PageHeap (B : Block) (s : Manager) (p : PageMetaPtr) (h : Layout) : Prop :=
  Represents (B.frame (s.home p)) (B.frame (s.home p + 1)) (heapOf B s p) h

/-- A page of the caller has a free block of at least `x` bytes. -/
def HasFit (B : Block) (s : Manager) (x : ℕ) : Prop :=
  ∃ p ∈ s.made, (s.metas p).tid = s.current ∧ ∃ h, PageHeap B s p h ∧
    ∃ b ∈ h.blocks, b.free = true ∧ x ≤ b.size

/-- The page `p` is new in `s'`. -/
def New (s s' : Manager) (p : PageMetaPtr) : Prop := p ∈ s'.made ∧ p ∉ s.made

theorem PageHeap.unique {h' : Layout} (hp : PageHeap B s p h) (hp' : PageHeap B s p h') : h = h' :=
  Represents.unique (frame_pos B _) hp hp'

theorem Good.pageHeap (hg : Good B s ch noChunk lay live) (hp : (ch t)[k]? = some p) :
    PageHeap B s p (lay t k) := by
  have hr := hg.heap t k p hp (Nat.zero_le _)
  have hbase : base (noChunk t) k = k := if_neg (Nat.not_lt_zero k)
  rw [hbase] at hr
  rw [PageHeap, hg.settled.home t k p hp]
  exact hr

/-- The pages of the caller are the places of its chain. -/
theorem Good.hasFit_iff (hg : Good B s ch noChunk lay live) :
    HasFit B s x ↔ HasRoom ch noChunk lay s.current x := by
  constructor
  · rintro ⟨p, hp, htid, h, hh, b, hb, hfree, hx⟩
    obtain ⟨t, k, hk⟩ := hg.settled.exists_place hp
    obtain rfl : t = s.current := (hg.settled.tid hk).symm.trans htid
    obtain rfl := hh.unique (hg.pageHeap hk)
    exact ⟨k, Settled.lt_length hk, Nat.zero_le _, Layout.malloc_ne_zero hb hfree hx⟩
  · rintro ⟨k, hk, -, hr⟩
    obtain ⟨p, hp⟩ : ∃ p, (ch s.current)[k]? = some p := ⟨_, List.getElem?_eq_getElem hk⟩
    have hfit : ¬∀ b ∈ (lay s.current k).blocks, ¬b.fits x = true :=
      fun hnone ↦ hr (Layout.malloc_eq_zero_iff.mpr hnone)
    push Not at hfit
    obtain ⟨b, hb, hf⟩ := hfit
    obtain ⟨hfree, hx⟩ := Lib.Block.fits_iff.mp hf
    exact ⟨p, hg.settled.mem_pages hp, hg.settled.tid hp, _, hg.pageHeap hp, b, hb, hfree, hx⟩

/-- A range that the heap of new pages heads is in them. -/
theorem Fresh.range_subset {n : ℕ} {last : PageMetaPtr} {s₁ : Manager}
    (hf : Fresh B ch c' l x r last s s₁ s') (hn : l.length = n) (hone : 1 ≤ n) (hr : r ≠ 0) :
    Range r x ⊆ B.frames (ch s.current).length n := by
  subst hn
  have hadd := frame_add B (ch s.current).length l.length
  have hwf := Layout.wf_fresh (show B.frame (ch s.current).length + 32 ≤
    B.frame ((ch s.current).length + l.length) by omega)
  rw [hf.result] at hr
  obtain ⟨b, hb, hx, halloc, -⟩ := hwf.malloc_allocated hr
  rw [← firstLayout, ← hf.result] at hb
  have hmem := ((halloc b).mpr (.inr rfl)).1
  obtain ⟨hlo, hhi⟩ := hwf.malloc.tiles.bounds hmem
  intro a ha
  rw [mem_Range] at ha
  rw [Lib.Block.stop] at hhi
  rw [Block.frames, mem_Range]
  constructor <;> omega

/-- A request that no page of the caller can serve is served by a new one. -/
theorem Good.grows (hg : Good B s ch noChunk lay live) (hsd : Sound B s) (hc : Counted s)
    (hn : Near s) (hx : x ≤ 4064) (hroom : ¬HasRoom ch noChunk lay s.current x) (hr : r ≠ 0)
    (hs : myallocate B x s = some (r, s')) :
    ∃ p, New s s' p ∧ ∀ q, New s s' q → (s'.metas q).tid = s.current ∧
      Range r x ⊆ B.frames (s'.home q) 1 := by
  have hlater : ¬LaterChunk x s := fun hl ↦ absurd hl.1 (not_lt.mpr hx)
  cases myallocate_ending (Q := True) hg.settled hsd hc (by omega) hlater
    (fun _ _ ↦ frontHere_noChunk) hs with
  | found hf =>
    exfalso
    cases hf with
    | nothing hr' => exact hr hr'
    | page _ hw ha =>
      obtain ⟨-, hcur, -⟩ := hw.settled hg.settled
      obtain ⟨k, hk, hck, hrk, -⟩ := (hg.works hn hw).attempt ha
      rw [hcur] at hk hrk
      exact hroom ⟨k, hk, hck, hrk ▸ hr⟩
  | @grown s₁ s₂ c' l _ hw hgr hone hleave =>
    obtain ⟨hset₁, hcur, -⟩ := hw.settled hg.settled
    obtain ⟨hlen, -⟩ := hone hx
    obtain ⟨p, rfl⟩ := List.length_eq_one_iff.mp hlen
    have hmade : s₁.made = s.made := (Works.steady hw).made
    have hset₂ := hgr.settled
    obtain ⟨last, s₃, hf⟩ := hgr.fresh
    subst hleave
    have hplace : (extend ch s₁.current [p] s₁.current)[(ch s₁.current).length]? = some p := by
      rw [extend_self, List.getElem?_append_right (le_refl _), Nat.sub_self]
      rfl
    have hnew : New s s₂.leave p := by
      refine ⟨hset₂.mem_pages hplace, fun hp ↦ ?_⟩
      exact hf.grew.fresh p List.mem_cons_self (show p ∈ s₁.made from hmade ▸ hp)
    refine ⟨p, hnew, fun q hq ↦ ?_⟩
    obtain rfl : q = p := by
      obtain ⟨t, k, hk⟩ := hset₂.exists_place hq.1
      rcases Paging.place_cases rfl hk with hold | ⟨-, -, hk⟩
      · exact absurd (hmade ▸ hset₁.mem_pages hold) hq.2
      · exact List.mem_singleton.mp (List.mem_of_getElem? hk)
    refine ⟨(hset₂.tid hplace).trans hcur, ?_⟩
    have hhome : s₂.leave.home q = (ch s₁.current).length := hset₂.home _ _ _ hplace
    rw [hhome]
    exact hf.range_subset rfl (le_refl _) hr

/-- In a session of requests for up to a page, the `free_page_mem` of every page is the size of
the free blocks of its heap.  A request of a thread that has pages is served; it is served by a
new page just when none of them has a free block for it. -/
theorem no_premature_growth (h : Session B OnePage s log) (hpc : s.pageCounter ≤ 1596) :
    (∀ p ∈ s.made, ∃ h, PageHeap B s p h ∧ (s.metas p).freePageMem = h.room) ∧
      ∀ x ≤ 4064, s.tcb.firstPage ≠ none → ∃ r s', myallocate B x s = some (r, s') ∧ r ≠ 0 ∧
        ((∃ p, New s s' p) ↔ ¬HasFit B s x) ∧
        ∀ p, New s s' p → (s'.metas p).tid = s.current ∧ Range r x ⊆ B.frames (s'.home p) 1 := by
  obtain ⟨hsd, hc⟩ := h.reachable.sound
  obtain ⟨ch, lay, A, -, hshows⟩ := h.exists_run hpc
  have hg := hshows.good
  have hn := hsd.near (show s.pageCounter ≤ 1597 by omega)
  refine ⟨fun p hp ↦ ?_, fun x hx hfirst ↦ ?_⟩
  · obtain ⟨t, k, hk⟩ := hg.settled.exists_place hp
    exact ⟨_, hg.pageHeap hk, hg.free t k p hk (Nat.zero_le _)⟩
  · obtain ⟨r, s', hs', hroom⟩ := hg.enter.exists_allocatePage hn hx
      (hg.settled.firstPage_ne.mp hfirst) frontHere_noChunk
    have hs : myallocate B x s = some (r, s') := by
      rw [myallocate, if_neg (not_lt.mpr hx)]
      exact hs'
    have hlt : s.tcb.mallocFrame < s.pageCounter := hc.lt_pageCounter hfirst
    have hr : r ≠ 0 := by
      obtain ⟨-, -, ho⟩ := myallocate_outcome hsd hc (by omega) hs
      cases ho with
      | served _ hr => exact hr
      | grown _ hr => exact hr
      | refused href =>
        rw [Refused, if_neg (not_lt.mpr hx), if_neg hfirst] at href
        exact absurd ⟨by omega, by omega⟩ href.2
    refine ⟨r, s', hs, hr, ?_, fun p hp ↦ ?_⟩
    · rw [hg.hasFit_iff]
      constructor
      · rintro ⟨p, hp, hnot⟩ hfit
        rw [(hroom hfit).2] at hp
        exact hnot hp
      · intro hfit
        obtain ⟨p, hp, -⟩ := hg.grows hsd hc hn hx hfit hr hs
        exact ⟨p, hp⟩
    · by_cases hfit : Good.HasRoom ch noChunk lay s.current x
      · rw [New, (hroom hfit).2] at hp
        exact absurd hp.1 hp.2
      · obtain ⟨-, -, hall⟩ := hg.grows hsd hc hn hx hfit hr hs
        exact hall p hp

/-- Thread 0 has a page of 100 bytes, which is away: 50 bytes more fit, and 4064 do not. -/
theorem no_premature_growth_first : ∃ s : Manager, s.pageCounter = 2 ∧
    (∀ p ∈ s.made, ∃ h, PageHeap lowBlock s p h ∧ (s.metas p).freePageMem = h.room) ∧
    (∃ r s', myallocate lowBlock 50 s = some (r, s') ∧ r ≠ 0 ∧ ∀ p, ¬New s s' p) ∧
    ∃ r s' p, myallocate lowBlock 4064 s = some (r, s') ∧ New s s' p ∧
      Range r 4064 ⊆ lowBlock.frames (s'.home p) 1 := by
  obtain ⟨s, p, q, r, r₁, lay, live, hs, hg, hlay, hcur, hpc, -⟩ := exists_pair
  obtain ⟨hroom, hserved⟩ := no_premature_growth hs (hpc.trans_le (by decide))
  have hch : (update (update (fun _ ↦ []) 0 [p]) 1 [q]) s.current = [p] := by
    rw [hcur]
    rfl
  have hfirst : s.tcb.firstPage ≠ none := by
    refine hg.settled.firstPage_ne.mpr ?_
    rw [hch]
    exact List.cons_ne_nil p []
  have hfit : HasFit lowBlock s 50 := by
    refine hg.hasFit_iff.mpr ⟨0, ?_, Nat.zero_le _, ?_⟩
    · rw [hch]
      exact Nat.one_pos
    · rw [hcur, hlay]
      decide
  have hfull : ¬HasFit lowBlock s 4064 := by
    rw [hg.hasFit_iff]
    rintro ⟨j, hj, -, hne⟩
    rw [hch] at hj
    obtain rfl : j = 0 := Nat.lt_one_iff.mp hj
    rw [hcur, hlay] at hne
    exact hne (by decide)
  refine ⟨s, hpc, hroom, ?_, ?_⟩
  · obtain ⟨r, s', hs', hr, hnew, -⟩ := hserved 50 (by decide) hfirst
    exact ⟨r, s', hs', hr, fun p hp ↦ hnew.mp ⟨p, hp⟩ hfit⟩
  · obtain ⟨r, s', hs', -, hnew, hwhere⟩ := hserved 4064 (le_refl _) hfirst
    obtain ⟨p, hp⟩ := hnew.mpr hfull
    exact ⟨r, s', p, hs', hp, (hwhere p hp).2⟩

end MyPthread.Paging
