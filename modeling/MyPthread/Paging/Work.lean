import MyPthread.Paging.Swaps

/-!
# The work of a call

As long as the chains are complete, what a call does before it serves a request or releases
a block is made of a few kinds of work: the caller's own pages are brought in, heaps of the
caller are loaded, and requests on them fail.  Then at most one request succeeds, or a page
or a chunk is made, or one block is released.

The proposition `Q` stands for what is known of the call: under it, a heap that the call
works on has all its pages in their frames.
-/

namespace MyPthread.Paging

open MyPthread.Lib MyPthread.Heap Function Relation

variable {B : Block} {Q : Prop} {s s' s₁ s₂ : Manager} {ch : ℕ → List PageMetaPtr} {c : ℕ → ℕ}
  {i j k n x r fuel : ℕ} {p q cur last front : PageMetaPtr} {o : Option PageMetaPtr}

/-- The frame in which the heap of the `k`-th page begins, when the first `c` pages are a
chunk. -/
def base (c k : ℕ) : ℕ := if k < c then 0 else k

theorem base_le (c k : ℕ) : base c k ≤ k := by
  unfold base
  split_ifs <;> omega

/-- The pages of the heap of the caller's `k`-th page are in their frames. -/
def HeapHere (s : Manager) (ch : ℕ → List PageMetaPtr) (c : ℕ → ℕ) (k : ℕ) : Prop :=
  ∀ j p, base (c s.current) k ≤ j → j ≤ k → (ch s.current)[j]? = some p → s.pageFrame p = j

/-- The globals `head` and `middle` are those of the page `p`. -/
structure Loaded (p : PageMetaPtr) (s : Manager) : Prop where
  head : s.heap.head = (s.metas p).head
  middle : s.heap.middle = (s.metas p).middle

theorem loaded_loadHeap (p : PageMetaPtr) (s : Manager) : Loaded p (loadHeap p s) := ⟨rfl, rfl⟩

/-- A request on the heap of the caller's `k`-th page, which is loaded.  The heap of a page
that is not the last of a chunk is tried without memory to set it up in. -/
inductive Attempt (B : Block) (Q : Prop) (ch : ℕ → List PageMetaPtr) (c : ℕ → ℕ) (x r : ℕ)
    (s s' : Manager) : Prop where
  | intro {s₁ : Manager} {k : ℕ} {p : PageMetaPtr} {memptr : ℕ} {size : ℤ} : Settled s ch c →
      Loaded p s → (ch s.current)[k]? = some p → (memptr = 0 ∨ c s.current ≤ k + 1) →
      (Q → c s.current ≤ k + 1 → HeapHere s ch c k) →
      request p x memptr size s = some (r, s₁) → (storeHeap p s₁ = some s' ∨ r = 0 ∧ s₁ = s') →
      Attempt B Q ch c x r s s'

/-- The block at `x` is released in the heap of the caller's `k`-th page, which is loaded. -/
inductive Release (B : Block) (Q : Prop) (ch : ℕ → List PageMetaPtr) (c : ℕ → ℕ) (x : ℕ)
    (s s' : Manager) : Prop where
  | intro {k : ℕ} {p : PageMetaPtr} : Settled s ch c → Loaded p s →
      (ch s.current)[k]? = some p → (Q → (frameOf B x).toNat = k) →
      (Q → c s.current ≤ k + 1 → HeapHere s ch c k) →
      storeHeap p (release p x s) = some s' → Release B Q ch c x s s'

/-- What a call does before it serves a request for `x` bytes or releases a block. -/
inductive Work (B : Block) (Q : Prop) (ch : ℕ → List PageMetaPtr) (c : ℕ → ℕ) (x : ℕ) :
    Manager → Manager → Prop where
  | flags {s : Manager} (flag : ℤ) (access : ℕ → Bool) :
      Work B Q ch c x s { s with memFlag := flag, accessible := access }
  | bring {s s' : Manager} {k : ℕ} {p : PageMetaPtr} : Settled s ch c →
      (ch s.current)[k]? = some p → s.pageFrame p ≠ k →
      swapPages B k (some (s.pageFrame p)) s = some s' → Work B Q ch c x s s'
  | load {s : Manager} {k : ℕ} {p : PageMetaPtr} : (ch s.current)[k]? = some p →
      Work B Q ch c x s (loadHeap p s)
  | fail {s s' : Manager} : Attempt B Q ch c x 0 s s' → Work B Q ch c x s s'

/-- Any amount of such work. -/
abbrev Works (B : Block) (Q : Prop) (ch : ℕ → List PageMetaPtr) (c : ℕ → ℕ) (x : ℕ) :
    Manager → Manager → Prop :=
  ReflTransGen (Work B Q ch c x)

/-! ## What the work keeps -/

theorem Attempt.steady (h : Attempt B Q ch c x r s s') :
    Steady s s' ∧ s'.pageFrame = s.pageFrame ∧ s'.frameTable = s.frameTable ∧
      s'.swapFile = s.swapFile := by
  obtain ⟨-, -, -, -, -, hreq, hstore⟩ := h
  have hst := request_steady hreq
  obtain ⟨heap, -, rfl⟩ := request_eq_some.mp hreq
  rcases hstore with hstore | ⟨-, rfl⟩
  · have hst' := storeHeap_steady hstore
    obtain ⟨free, -, rfl⟩ := storeHeap_eq_some.mp hstore
    exact ⟨hst.trans hst', rfl, rfl, rfl⟩
  · exact ⟨hst, rfl, rfl, rfl⟩

theorem Attempt.settled (h : Attempt B Q ch c x r s s') : Settled s' ch c := by
  obtain ⟨hst, hloc, htable, hfile⟩ := h.steady
  obtain ⟨hset, -⟩ := h
  exact hset.of_steady hst hloc htable hfile

theorem Release.settled (h : Release B Q ch c x s s') : Settled s' ch c := by
  obtain ⟨hset, -, -, -, -, hstore⟩ := h
  have hst := (release_steady _ x s).trans (storeHeap_steady hstore)
  obtain ⟨free, -, rfl⟩ := storeHeap_eq_some.mp hstore
  exact hset.of_steady hst rfl rfl rfl

/-- The work keeps the chains complete and moves none of the caller's pages away. -/
theorem Work.settled (hw : Work B Q ch c x s s') (h : Settled s ch c) :
    Settled s' ch c ∧ s'.current = s.current ∧ s'.tcbs = s.tcbs ∧ Stays ch s s' := by
  cases hw with
  | flags flag access =>
    refine ⟨h.of_steady ⟨rfl, fun _ ↦ rfl, fun _ ↦ rfl, rfl, rfl, rfl, rfl, rfl, rfl⟩
      rfl rfl rfl, rfl,
      rfl, fun _ _ _ hk ↦ hk⟩
  | bring _ hp hne hs =>
    have hkeep := (swapPages_keeps hs).1
    exact ⟨(h.bring hp hne hs).1, hkeep.current, hkeep.tcbs, (h.bring_stays hp hne hs).1⟩
  | load _ => exact ⟨h.of_steady (loadHeap_steady _ s) rfl rfl rfl, rfl, rfl, fun _ _ _ hk ↦ hk⟩
  | fail ha =>
    obtain ⟨hst, hloc, -, -⟩ := ha.steady
    refine ⟨ha.settled, hst.current, hst.tcbs, ?_⟩
    intro k p _ hk
    rwa [hloc]

theorem Works.settled (hw : Works B Q ch c x s s') (h : Settled s ch c) :
    Settled s' ch c ∧ s'.current = s.current ∧ s'.tcbs = s.tcbs ∧ Stays ch s s' := by
  induction hw with
  | refl => exact ⟨h, rfl, rfl, Stays.refl s⟩
  | tail _ hw ih =>
    obtain ⟨hset, hcur, htcbs, hstay⟩ := ih
    obtain ⟨hset', hcur', htcbs', hstay'⟩ := hw.settled hset
    exact ⟨hset', hcur'.trans hcur, htcbs'.trans htcbs, hstay.trans hstay' hcur⟩

/-! ## Bringing pages in -/

/-- What bringing pages in does: only locations change. -/
structure Brought (B : Block) (Q : Prop) (ch : ℕ → List PageMetaPtr) (c : ℕ → ℕ) (x : ℕ)
    (s s' : Manager) : Prop where
  works : Works B Q ch c x s s'
  settled : Settled s' ch c
  keeps : Keeps s s'
  stays : Stays ch s s'

theorem Settled.brought (h : Settled s ch c) : Brought B Q ch c x s s :=
  ⟨.refl, h, Keeps.refl s, Stays.refl s⟩

theorem Brought.trans (h₁ : Brought B Q ch c x s s₁) (h₂ : Brought B Q ch c x s₁ s') :
    Brought B Q ch c x s s' :=
  ⟨h₁.works.trans h₂.works, h₂.settled, h₁.keeps.trans h₂.keeps,
    h₁.stays.trans h₂.stays h₁.keeps.current⟩

theorem Settled.brought_one (h : Settled s ch c) (hp : (ch s.current)[k]? = some p)
    (hne : s.pageFrame p ≠ k) (hs : swapPages B k (some (s.pageFrame p)) s = some s') :
    Brought B Q ch c x s s' ∧ s'.pageFrame p = k := by
  obtain ⟨hstay, hin⟩ := h.bring_stays hp hne hs
  exact ⟨⟨.single (.bring h hp hne hs), (h.bring hp hne hs).1, (swapPages_keeps hs).1, hstay⟩, hin⟩

theorem bringLast_brought (h : Settled s ch c) (hne : ch s.current ≠ [])
    (hs : bringLast B s = some (p, s')) :
    Brought B Q ch c x s s' ∧ (ch s.current)[s.tcb.mallocFrame]? = some p ∧
      s'.pageFrame p = s.tcb.mallocFrame := by
  have hlen : s.tcb.mallocFrame < (ch s.current).length := by
    have hl : (ch s.current).length = s.tcb.mallocFrame + 1 := h.length _ hne
    omega
  obtain ⟨temp, htemp, hs⟩ := bringLast_eq_some.mp hs
  rcases hs with ⟨htid, rfl, rfl⟩ | ⟨htid, first, hfirst, hlast, hswap⟩
  · have hp := h.resident_own hlen htemp htid
    exact ⟨h.brought, hp, (h.pageFrame_iff hp).mpr htemp⟩
  · have hp := h.lastPage hfirst hlast
    have hloc : s.pageFrame p ≠ s.tcb.mallocFrame := by
      intro hin
      have htable := (h.pageFrame_iff hp).mp hin
      obtain rfl := Option.some.inj (htable.symm.trans htemp)
      exact htid (h.tid hp)
    obtain ⟨hb, hin⟩ := h.brought_one hp hloc hswap
    exact ⟨hb, hp, hin⟩

theorem bringPage_brought (h : Settled s ch c) (hp : (ch s.current)[k]? = some p)
    (hs : bringPage B k p s = some s') : Brought B Q ch c x s s' ∧ s'.pageFrame p = k := by
  rcases bringPage_eq_some.mp hs with ⟨hk, rfl⟩ | ⟨hk, hswap⟩
  · exact ⟨h.brought, hk⟩
  · exact h.brought_one hp hk hswap

/-- The loop over the pages of a chunk brings in those from frame `i` on. -/
theorem bringChunk_brought (h : Settled s ch c) (hcur : (ch s.current)[k]? = some cur)
    (hin : s.pageFrame cur = k) (hik : i ≤ k)
    (hs : bringChunk B cur fuel i ((ch s.current)[i]?) s = some s') :
    Brought B Q ch c x s s' ∧ ∀ j p, i ≤ j → j ≤ k → (ch s.current)[j]? = some p →
      s'.pageFrame p = j := by
  induction fuel generalizing i s with
  | zero => cases hs
  | succ fuel ih =>
    rcases bringChunk_eq_some.mp hs with ⟨hle, rfl⟩ | ⟨hlt, p, s₁, hp, hswap, hrest⟩
    · refine ⟨h.brought, ?_⟩
      intro j q hij hjk hq
      obtain rfl : j = k := by omega
      obtain rfl := Option.some.inj (hcur.symm.trans hq)
      exact hin
    · rw [hin] at hlt
      have hik' : i < (ch s.current).length := Settled.lt_length hp
      obtain ⟨hb, hpi⟩ : Brought B Q ch c x s s₁ ∧ s₁.pageFrame p = i := by
        rcases hswap with ⟨htable, rfl⟩ | ⟨htable, q, hq, hswap⟩
        · rw [hp] at htable
          exact ⟨h.brought, (h.pageFrame_iff hp).mpr htable⟩
        · obtain ⟨q', hq', hloc⟩ := h.exists_resident hik'
          obtain rfl := Option.some.inj (hq.symm.trans hq')
          rw [hloc] at hswap
          refine h.brought_one hp ?_ hswap
          intro hpi
          rw [hp] at htable
          exact htable ((h.pageFrame_iff hp).mp hpi)
      have hcur₁ := hb.keeps.current
      have hnext : s₁.next p = (ch s₁.current)[i + 1]? := by
        rw [hb.keeps.next, hcur₁, h.next_eq hp]
      rw [hnext] at hrest
      obtain ⟨hb', hall⟩ :=
        ih hb.settled (by rwa [hcur₁]) (hb.stays k cur hcur hin) (by omega) hrest
      refine ⟨hb.trans hb', ?_⟩
      intro j q hij hjk hq
      rcases Nat.eq_or_lt_of_le hij with rfl | hlt'
      · obtain rfl := Option.some.inj (hp.symm.trans hq)
        exact hb'.stays i p (by rwa [hcur₁]) hpi
      · exact hall j q hlt' hjk (by rwa [hcur₁])

/-- The chunk that ends with the page `cur` is brought in, if its front is in its frame. -/
theorem bringFront_brought (h : Settled s ch c) (hcur : (ch s.current)[k]? = some cur)
    (hin : s.pageFrame cur = k) (hs : bringFront B cur s = some s') :
    Brought B Q ch c x s s' ∧
      ((k < c s.current → ∀ front, (ch s.current)[0]? = some front → s.pageFrame front = 0) →
        HeapHere s' ch c k) := by
  have hk := Settled.lt_length hcur
  have hfront := h.front _ k cur hcur
  rw [bringFront] at hs
  by_cases hkc : k < c s.current
  · obtain ⟨front, hf⟩ : ∃ front, (ch s.current)[0]? = some front :=
      ⟨_, List.getElem?_eq_getElem (by omega)⟩
    rw [if_pos hkc, hf] at hfront
    rw [hfront] at hs
    dsimp only at hs
    by_cases hhome : s.pageFrame front = 0
    · rw [hhome, ← hf] at hs
      obtain ⟨hb, hall⟩ := bringChunk_brought (Q := Q) (x := x) h hcur hin (Nat.zero_le k) hs
      refine ⟨hb, fun _ j p _ hjk hp ↦ ?_⟩
      rw [hb.keeps.current] at hp
      exact hall j p (Nat.zero_le j) hjk hp
    · -- the loop has no round
      have haway := h.away _ 0 front hf hhome s.current
      rcases bringChunk_eq_some.mp hs with ⟨-, rfl⟩ | ⟨hlt, -⟩
      · exact ⟨h.brought, fun hhere ↦ absurd (hhere hkc front hf) hhome⟩
      · omega
  · rw [if_neg hkc] at hfront
    rw [hfront] at hs
    obtain rfl := Option.some.inj hs
    refine ⟨h.brought, fun _ j p hj hjk hp ↦ ?_⟩
    rw [base, if_neg hkc] at hj
    obtain rfl : j = k := by omega
    obtain rfl := Option.some.inj (hcur.symm.trans hp)
    exact hin

/-- The chunk of the caller that the page `p` is the end of is asked to have its front in
its frame. -/
def ChunkHere (s : Manager) (ch : ℕ → List PageMetaPtr) (c : ℕ → ℕ) (k : ℕ) : Prop :=
  k + 1 = c s.current → ∀ front, (ch s.current)[0]? = some front → s.pageFrame front = 0

theorem ChunkHere.mono (h : ChunkHere s ch c k) (hstay : Stays ch s s')
    (hcur : s'.current = s.current) : ChunkHere s' ch c k := by
  intro hk front hf
  rw [hcur] at hk hf
  exact hstay 0 front hf (h hk front hf)

/-! ## Searching -/

/-- How a search ends. -/
inductive Found (B : Block) (Q : Prop) (ch : ℕ → List PageMetaPtr) (c : ℕ → ℕ) (x r : ℕ)
    (s s' : Manager) : Prop where
  | nothing : r = 0 → Works B Q ch c x s s' → Found B Q ch c x r s s'
  | page {s₁ s₂ : Manager} : r ≠ 0 → Works B Q ch c x s s₁ → Attempt B Q ch c x r s₁ s₂ →
      s₂.leave = s' → Found B Q ch c x r s s'

theorem Found.of_works (hw : Works B Q ch c x s s₁) (hf : Found B Q ch c x r s₁ s') :
    Found B Q ch c x r s s' := by
  cases hf with
  | nothing hr hw' => exact .nothing hr (hw.trans hw')
  | page hr hw' ha hs => exact .page hr (hw.trans hw') ha hs

/-- The request on the heap of the caller's `k`-th page, when that is in its frame. -/
theorem tryHeap_works (h : Settled s ch c) (hp : (ch s.current)[k]? = some p)
    (hin : s.pageFrame p = k) (hQ : Q → ChunkHere s ch c k)
    (hs : tryHeap B x p s = some (r, s')) :
    ∃ s₁, Brought B Q ch c x s s₁ ∧ (Q → c s.current ≤ k + 1 → HeapHere s₁ ch c k) ∧
      request p x 0 0 (loadHeap p s₁) = some (r, s') := by
  obtain ⟨s₁, hfront, hreq⟩ := tryHeap_eq_some.mp hs
  obtain ⟨hb, hhere⟩ := bringFront_brought (Q := Q) (x := x) h hp hin hfront
  refine ⟨s₁, hb, fun hq hle ↦ hhere fun hlt ↦ hQ hq (by omega), hreq⟩

theorem searchPages_works (h : Settled s ch c)
    (hQ : Q → ∀ j p, (ch s.current)[j]? = some p → toI32 x ≤ (s.metas p).freePageMem →
      ChunkHere s ch c j)
    (hs : searchPages B x fuel k ((ch s.current)[k]?) s = some (r, s')) :
    Found B Q ch c x r s s' := by
  induction fuel generalizing k s with
  | zero => cases hs
  | succ fuel ih =>
    cases hp : (ch s.current)[k]? with
    | none =>
      rw [hp] at hs
      obtain ⟨rfl, rfl⟩ := Prod.mk.inj (Option.some.inj hs)
      exact .nothing rfl .refl
    | some p =>
      rw [hp] at hs
      have hnext : ∀ s₁, Steady s s₁ → s₁.next p = (ch s₁.current)[k + 1]? := by
        intro s₁ hst
        rw [hst.next, hst.current, h.next_eq hp]
      rcases searchPages_eq_some.mp hs with ⟨hlt, hrest⟩ | ⟨hle, s₁, r₁, s₂, hbring, htry, hend⟩
      · rw [hnext s (Steady.refl s)] at hrest
        exact ih h hQ hrest
      · obtain ⟨hb, hin⟩ := bringPage_brought (Q := Q) (x := x) h hp hbring
        have hcur := hb.keeps.current
        have hp₁ : (ch s₁.current)[k]? = some p := by rwa [hcur]
        obtain ⟨s₃, hb', hhere, hreq⟩ := tryHeap_works (Q := Q) hb.settled hp₁ hin
          (fun hq ↦ (hQ hq k p hp hle).mono hb.stays hcur) htry
        have hbb := hb.trans hb'
        have hcur₃ : (loadHeap p s₃).current = s.current := hbb.keeps.current
        have hload : Works B Q ch c x s (loadHeap p s₃) :=
          hbb.works.tail (.load (k := k) (by rwa [hbb.keeps.current]))
        have hset := (hload.settled h).1
        have hattempt : ∀ s₄, storeHeap p s₂ = some s₄ ∨ r₁ = 0 ∧ s₂ = s₄ →
            Attempt B Q ch c x r₁ (loadHeap p s₃) s₄ := by
          intro s₄ hstore
          refine .intro hset (loaded_loadHeap p s₃) (k := k) (by rwa [hcur₃]) (.inl rfl) ?_ hreq
            hstore
          intro hq hck
          rw [hcur₃] at hck
          exact hhere hq (by rwa [hcur])
        rcases hend with ⟨hr, rfl, s₄, hstore, rfl⟩ | ⟨rfl, hrest⟩
        · exact .page hr hload (hattempt s₄ (.inl hstore)) rfl
        · have ha := hattempt s₂ (.inr ⟨rfl, rfl⟩)
          have hw : Works B Q ch c x s s₂ := hload.tail (.fail ha)
          obtain ⟨hset₂, hcur₂, -, hstay₂⟩ := hw.settled h
          have hst : Steady s s₂ :=
            (bringPage_steady hbring).trans (tryHeap_steady htry)
          rw [hnext s₂ hst] at hrest
          refine (ih hset₂ (fun hq j q hq' hfree ↦ ?_) hrest).of_works hw
          have hmetas : s₂.metas = s.metas := by
            obtain ⟨heap, -, rfl⟩ := request_eq_some.mp hreq
            exact hbb.keeps.metas
          rw [hcur₂] at hq'
          rw [hmetas] at hfree
          exact (hQ hq j q hq' hfree).mono hstay₂ hcur₂

end MyPthread.Paging
