import MyPthread.Paging.First

/-!
# The size of chunks

How many pages a request of more than a page gets.  The header is added to the size in 32 bits:
the count is right as long as the sum fits.
-/

namespace MyPthread.Paging

open MyPthread.Lib MyPthread.Heap Function

variable {B : Block} {s s' s₁ : Manager} {i k n m x r : ℕ} {p q front last : PageMetaPtr}
  {o o' : Option PageMetaPtr} {P : Call → Manager → Prop}

/-! ## The number of pages -/

theorem two_le_numOfPages (hx : x + 32 < 2 ^ 32) (hlarge : 4064 < x) : 2 ≤ numOfPages x := by
  rw [numOfPages, Nat.mod_eq_of_lt hx]
  split_ifs <;> omega

theorem numOfPages_bounds (hx : x + 32 < 2 ^ 32) :
    4096 * (numOfPages x - 1) < x + 32 ∧ x + 32 ≤ 4096 * numOfPages x := by
  rw [numOfPages, Nat.mod_eq_of_lt hx]
  split_ifs <;> omega

/-- When the sum wraps around, a page at most is counted. -/
theorem numOfPages_le_one (hx : x < 2 ^ 32) (hwrap : 2 ^ 32 ≤ x + 32) : numOfPages x ≤ 1 := by
  have hmod : (x + 32) % 2 ^ 32 = x + 32 - 2 ^ 32 := by omega
  rw [numOfPages, hmod]
  split_ifs <;> omega

/-! ## The last page of a chunk -/

theorem chunkRest_ne_none (hs : chunkRest front n i k (some p) s = some (o', s')) : o' ≠ none := by
  induction k generalizing i p s with
  | zero =>
    obtain ⟨rfl, -⟩ := Prod.mk.inj (Option.some.inj hs)
    exact Option.some_ne_none p
  | succ k ih =>
    obtain ⟨prev, -, hs⟩ := chunkRest_eq_some.mp hs
    exact ih hs

theorem chunkRest_assigned (hk : 1 ≤ k) (hs : chunkRest front n i k o s = some (o', s')) :
    o' ≠ none := by
  obtain ⟨k, rfl⟩ := Nat.exists_eq_add_of_le' hk
  obtain ⟨prev, -, hs⟩ := chunkRest_eq_some.mp hs
  exact chunkRest_ne_none hs

/-- The pages that a request makes for a chunk, and the last of them. -/
def newChunk (B : Block) (n : ℕ) (s : Manager) : Option (Option PageMetaPtr × Manager) :=
  if s.tcb.firstPage = none then chunkFirst B n s else chunkLater B n s

theorem newChunk_assigned (hn : 2 ≤ n) (hs : newChunk B n s = some (o, s')) : o ≠ none := by
  unfold newChunk at hs
  split_ifs at hs
  · obtain ⟨s₁, s₂, -, hrest, -⟩ := chunkFirst_eq_some.mp hs
    exact chunkRest_assigned (by omega) hrest
  · obtain ⟨s₁, prev, s₂, -, -, hrest, -⟩ := chunkLater_eq_some.mp hs
    exact chunkRest_assigned (by omega) hrest

/-! ## The frames of a chunk -/

/-- Each of the `k` frames from `i` on holds a page of the thread `tid` made at `m` or later. -/
def Places (m tid i k : ℕ) (s : Manager) : Prop :=
  ∀ j, i ≤ j → j < i + k → ∃ p, s.frameTable j = some p ∧ s.pageFrame p = j ∧
    (s.metas p).tid = tid ∧ m ≤ p ∧ p < s.osMemPtr

theorem Places.added (h : Places m s.current i k s) (hm : m ≤ s.osMemPtr)
    (ha : Added (i + k) s s') : Places m s'.current i (k + 1) s' := by
  intro j hij hjk
  by_cases hj : j = i + k
  · refine ⟨s.osMemPtr, ?_, ?_, ?_, hm, ha.osMemPtr⟩
    · rw [ha.frameTable, hj, update_self]
    · rw [ha.pageFrame, update_self, hj]
    · rw [ha.tid, ha.current]
  · obtain ⟨p, hp, hloc, htid, hmp, hlt⟩ := h j hij (by omega)
    refine ⟨p, ?_, ?_, ?_, hmp, lt_trans hlt ha.osMemPtr⟩
    · rw [ha.frameTable, update_of_ne hj, hp]
    · rw [ha.pageFrame, update_of_ne (ne_of_lt hlt), hloc]
    · rw [ha.metas p (ne_of_lt hlt), htid, ha.current]

theorem chunkRest_places (h : Places m s.current i k s) (hm : m ≤ s.osMemPtr) {l : ℕ}
    (hs : chunkRest front n (i + k) l o s = some (o', s')) : Places m s.current i (k + l) s' := by
  induction l generalizing k o s with
  | zero =>
    obtain ⟨-, rfl⟩ := Prod.mk.inj (Option.some.inj hs)
    exact h
  | succ l ih =>
    obtain ⟨prev, -, hs⟩ := chunkRest_eq_some.mp hs
    have ha := chainAfter_added (s := s) (i := i + k) (fun _ ↦ chunkMeta s.current n front) prev
      fun _ _ ↦ rfl
    have hplaces := ih (h.added hm ha) (le_trans hm ha.osMemPtr.le) hs
    rw [ha.current] at hplaces
    rwa [show k + (l + 1) = k + 1 + l by omega]

theorem places_zero (m tid i : ℕ) (s : Manager) : Places m tid i 0 s := by
  intro j hij hji
  omega

/-- The frame with which the chunk begins. -/
def chunkStart (s : Manager) : ℕ := if s.tcb.firstPage = none then 0 else s.tcb.mallocFrame + 1

theorem evictRange_keeps (hs : evictRange B i n s = some s') : Keeps s s' := by
  induction n generalizing i s with
  | zero =>
    obtain rfl := Option.some.inj hs
    exact .refl s
  | succ n ih =>
    obtain ⟨s₁, hs₁, hs⟩ := Option.bind_eq_some_iff.mp hs
    exact (swapPages_keeps hs₁).1.trans (ih hs)

/-- A chunk is in its frames, and its front in the first of them. -/
theorem newChunk_places (hn : 1 ≤ n) (hs : newChunk B n s = some (some last, s')) :
    Places s.osMemPtr s.current (chunkStart s) n s' ∧
      ∃ front, (s'.metas last).frontMeta = some front ∧ s'.pageFrame front = chunkStart s := by
  obtain ⟨k, rfl⟩ := Nat.exists_eq_add_of_le' hn
  unfold newChunk at hs
  rw [chunkStart]
  split_ifs at hs ⊢ with hfirst
  · refine ⟨?_, chunkFirst_front hs⟩
    obtain ⟨s₁, s₂, hevict, hrest, rfl⟩ := chunkFirst_eq_some.mp hs
    have hk := evictRange_keeps hevict
    have ha := chainFirst_added (s := s₁) (i := 0) (chunkMeta s₁.current (k + 1)) fun _ _ ↦ rfl
    have hone := (places_zero s₁.osMemPtr s₁.current 0 s₁).added (le_refl _) ha
    have hall := chunkRest_places (k := 1) hone ha.osMemPtr.le hrest
    rw [ha.current, hk.current, hk.osMemPtr, Nat.add_sub_cancel, Nat.add_comm 1] at hall
    exact hall
  · refine ⟨?_, chunkLater_front hs⟩
    obtain ⟨s₁, prev, s₂, hevict, hprev, hrest, rfl⟩ := chunkLater_eq_some.mp hs
    have hk := evictRange_keeps hevict
    have ha := chainAfter_added (s := s₁) (i := s.tcb.mallocFrame + 1)
      (chunkMeta s₁.current (k + 1)) prev fun _ _ ↦ rfl
    have hone := (places_zero s₁.osMemPtr s₁.current (s.tcb.mallocFrame + 1) s₁).added
      (le_refl _) ha
    generalize chainAfter (s.tcb.mallocFrame + 1) (chunkMeta s₁.current (k + 1)) prev s₁ = s₃ at *
    have hall :=
      chunkRest_places (k := 1) (s := s₃.setFirstPage s₁.osMemPtr) hone ha.osMemPtr.le hrest
    have hcur : (s₃.setFirstPage s₁.osMemPtr).current = s.current := ha.current.trans hk.current
    rw [hcur, hk.osMemPtr, Nat.add_sub_cancel, Nat.add_comm 1] at hall
    exact hall

/-! ## Requests -/

/-- The range from `r` is in `n` frames from `i` on, which hold new pages of the caller, behind a
header that counts at least `x` bytes. -/
structure Heads (B : Block) (s s' : Manager) (i n x r : ℕ) : Prop where
  places : ∀ j, i ≤ j → j < i + n → ∃ p, s'.frameTable j = some p ∧ s'.pageFrame p = j ∧
    (s'.metas p).tid = s.current ∧ p ∉ s.made
  frames : Range r x ⊆ B.frames i n
  size : (x : ℤ) ≤ (entryAt s'.heap.mem (r - sizeofMementry)).size

/-- The claim about a request for `x` bytes. -/
structure Sized (B : Block) (x : ℕ) (s : Manager) : Prop where
  two_le : 2 ≤ numOfPages x
  /-- The pages are enough for the header and the bytes, and one less would not be. -/
  exact : 4096 * (numOfPages x - 1) < x + 32 ∧ x + 32 ≤ 4096 * numOfPages x
  /-- `new_page_meta` is set when it is read. -/
  assigned : ∀ o s', newChunk B (numOfPages x) s.enter = some (o, s') → o ≠ none
  /-- More than 1596 pages are refused: the request returns `NULL`. -/
  many : 1596 < numOfPages x → ∃ s', myallocate B x s = some (0, s')
  result : ∀ r s', myallocate B x s = some (r, s') → r ≠ 0 →
    Heads B s s' (chunkStart s) (numOfPages x) x r

/-- What a request of several pages heads when it is served. -/
theorem allocateChunk_heads (h : Sound B s) (hx : x < 2 ^ 32) (htwo : 2 ≤ numOfPages x)
    (hs : allocateChunk B x s = some (r, s')) (hr : r ≠ 0) :
    Heads B s s' (chunkStart s) (numOfPages x) x r := by
  have hle := le_numOfPages hx htwo
  generalize hn : numOfPages x = n at *
  obtain ⟨-, rfl, -⟩ | ⟨hmany, last, s₁, front, s₂, s₃, hchunk, hfront, hreq, hstore, rfl⟩ :=
    allocateChunk_eq_some.mp hs
  · exact absurd rfl hr
  rw [hn] at hmany hchunk hreq
  have hnew : newChunk B n s = some (some last, s₁) := by
    unfold newChunk
    obtain ⟨hnone, hchunk⟩ | ⟨hsome, hchunk⟩ := hchunk
    · rw [if_pos hnone, hchunk]
    · rw [if_neg hsome, hchunk]
  obtain ⟨hplaces, front', hfront', hloc⟩ := newChunk_places (by omega) hnew
  obtain rfl := Option.some.inj (hfront.symm.trans hfront')
  obtain ⟨-, hfits⟩ := le_of_not_tooMany hmany
  have hstart : chunkStart s + n ≤ 1597 := by
    rw [chunkStart]
    split_ifs at hfits ⊢ <;> omega
  obtain ⟨t₁, t₂, hreq', hstore', hrep, -, -⟩ :=
    exists_freshHeap (B := B) (p := last) (s := s₁) (x := x) hstart (by omega)
  rw [hloc, show (4096 * (n : ℤ)) = ((4096 * n : ℕ) : ℤ) by push_cast; rfl, hreq'] at hreq
  obtain ⟨rfl, rfl⟩ := Prod.mk.inj (Option.some.inj hreq)
  obtain rfl := Option.some.inj (hstore'.symm.trans hstore)
  have hadd := frame_add B (chunkStart s) n
  obtain ⟨b, hb, hbx, halloc, -⟩ := (Layout.wf_fresh (show B.frame (chunkStart s) + 32 ≤
    B.frame (chunkStart s + n) by omega)).malloc_allocated hr
  have hmem := ((halloc b).mpr (.inr rfl)).1
  obtain ⟨hlo, hhi⟩ := hrep.wf.tiles.bounds hmem
  rw [← firstLayout] at hb
  rw [Lib.Block.stop] at hhi
  refine ⟨fun j hij hj ↦ ?_, fun a ha ↦ ?_, ?_⟩
  · have hst : Steady s₁ t₂.leave :=
      (resetHeap_steady last s₁).trans ((request_steady hreq').trans (storeHeap_steady hstore'))
        |>.trans (leave_steady t₂)
    obtain ⟨p, hp, hploc, htid, hmp, -⟩ := hplaces j hij hj
    have hfields : t₂.leave.frameTable = s₁.frameTable ∧ t₂.leave.pageFrame = s₁.pageFrame := by
      obtain ⟨heap, -, rfl⟩ := request_eq_some.mp hreq'
      obtain ⟨free, -, rfl⟩ := storeHeap_eq_some.mp hstore'
      exact ⟨rfl, rfl⟩
    refine ⟨p, ?_, ?_, ?_, fun hmade ↦ ?_⟩
    · rw [hfields.1, hp]
    · rw [hfields.2, hploc]
    · rw [hst.tid, htid]
    · exact absurd (h.fresh p hmade) (not_lt.mpr hmp)
  · rw [mem_Range] at ha
    rw [Block.frames, mem_Range]
    constructor <;> omega
  · obtain ⟨hsize, -⟩ := hrep.seg.entry_of_mem hmem
    have haddr : (firstLayout B (chunkStart s) n x).1 - sizeofMementry = b.addr := by
      rw [← hb]
      exact Nat.add_sub_cancel _ _
    show (x : ℤ) ≤
      (entryAt t₂.heap.mem ((firstLayout B (chunkStart s) n x).1 - sizeofMementry)).size
    rw [haddr, hsize]
    exact_mod_cast hbx

/-- The size of a chunk is right when the sum with the header does not wrap around. -/
theorem sized (h : Sound B s) (hx : x + 32 < 2 ^ 32) (hlarge : 4064 < x) : Sized B x s := by
  have htwo := two_le_numOfPages hx hlarge
  have hchunk : myallocate B x s = allocateChunk B x s.enter := if_pos hlarge
  refine ⟨htwo, numOfPages_bounds hx, fun o s' ↦ newChunk_assigned htwo, fun hmany ↦ ?_,
    fun r s' hs hr ↦ ?_⟩
  · have htoo : s.enter.TooMany (numOfPages x) := by
      rw [Manager.TooMany]
      split_ifs <;> omega
    exact ⟨s.enter, hchunk.trans (allocateChunk_eq_some.mpr (.inl ⟨htoo, rfl, rfl⟩))⟩
  · rw [hchunk] at hs
    have hsd := h.of_steady (enter_steady s) rfl rfl fun _ he ↦ .inl he
    have hh := allocateChunk_heads hsd (by omega) htwo hs hr
    exact ⟨hh.places, hh.frames, hh.size⟩

/-- A request of more than a page is sized exactly just when its size and the header together are
less than 2^32 bytes. -/
theorem sized_iff (h : Reachable B P s) (hx : x < 2 ^ 32) (hlarge : 4064 < x) :
    Sized B x s ↔ x + 32 < 2 ^ 32 := by
  constructor
  · intro hs
    by_contra hwrap
    have := numOfPages_le_one hx (not_lt.mp hwrap)
    have := hs.two_le
    omega
  · exact fun hfits ↦ sized h.sound.1 hfits hlarge

theorem sized_iff_blank : Sized lowBlock 5000 (blank.start lowBlock) ↔ 5000 + 32 < 2 ^ 32 :=
  sized_iff (P := fun _ _ ↦ True) (.start blank_zeroed) (by decide) (by decide)

/-- No page at all is counted for 2^32 - 32 bytes. -/
theorem not_sized : ¬∀ (B : Block) (s : Manager) (x : ℕ), Reachable B (fun _ _ ↦ True) s →
    x < 2 ^ 32 → 4064 < x → Sized B x s := by
  intro hall
  have hs := hall lowBlock _ 4294967264 (.start blank_zeroed) (by decide) (by decide)
  exact absurd hs.two_le (by decide)

end MyPthread.Paging
