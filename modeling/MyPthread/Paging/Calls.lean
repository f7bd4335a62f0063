import MyPthread.Paging.Moves

/-!
# How the calls return

For each function of the manager, what it did when it returned: the functions it called,
in which states, and with which results.  What is proved of the calls starts from these
equations, and no proof looks into a function twice.
-/

namespace MyPthread.Paging

open MyPthread.Lib MyPthread.Heap Function

variable {B : Block} {s s' : Manager} {i x r k fuel n : ℕ} {p cur : PageMetaPtr}
  {o : Option PageMetaPtr}

/-! ## Heaps -/

theorem storeHeap_eq_some : storeHeap p s = some s' ↔
    ∃ free, freeMemCount s.heap.mem heapFuel 0 s.heap.head = some free ∧
      { s.note .store p with
        metas := update s.metas p { s.metas p with
          freePageMem := free, head := s.heap.head, middle := s.heap.middle } } = s' := by
  simp only [storeHeap, Option.bind_eq_bind, Option.bind_eq_some_iff, Option.some_inj]
  rfl

theorem request_eq_some {memptr : ℕ} {size : ℤ} : request p x memptr size s = some (r, s') ↔
    ∃ heap, mymalloc heapFuel x memptr size s.heap = some (r, heap) ∧
      { s.note .mymalloc p with heap } = s' := by
  simp only [request, Option.bind_eq_bind, Option.bind_eq_some_iff, Option.some_inj, Prod.exists,
    Prod.mk.injEq]
  constructor
  · rintro ⟨r', heap, hm, rfl, hs⟩
    exact ⟨heap, hm, hs⟩
  · rintro ⟨heap, hm, hs⟩
    exact ⟨r, heap, hm, rfl, hs⟩

/-! ## Bringing pages in -/

theorem bringLast_eq_some : bringLast B s = some (p, s') ↔
    ∃ temp, s.frameTable s.tcb.mallocFrame = some temp ∧
      ((s.metas temp).tid = s.current ∧ temp = p ∧ s = s' ∨
        (s.metas temp).tid ≠ s.current ∧ ∃ first, s.tcb.firstPage = some first ∧
          lastPage s.next (s.pageCounter + 1) first = some p ∧
          swapPages B s.tcb.mallocFrame (some (s.pageFrame p)) s = some s') := by
  simp only [bringLast, Option.bind_eq_bind, Option.bind_eq_some_iff]
  refine exists_congr fun temp ↦ and_congr_right fun _ ↦ ?_
  split_ifs with h
  · simp [h]
  · simp [h, Option.bind_eq_some_iff]

theorem bringChunk_eq_some : bringChunk B cur (fuel + 1) i o s = some s' ↔
    s.pageFrame cur ≤ i ∧ s = s' ∨
    i < s.pageFrame cur ∧ ∃ p s₁, o = some p ∧
      (s.frameTable i = o ∧ s = s₁ ∨ s.frameTable i ≠ o ∧ ∃ q, s.frameTable i = some q ∧
        swapPages B (s.pageFrame q) (some (s.pageFrame p)) s = some s₁) ∧
      bringChunk B cur fuel (i + 1) (s₁.next p) s₁ = some s' := by
  rw [bringChunk]
  split_ifs with h h'
  · subst h'
    simp [h, Option.bind_eq_some_iff]
  · simp only [Option.bind_eq_bind, Option.bind_eq_some_iff, h, h', true_and, false_and, false_or,
      not_le.mpr h, ne_eq, not_false_eq_true]
    constructor
    · rintro ⟨q, hq, p, hp, s₁, hs₁, p', hp', hs'⟩
      obtain rfl := Option.some.inj (hp.symm.trans hp')
      exact ⟨p, s₁, hp, ⟨q, hq, hs₁⟩, hs'⟩
    · rintro ⟨p, s₁, hp, ⟨q, hq, hs₁⟩, hs'⟩
      exact ⟨q, hq, p, hp, s₁, hs₁, p, hp, hs'⟩
  · simp [h, not_lt.mp h]

theorem bringPage_eq_some : bringPage B k p s = some s' ↔
    s.pageFrame p = k ∧ s = s' ∨
      s.pageFrame p ≠ k ∧ swapPages B k (some (s.pageFrame p)) s = some s' := by
  rw [bringPage]
  split_ifs with h <;> simp [h]

/-! ## Requests of up to a page -/

theorem tryHeap_eq_some : tryHeap B x p s = some (r, s') ↔
    ∃ s₁, bringFront B p s = some s₁ ∧ request p x 0 0 (loadHeap p s₁) = some (r, s') := by
  simp only [tryHeap, Option.bind_eq_bind, Option.bind_eq_some_iff]

theorem searchPages_eq_some : searchPages B x (fuel + 1) k (some p) s = some (r, s') ↔
    (s.metas p).freePageMem < toI32 x ∧
      searchPages B x fuel (k + 1) (s.next p) s = some (r, s') ∨
    toI32 x ≤ (s.metas p).freePageMem ∧ ∃ s₁ r₁ s₂, bringPage B k p s = some s₁ ∧
      tryHeap B x p s₁ = some (r₁, s₂) ∧
      (r₁ ≠ 0 ∧ r₁ = r ∧ (∃ s₃, storeHeap p s₂ = some s₃ ∧ s₃.leave = s') ∨
        r₁ = 0 ∧ searchPages B x fuel (k + 1) (s₂.next p) s₂ = some (r, s')) := by
  rw [searchPages]
  split_ifs with h
  · simp only [Option.bind_eq_bind, Option.bind_eq_some_iff, Prod.exists, h, not_lt.mpr h,
      false_and, false_or, true_and, ← exists_and_left]
    refine exists_congr fun s₁ ↦ exists_congr fun r₁ ↦ exists_congr fun s₂ ↦ ?_
    refine and_congr_right fun _ ↦ and_congr_right fun _ ↦ ?_
    split_ifs with hr
    · simp [hr, Option.bind_eq_some_iff, and_left_comm]
    · simp [not_not.mp hr]
  · simp [h, not_le.mp h]

theorem tryPages_eq_some : tryPages B x cur s = some (r, s') ↔
    ∃ r₁ s₁ s₂, request cur x (B.frame s.tcb.mallocFrame) 4096 s = some (r₁, s₁) ∧
      storeHeap cur s₁ = some s₂ ∧
      (r₁ ≠ 0 ∧ r₁ = r ∧ s₂.leave = s' ∨
        r₁ = 0 ∧ searchPages B x (s₂.pageCounter + 1) 0 s₂.tcb.firstPage s₂ = some (r, s')) := by
  simp only [tryPages, Option.bind_eq_bind, Option.bind_eq_some_iff, Prod.exists, ← exists_and_left]
  refine exists_congr fun r₁ ↦ exists_congr fun s₁ ↦ exists_congr fun s₂ ↦ ?_
  refine and_congr_right fun _ ↦ and_congr_right fun _ ↦ ?_
  split_ifs with hr
  · simp [hr]
  · simp [not_not.mp hr]

/-- The page a thread begins with. -/
def firstInit (tid : ℕ) (_ : PageMetaPtr) (m : PageMeta) : PageMeta :=
  { m with tid, numPages := 1, frontMeta := none, head := 0, middle := 0 }

/-- A page after those a thread has. -/
def nextInit (tid : ℕ) (_ : PageMetaPtr) (m : PageMeta) : PageMeta :=
  { m with tid, numPages := 1, head := 0, middle := 0 }

theorem newFirst_eq_some : newFirst B s = some (p, s') ↔ ∃ s₁, swapPages B 0 none s = some s₁ ∧
    s₁.osMemPtr = p ∧ chainFirst 0 (firstInit s₁.current) s₁ = s' := by
  simp only [newFirst, Option.bind_eq_bind, Option.bind_eq_some_iff]
  refine exists_congr fun s₁ ↦ and_congr_right fun _ ↦ ?_
  rw [Option.pure_def, Option.some_inj, Prod.mk.injEq]
  rfl

theorem newPage_eq_some : newPage B s = some (p, s') ↔ ∃ s₁ prev,
    swapPages B (s.tcb.mallocFrame + 1) none (s.setMallocFrame (s.tcb.mallocFrame + 1)) =
      some s₁ ∧
    s₁.frameTable s.tcb.mallocFrame = some prev ∧ s₁.osMemPtr = p ∧
      chainAfter (s.tcb.mallocFrame + 1) (nextInit s₁.current) prev s₁ = s' := by
  simp only [newPage, Option.bind_eq_bind, Option.bind_eq_some_iff, ← exists_and_left]
  refine exists_congr fun s₁ ↦ exists_congr fun prev ↦ and_congr_right fun _ ↦ ?_
  rw [Option.pure_def, Option.some_inj, Prod.mk.injEq, newMeta_eq, Nat.add_sub_cancel]
  dsimp only [Manager.setFrame]
  rw [update_of_ne (Nat.ne_of_lt (Nat.lt_succ_self _))]
  refine and_congr_right fun _ ↦ and_congr_right fun _ ↦ ?_
  rw [chainAfter_eq]
  rfl

theorem currentPage_eq_some {cur : Option PageMetaPtr} : currentPage B s = some (cur, s') ↔
    (s.tcb.firstPage ≠ none ∧ ∃ last s₁ s₂, bringLast B s = some (last, s₁) ∧
      bringFront B last s₁ = some s₂ ∧ some last = cur ∧ loadHeap last s₂ = s') ∨
    (s.tcb.firstPage = none ∧ s.pageCounter < 5692 ∧ ∃ new s₁, newFirst B s = some (new, s₁) ∧
      some new = cur ∧ resetHeap new s₁ = s') ∨
    (s.tcb.firstPage = none ∧ 5692 ≤ s.pageCounter ∧ cur = none ∧ s = s') := by
  rw [currentPage]
  cases s.tcb.firstPage with
  | some first =>
    simp only [Option.bind_eq_bind, Option.bind_eq_some_iff, Prod.exists, Option.pure_def,
      Option.some_inj, Prod.mk.injEq, ← exists_and_left]
    simp
  | none =>
    dsimp only
    split_ifs with h
    · simp [h, Option.bind_eq_some_iff, Prod.exists]
    · simp [h, not_lt.mp h, eq_comm]

theorem allocateNew_eq_some : allocateNew B x s = some (r, s') ↔
    (¬(s.pageCounter < 5692 ∧ s.tcb.mallocFrame < 1596) ∧ r = 0 ∧ s = s') ∨
    ((s.pageCounter < 5692 ∧ s.tcb.mallocFrame < 1596) ∧ ∃ cur s₁ s₂ s₃,
      newPage B s = some (cur, s₁) ∧
      request cur x (B.frame s₁.tcb.mallocFrame) 4096 (resetHeap cur s₁) = some (r, s₂) ∧
      storeHeap cur s₂ = some s₃ ∧ s₃.leave = s') := by
  rw [allocateNew]
  by_cases h : s.pageCounter < 5692 ∧ s.tcb.mallocFrame < 1596
  · rw [if_neg (not_not.mpr h)]
    simp only [Option.bind_eq_bind, Option.bind_eq_some_iff, Prod.exists, Option.pure_def,
      Option.some_inj, Prod.mk.injEq, h, not_true, false_and, false_or, true_and]
    constructor
    · rintro ⟨cur, s₁, hnew, r', s₂, hreq, s₃, hstore, rfl, hs⟩
      exact ⟨cur, s₁, s₂, s₃, hnew, hreq, hstore, hs⟩
    · rintro ⟨cur, s₁, s₂, s₃, hnew, hreq, hstore, hs⟩
      exact ⟨cur, s₁, hnew, r, s₂, hreq, s₃, hstore, rfl, hs⟩
  · rw [if_pos h]
    simp [h, eq_comm]

theorem allocatePage_eq_some : allocatePage B x s = some (r, s') ↔
    (currentPage B s = some (none, s') ∧ r = 0) ∨
    ∃ cur s₁ r₁ s₂, currentPage B s = some (some cur, s₁) ∧ tryPages B x cur s₁ = some (r₁, s₂) ∧
      (r₁ ≠ 0 ∧ r₁ = r ∧ s₂ = s' ∨ r₁ = 0 ∧ allocateNew B x s₂ = some (r, s')) := by
  simp only [allocatePage, Option.bind_eq_bind, Option.bind_eq_some_iff, Prod.exists]
  constructor
  · rintro ⟨cur, s₁, hcur, h⟩
    cases cur with
    | none =>
      obtain ⟨rfl, rfl⟩ := Prod.mk.inj (Option.some.inj h)
      exact .inl ⟨hcur, rfl⟩
    | some cur =>
      obtain ⟨⟨r₁, s₂⟩, htry, h⟩ := Option.bind_eq_some_iff.mp h
      refine .inr ⟨cur, s₁, r₁, s₂, hcur, htry, ?_⟩
      dsimp only at h
      split_ifs at h with hr
      · exact .inl ⟨hr, Prod.mk.inj (Option.some.inj h)⟩
      · exact .inr ⟨not_not.mp hr, h⟩
  · rintro (⟨hcur, rfl⟩ | ⟨cur, s₁, r₁, s₂, hcur, htry, h⟩)
    · exact ⟨none, s', hcur, rfl⟩
    · refine ⟨some cur, s₁, hcur, Option.bind_eq_some_iff.mpr ⟨⟨r₁, s₂⟩, htry, ?_⟩⟩
      dsimp only
      rcases h with ⟨hr, rfl, rfl⟩ | ⟨hr, h⟩
      · rw [if_pos hr]
        rfl
      · rw [if_neg (not_not.mpr hr), h]

/-! ## Requests of several pages -/

theorem chunkRest_eq_some {front : PageMetaPtr} {o o' : Option PageMetaPtr} :
    chunkRest front n i (k + 1) o s = some (o', s') ↔ ∃ prev, s.frameTable (i - 1) = some prev ∧
      chunkRest front n (i + 1) k (some s.osMemPtr)
        (chainAfter i (fun _ ↦ chunkMeta s.current n front) prev s) = some (o', s') := by
  simp only [chunkRest, Option.bind_eq_bind, Option.bind_eq_some_iff, newMeta_eq]
  refine exists_congr fun prev ↦ and_congr_right fun _ ↦ ?_
  rw [chainAfter, newMeta_eq]

theorem chunkFirst_eq_some {o : Option PageMetaPtr} : chunkFirst B n s = some (o, s') ↔
    ∃ s₁ s₂, evictRange B 0 n s = some s₁ ∧
      chunkRest s₁.osMemPtr n 1 (n - 1) none (chainFirst 0 (chunkMeta s₁.current n) s₁) =
        some (o, s₂) ∧ s₂.setMallocFrame (n - 1) = s' := by
  simp only [chunkFirst, Option.bind_eq_bind, Option.bind_eq_some_iff, Prod.exists,
    Option.some_inj, Prod.mk.injEq, ← exists_and_left]
  refine exists_congr fun s₁ ↦ ?_
  constructor
  · rintro ⟨o', s₂, h₁, hrest, rfl, hs⟩
    exact ⟨s₂, h₁, hrest, hs⟩
  · rintro ⟨s₂, h₁, hrest, hs⟩
    exact ⟨o, s₂, h₁, hrest, rfl, hs⟩

theorem chunkLater_eq_some {o : Option PageMetaPtr} : chunkLater B n s = some (o, s') ↔
    ∃ s₁ prev s₂, evictRange B (s.tcb.mallocFrame + 1) n
        (s.setMallocFrame (s.tcb.mallocFrame + 1)) = some s₁ ∧
      s₁.frameTable s.tcb.mallocFrame = some prev ∧
      chunkRest s₁.osMemPtr n (s.tcb.mallocFrame + 1 + 1) (n - 1) none
        ((chainAfter (s.tcb.mallocFrame + 1) (chunkMeta s₁.current n) prev s₁).setFirstPage
          s₁.osMemPtr) = some (o, s₂) ∧
      s₂.setMallocFrame (s.tcb.mallocFrame + 1 + (n - 1)) = s' := by
  simp only [chunkLater, Option.bind_eq_bind, Option.bind_eq_some_iff, Prod.exists,
    Option.some_inj, Prod.mk.injEq, newMeta_eq, Nat.add_sub_cancel, chainAfter]
  constructor
  · rintro ⟨s₁, h₁, prev, hprev, o', s₂, hrest, rfl, hs⟩
    exact ⟨s₁, prev, s₂, h₁, hprev, hrest, hs⟩
  · rintro ⟨s₁, prev, s₂, h₁, hprev, hrest, hs⟩
    exact ⟨s₁, h₁, prev, hprev, o, s₂, hrest, rfl, hs⟩

theorem allocateChunk_eq_some : allocateChunk B x s = some (r, s') ↔
    s.TooMany (numOfPages x) ∧ r = 0 ∧ s = s' ∨
    ¬s.TooMany (numOfPages x) ∧ ∃ last s₁ front s₂ s₃,
      (s.tcb.firstPage = none ∧ chunkFirst B (numOfPages x) s = some (some last, s₁) ∨
        s.tcb.firstPage ≠ none ∧ chunkLater B (numOfPages x) s = some (some last, s₁)) ∧
      (s₁.metas last).frontMeta = some front ∧
      request last x (B.frame (s₁.pageFrame front)) (4096 * numOfPages x) (resetHeap last s₁) =
        some (r, s₂) ∧
      storeHeap last s₂ = some s₃ ∧ s₃.leave = s' := by
  rw [allocateChunk]
  split_ifs with h hnone
  · simp [h, eq_comm]
  · simp only [Option.bind_eq_bind, Option.bind_eq_some_iff, Prod.exists, Option.pure_def,
      Option.some_inj, Prod.mk.injEq, h, hnone, not_false_eq_true, true_and, false_and, false_or,
      ne_eq, not_true, or_false]
    constructor
    · rintro ⟨o, s₁, hc, last, rfl, front, hf, r', s₂, hreq, s₃, hst, rfl, hs⟩
      exact ⟨last, s₁, front, s₂, s₃, hc, hf, hreq, hst, hs⟩
    · rintro ⟨last, s₁, front, s₂, s₃, hc, hf, hreq, hst, hs⟩
      exact ⟨some last, s₁, hc, last, rfl, front, hf, r, s₂, hreq, s₃, hst, rfl, hs⟩
  · simp only [Option.bind_eq_bind, Option.bind_eq_some_iff, Prod.exists, Option.pure_def,
      Option.some_inj, Prod.mk.injEq, h, hnone, not_false_eq_true, true_and, false_and, false_or,
      ne_eq]
    constructor
    · rintro ⟨o, s₁, hc, last, rfl, front, hf, r', s₂, hreq, s₃, hst, rfl, hs⟩
      exact ⟨last, s₁, front, s₂, s₃, hc, hf, hreq, hst, hs⟩
    · rintro ⟨last, s₁, front, s₂, s₃, hc, hf, hreq, hst, hs⟩
      exact ⟨some last, s₁, hc, last, rfl, front, hf, r, s₂, hreq, s₃, hst, rfl, hs⟩

/-! ## `mydeallocate`, faults and accesses -/

theorem mydeallocate_eq_some : mydeallocate B x s = some s' ↔ 0 ≤ frameOf B x ∧
    ∃ resident, s.frameTable (frameOf B x).toNat = some resident ∧
      ((s.metas resident).tid = s.current ∧ (∃ s₁,
          storeHeap resident (release resident x (loadHeap resident s.enter)) = some s₁ ∧
          s₁.leave = s') ∨
        (s.metas resident).tid ≠ s.current ∧ ∃ temp s₁ s₂,
          findPage (frameOf B x).toNat s = some temp ∧
          swapPages B (frameOf B x).toNat (some (s.pageFrame temp)) (loadHeap temp s.enter) =
            some s₁ ∧
          storeHeap temp (release temp x s₁) = some s₂ ∧ s₂.leave = s') := by
  rw [mydeallocate]
  split_ifs with h
  · simp [not_le.mpr h]
  · simp only [Option.bind_eq_bind, Option.bind_eq_some_iff, Option.pure_def, not_lt.mp h, true_and]
    refine exists_congr fun resident ↦ and_congr_right fun _ ↦ ?_
    by_cases htid : (s.metas resident).tid = s.current
    · rw [if_pos (show (s.enter.metas resident).tid = s.enter.current from htid)]
      simp [htid, Option.bind_eq_some_iff]
    · rw [if_neg (show (s.enter.metas resident).tid ≠ s.enter.current from htid)]
      simp only [htid, false_and, false_or, ne_eq, not_false_eq_true, true_and,
        Option.bind_eq_some_iff, Option.some_inj]
      constructor
      · rintro ⟨temp, ht, s₁, hs₁, s₂, hs₂, hs⟩
        exact ⟨temp, s₁, s₂, ht, hs₁, hs₂, hs⟩
      · rintro ⟨temp, s₁, s₂, ht, hs₁, hs₂, hs⟩
        exact ⟨temp, ht, s₁, hs₁, s₂, hs₂, hs⟩

theorem swapHandler_eq_some : swapHandler B x s = some s' ↔
    ¬(toI32 ((x : ℤ) - B.addr) < 0 ∨ 1596 * 4096 < toI32 ((x : ℤ) - B.addr)) ∧
    (frameOf B x).toNat ≤ s.tcb.mallocFrame ∧
    ∃ resident, s.frameTable (frameOf B x).toNat = some resident ∧
      ((s.metas resident).tid = s.current ∧ s.unprotectFrame (frameOf B x).toNat = s' ∨
        (s.metas resident).tid ≠ s.current ∧ ∃ temp s₁,
          follow s.next (frameOf B x).toNat s.tcb.firstPage = some temp ∧
          swapPages B (frameOf B x).toNat (some (s.pageFrame temp)) s = some s₁ ∧
          s₁.protect.unprotectFrame (frameOf B x).toNat = s') := by
  rw [swapHandler]
  dsimp only
  by_cases h : toI32 ((x : ℤ) - B.addr) < 0 ∨ 1596 * 4096 < toI32 ((x : ℤ) - B.addr)
  · rw [if_pos h]
    exact ⟨nofun, fun hs ↦ absurd h hs.1⟩
  · rw [if_neg h]
    by_cases hle : s.tcb.mallocFrame < (frameOf B x).toNat
    · rw [if_pos hle]
      exact ⟨nofun, fun hs ↦ absurd hs.2.1 (not_le.mpr hle)⟩
    · rw [if_neg hle, Option.bind_eq_bind, Option.bind_eq_some_iff]
      refine Iff.trans ?_ (and_iff_right h).symm
      refine Iff.trans ?_ (and_iff_right (not_lt.mp hle)).symm
      refine exists_congr fun resident ↦ and_congr_right fun _ ↦ ?_
      split_ifs with htid
      · simp [htid]
      · simp [htid, Option.bind_eq_some_iff]

theorem load_eq_some {v : UInt8} : load B x s = some (v, s') ↔
    access B x s = some s' ∧ s'.heap.mem x = v := by
  simp only [load, Option.bind_eq_bind, Option.bind_eq_some_iff, Option.pure_def, Option.some_inj,
    Prod.mk.injEq]
  constructor
  · rintro ⟨s₁, hs₁, hv, rfl⟩
    exact ⟨hs₁, hv⟩
  · rintro ⟨hs, hv⟩
    exact ⟨s', hs, hv, rfl⟩

theorem store_eq_some {v : UInt8} : store B x v s = some s' ↔
    ∃ s₁, access B x s = some s₁ ∧ { s₁ with heap.mem := setByte s₁.heap.mem x v } = s' := by
  simp only [store, Option.bind_eq_bind, Option.bind_eq_some_iff, Option.pure_def, Option.some_inj]

/-! ## Runs -/

theorem exec_free :
    (Call.free x).exec B s = some (r, s') ↔ r = 0 ∧ mydeallocate B x s = some s' := by
  simp only [Call.exec, Option.bind_eq_bind, Option.bind_eq_some_iff, Option.pure_def,
    Option.some_inj, Prod.mk.injEq]
  constructor
  · rintro ⟨s₁, hs₁, rfl, rfl⟩
    exact ⟨rfl, hs₁⟩
  · rintro ⟨rfl, hs⟩
    exact ⟨s', hs, rfl, rfl⟩

theorem exec_load : (Call.load x).exec B s = some (r, s') ↔
    access B x s = some s' ∧ (s'.heap.mem x).toNat = r := by
  simp only [Call.exec, Option.bind_eq_bind, Option.bind_eq_some_iff, Option.pure_def,
    Option.some_inj, Prod.mk.injEq, Prod.exists, load_eq_some]
  constructor
  · rintro ⟨v, s₁, ⟨hs₁, rfl⟩, hr, rfl⟩
    exact ⟨hs₁, hr⟩
  · rintro ⟨hs, hr⟩
    exact ⟨_, s', ⟨hs, rfl⟩, hr, rfl⟩

theorem exec_store {v : UInt8} : (Call.store x v).exec B s = some (r, s') ↔
    r = 0 ∧ store B x v s = some s' := by
  simp only [Call.exec, Option.bind_eq_bind, Option.bind_eq_some_iff, Option.pure_def,
    Option.some_inj, Prod.mk.injEq]
  constructor
  · rintro ⟨s₁, hs₁, rfl, rfl⟩
    exact ⟨rfl, hs₁⟩
  · rintro ⟨rfl, hs⟩
    exact ⟨s', hs, rfl, rfl⟩

end MyPthread.Paging
