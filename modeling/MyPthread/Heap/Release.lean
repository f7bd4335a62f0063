import MyPthread.Heap.Allocate

/-!
# `myfree` refines layout release

On a state that represents a layout, `myfree` of an allocated block inside its
bounds releases that block, in a state that represents `Layout.release` of the
layout; outside the bounds it changes nothing.  It writes to headers of the old
list only.

Both merges of `myfree` do the same thing to the list: they drop the second of
two neighbouring headers (`seg_fuse`).
-/

namespace MyPthread.Heap

open MyPthread.Lib

/-- Drop the header between `c` and `n`, and give `c` the size `v`. -/
def dropNext (m : Mem) (c n : ℕ) (v : ℤ) : Mem :=
  setSize (setNext (if n ≠ 0 then setPrev m n c else m) c n) c v

section Fuse

variable {lo hi : ℕ} {m : Mem} {pre post : List Block} {c d : Block} {S : Set ℕ}

/-- Merging two free neighbours, in the list. -/
theorem seg_fuse (hf : Fits lo hi) (ht : Tiles 32 lo (pre ++ c :: d :: post) hi)
    (hs : Seg m 0 (pre ++ c :: d :: post) 0) (hfree : c.free = true)
    (hc : header c.addr ⊆ S) (hS : linkHeader (headAddr post 0) ⊆ S) :
    Seg (dropNext m c.addr (headAddr post 0) (toU64 (c.size + (sizeofMementry + d.size)))) 0
      (pre ++ fuse 32 c d :: post) 0 ∧
    ChangesOnly S m
      (dropNext m c.addr (headAddr post 0) (toU64 (c.size + (sizeofMementry + d.size)))) := by
  obtain ⟨htpre, hdaddr, htpost⟩ := Tiles.split_iff.mp ht
  obtain ⟨hspre, hce, -, hspost⟩ := Seg.split_iff.mp hs
  have hlo := htpre.le
  have hhi := htpost.le
  have hpos := hf.pos
  have haddr := hf.addr
  have hsize := hf.size
  have hdlt := Tiles.addr_lt_stop (o := 32) (by omega) d
  have hcstop : c.stop 32 = c.addr + 32 + c.size := rfl
  have hdstop : d.stop 32 = d.addr + 32 + d.size := rfl
  have hlink : headAddr post 0 = 0 ∨ headAddr post 0 = d.stop 32 ∧ d.stop 32 + 32 ≤ hi := by
    cases post with
    | nil => exact .inl rfl
    | cons e es =>
      have := htpost.2.le
      have hestop : e.stop 32 = e.addr + 32 + e.size := rfl
      have headdr : e.addr = d.stop 32 := htpost.1
      exact .inr ⟨headdr, by omega⟩
  have hcn : headAddr post 0 ≠ 0 → Apart (headAddr post 0) c.addr := by
    unfold Apart
    omega
  have hchanges : ∀ T : Set ℕ, header c.addr ⊆ T → linkHeader (headAddr post 0) ⊆ T →
      ∀ v, ChangesOnly T m (dropNext m c.addr (headAddr post 0) v) := by
    intro T hcT hnT v
    refine changesOnly_setSize hcT (changesOnly_setNext hcT ?_ _) _
    split
    case isTrue hn => exact changesOnly_setPrev (fun x hx ↦ hnT ⟨hn, hx⟩) (ChangesOnly.refl T m) _
    case isFalse => exact ChangesOnly.refl T m
  refine ⟨Seg.split_iff.mpr ⟨?_, ?_, ?_⟩, hchanges S hc hS _⟩
  · -- the headers before the two
    refine hspre.congr fun e he ↦ entryAt_eq_of_changesOnly
      (hchanges (header c.addr ∪ linkHeader (headAddr post 0)) Set.subset_union_left
        Set.subset_union_right _) fun x hx ↦ ?_
    have hestop : e.stop 32 = e.addr + 32 + e.size := rfl
    have := (htpre.bounds he).2
    rcases hx with hx | hx
    · rw [mem_header] at hx
      omega
    · rw [mem_linkHeader] at hx
      omega
  · -- the header that stays
    have hsum : toI32 (toU64 ((c.size : ℤ) + (sizeofMementry + d.size))) =
        ((c.size + 32 + d.size : ℕ) : ℤ) := by
      unfold sizeofMementry
      rw [toI32_toU64, ← toI32_natCast (show c.size + 32 + d.size < 2147483648 by omega)]
      congr 1
      omega
    have hkeep : entryAt (if headAddr post 0 ≠ 0 then setPrev m (headAddr post 0) c.addr else m)
        c.addr = entryAt m c.addr := by
      split
      case isTrue hn => exact entryAt_setPrev_of_apart (hcn hn).symm _
      case isFalse => rfl
    show entryAt _ c.addr = _
    rw [dropNext, entryAt_setSize_self, entryAt_setNext_self (by omega), hkeep, hce, hsum]
    simp only [entryOf, fuse, hfree]
  · -- the headers after the two
    refine hspost.relink (fun e he ↦ ?_) fun e he ↦ ?_
    · cases post with
      | nil => cases he
      | cons e' es =>
        rw [List.head?_cons, Option.mem_some_iff] at he
        subst he
        have hn : headAddr (e' :: es) 0 ≠ 0 := by
          have headdr : e'.addr = d.stop 32 := htpost.1
          simp only [headAddr]
          omega
        have heap : Apart e'.addr c.addr := hcn hn
        rw [dropNext, entryAt_setSize_of_apart heap, entryAt_setNext_of_apart heap, if_pos hn]
        exact entryAt_setPrev_self (by omega)
    · refine entryAt_eq_of_changesOnly
        (hchanges (header c.addr ∪ linkHeader (headAddr post 0)) Set.subset_union_left
          Set.subset_union_right _) fun x hx ↦ ?_
      cases post with
      | nil => cases he
      | cons e' es =>
        have hestop : e'.stop 32 = e'.addr + 32 + e'.size := rfl
        have headdr : e'.addr = d.stop 32 := htpost.1
        have := (htpost.2.bounds he).1
        rcases hx with hx | hx
        · rw [mem_header] at hx
          omega
        · rw [mem_linkHeader] at hx
          simp only [headAddr] at hx
          omega

end Fuse

/-! ## The merges of `myfree` -/

/-- A header list in the middle of `myfree`: the blocks tile the region but may
have free neighbours, and `middle` is the block that covers `x`. -/
structure Listed (lo hi x : ℕ) (s : HeapState) (bs : List Block) : Prop where
  head : s.head = lo
  tiles : Tiles 32 lo bs hi
  seg : Seg s.mem 0 bs 0
  covers : cover 32 bs x = some s.middle

section Merge

variable {lo hi x : ℕ} {s : HeapState} {pre post : List Block} {b c d : Block} {S : Set ℕ}

/-- Merging two listed neighbours, with the `middle` pointer. -/
theorem Listed.fuse (hf : Fits lo hi) (hl : Listed lo hi x s (pre ++ c :: d :: post))
    (hfree : c.free = true) {s' : HeapState}
    (hmem : s'.mem = dropNext s.mem c.addr (headAddr post 0)
      (toU64 (c.size + (sizeofMementry + d.size))))
    (hhead : s'.head = s.head)
    (hmid : s'.middle = if d.addr = s.middle then c.addr else s.middle) :
    Listed lo hi x s' (pre ++ fuse 32 c d :: post) := by
  obtain ⟨hseg, -⟩ := seg_fuse hf hl.tiles hl.seg hfree (Set.subset_univ _) (Set.subset_univ _)
  refine ⟨hhead.trans hl.head, ?_, hmem ▸ hseg, ?_⟩
  · obtain ⟨htpre, hdaddr, htpost⟩ := Tiles.split_iff.mp hl.tiles
    refine Tiles.split_iff.mpr ⟨htpre, ?_⟩
    rw [stop_fuse hdaddr]
    exact htpost
  · rw [hmid]
    exact cover_fuse (by omega) hl.tiles hl.covers

/-- While the successor of the second of two neighbours is relinked, neither of
their headers changes. -/
theorem Listed.reads (hf : Fits lo hi) (hl : Listed lo hi x s (pre ++ c :: d :: post)) {m : Mem}
    (hm : m = if headAddr post 0 ≠ 0 then setPrev s.mem (headAddr post 0) c.addr else s.mem) :
    c.addr ≠ 0 ∧ d.addr ≠ 0 ∧ Apart d.addr c.addr ∧
      entryAt s.mem c.addr = entryOf (lastAddr 0 pre) c d.addr ∧
      entryAt s.mem d.addr = entryOf c.addr d (headAddr post 0) ∧
      entryAt m d.addr = entryOf c.addr d (headAddr post 0) ∧
      ∀ v, (entryAt (setNext m c.addr v) c.addr).size = c.size := by
  have hc := plain_of_tiles hf hl.tiles (b := c) (by simp)
  have hd := plain_of_tiles hf hl.tiles (b := d) (by simp)
  obtain ⟨-, hce, hde, -⟩ := Seg.split_iff.mp hl.seg
  obtain ⟨-, hdaddr, htpost⟩ := Tiles.split_iff.mp hl.tiles
  have hcstop : c.stop 32 = c.addr + 32 + c.size := rfl
  have hdstop : d.stop 32 = d.addr + 32 + d.size := rfl
  have hcd : Apart d.addr c.addr := by
    unfold Apart
    omega
  have hdn : headAddr post 0 ≠ 0 → Apart d.addr (headAddr post 0) ∧
      Apart c.addr (headAddr post 0) := fun hn ↦ by
    cases post with
    | nil => exact absurd rfl hn
    | cons e es =>
      have headdr : e.addr = d.stop 32 := htpost.1
      simp only [headAddr]
      unfold Apart
      omega
  refine ⟨hc.1, hd.1, hcd, hce, hde, ?_, fun v ↦ ?_⟩
  · rw [hm]
    split
    case isTrue hn => rw [entryAt_setPrev_of_apart (hdn hn).1, hde]
    case isFalse => exact hde
  · have hset : (entryAt (setNext m c.addr v) c.addr).size = (entryAt m c.addr).size := by
      simp only [entryAt, setNext]
      rw [readLE_writeLE_of_disjoint (by omega)]
    rw [hset, hm]
    split
    case isTrue hn => rw [entryAt_setPrev_of_apart (hdn hn).2, hce]; rfl
    case isFalse => rw [hce]; rfl

/-- `mergePrev` behind a free block. -/
theorem mergePrev_of_free (hf : Fits lo hi) (hl : Listed lo hi x s (pre ++ c :: d :: post))
    (hfree : c.free = true) : mergePrev d.addr s = (c.addr,
      { s with
        mem := dropNext s.mem c.addr (headAddr post 0)
          (toU64 (c.size + (sizeofMementry + d.size)))
        middle := if d.addr = s.middle then c.addr else s.middle }) := by
  obtain ⟨hc₀, -, hcd, hce, hde, hd₁, hc₁⟩ := hl.reads hf rfl
  have hprev : (entryAt s.mem d.addr).prev = c.addr := by rw [hde]; rfl
  have hnext : (entryAt s.mem d.addr).next = headAddr post 0 := by rw [hde]; rfl
  have hcond : (entryAt s.mem d.addr).prev ≠ 0 ∧
      (entryAt s.mem (entryAt s.mem d.addr).prev).free = 1 := by
    rw [hprev, hce]
    exact ⟨hc₀, by simp [entryOf, hfree]⟩
  rw [mergePrev, if_pos hcond, hprev, hnext]
  simp only [hd₁, entryOf, if_pos hc₀, entryAt_setNext_of_apart hcd, entryAt_setSize_of_apart hcd,
    hc₁, dropNext]

/-- `mergeNext` before a free block. -/
theorem mergeNext_of_free (hf : Fits lo hi) (hl : Listed lo hi x s (pre ++ c :: d :: post))
    (hfree : d.free = true) : mergeNext c.addr s =
      { s with
        mem := dropNext s.mem c.addr (headAddr post 0)
          (toU64 (c.size + (sizeofMementry + d.size)))
        middle := if d.addr = s.middle then c.addr else s.middle } := by
  obtain ⟨hc₀, hd₀, hcd, hce, hde, hd₁, hc₁⟩ := hl.reads hf rfl
  have htemp : (entryAt s.mem c.addr).next = d.addr := by rw [hce]; rfl
  have hprev : (entryAt s.mem d.addr).prev = c.addr := by rw [hde]; rfl
  have hnext : (entryAt s.mem d.addr).next = headAddr post 0 := by rw [hde]; rfl
  have hcond : d.addr ≠ 0 ∧ (entryAt s.mem d.addr).free = 1 := by
    rw [hde]
    exact ⟨hd₀, by simp [entryOf, hfree]⟩
  rw [mergeNext, htemp]
  simp only [if_pos hcond, hprev, hnext, hd₁, entryOf, if_pos hc₀, entryAt_setNext_of_apart hcd,
    hc₁, dropNext]

/-- `mergePrev` at the first block, or behind an allocated one. -/
theorem mergePrev_of_not_free (hl : Listed lo hi x s (pre ++ d :: post))
    (hfree : ∀ c ∈ pre.getLast?, c.free = false) : mergePrev d.addr s = (d.addr, s) := by
  have hde := hl.seg.entry
  rw [mergePrev, if_neg]
  rintro ⟨hprev, hpf⟩
  rw [hde] at hprev hpf
  rcases List.eq_nil_or_concat pre with rfl | ⟨pre, c, rfl⟩
  · exact hprev rfl
  · rw [List.concat_eq_append] at hl hpf hfree
    have hlast : lastAddr 0 (pre ++ [c]) = c.addr := lastAddr_append 0 pre [c]
    have hcf : c.free = false := hfree c (by simp)
    have hce := (hl.seg.entry_of_mem (b := c) (by simp)).2.2
    simp only [entryOf, hlast, hce, hcf] at hpf
    exact absurd hpf (by decide)

/-- `mergeNext` at the last block, or before an allocated one. -/
theorem mergeNext_of_not_free (hl : Listed lo hi x s (pre ++ c :: post))
    (hfree : ∀ d ∈ post.head?, d.free = false) : mergeNext c.addr s = s := by
  have hce := hl.seg.entry
  have htemp : (entryAt s.mem c.addr).next = headAddr post 0 := by rw [hce]; rfl
  rw [mergeNext, htemp]
  apply if_neg
  rintro ⟨hn, hnf⟩
  cases post with
  | nil => exact hn rfl
  | cons d ds =>
    have hdf : d.free = false := hfree d rfl
    have hde := (hl.seg.entry_of_mem (b := d) (by simp)).2.2
    simp only [headAddr, hde, hdf] at hnf
    exact absurd hnf (by decide)

/-- What every fusion of two free neighbours keeps. -/
def FuseStable (lo hi x : ℕ) (P : HeapState → List Block → Prop) : Prop :=
  ∀ s s' pre c d post, Listed lo hi x s (pre ++ c :: d :: post) → c.free = true → d.free = true →
    s'.mem = dropNext s.mem c.addr (headAddr post 0) (toU64 (c.size + (sizeofMementry + d.size))) →
    P s (pre ++ c :: d :: post) → P s' (pre ++ Lib.fuse 32 c d :: post)

/-- The effect of `mergeNext` at a free block. -/
theorem mergeNext_rule {P : HeapState → List Block → Prop} (hf : Fits lo hi)
    (hstable : FuseStable lo hi x P) (hl : Listed lo hi x s (pre ++ c :: post))
    (hfree : c.free = true) (hP : P s (pre ++ c :: post)) :
    Listed lo hi x (mergeNext c.addr s) (pre ++ glue 32 c post) ∧
      P (mergeNext c.addr s) (pre ++ glue 32 c post) := by
  by_cases hd : ∀ d ∈ post.head?, d.free = false
  · rw [mergeNext_of_not_free hl hd, glue_of_not_free fun d hdm ↦ by simp [hd d hdm]]
    exact ⟨hl, hP⟩
  · cases post with
    | nil => exact absurd (fun d hdm ↦ by cases hdm) hd
    | cons d ds =>
      have hdf : d.free = true := by
        by_contra hdf
        refine hd fun e he ↦ ?_
        rw [List.head?_cons, Option.mem_some_iff] at he
        subst he
        simpa using hdf
      have hglue : glue 32 c (d :: ds) = fuse 32 c d :: ds := if_pos ⟨hfree, hdf⟩
      rw [mergeNext_of_free hf hl hdf, hglue]
      refine ⟨hl.fuse hf hfree ?_ ?_ ?_, hstable _ _ _ _ _ _ hl hfree hdf ?_ hP⟩
      all_goals rfl

/-- The effect of `mergePrev` followed by `mergeNext` at the free block `b` of a
list that is coalesced but for `b`. -/
theorem merge_rule {P : HeapState → List Block → Prop} (hf : Fits lo hi)
    (hstable : FuseStable lo hi x P) (hl : Listed lo hi x s (pre ++ b :: post))
    (hfree : b.free = true) (hpre : Coalesced pre) (hpost : Coalesced post)
    (hP : P s (pre ++ b :: post)) :
    Listed lo hi x (mergeNext (mergePrev b.addr s).1 (mergePrev b.addr s).2)
      (coalesce 32 (pre ++ b :: post)) ∧
      P (mergeNext (mergePrev b.addr s).1 (mergePrev b.addr s).2)
        (coalesce 32 (pre ++ b :: post)) := by
  have hglue : coalesce 32 (b :: post) = glue 32 b post := by
    rw [coalesce, coalesce_of_coalesced hpost]
  rcases List.eq_nil_or_concat pre with rfl | ⟨pre, p, rfl⟩
  · rw [mergePrev_of_not_free hl (by simp), List.nil_append, hglue]
    exact mergeNext_rule hf hstable hl hfree hP
  · rw [List.concat_eq_append] at hpre
    rw [List.concat_eq_append, List.append_assoc, List.singleton_append] at hl hP ⊢
    rw [coalesce_append hpre, hglue]
    by_cases hp : p.free = true
    · -- merged to the left, and possibly on to the right
      have hl' : Listed lo hi x (mergePrev b.addr s).2 (pre ++ fuse 32 p b :: post) ∧
          P (mergePrev b.addr s).2 (pre ++ fuse 32 p b :: post) := by
        rw [mergePrev_of_free hf hl hp]
        refine ⟨hl.fuse hf hp ?_ ?_ ?_, hstable _ _ _ _ _ _ hl hp hfree ?_ hP⟩
        all_goals rfl
      have hfst : (mergePrev b.addr s).1 = (fuse 32 p b).addr := by
        rw [mergePrev_of_free hf hl hp]
        rfl
      rw [hfst, glue_glue hp hfree]
      exact mergeNext_rule hf hstable hl'.1 rfl hl'.2
    · -- nothing to merge on the left
      rw [← List.singleton_append, ← List.append_assoc] at hl hP
      rw [mergePrev_of_not_free hl (by simpa using hp)]
      have hcons : glue 32 p (glue 32 b post) = p :: glue 32 b post :=
        glue_of_not_free fun c _ ↦ by simp [hp]
      rw [hcons, ← List.singleton_append, ← List.append_assoc]
      exact mergeNext_rule hf hstable hl hfree hP

/-- Merging writes to the headers of the list. -/
theorem fuseStable_changesOnly (hf : Fits lo hi) (S : Set ℕ) (m : Mem) :
    FuseStable lo hi x fun s bs ↦ headers bs ⊆ S ∧ ChangesOnly S m s.mem := by
  rintro s s' pre c d post hl hcf - hmem ⟨hS, hch⟩
  have hc : header c.addr ⊆ S := (header_subset_headers (by simp)).trans hS
  have hn : linkHeader (headAddr post 0) ⊆ S := fun y hy ↦ by
    cases post with
    | nil => exact absurd rfl hy.1
    | cons e es => exact hS ⟨e, by simp, hy.2⟩
  refine ⟨?_, hch.trans ?_⟩
  · rintro y ⟨e, he, hy⟩
    rw [List.mem_append, List.mem_cons] at he
    rcases he with he | rfl | he
    · exact hS ⟨e, by simp [he], hy⟩
    · exact hS ⟨c, by simp, hy⟩
    · exact hS ⟨e, by simp [he], hy⟩
  · rw [hmem]
    exact (seg_fuse hf hl.tiles hl.seg hcf hc hn).2

end Merge

/-! ## `myfree` -/

section Myfree

variable {lo hi : ℕ} {s : HeapState} {h : Layout} {b : Block}

/-- Setting the flag of a listed block. -/
theorem listed_setFree (hr : Represents lo hi s h) {pre post : List Block}
    (heq : h.blocks = pre ++ b :: post) :
    Listed lo hi h.middle { s with mem := setFree s.mem b.addr 1 }
      (pre ++ { b with free := true } :: post) := by
  have ht := hr.wf.tiles
  have hs := hr.seg
  rw [heq] at ht hs
  have hmark : mark b.addr (pre ++ b :: post) = pre ++ { b with free := true } :: post :=
    mark_append (by omega) ht
  refine ⟨hr.head, hmark ▸ tiles_mark ht, ?_, ?_⟩
  · have he : entryAt (setFree s.mem b.addr 1) b.addr =
        entryOf (lastAddr 0 pre) { b with free := true } (headAddr post 0) := by
      rw [entryAt_setFree_self, hs.entry]
      rfl
    exact seg_replace_one ht hs (changesOnly_setFree le_rfl (ChangesOnly.refl _ _) 1) rfl he
  · obtain ⟨c, hc, hcm⟩ := hr.wf.middle_mem
    obtain ⟨c', hc', hcm'⟩ : ∃ c' ∈ mark b.addr (pre ++ b :: post), c'.addr = h.middle := by
      refine ⟨if c.addr = b.addr then { c with free := true } else c,
        List.mem_map.mpr ⟨c, heq ▸ hc, rfl⟩, ?_⟩
      split <;> exact hcm
    obtain ⟨pre', post', heq'⟩ := List.append_of_mem hc'
    rw [← hmark, hr.middle, ← hcm', heq']
    exact cover_addr (by omega) (heq' ▸ tiles_mark ht)

/-- `myfree` of an allocated block inside its bounds sets the flag and fuses its neighbours. -/
theorem myfree_eq (hr : Represents lo hi s h) (hb : h.Allocated b) (hle : b.addr + 32 ≤ lo + 4999) :
    myfree (b.addr + 32) s = (.released,
      mergeNext (mergePrev b.addr { s with mem := setFree s.mem b.addr 1 }).1
        (mergePrev b.addr { s with mem := setFree s.mem b.addr 1 }).2) := by
  have hentry := hr.seg.entry_of_mem hb.1
  have hbound := (hr.wf.tiles.bounds hb.1).1
  have hbounds : ¬(b.addr + 32 < s.head + sizeofMementry ∨ s.head + 4999 < b.addr + 32) := by
    rw [hr.head]
    unfold sizeofMementry
    omega
  have hnf : ¬(entryAt s.mem b.addr).free = 1 := by
    rw [hentry.2.2, hb.2]
    decide
  rw [myfree, if_neg hbounds]
  simp only [Nat.add_sub_cancel, if_pos hentry.2.1, if_neg hnf]

/-- `myfree` of an allocated block inside its bounds releases it. -/
theorem myfree_rule {P : HeapState → List Block → Prop} (hf : Fits lo hi)
    (hstable : FuseStable lo hi h.middle P) (hr : Represents lo hi s h) (hb : h.Allocated b)
    (hle : b.addr + 32 ≤ lo + 4999)
    (hP : P { s with mem := setFree s.mem b.addr 1 } (mark b.addr h.blocks)) :
    ∃ s', myfree (b.addr + 32) s = (.released, s') ∧ Represents lo hi s' (h.release b.addr) ∧
      P s' (h.release b.addr).blocks := by
  obtain ⟨pre, post, heq, -⟩ := hr.wf.exists_split hb.1
  have hl := listed_setFree hr heq
  have hco := hr.wf.coalesced
  have ht := hr.wf.tiles
  rw [heq] at hco ht
  obtain ⟨hpre, hpost, -⟩ := Coalesced.append_iff.mp hco
  have hmark : mark b.addr h.blocks = pre ++ { b with free := true } :: post := by
    rw [heq, mark_append (by omega) ht]
  rw [hmark] at hP
  obtain ⟨hl', hP'⟩ := merge_rule hf hstable hl rfl hpre (Coalesced.cons_iff.mp hpost).2 hP
  have hblocks : coalesce 32 (pre ++ { b with free := true } :: post) =
      (h.release b.addr).blocks := by
    rw [Layout.release, hmark]
  rw [hblocks] at hl' hP'
  refine ⟨_, myfree_eq hr hb hle, ⟨hr.wf.release, hl'.head, ?_, hl'.seg⟩, hP'⟩
  show _ = (cover 32 (h.release b.addr).blocks h.middle).getD h.middle
  rw [hl'.covers, Option.getD_some]

/-- The release writes to the headers of the list. -/
theorem myfree_released (hf : Fits lo hi) (hr : Represents lo hi s h) (hb : h.Allocated b)
    (hle : b.addr + 32 ≤ lo + 4999) :
    ∃ s', myfree (b.addr + 32) s = (.released, s') ∧ Represents lo hi s' (h.release b.addr) ∧
      ChangesOnly (headers h.blocks) s.mem s'.mem := by
  have hsub : headers (mark b.addr h.blocks) ⊆ headers h.blocks := by
    rintro y ⟨e, he, hy⟩
    obtain ⟨d, hd, rfl⟩ := List.mem_map.mp he
    refine ⟨d, hd, ?_⟩
    split at hy
    · exact hy
    · exact hy
  obtain ⟨s', hs, hr', -, hch⟩ := myfree_rule hf (fuseStable_changesOnly hf _ s.mem) hr hb hle
    ⟨hsub, changesOnly_setFree (header_subset_headers hb.1) (ChangesOnly.refl _ _) 1⟩
  exact ⟨s', hs, hr', hch⟩

/-- Past its bounds `myfree` changes nothing. -/
theorem myfree_outOfBounds (hr : Represents lo hi s h) (hle : lo + 4999 < b.addr + 32) :
    myfree (b.addr + 32) s = (.outOfBounds, s) := by
  rw [myfree, if_pos]
  rw [hr.head]
  exact .inr hle

end Myfree

/-! ## The head -/

theorem mergePrev_head (f : ℕ) (h : HeapState) : (mergePrev f h).2.head = h.head := by
  rw [mergePrev]
  split
  · rfl
  · rfl

theorem mergeNext_head (f : ℕ) (h : HeapState) : (mergeNext f h).head = h.head := by
  rw [mergeNext]
  dsimp only
  split
  · rfl
  · rfl

/-- `myfree` moves no `head`. -/
theorem myfree_head (x : ℕ) (h : HeapState) : (myfree x h).2.head = h.head := by
  by_cases hbounds : x < h.head + sizeofMementry ∨ h.head + 4999 < x
  · rw [myfree, if_pos hbounds]
  · rw [myfree, if_neg hbounds]
    by_cases hcode : (entryAt h.mem (x - sizeofMementry)).code = mycode
    · by_cases hfree : (entryAt h.mem (x - sizeofMementry)).free = 1
      · simp only [if_pos hcode, if_pos hfree]
      · simp only [if_pos hcode, if_neg hfree, mergeNext_head, mergePrev_head]
    · simp only [if_neg hcode]

end MyPthread.Heap
