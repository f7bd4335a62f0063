import MyPthread.Heap.Represent

/-!
# `mymalloc` refines layout allocation

On a state that represents a layout, `mymalloc` returns what `Layout.malloc`
returns, in a state that represents the new layout, and writes to no byte
outside the list headers.

Each of the splits writes the new header, relinks the successor and updates the
block that was split; `seg_replace_two` turns these three header facts into the
new list, once for all of them.
-/

namespace MyPthread.Heap

open MyPthread.Lib

/-- The header at `n`, when there is one. -/
def linkHeader (n : ℕ) : Set ℕ := {x | n ≠ 0 ∧ x ∈ header n}

theorem mem_linkHeader {n x : ℕ} : x ∈ linkHeader n ↔ n ≠ 0 ∧ n ≤ x ∧ x < n + 32 := Iff.rfl

/-! ## Writing a new header -/

section InsertAfter

variable {S : Set ℕ} {m : Mem} {w t n : ℕ} {size free : ℤ}

theorem changesOnly_insertAfter (hn : (entryAt m w).next = n) (hwt : Apart w t)
    (ht : header t ⊆ S) (hS : linkHeader n ⊆ S) :
    ChangesOnly S m (insertAfter m w t size free) := by
  have h₁ := changesOnly_setCode ht (ChangesOnly.refl S m) mycode
  have h₂ := changesOnly_setSize ht h₁ size
  have h₃ := changesOnly_setFree ht h₂ free
  simp only [insertAfter, entryAt_setCode_of_apart hwt, entryAt_setSize_of_apart hwt,
    entryAt_setFree_of_apart hwt, entryAt_setNext_of_apart hwt, entryAt_setPrev_of_apart hwt, hn]
  have h₅ := changesOnly_setPrev ht (changesOnly_setNext ht h₃ n) w
  split
  case isTrue hn₀ => exact changesOnly_setPrev (fun x hx ↦ hS ⟨hn₀, hx⟩) h₅ t
  case isFalse => exact h₅

/-- The new header. -/
theorem entryAt_insertAfter_temp (hn : (entryAt m w).next = n) (hwt : Apart w t)
    (hnt : n ≠ 0 → Apart t n) (hn64 : n < 2 ^ 64) (hw64 : w < 2 ^ 64) :
    entryAt (insertAfter m w t size free) t = ⟨toI32 size, mycode, toI32 free, n, w⟩ := by
  simp only [insertAfter, entryAt_setCode_of_apart hwt, entryAt_setSize_of_apart hwt,
    entryAt_setFree_of_apart hwt, entryAt_setNext_of_apart hwt, entryAt_setPrev_of_apart hwt, hn]
  have hnew : entryAt (setPrev (setNext (setFree (setSize (setCode m t mycode) t size) t free)
      t n) t w) t = ⟨toI32 size, mycode, toI32 free, n, w⟩ := by
    rw [entryAt_setPrev_self hw64, entryAt_setNext_self hn64]
    simp only [entryAt_setFree_self, entryAt_setSize_self, entryAt_setCode_self]
    rfl
  split
  case isTrue hn₀ => rw [entryAt_setPrev_of_apart (hnt hn₀), hnew]
  case isFalse => exact hnew

/-- The old successor now points back at the new header. -/
theorem entryAt_insertAfter_next (hn : (entryAt m w).next = n) (hwt : Apart w t) (hn₀ : n ≠ 0)
    (hnt : Apart n t) (ht64 : t < 2 ^ 64) :
    entryAt (insertAfter m w t size free) n = { entryAt m n with prev := t } := by
  simp only [insertAfter, entryAt_setCode_of_apart hwt, entryAt_setSize_of_apart hwt,
    entryAt_setFree_of_apart hwt, entryAt_setNext_of_apart hwt, entryAt_setPrev_of_apart hwt, hn]
  rw [if_pos hn₀, entryAt_setPrev_self ht64]
  simp only [entryAt_setCode_of_apart hnt, entryAt_setSize_of_apart hnt,
    entryAt_setFree_of_apart hnt, entryAt_setNext_of_apart hnt, entryAt_setPrev_of_apart hnt]

/-- The header split is not touched while the new one is written. -/
theorem entryAt_insertAfter_walker (hn : (entryAt m w).next = n) (hwt : Apart w t)
    (hwn : n ≠ 0 → Apart w n) : entryAt (insertAfter m w t size free) w = entryAt m w := by
  refine entryAt_of_changesOnly (changesOnly_insertAfter (S := header t ∪ linkHeader n) hn hwt
    Set.subset_union_left Set.subset_union_right) fun x hx hS ↦ ?_
  rw [mem_header] at hx
  rcases hS with ht | hn
  · rw [mem_header] at ht
    unfold Apart at hwt
    omega
  · rw [mem_linkHeader] at hn
    have := hwn hn.1
    unfold Apart at this
    omega

end InsertAfter

/-! ## The new list -/

section Replace

variable {lo hi : ℕ} {m m' : Mem} {pre post : List Block} {b b₁ b₂ : Block}

/-- A header before or after the touched ones is not touched. -/
theorem entryAt_eq_of_changesOnly {S : Set ℕ} (hc : ChangesOnly S m m')
    {c : Block} (hS : ∀ x ∈ S, x < c.addr ∨ c.addr + 32 ≤ x) :
    entryAt m' c.addr = entryAt m c.addr :=
  entryAt_of_changesOnly hc fun x hx hxS ↦ by
    have := hS x hxS
    rw [mem_header] at hx
    omega

/-- Rewriting the header of one block of the list. -/
theorem seg_replace_one (ht : Tiles 32 lo (pre ++ b :: post) hi)
    (hs : Seg m 0 (pre ++ b :: post) 0) (hc : ChangesOnly (header b.addr) m m')
    (haddr : b₁.addr = b.addr)
    (he : entryAt m' b.addr = entryOf (lastAddr 0 pre) b₁ (headAddr post 0)) :
    Seg m' 0 (pre ++ ([b₁] ++ post)) 0 := by
  obtain ⟨htpre, htpost⟩ := Tiles.split_iff.mp ht
  obtain ⟨hspre, -, hspost⟩ := Seg.split_iff.mp hs
  refine Seg.split_iff.mpr ⟨?_, by rw [haddr, he]; rfl, ?_⟩
  · rw [haddr]
    refine hspre.congr fun c hcm ↦ entryAt_eq_of_changesOnly hc fun x hx ↦ ?_
    have := (htpre.bounds hcm).2
    rw [mem_header] at hx
    unfold Block.stop at this
    omega
  · rw [haddr]
    refine hspost.congr fun c hcm ↦ entryAt_eq_of_changesOnly hc fun x hx ↦ ?_
    have := (htpost.bounds hcm).1
    rw [mem_header] at hx
    unfold Block.stop at this
    omega

/-- Replacing one block of the list by two. -/
theorem seg_replace_two (ht : Tiles 32 lo (pre ++ b :: post) hi)
    (hs : Seg m 0 (pre ++ b :: post) 0)
    (hc : ChangesOnly (header b.addr ∪ header b₂.addr ∪ linkHeader (headAddr post 0)) m m')
    (hnew : Tiles 32 b.addr [b₁, b₂] (b.stop 32))
    (he₁ : entryAt m' b.addr = entryOf (lastAddr 0 pre) b₁ b₂.addr)
    (he₂ : entryAt m' b₂.addr = entryOf b.addr b₂ (headAddr post 0))
    (hen : ∀ d ∈ post.head?, entryAt m' d.addr = { entryAt m d.addr with prev := b₂.addr }) :
    Seg m' 0 (pre ++ ([b₁, b₂] ++ post)) 0 := by
  obtain ⟨htpre, htpost⟩ := Tiles.split_iff.mp ht
  obtain ⟨hspre, -, hspost⟩ := Seg.split_iff.mp hs
  obtain ⟨haddr, hb₂, hstop⟩ := hnew
  have hstop₂ : b₂.stop 32 = b.stop 32 := hstop
  unfold Block.stop at hb₂ hstop₂
  have hfar : ∀ x ∈ header b.addr ∪ header b₂.addr, b.addr ≤ x ∧ x < b.stop 32 := by
    rintro x (hx | hx)
    all_goals
      rw [mem_header] at hx
      unfold Block.stop
      omega
  refine Seg.split_iff.mpr ⟨?_, by rw [haddr, he₁]; rfl, ?_⟩
  · -- the headers before the block
    rw [haddr]
    refine hspre.congr fun c hcm ↦ entryAt_eq_of_changesOnly hc fun x hx ↦ ?_
    have hcb := (htpre.bounds hcm).2
    unfold Block.stop at hcb
    rcases hx with hx | hx
    · have := hfar x hx
      omega
    · rw [mem_linkHeader] at hx
      cases post with
      | nil => exact absurd rfl hx.1
      | cons d ds =>
        have hd : d.addr = b.stop 32 := htpost.1
        unfold Block.stop at hd
        simp only [headAddr] at hx
        omega
  · -- the new block and the headers after it
    refine ⟨by rw [he₂, haddr]; rfl, hspost.relink hen fun c hcm ↦ ?_⟩
    refine entryAt_eq_of_changesOnly hc fun x hx ↦ ?_
    cases post with
    | nil => cases hcm
    | cons d ds =>
      have hd : d.addr = b.stop 32 := htpost.1
      have hcd := (htpost.2.bounds hcm).1
      unfold Block.stop at hcd hd
      rcases hx with hx | hx
      · have := hfar x hx
        unfold Block.stop at this
        omega
      · rw [mem_linkHeader] at hx
        simp only [headAddr] at hx
        omega

end Replace

/-! ## Taking from a block -/

theorem toI32_natCast {n : ℕ} (h : n < 2147483648) : toI32 (n : ℤ) = n :=
  toI32_of_nonneg (by unfold NonnegI32; omega)

@[simp] theorem toI32_flag (f : Bool) : toI32 (if f = true then 1 else 0) =
    if f = true then 1 else 0 := by
  cases f <;> rfl

/-- The size left by a split, computed as `size_t`. -/
theorem toU64_rest {x s : ℕ} (h : x + 32 < s) (hs : s < 2147483648) :
    toU64 ((s : ℤ) - sizeofMementry - x) = s - 32 - x := by
  unfold toU64 sizeofMementry
  omega

/-- The size left by a back split: first as `unsigned int`, then as `size_t`. -/
theorem toU64_toU32_rest {x s : ℕ} (h : x + 32 < s) (hs : s < 2147483648) :
    toU64 ((toU32 ((s : ℤ) - x) : ℤ) - sizeofMementry) = s - x - 32 := by
  unfold toU64 toU32 sizeofMementry
  omega

/-- Bounds that make every address of a region a 64-bit pointer other than
`NULL` and every size an `int`. -/
structure Fits (lo hi : ℕ) : Prop where
  pos : 0 < lo
  addr : hi ≤ 2 ^ 64
  size : hi < lo + 2147483648

section Take

variable {lo hi x : ℕ} {m : Mem} {pre post : List Block} {b : Block} {S : Set ℕ}

/-- The successor of a listed block, as an address. -/
theorem headAddr_eq_stop (ht : Tiles 32 lo (pre ++ b :: post) hi) :
    headAddr post 0 = 0 ∨ headAddr post 0 = b.stop 32 ∧ b.stop 32 + 32 ≤ hi := by
  obtain ⟨-, htpost⟩ := Tiles.split_iff.mp ht
  cases post with
  | nil => exact .inl rfl
  | cons d ds =>
    refine .inr ⟨htpost.1, ?_⟩
    have := htpost.2.le
    have hd : d.addr = b.stop 32 := htpost.1
    unfold Block.stop at this hd ⊢
    omega

theorem plain_of_tiles {bs : List Block} (hf : Fits lo hi) (ht : Tiles 32 lo bs hi) (hb : b ∈ bs) :
    Plain b := by
  have hbounds := ht.bounds hb
  have := hf.pos
  have := hf.size
  unfold Block.stop at hbounds
  unfold Plain
  omega

/-- What both splits do to the header list.  `b₁` replaces the block split and
`b₂` is the new one; `hw` describes the final stores into the header of `b₁`. -/
theorem seg_split {m' : Mem} {b₁ b₂ : Block} (hf : Fits lo hi)
    (ht : Tiles 32 lo (pre ++ b :: post) hi) (hs : Seg m 0 (pre ++ b :: post) 0)
    (hnew : Tiles 32 b.addr [b₁, b₂] (b.stop 32)) {size free : ℤ}
    (hsize : toI32 size = b₂.size) (hfree : toI32 free = if b₂.free then 1 else 0)
    (hm' : m' = setNext (setFree (setSize (insertAfter m b.addr b₂.addr size free) b.addr b₁.size)
      b.addr (if b₁.free then 1 else 0)) b.addr b₂.addr)
    (hb₁ : header b.addr ⊆ S) (hb₂ : header b₂.addr ⊆ S) (hS : linkHeader (headAddr post 0) ⊆ S) :
    Seg m' 0 (pre ++ ([b₁, b₂] ++ post)) 0 ∧ ChangesOnly S m m' := by
  have hentry := hs.entry
  have hlink := headAddr_eq_stop ht
  obtain ⟨haddr, hb₂addr, hstop⟩ := hnew
  have hstop₂ : b₂.stop 32 = b.stop 32 := hstop
  have hbhi := (ht.bounds (b := b) (by simp)).2
  have h64 := hf.addr
  have hplain := plain_of_tiles hf ht (b := b) (by simp)
  unfold Block.stop at hb₂addr hstop₂ hlink hbhi
  unfold Plain at hplain
  have hn : (entryAt m b.addr).next = headAddr post 0 := by rw [hentry]; rfl
  have hwt : Apart b.addr b₂.addr := by unfold Apart; omega
  have hwn : headAddr post 0 ≠ 0 → Apart b.addr (headAddr post 0) := by unfold Apart; omega
  have htn : headAddr post 0 ≠ 0 → Apart b₂.addr (headAddr post 0) := by unfold Apart; omega
  have hchanges : ∀ T : Set ℕ, header b.addr ⊆ T → header b₂.addr ⊆ T →
      linkHeader (headAddr post 0) ⊆ T → ChangesOnly T m m' := by
    intro T h₁ h₂ h₃
    rw [hm']
    exact changesOnly_setNext h₁ (changesOnly_setFree h₁ (changesOnly_setSize h₁
      (changesOnly_insertAfter hn hwt h₂ h₃) _) _) _
  refine ⟨?_, hchanges S hb₁ hb₂ hS⟩
  refine seg_replace_two ht hs (hchanges _ (fun y hy ↦ .inl (.inl hy)) (fun y hy ↦ .inl (.inr hy))
    fun y hy ↦ .inr hy) ⟨haddr, hb₂addr, hstop⟩ ?_ ?_ ?_
  · rw [hm', entryAt_setNext_self (by omega), entryAt_setFree_self, entryAt_setSize_self,
      entryAt_insertAfter_walker hn hwt hwn, hentry]
    have hsize₁ : toI32 (b₁.size : ℤ) = b₁.size := toI32_natCast (by omega)
    rw [hsize₁, toI32_flag]
    rfl
  · rw [hm', entryAt_setNext_of_apart hwt.symm, entryAt_setFree_of_apart hwt.symm,
      entryAt_setSize_of_apart hwt.symm,
      entryAt_insertAfter_temp hn hwt htn (by omega) (by omega), hsize, hfree]
    rfl
  · intro d hd
    cases post with
    | nil => cases hd
    | cons e es =>
      rw [List.head?_cons, Option.mem_some_iff] at hd
      subst hd
      have hn₀ : headAddr (e :: es) 0 ≠ 0 := (plain_of_tiles hf ht (b := e) (by simp)).1
      have hdw : Apart e.addr b.addr := (hwn hn₀).symm
      rw [hm', entryAt_setNext_of_apart hdw, entryAt_setFree_of_apart hdw,
        entryAt_setSize_of_apart hdw]
      exact entryAt_insertAfter_next hn hwt hn₀ (htn hn₀).symm (by omega)

theorem seg_splitFront (hf : Fits lo hi) (ht : Tiles 32 lo (pre ++ b :: post) hi)
    (hs : Seg m 0 (pre ++ b :: post) 0) (hx : x + 32 < b.size)
    (hb₁ : header b.addr ⊆ S) (hb₂ : header (b.addr + 32 + x) ⊆ S)
    (hS : linkHeader (headAddr post 0) ⊆ S) :
    Seg (splitFront m b.addr x) 0
      (pre ++ ([⟨b.addr, x, false⟩, ⟨b.addr + 32 + x, b.size - 32 - x, true⟩] ++ post)) 0 ∧
      ChangesOnly S m (splitFront m b.addr x) := by
  have hsz := (plain_of_tiles hf ht (b := b) (by simp)).2
  refine seg_split hf ht hs ?_ ?_ rfl rfl hb₁ hb₂ hS
  · simp only [Tiles, Block.stop, true_and]
    omega
  · rw [hs.entry, entryOf, toU64_rest hx hsz]
    exact toI32_natCast (by omega)

theorem seg_splitBack (hf : Fits lo hi) (ht : Tiles 32 lo (pre ++ b :: post) hi)
    (hs : Seg m 0 (pre ++ b :: post) 0) (hx : x + 32 < b.size)
    (hb₁ : header b.addr ⊆ S) (hb₂ : header (b.addr + 32 + (b.size - x - 32)) ⊆ S)
    (hS : linkHeader (headAddr post 0) ⊆ S) :
    backRest m b.addr x = b.size - x - 32 ∧
    Seg (splitBack m b.addr x) 0
      (pre ++ ([⟨b.addr, b.size - x - 32, true⟩,
        ⟨b.addr + 32 + (b.size - x - 32), x, false⟩] ++ post)) 0 ∧
      ChangesOnly S m (splitBack m b.addr x) := by
  have hsz := (plain_of_tiles hf ht (b := b) (by simp)).2
  have hrest : ∀ m' : Mem, entryAt m' b.addr = entryAt m b.addr →
      backRest m' b.addr x = b.size - x - 32 := by
    intro m' hm'
    rw [backRest, hm', hs.entry]
    exact toU64_toU32_rest hx hsz
  refine ⟨hrest m rfl, seg_split hf ht hs ?_
    (toI32_natCast (show x < 2147483648 by omega)) (show toI32 0 = 0 from rfl) ?_ hb₁ hb₂ hS⟩
  · simp only [Tiles, Block.stop, true_and]
    omega
  · -- the header split is unchanged when its rest is computed the second time
    have hlink := headAddr_eq_stop ht
    unfold Block.stop at hlink
    have hsame : entryAt (insertAfter m b.addr (b.addr + 32 + (b.size - x - 32)) x 0) b.addr =
        entryAt m b.addr :=
      entryAt_insertAfter_walker (n := headAddr post 0) (by rw [hs.entry]; rfl)
        (by unfold Apart; omega) (by unfold Apart; omega)
    rw [splitBack, hrest m rfl]
    simp only [sizeofMementry, hrest _ hsame]
    rfl

theorem seg_takeWhole (ht : Tiles 32 lo (pre ++ b :: post) hi)
    (hs : Seg m 0 (pre ++ b :: post) 0) (hb : header b.addr ⊆ S) :
    Seg (setFree m b.addr 0) 0 (pre ++ ([{ b with free := false }] ++ post)) 0 ∧
      ChangesOnly S m (setFree m b.addr 0) := by
  refine ⟨seg_replace_one ht hs (changesOnly_setFree le_rfl (ChangesOnly.refl _ m) 0) rfl ?_,
    changesOnly_setFree hb (ChangesOnly.refl _ m) 0⟩
  rw [entryAt_setFree_self, hs.entry]
  rfl

/-- The three ways to take from a block have the same effect on the list, up to
which end of the block is handed out. -/
theorem seg_take {side : Layout.Side} (hf : Fits lo hi) (ht : Tiles 32 lo (pre ++ b :: post) hi)
    (hs : Seg m 0 (pre ++ b :: post) 0) (hb : header b.addr ⊆ S)
    (hc : ∀ c ∈ Layout.carve side x b, header c.addr ⊆ S)
    (hS : linkHeader (headAddr post 0) ⊆ S) {m' : Mem}
    (hm' : m' = if x + 32 < b.size then
      if side = .left then splitBack m b.addr x else splitFront m b.addr x
      else setFree m b.addr 0) :
    Seg m' 0 (pre ++ (Layout.carve side x b ++ post)) 0 ∧ ChangesOnly S m m' := by
  subst hm'
  by_cases hx : x + 32 < b.size
  · by_cases hside : side = .left
    · subst hside
      rw [Layout.carve_back hx] at hc ⊢
      rw [if_pos hx, if_pos rfl]
      exact (seg_splitBack hf ht hs hx hb
        (hc ⟨b.addr + 32 + (b.size - x - 32), x, false⟩ (by simp)) hS).2
    · rw [Layout.carve_front hside hx] at hc ⊢
      rw [if_pos hx, if_neg hside]
      exact seg_splitFront hf ht hs hx hb
        (hc ⟨b.addr + 32 + x, b.size - 32 - x, true⟩ (by simp)) hS
  · rw [Layout.carve_whole hx, if_neg hx]
    exact seg_takeWhole ht hs hb

end Take

/-- The bytes of the headers of `bs`. -/
def headers (bs : List Block) : Set ℕ := {x | ∃ b ∈ bs, x ∈ header b.addr}

theorem header_subset_headers {b : Block} {bs : List Block} (hb : b ∈ bs) :
    header b.addr ⊆ headers bs := fun _ hx ↦ ⟨b, hb, hx⟩

section Search

variable {lo hi x fuel : ℕ} {s : HeapState} {h : Layout} {b : Block} {side : Layout.Side}

/-- Taking from a free block, in memory and in the layout. -/
theorem represents_take (hf : Fits lo hi) (hr : Represents lo hi s h) (hb : b ∈ h.blocks)
    (hfree : b.free = true) {s' : HeapState}
    (hmem : s'.mem = if x + 32 < b.size then
      if side = .left then splitBack s.mem b.addr x else splitFront s.mem b.addr x
      else setFree s.mem b.addr 0)
    (hhead : s'.head = s.head) (hmid : s'.middle = (h.take side x b).middle) :
    Represents lo hi s' (h.take side x b) ∧
      ChangesOnly (headers h.blocks ∪ headers (h.take side x b).blocks) s.mem s'.mem := by
  obtain ⟨pre, post, heq, hpre⟩ := hr.wf.exists_split hb
  have hblocks : (h.take side x b).blocks = pre ++ (Layout.carve side x b ++ post) := by
    rw [Layout.take, heq, Layout.subst_append hpre]
  have hlink : linkHeader (headAddr post 0) ⊆ headers h.blocks := by
    intro y hy
    cases post with
    | nil => exact absurd rfl hy.1
    | cons d ds => exact ⟨d, by simp [heq], hy.2⟩
  have hcarve : ∀ c ∈ Layout.carve side x b, header c.addr ⊆ headers (h.take side x b).blocks :=
    fun c hc ↦ header_subset_headers (by simp [hblocks, hc])
  have key := seg_take hf (heq ▸ hr.wf.tiles) (heq ▸ hr.seg)
    ((header_subset_headers hb).trans Set.subset_union_left)
    (fun c hc ↦ (hcarve c hc).trans Set.subset_union_right)
    (hlink.trans Set.subset_union_left) hmem
  refine ⟨⟨hr.wf.take hb hfree, hhead.trans hr.head, hmid, ?_⟩, key.2⟩
  rw [hblocks]
  exact key.1

theorem hasRest_iff (hf : Fits lo hi) (hr : Represents lo hi s h) (hb : b ∈ h.blocks) :
    hasRest s.mem b.addr x ↔ x + 32 < b.size := by
  rw [hasRest, (hr.seg.entry_of_mem hb).1,
    toU64_of_nonneg (nonnegI32_size (plain_of_tiles hf hr.wf.tiles hb)), Int.toNat_natCast]

theorem takeFromHead_spec (hf : Fits lo hi) (hr : Represents lo hi s h) (hb : b ∈ h.blocks)
    (hfree : b.free = true) :
    ∃ s', takeFromHead b.addr x s = ((Layout.taken .fromHead x b).addr + 32, s') ∧
      Represents lo hi s' (h.take .fromHead x b) ∧
      ChangesOnly (headers h.blocks ∪ headers (h.take .fromHead x b).blocks) s.mem s'.mem := by
  have hrest := hasRest_iff (x := x) hf hr hb
  have htake : takeFromHead b.addr x s = ((Layout.taken .fromHead x b).addr + 32,
      { s with
        mem := if x + 32 < b.size then splitFront s.mem b.addr x else setFree s.mem b.addr 0
        middle := (h.take .fromHead x b).middle }) := by
    by_cases hx : x + 32 < b.size
    · simp [takeFromHead, hrest, hx, Layout.taken, Layout.take, hr.middle]
    · simp [takeFromHead, hrest, hx, Layout.taken, Layout.take, ← hr.middle]
  exact ⟨_, htake, represents_take hf hr hb hfree rfl rfl rfl⟩

theorem takeRight_spec (hf : Fits lo hi) (hr : Represents lo hi s h) (hb : b ∈ h.blocks)
    (hfree : b.free = true) :
    ∃ s', takeRight b.addr x s = ((Layout.taken .right x b).addr + 32, s') ∧
      Represents lo hi s' (h.take .right x b) ∧
      ChangesOnly (headers h.blocks ∪ headers (h.take .right x b).blocks) s.mem s'.mem := by
  have hrest := hasRest_iff (x := x) hf hr hb
  have htake : takeRight b.addr x s = ((Layout.taken .right x b).addr + 32,
      { s with
        mem := if x + 32 < b.size then splitFront s.mem b.addr x else setFree s.mem b.addr 0
        middle := (h.take .right x b).middle }) := by
    by_cases hx : x + 32 < b.size
    · simp [takeRight, hrest, hx, Layout.taken, Layout.take, ← hr.middle]
    · simp [takeRight, hrest, hx, Layout.taken, Layout.take, ← hr.middle]
  exact ⟨_, htake, represents_take hf hr hb hfree rfl rfl rfl⟩

theorem takeLeft_spec (hf : Fits lo hi) (hr : Represents lo hi s h) (hb : b ∈ h.blocks)
    (hfree : b.free = true) :
    ∃ s', takeLeft b.addr x s = ((Layout.taken .left x b).addr + 32, s') ∧
      Represents lo hi s' (h.take .left x b) ∧
      ChangesOnly (headers h.blocks ∪ headers (h.take .left x b).blocks) s.mem s'.mem := by
  have hrest := hasRest_iff (x := x) hf hr hb
  have htake : takeLeft b.addr x s = ((Layout.taken .left x b).addr + 32,
      { s with
        mem := if x + 32 < b.size then splitBack s.mem b.addr x else setFree s.mem b.addr 0
        middle := (h.take .left x b).middle }) := by
    by_cases hx : x + 32 < b.size
    · have hback : backRest s.mem b.addr x = b.size - x - 32 := by
        rw [backRest, (hr.seg.entry_of_mem hb).1]
        exact toU64_toU32_rest hx (plain_of_tiles hf hr.wf.tiles hb).2
      simp [takeLeft, hrest, hx, Layout.taken, Layout.take, ← hr.middle, hback]
    · simp [takeLeft, hrest, hx, Layout.taken, Layout.take, ← hr.middle]
  exact ⟨_, htake, represents_take hf hr hb hfree rfl rfl rfl⟩

/-- The list has fewer blocks than the fuel allows rounds. -/
theorem length_lt_fuel (ht : Tiles 32 lo h.blocks hi) (hfuel : hi < lo + 32 * fuel) :
    h.blocks.length < fuel := by
  have := ht.length_le
  omega

/-- The searches of `mymalloc` find the block `Layout.search` names. -/
theorem mymallocFrom_eq (hf : Fits lo hi) (hr : Represents lo hi s h)
    (hfuel : hi < lo + 32 * fuel) : mymallocFrom fuel x s =
      match h.search x with
      | none => some (0, s)
      | some (.fromHead, b) => some (takeFromHead b.addr x s)
      | some (.right, b) => some (takeRight b.addr x s)
      | some (.left, b) => some (takeLeft b.addr x s) := by
  have hplain : ∀ c ∈ h.blocks, Plain c := fun c hc ↦ plain_of_tiles hf hr.wf.tiles hc
  have hlen := length_lt_fuel hr.wf.tiles hfuel
  obtain ⟨pre, mid, post, heq, hmid, hright, hleft⟩ := hr.wf.exists_split_middle
  by_cases hx : x < 100
  · have hhead : s.head = headAddr h.blocks 0 := by
      have ht := hr.wf.tiles
      rw [hr.head]
      cases hb : h.blocks with
      | nil => simp [hb] at heq
      | cons c cs =>
        rw [hb] at ht
        exact ht.1.symm
    have hwalk := walk_next (x := x) hr.seg hplain hlen
    rw [Layout.search_small hx]
    unfold mymallocFrom
    rw [if_pos hx, hhead, hwalk]
    cases hfind : h.blocks.find? (Block.fits x) with
    | none => simp
    | some b => simp [(hplain b (List.mem_of_find?_eq_some hfind)).1]
  · have hmiddle : s.middle = mid.addr := hr.middle.trans hmid.symm
    have hmid₀ : s.middle ≠ 0 := by
      rw [hmiddle]
      exact (hplain mid (by simp [heq])).1
    have hseg := hr.seg
    rw [heq] at hseg
    obtain ⟨hsegpre, hmident, hsegpost⟩ := Seg.split_iff.mp hseg
    have hnext := walk_next (x := x) hsegpost (fun c hc ↦ hplain c (by simp [heq, hc]))
      (show post.length < fuel by simp [heq] at hlen; omega)
    have hsegleft : Seg s.mem 0 (pre ++ [mid]) (headAddr post 0) :=
      Seg.append_iff.mpr ⟨hsegpre, hmident, trivial⟩
    have hsub : ∀ c ∈ pre ++ [mid], c ∈ h.blocks := fun c hc ↦ by
      rw [List.mem_append, List.mem_singleton] at hc
      rcases hc with hc | rfl <;> simp [*]
    have hprev := walk_prev (x := x) hsegleft (fun c hc ↦ hplain c (hsub c hc))
      (show (pre ++ [mid]).length < fuel by simp [heq] at hlen ⊢; omega)
    rw [lastAddr_append, lastAddr, lastAddr] at hprev
    rw [Layout.search_large hx, hright, hleft]
    unfold mymallocFrom
    rw [if_neg hx, if_neg hmid₀, hmiddle, hmident, entryOf, hnext, hprev]
    cases hfind : post.find? (Block.fits x) with
    | some b =>
      have hb : b ∈ h.blocks := by simp [heq, List.mem_of_find?_eq_some hfind]
      simp [(hplain b hb).1]
    | none =>
      cases hfind' : (pre ++ [mid]).reverse.find? (Block.fits x) with
      | none => simp
      | some b =>
        have hb := hsub b (List.mem_reverse.mp (List.mem_of_find?_eq_some hfind'))
        simp [(hplain b hb).1]

/-- A well-formed heap answers every request: `mymalloc` on it does what
`Layout.malloc` does, and writes to list headers only. -/
theorem mymallocFrom_spec (hf : Fits lo hi) (hr : Represents lo hi s h)
    (hfuel : hi < lo + 32 * fuel) :
    ∃ s', mymallocFrom fuel x s = some ((h.malloc x).1, s') ∧
      Represents lo hi s' (h.malloc x).2 ∧
      ChangesOnly (headers h.blocks ∪ headers (h.malloc x).2.blocks) s.mem s'.mem := by
  rw [mymallocFrom_eq hf hr hfuel]
  cases hs : h.search x with
  | none =>
    rw [Layout.malloc_of_search_none hs]
    exact ⟨s, rfl, hr, ChangesOnly.refl _ _⟩
  | some found =>
    obtain ⟨side, b⟩ := found
    obtain ⟨hb, hfree, -⟩ := Layout.search_some hs
    rw [Layout.malloc_of_search hs]
    cases side with
    | fromHead =>
      obtain ⟨s', htake, hrep⟩ := takeFromHead_spec (x := x) hf hr hb hfree
      exact ⟨s', congrArg some htake, hrep⟩
    | right =>
      obtain ⟨s', htake, hrep⟩ := takeRight_spec (x := x) hf hr hb hfree
      exact ⟨s', congrArg some htake, hrep⟩
    | left =>
      obtain ⟨s', htake, hrep⟩ := takeLeft_spec (x := x) hf hr hb hfree
      exact ⟨s', congrArg some htake, hrep⟩

/-- A heap that is set up is not set up again. -/
theorem mymalloc_spec (hf : Fits lo hi) (hr : Represents lo hi s h) (hfuel : hi < lo + 32 * fuel)
    (memptr : ℕ) (size : ℤ) :
    ∃ s', mymalloc fuel x memptr size s = some ((h.malloc x).1, s') ∧
      Represents lo hi s' (h.malloc x).2 ∧
      ChangesOnly (headers h.blocks ∪ headers (h.malloc x).2.blocks) s.mem s'.mem := by
  have hhead : s.head ≠ 0 := by
    have := hf.pos
    rw [hr.head]
    omega
  rw [mymalloc, if_neg hhead]
  exact mymallocFrom_spec hf hr hfuel

/-- Setting up a region makes it one free block. -/
theorem initHead_spec (hf : Fits lo hi) (h32 : lo + 32 ≤ hi) :
    ∃ s', initHead lo (hi - lo) s = some s' ∧ Represents lo hi s' (Layout.fresh lo hi) ∧
      ChangesOnly (headers (Layout.fresh lo hi).blocks) s.mem s'.mem := by
  have hpos := hf.pos
  have hsize := hf.size
  have haddr := hf.addr
  have hlo : lo ≠ 0 := by omega
  have hval : toI32 (toU64 ((hi : ℤ) - lo - sizeofMementry)) = ((hi - lo - 32 : ℕ) : ℤ) := by
    unfold sizeofMementry
    rw [toI32_toU64, ← toI32_natCast (show hi - lo - 32 < 2147483648 by omega)]
    congr 1
    omega
  have hsub : header lo ⊆ headers (Layout.fresh lo hi).blocks :=
    header_subset_headers (b := ⟨lo, hi - lo - 32, true⟩) List.mem_cons_self
  refine ⟨_, if_neg hlo, ⟨Layout.wf_fresh h32, rfl, rfl, ⟨?_, trivial⟩⟩, ?_⟩
  · show entryAt _ lo = _
    rw [entryAt_setPrev_self (by omega), entryAt_setNext_self (by omega)]
    simp only [entryAt_setFree_self, entryAt_setCode_self, entryAt_setSize_self, hval]
    rfl
  · exact changesOnly_setPrev hsub (changesOnly_setNext hsub (changesOnly_setFree hsub
      (changesOnly_setCode hsub (changesOnly_setSize hsub (ChangesOnly.refl _ _) _) _) _) _) _

/-- The first `mymalloc` on a region, with `head == NULL`. -/
theorem mymalloc_fresh (hf : Fits lo hi) (h32 : lo + 32 ≤ hi) (hfuel : hi < lo + 32 * fuel)
    (hs : s.head = 0) :
    ∃ s', mymalloc fuel x lo (hi - lo) s = some (((Layout.fresh lo hi).malloc x).1, s') ∧
      Represents lo hi s' ((Layout.fresh lo hi).malloc x).2 ∧
      ChangesOnly (headers (Layout.fresh lo hi).blocks ∪
        headers ((Layout.fresh lo hi).malloc x).2.blocks) s.mem s'.mem := by
  obtain ⟨s₁, hinit, hr, hch⟩ := initHead_spec (s := s) hf h32
  obtain ⟨s₂, hmalloc, hr', hch'⟩ := mymallocFrom_spec (x := x) hf hr hfuel
  refine ⟨s₂, ?_, hr', (hch.mono Set.subset_union_left).trans hch'⟩
  rw [mymalloc, if_pos hs, hinit]
  exact hmalloc

end Search

end MyPthread.Heap
