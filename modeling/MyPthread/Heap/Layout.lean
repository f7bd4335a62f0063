import MyPthread.Lib.Tiling

/-!
# Heap layouts

What `mymalloc` and `myfree` are for, with no memory and no pointers: a layout
is the list of blocks that tiles a region, together with the address of the
block `middle` points at.  Allocating picks a free block (first fit in address
order for small requests; right of `middle`, then nearest to the left of it, for
larger ones) and carves the request out of it; releasing marks a block free and
merges it with its free neighbours.

`Layout.WF` is the invariant of the component.  `Heap.Represent` connects these
definitions to the headers in memory.
-/

namespace MyPthread.Heap

open MyPthread.Lib

/-- A list of blocks and the address of the middle block. -/
@[ext]
structure Layout where
  blocks : List Block
  middle : ℕ
deriving DecidableEq, Repr

namespace Layout

/-- A layout of the region `[lo, hi)`. -/
structure WF (lo hi : ℕ) (h : Layout) : Prop where
  /-- The blocks cover the region exactly. -/
  tiles : Tiles 32 lo h.blocks hi
  /-- No two neighbouring blocks are both free. -/
  coalesced : Coalesced h.blocks
  /-- `middle` is the address of a block. -/
  middle_mem : ∃ b ∈ h.blocks, b.addr = h.middle

/-- An allocated block of the layout. -/
def Allocated (h : Layout) (b : Block) : Prop := b ∈ h.blocks ∧ b.free = false

/-- The layout of a fresh region: one free block. -/
def fresh (lo hi : ℕ) : Layout := ⟨[⟨lo, hi - lo - 32, true⟩], lo⟩

theorem wf_fresh {lo hi : ℕ} (h : lo + 32 ≤ hi) : (fresh lo hi).WF lo hi where
  tiles := ⟨rfl, by
    show lo + 32 + (hi - lo - 32) = hi
    omega⟩
  coalesced := List.isChain_singleton _
  middle_mem := ⟨_, List.mem_cons_self, rfl⟩

/-! ## Allocation -/

/-- Which of the three searches found the block. -/
inductive Side where
  | fromHead
  | right
  | left
deriving DecidableEq, Repr

/-- The block an allocation of `x` bytes uses. -/
def search (x : ℕ) (h : Layout) : Option (Side × Block) :=
  if x < 100 then (h.blocks.find? (Block.fits x)).map (Side.fromHead, ·)
  else
    ((h.blocks.filter (h.middle < ·.addr)).find? (Block.fits x)).map (Side.right, ·) <|>
      ((h.blocks.filter (·.addr ≤ h.middle)).reverse.find? (Block.fits x)).map (Side.left, ·)

/-- The block handed out when `x` bytes are taken from `b`: its front, its back
for a block found left of `middle`, or all of it when no header fits after the
request. -/
def taken (side : Side) (x : ℕ) (b : Block) : Block :=
  if x + 32 < b.size then
    match side with
    | .left => ⟨b.addr + 32 + (b.size - x - 32), x, false⟩
    | _ => ⟨b.addr, x, false⟩
  else { b with free := false }

/-- What `b` is replaced by when `x` bytes are taken from it. -/
def carve (side : Side) (x : ℕ) (b : Block) : List Block :=
  if x + 32 < b.size then
    match side with
    | .left => [⟨b.addr, b.size - x - 32, true⟩, taken side x b]
    | _ => [taken side x b, ⟨b.addr + 32 + x, b.size - 32 - x, true⟩]
  else [taken side x b]

/-- Replace the block `b` by `new`. -/
def subst (b : Block) (new : List Block) : List Block → List Block
  | [] => []
  | c :: cs => if c = b then new ++ cs else c :: subst b new cs

/-- Take `x` bytes from `b`.  Only a split found from `head` moves `middle`. -/
def take (side : Side) (x : ℕ) (b : Block) (h : Layout) : Layout where
  blocks := subst b (carve side x b) h.blocks
  middle := if side = .fromHead ∧ b.addr = h.middle ∧ x + 32 < b.size then b.addr + 32 + x
    else h.middle

/-- Allocate `x` bytes: the pointer handed out (`0` when no block fits) and the
new layout. -/
def malloc (x : ℕ) (h : Layout) : ℕ × Layout :=
  match h.search x with
  | none => (0, h)
  | some (side, b) => ((taken side x b).addr + 32, h.take side x b)

section Search

variable {x lo hi : ℕ} {side : Side} {b : Block} {h : Layout}

theorem search_small (hx : x < 100) : h.search x =
    (h.blocks.find? (Block.fits x)).map (Side.fromHead, ·) := if_pos hx

theorem search_large (hx : ¬x < 100) : h.search x =
    (((h.blocks.filter (h.middle < ·.addr)).find? (Block.fits x)).map (Side.right, ·)).or
      (((h.blocks.filter (·.addr ≤ h.middle)).reverse.find? (Block.fits x)).map
        (Side.left, ·)) := by
  rw [search, if_neg hx, Option.orElse_eq_orElse, Option.orElse_eq_or]

theorem malloc_of_search_none (hs : h.search x = none) : h.malloc x = (0, h) := by
  rw [malloc, hs]

theorem malloc_of_search (hs : h.search x = some (side, b)) :
    h.malloc x = ((taken side x b).addr + 32, h.take side x b) := by
  rw [malloc, hs]

/-- The block found is a free block of the layout that holds the request. -/
theorem search_some (hs : h.search x = some (side, b)) :
    b ∈ h.blocks ∧ b.free = true ∧ x ≤ b.size := by
  have key : ∀ {bs : List Block}, bs.find? (Block.fits x) = some b → (∀ c ∈ bs, c ∈ h.blocks) →
      b ∈ h.blocks ∧ b.free = true ∧ x ≤ b.size := fun hf hsub ↦
    ⟨hsub b (List.mem_of_find?_eq_some hf), Block.fits_iff.mp (List.find?_some hf)⟩
  by_cases hx : x < 100
  · simp only [search_small hx, Option.map_eq_some_iff, Prod.mk.injEq] at hs
    obtain ⟨c, hf, -, rfl⟩ := hs
    exact key hf fun c hc ↦ hc
  · simp only [search_large hx, Option.or_eq_some_iff, Option.map_eq_some_iff,
      Prod.mk.injEq] at hs
    rcases hs with ⟨c, hf, -, rfl⟩ | ⟨-, c, hf, -, rfl⟩
    · exact key hf fun c hc ↦ List.mem_of_mem_filter hc
    · exact key hf fun c hc ↦ List.mem_of_mem_filter (List.mem_reverse.mp hc)

end Search

section Carve

variable {x lo hi : ℕ} {side : Side} {b : Block}

theorem taken_free : (taken side x b).free = false := by
  unfold taken
  split
  · cases side <;> rfl
  · rfl

/-- The block handed out holds the request. -/
theorem le_taken_size (hx : x ≤ b.size) : x ≤ (taken side x b).size := by
  unfold taken
  split
  · cases side <;> exact le_refl x
  · exact hx

theorem carve_front (hs : side ≠ .left) (hx : x + 32 < b.size) : carve side x b =
    [⟨b.addr, x, false⟩, ⟨b.addr + 32 + x, b.size - 32 - x, true⟩] := by
  cases side with
  | left => exact absurd rfl hs
  | fromHead => simp [carve, taken, hx]
  | right => simp [carve, taken, hx]

theorem carve_back (hx : x + 32 < b.size) : carve .left x b =
    [⟨b.addr, b.size - x - 32, true⟩, ⟨b.addr + 32 + (b.size - x - 32), x, false⟩] := by
  simp [carve, taken, hx]

theorem carve_whole (hx : ¬x + 32 < b.size) : carve side x b = [{ b with free := false }] := by
  simp [carve, taken, hx]

theorem taken_mem_carve : taken side x b ∈ carve side x b := by
  unfold carve
  split
  · cases side <;> simp
  · simp

/-- The pieces cover the block that was carved. -/
theorem tiles_carve : Tiles 32 b.addr (carve side x b) (b.stop 32) := by
  unfold carve taken
  by_cases hx : x + 32 < b.size
  · cases side <;> simp only [if_pos hx, Tiles, Block.stop, true_and] <;> omega
  · rw [if_neg hx, if_neg hx]
    exact ⟨rfl, rfl⟩

theorem coalesced_carve : Coalesced (carve side x b) := by
  have hf : (taken side x b).free = false := taken_free
  unfold carve
  split
  · cases side <;> simp [Coalesced, hf]
  · exact List.isChain_singleton _

/-- The block handed out is the only allocated piece. -/
theorem eq_taken_of_mem_carve {c : Block} (hc : c ∈ carve side x b) (hf : c.free = false) :
    c = taken side x b := by
  unfold carve at hc
  split at hc
  · cases side <;> simp only [List.mem_cons, List.not_mem_nil, or_false] at hc
    all_goals
      rcases hc with rfl | rfl
      all_goals first | rfl | simp at hf
  · simpa using hc

theorem subst_append {pre post new : List Block} (h : b ∉ pre) :
    subst b new (pre ++ b :: post) = pre ++ (new ++ post) := by
  induction pre with
  | nil => simp [subst]
  | cons c pre ih =>
    rw [List.mem_cons, not_or] at h
    rw [List.cons_append, subst, if_neg (Ne.symm h.1), ih h.2, List.cons_append]

end Carve

namespace WF

variable {x lo hi : ℕ} {side : Side} {b : Block} {h : Layout}

/-- A layout around one of its blocks. -/
theorem exists_split (hw : h.WF lo hi) (hb : b ∈ h.blocks) :
    ∃ pre post, h.blocks = pre ++ b :: post ∧ b ∉ pre := by
  obtain ⟨pre, post, heq⟩ := List.append_of_mem hb
  refine ⟨pre, post, heq, fun hpre ↦ ?_⟩
  have ht := hw.tiles
  rw [heq] at ht
  have := ((Tiles.split_iff.mp ht).1.bounds hpre).2
  unfold Block.stop at this
  omega

/-- The blocks right of `middle`, and those up to it. -/
theorem exists_split_middle (hw : h.WF lo hi) : ∃ pre c post, h.blocks = pre ++ c :: post ∧
    c.addr = h.middle ∧ h.blocks.filter (h.middle < ·.addr) = post ∧
      h.blocks.filter (·.addr ≤ h.middle) = pre ++ [c] := by
  obtain ⟨c, hc, hcm⟩ := hw.middle_mem
  obtain ⟨pre, post, heq, -⟩ := hw.exists_split hc
  obtain ⟨hpre, hpost⟩ := Tiles.split_iff.mp (heq ▸ hw.tiles)
  have hleft : ∀ d ∈ pre, d.addr < h.middle := fun d hd ↦ by
    have := (hpre.bounds hd).2
    unfold Block.stop at this
    omega
  have hright : ∀ d ∈ post, h.middle < d.addr := fun d hd ↦ by
    have := (hpost.bounds hd).1
    unfold Block.stop at this
    omega
  refine ⟨pre, c, post, heq, hcm, ?_, ?_⟩
  · rw [heq, List.filter_append, List.filter_cons_of_neg (by simp [hcm]),
      List.filter_eq_nil_iff.mpr, List.filter_eq_self.mpr, List.nil_append]
    · simpa using hright
    · intro d hd
      have := hleft d hd
      simp only [decide_eq_true_eq]
      omega
  · rw [heq, List.filter_append, List.filter_cons_of_pos (by simp [hcm]),
      List.filter_eq_self.mpr, List.filter_eq_nil_iff.mpr]
    · intro d hd
      have := hright d hd
      simp only [decide_eq_true_eq]
      omega
    · intro d hd
      have := hleft d hd
      simp only [decide_eq_true_eq]
      omega

/-- Taking from a free block keeps the layout well formed. -/
theorem take (hw : h.WF lo hi) (hb : b ∈ h.blocks) (hf : b.free = true) :
    (h.take side x b).WF lo hi := by
  obtain ⟨pre, post, heq, hpre⟩ := hw.exists_split hb
  have hblocks : (h.take side x b).blocks = pre ++ (carve side x b ++ post) := by
    rw [Layout.take, heq, subst_append hpre]
  refine ⟨?_, ?_, ?_⟩
  · rw [hblocks]
    exact Tiles.replace (heq ▸ hw.tiles) tiles_carve
  · rw [hblocks]
    exact Coalesced.replace (heq ▸ hw.coalesced) hf coalesced_carve
  · rw [hblocks]
    by_cases hm : side = .fromHead ∧ b.addr = h.middle ∧ x + 32 < b.size
    · -- `middle` moves to the rest of the block it was on
      obtain ⟨rfl, hmid, hx⟩ := hm
      refine ⟨⟨b.addr + 32 + x, b.size - 32 - x, true⟩, ?_, ?_⟩
      · simp [carve, hx]
      · simp [Layout.take, hmid, hx]
    · have hmiddle : (h.take side x b).middle = h.middle := by
        rw [Layout.take, if_neg hm]
      rw [hmiddle]
      obtain ⟨c, hc, hcm⟩ := hw.middle_mem
      rw [heq, List.mem_append, List.mem_cons] at hc
      rcases hc with hc | rfl | hc
      · exact ⟨c, by simp [hc], hcm⟩
      · obtain ⟨d, ds, hd, hda⟩ : ∃ d ds, carve side x c = d :: ds ∧ d.addr = c.addr := by
          unfold carve taken
          split
          · cases side <;> exact ⟨_, _, rfl, rfl⟩
          · exact ⟨_, _, rfl, rfl⟩
        exact ⟨d, by simp [hd], hda.trans hcm⟩
      · exact ⟨c, by simp [hc], hcm⟩

/-- After taking from a free block the allocated blocks are the old ones and the
one handed out. -/
theorem allocated_take (hw : h.WF lo hi) (hb : b ∈ h.blocks) (hf : b.free = true) {c : Block} :
    (h.take side x b).Allocated c ↔ h.Allocated c ∨ c = taken side x b := by
  obtain ⟨pre, post, heq, hpre⟩ := hw.exists_split hb
  have hblocks : (h.take side x b).blocks = pre ++ (carve side x b ++ post) := by
    rw [Layout.take, heq, subst_append hpre]
  simp only [Allocated, hblocks, heq, List.mem_append, List.mem_cons]
  constructor
  · rintro ⟨hc | hc | hc, hcf⟩
    · exact .inl ⟨.inl hc, hcf⟩
    · exact .inr (eq_taken_of_mem_carve hc hcf)
    · exact .inl ⟨.inr (.inr hc), hcf⟩
  · rintro (⟨hc | rfl | hc, hcf⟩ | rfl)
    · exact ⟨.inl hc, hcf⟩
    · rw [hf] at hcf
      cases hcf
    · exact ⟨.inr (.inr hc), hcf⟩
    · exact ⟨.inr (.inl taken_mem_carve), taken_free⟩

end WF

section Malloc

variable {x lo hi : ℕ} {h : Layout}

theorem WF.malloc (hw : h.WF lo hi) : (h.malloc x).2.WF lo hi := by
  cases hs : h.search x with
  | none => rwa [malloc_of_search_none hs]
  | some found =>
    obtain ⟨hb, hf, -⟩ := search_some hs
    rw [malloc_of_search hs]
    exact hw.take hb hf

/-- A refused request leaves the layout alone. -/
theorem malloc_eq_self (h₀ : (h.malloc x).1 = 0) : (h.malloc x).2 = h := by
  cases hs : h.search x with
  | none => rw [malloc_of_search_none hs]
  | some found =>
    rw [malloc_of_search hs] at h₀
    omega

/-- A granted request adds one allocated block, at a new address, and no other
allocated block changes. -/
theorem WF.malloc_allocated (hw : h.WF lo hi) (h₀ : (h.malloc x).1 ≠ 0) :
    ∃ b, b.addr + 32 = (h.malloc x).1 ∧ x ≤ b.size ∧
      (∀ c, (h.malloc x).2.Allocated c ↔ h.Allocated c ∨ c = b) ∧
      ∀ c, h.Allocated c → c.addr ≠ b.addr := by
  cases hs : h.search x with
  | none => rw [malloc_of_search_none hs] at h₀; exact absurd rfl h₀
  | some found =>
    obtain ⟨side, b⟩ := found
    obtain ⟨hb, hf, hx⟩ := search_some hs
    rw [malloc_of_search hs]
    refine ⟨taken side x b, rfl, le_taken_size hx, fun c ↦ hw.allocated_take hb hf, ?_⟩
    rintro c ⟨hc, hcf⟩ haddr
    have hne : c ≠ b := fun hcb ↦ by
      rw [hcb, hf] at hcf
      cases hcf
    have hdisj := hw.tiles.disjoint hc hb hne
    have htaken : b.addr ≤ (taken side x b).addr ∧ (taken side x b).stop 32 ≤ b.stop 32 :=
      tiles_carve.bounds taken_mem_carve
    have hlt := Tiles.addr_lt_stop (o := 32) (by omega) (taken side x b)
    have hclt := Tiles.addr_lt_stop (o := 32) (by omega) c
    omega

end Malloc

/-! ## Release -/

/-- Release the block with header at `a`: mark it free and merge.  `middle`
follows the block that covers it. -/
def release (a : ℕ) (h : Layout) : Layout :=
  let bs := coalesce 32 (mark a h.blocks)
  ⟨bs, (cover 32 bs h.middle).getD h.middle⟩

namespace WF

variable {a lo hi : ℕ} {h : Layout}

/-- Releasing keeps the layout well formed. -/
theorem release (hw : h.WF lo hi) : (h.release a).WF lo hi where
  tiles := tiles_coalesce (tiles_mark hw.tiles)
  coalesced := coalesced_coalesce _
  middle_mem := by
    obtain ⟨c, hc, hcm⟩ := hw.middle_mem
    obtain ⟨hlo, hstop⟩ := hw.tiles.bounds hc
    have hlt := Tiles.addr_lt_stop (o := 32) (by omega) c
    obtain ⟨b, hb, hcov⟩ := exists_cover (x := h.middle)
      (tiles_coalesce (tiles_mark (a := a) hw.tiles)) (by omega) (by omega)
    refine ⟨b, hb, ?_⟩
    simp only [Layout.release, hcov, Option.getD_some]

/-- Releasing removes the block at `a` from the allocated ones, and nothing
else. -/
theorem allocated_release {c : Block} :
    (h.release a).Allocated c ↔ h.Allocated c ∧ c.addr ≠ a := by
  simp only [Allocated, Layout.release]
  constructor
  · rintro ⟨hc, hf⟩
    rw [mem_coalesce_of_not_free hf, mem_mark_of_not_free hf] at hc
    exact ⟨⟨hc.1, hf⟩, hc.2⟩
  · rintro ⟨⟨hc, hf⟩, hne⟩
    rw [mem_coalesce_of_not_free hf, mem_mark_of_not_free hf]
    exact ⟨⟨hc, hne⟩, hf⟩

end WF

end Layout

end MyPthread.Heap
