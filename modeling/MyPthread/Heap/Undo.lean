import MyPthread.Heap.Search

/-!
# Freeing undoes allocating

What `mymalloc` carves out of a block, `myfree` merges with what it left of the block
and with nothing else: the block was free, so neither of its neighbours was.  `middle`
goes there and back.
-/

namespace MyPthread.Heap

open MyPthread.Lib

namespace Layout

variable {x lo hi : ℕ} {side : Side} {b : Block} {h : Layout} {pre post : List Block}

/-- A free block is merged with neither neighbour when it is marked again. -/
theorem coalesce_fused {f t : Block} (hc : Coalesced (pre ++ b :: post)) (hf : b.free = true)
    (hff : f.free = true) (htf : t.free = true) (hb : fuse 32 f t = b) :
    coalesce 32 (pre ++ f :: t :: post) = pre ++ b :: post := by
  obtain ⟨hpre, hpost, hlast⟩ := Coalesced.append_iff.mp hc
  obtain ⟨hhead, htail⟩ := Coalesced.cons_iff.mp hpost
  have hpref : Coalesced (pre ++ [f]) := by
    refine Coalesced.append_iff.mpr ⟨hpre, List.isChain_singleton f, ?_⟩
    rintro y hy z hz ⟨hyf, -⟩
    exact hlast y hy b rfl ⟨hyf, hf⟩
  have htpost : Coalesced (t :: post) := by
    refine Coalesced.cons_iff.mpr ⟨?_, htail⟩
    rintro y hy ⟨-, hyf⟩
    exact hhead y hy ⟨hf, hyf⟩
  rw [coalesce_append hpref, coalesce_of_coalesced htpost, glue_cons, if_pos ⟨hff, htf⟩, hb]

/-- The blocks after a release of what was just taken. -/
theorem WF.coalesce_mark_take (hw : h.WF lo hi) (hb : b ∈ h.blocks) (hf : b.free = true) :
    coalesce 32 (mark (taken side x b).addr (h.take side x b).blocks) = h.blocks := by
  obtain ⟨pre, post, heq, hpre⟩ := hw.exists_split hb
  have hc := hw.coalesced
  have ht : Tiles 32 lo (h.take side x b).blocks hi := (hw.take hb hf).tiles
  have hblocks : (h.take side x b).blocks = pre ++ (carve side x b ++ post) := by
    rw [Layout.take, heq, subst_append hpre]
  rw [hblocks] at ht ⊢
  rw [heq] at hc ⊢
  by_cases hsplit : x + 32 < b.size
  · by_cases hs : side = .left
    · subst hs
      have htaken : taken .left x b = ⟨b.addr + 32 + (b.size - x - 32), x, false⟩ := if_pos hsplit
      rw [carve_back hsplit, List.cons_append, List.cons_append, List.nil_append,
        List.append_cons] at ht ⊢
      rw [htaken, mark_append (by omega) ht, ← List.append_cons]
      refine coalesce_fused hc hf rfl rfl ?_
      rw [fuse, Block.mk.injEq]
      exact ⟨rfl, by show b.size - x - 32 + 32 + x = b.size; omega, hf.symm⟩
    · have htaken : (taken side x b).addr = b.addr := taken_addr_front hs
      rw [carve_front hs hsplit, List.cons_append, List.cons_append, List.nil_append] at ht ⊢
      rw [htaken, mark_append (by omega) ht]
      refine coalesce_fused hc hf rfl rfl ?_
      rw [fuse, Block.mk.injEq]
      exact ⟨rfl, by show x + 32 + (b.size - 32 - x) = b.size; omega, hf.symm⟩
  · have htaken : taken side x b = { b with free := false } := if_neg hsplit
    rw [carve_whole hsplit, List.singleton_append] at ht ⊢
    rw [htaken, mark_append (by omega) ht]
    have hbb : { b with free := true } = b := by rw [← hf]
    rw [hbb, coalesce_of_coalesced hc]

/-- Where `middle` is after the release. -/
theorem WF.cover_middle_take (hw : h.WF lo hi) (hb : b ∈ h.blocks) :
    cover 32 h.blocks (h.take side x b).middle = some h.middle := by
  unfold Layout.take
  dsimp only
  split_ifs with hm
  · -- `middle` moved to the rest of its block
    obtain ⟨-, hbm, hx⟩ := hm
    obtain ⟨pre, post, heq, -⟩ := hw.exists_split hb
    have ht := hw.tiles
    rw [heq] at ht ⊢
    rw [cover_append_of_le, cover_cons_of_lt, hbm]
    · unfold Block.stop
      omega
    · intro c hc
      have := ((Tiles.split_iff.mp ht).1.bounds hc).2
      omega
  · obtain ⟨c, hc, hcm⟩ := hw.middle_mem
    obtain ⟨pre, post, heq, -⟩ := hw.exists_split hc
    have ht := hw.tiles
    rw [heq] at ht ⊢
    rw [← hcm]
    exact cover_addr (by omega) ht

/-- Releasing what was just allocated gives the layout back. -/
theorem WF.release_malloc (hw : h.WF lo hi) (h₀ : (h.malloc x).1 ≠ 0) :
    (h.malloc x).2.release ((h.malloc x).1 - 32) = h := by
  cases hs : h.search x with
  | none =>
    rw [malloc_of_search_none hs] at h₀
    exact absurd rfl h₀
  | some found =>
    obtain ⟨side, b⟩ := found
    obtain ⟨hb, hf, -⟩ := search_some hs
    rw [malloc_of_search hs]
    simp only [Layout.release, Nat.add_sub_cancel, hw.coalesce_mark_take hb hf,
      hw.cover_middle_take hb, Option.getD_some]

end Layout

/-- On one page, `myfree` of what `mymalloc` just returned gives the list of headers and
`middle` back. -/
theorem myfree_undoes_mymalloc {R : Region} {c : Client} {ps : List ℕ} {x p : ℕ} {s : HeapState}
    (hone : R.pages = 1) (hc : Reachable R c) (hps : HeapList R c.heap ps)
    (hm : mymalloc heapFuel x R.base R.bytes c.heap = some (p, s)) (hp : p ≠ 0) :
    ∃ s', myfree p s = (.released, s') ∧ HeapList R s' ps ∧ s'.head = c.heap.head ∧
      s'.middle = c.heap.middle ∧ ∀ q ∈ ps, entryAt s'.mem q = entryAt c.heap.mem q := by
  obtain ⟨h, hi⟩ := hc.exists_inv
  have hr := hi.rep
  obtain rfl := hps.follows.unique hr.heapList.follows
  obtain ⟨s₁, hm', hr', -⟩ := mymalloc_spec (x := x) R.toFits hr R.stop_lt_fuel R.base R.bytes
  obtain ⟨rfl, rfl⟩ : p = (h.malloc x).1 ∧ s = s₁ := by
    rw [hm'] at hm
    simpa [eq_comm] using hm
  obtain ⟨b, hbp, -, halloc, -⟩ := hr.wf.malloc_allocated hp
  have hb : (h.malloc x).2.Allocated b := (halloc b).mpr (.inr rfl)
  have hbound := (hr'.wf.tiles.bounds hb.1).2
  obtain ⟨s', hfree, hr'', -⟩ := myfree_released R.toFits hr' hb (by
    unfold Block.stop Region.stop Region.bytes at hbound
    rw [hone] at hbound
    omega)
  rw [show b.addr = (h.malloc x).1 - 32 by omega, hr.wf.release_malloc hp] at hr''
  rw [hbp] at hfree
  refine ⟨s', hfree, hr''.heapList, hr''.head.trans hr.head.symm,
    hr''.middle.trans hr.middle.symm, ?_⟩
  intro q hq
  obtain ⟨d, hd, rfl⟩ := List.mem_map.mp hq
  exact hr.entry_eq hr'' hd

/-- Over a page on which 50 bytes are allocated, 200 bytes and back. -/
theorem myfree_undoes_mymalloc_onePage : ∃ (c : Client) (s s' : HeapState),
    c.live = [(4128, 50)] ∧
      mymalloc heapFuel 200 onePage.base onePage.bytes c.heap = some (7992, s) ∧
      myfree 7992 s = (.released, s') ∧ s'.middle = c.heap.middle := by
  obtain ⟨s₀, hm₀, hr₀, -⟩ := mymalloc_fresh (x := 50) onePage.toFits onePage.header_le
    onePage.stop_lt_fuel (s := untouched) rfl
  have hp₀ : ((Layout.fresh onePage.base onePage.stop).malloc 50).1 = 4128 := by decide
  obtain ⟨s, hm, -⟩ :=
    mymalloc_spec (x := 200) onePage.toFits hr₀ onePage.stop_lt_fuel onePage.base onePage.bytes
  have hp : (((Layout.fresh onePage.base onePage.stop).malloc 50).2.malloc 200).1 = 7992 := by
    decide
  rw [hp₀] at hm₀
  rw [hp] at hm
  have hc : Reachable onePage ⟨s₀, [(4128, 50)]⟩ :=
    .start rfl (Step.malloc (c := ⟨untouched, []⟩) (p := 4128) (by decide) hm₀)
  obtain ⟨s', hfree, -, -, hmid, -⟩ :=
    myfree_undoes_mymalloc rfl hc hr₀.heapList hm (by decide)
  exact ⟨_, s, s', rfl, hm, hfree, hmid⟩

end MyPthread.Heap
