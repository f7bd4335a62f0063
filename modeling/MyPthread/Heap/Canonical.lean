import MyPthread.Lib.Gaps
import MyPthread.Heap.Frees

/-!
# The allocated blocks determine the heap

Two heaps over one region are the same list of headers if the same blocks are allocated in
them, whatever calls have led to them, and where fewer blocks are allocated more requests
are served.  Only `middle` keeps a trace of the calls, and requests of less than 100 bytes
do not read it.
-/

namespace MyPthread.Heap

open MyPthread.Lib

/-- The allocated blocks of a list of headers, with their sizes. -/
def occupied (m : Mem) (ps : List ℕ) : List (ℕ × ℤ) :=
  (ps.filter fun q ↦ (entryAt m q).free = 0).map fun q ↦ (q, (entryAt m q).size)

namespace Layout

variable {h h' : Layout} {x lo hi : ℕ}

/-- The headers of the allocated blocks. -/
def occupied (h : Layout) : List (ℕ × ℤ) :=
  (h.blocks.filter fun b ↦ !b.free).map fun b ↦ (b.addr, (b.size : ℤ))

theorem mem_occupied {e : ℕ × ℤ} :
    e ∈ h.occupied ↔ ∃ b, h.Allocated b ∧ (b.addr, (b.size : ℤ)) = e := by
  simp only [occupied, List.mem_map, List.mem_filter, Bool.not_eq_true', Allocated]

theorem within_of_occupied (hsub : h.occupied ⊆ h'.occupied) : Within h.blocks h'.blocks := by
  intro b hb hf
  obtain ⟨d, ⟨hd, hdf⟩, heq⟩ := mem_occupied.mp (hsub (mem_occupied.mpr ⟨b, ⟨hb, hf⟩, rfl⟩))
  obtain ⟨haddr, hsize⟩ := Prod.mk.inj heq
  have hdb : d = b := Block.ext haddr (by exact_mod_cast hsize) (hdf.trans hf.symm)
  exact hdb ▸ hd

/-- Where fewer blocks are allocated, a request is served if it is served elsewhere. -/
theorem WF.malloc_mono (hw : h.WF lo hi) (hw' : h'.WF lo hi) (hsub : h.occupied ⊆ h'.occupied)
    (h₀ : (h'.malloc x).1 ≠ 0) : (h.malloc x).1 ≠ 0 := by
  rw [ne_eq, malloc_eq_zero_iff] at h₀ ⊢
  push Not at h₀ ⊢
  obtain ⟨d, hd, hfit⟩ := h₀
  obtain ⟨hf, hx⟩ := Block.fits_iff.mp hfit
  obtain ⟨b, hb, hbf, hbd, hdb⟩ :=
    hw.tiles.exists_free (by omega) hw.coalesced hw'.tiles (within_of_occupied hsub) hd hf
  refine ⟨b, hb, Block.fits_iff.mpr ⟨hbf, ?_⟩⟩
  unfold Block.stop at hdb
  omega

theorem WF.blocks_eq (hw : h.WF lo hi) (hw' : h'.WF lo hi)
    (heq : ∀ e, e ∈ h.occupied ↔ e ∈ h'.occupied) : h.blocks = h'.blocks :=
  hw.tiles.eq_of_within (by omega) hw.coalesced hw'.tiles hw'.coalesced
    (within_of_occupied fun e ↦ (heq e).mp) (within_of_occupied fun e ↦ (heq e).mpr)

/-- Small requests do not read `middle`. -/
theorem malloc_fst_congr (hb : h.blocks = h'.blocks) (hx : x < 100 ∨ h.middle = h'.middle) :
    (h.malloc x).1 = (h'.malloc x).1 := by
  rcases hx with hx | hm
  · have hs : h.search x = h'.search x := by
      rw [search_small hx, search_small hx, hb]
    cases hsx : h.search x with
    | none => rw [malloc_of_search_none hsx, malloc_of_search_none (hs.symm.trans hsx)]
    | some found => rw [malloc_of_search hsx, malloc_of_search (hs.symm.trans hsx)]
  · rw [Layout.ext hb hm]

end Layout

section Runs

variable {R : Region} {c c' : Client} {h : Layout} {s : HeapState} {lo hi x p : ℕ} {ps ps' : List ℕ}

/-- The occupied headers in memory are those of the layout. -/
theorem Represents.occupied (hr : Represents lo hi s h) :
    occupied s.mem (h.blocks.map Block.addr) = h.occupied := by
  have hfilter : h.blocks.filter ((fun q ↦ decide ((entryAt s.mem q).free = 0)) ∘ Block.addr) =
      h.blocks.filter fun b ↦ !b.free := by
    refine List.filter_congr fun b hb ↦ ?_
    rw [Function.comp_apply, (hr.seg.entry_of_mem hb).2.2]
    cases b.free <;> simp
  rw [Heap.occupied, List.filter_map, List.map_map, hfilter, Layout.occupied]
  refine List.map_congr_left fun b hb ↦ ?_
  exact congrArg (Prod.mk b.addr) (hr.seg.entry_of_mem (List.mem_of_mem_filter hb)).1

/-- The headers of one list of blocks are the same in two memories. -/
theorem Seg.entry_eq {m m' : Mem} {prev next : ℕ} {bs : List Block} {b : Block}
    (h : Seg m prev bs next) (h' : Seg m' prev bs next) (hb : b ∈ bs) :
    entryAt m' b.addr = entryAt m b.addr := by
  obtain ⟨pre, post, rfl⟩ := List.append_of_mem hb
  rw [h.entry, h'.entry]

theorem Client.Inv.exists_served (hi : c.Inv R h) : ∃ s,
    mymalloc heapFuel x R.base R.bytes c.heap = some ((h.malloc x).1, s) := by
  obtain ⟨s, hm, -⟩ := mymalloc_spec (x := x) R.toFits hi.rep R.stop_lt_fuel R.base R.bytes
  exact ⟨s, hm⟩

theorem Client.Inv.heapList_eq (hi : c.Inv R h) (hps : HeapList R c.heap ps) :
    ps = h.blocks.map Block.addr := hps.follows.unique hi.rep.heapList.follows

/-- Two runs over one page that end with 50 bytes at its front: one of a single request,
the other with 200 bytes besides, before the last free. -/
theorem exists_runs_onePage : ∃ (c c₁ c₂ : Client) (h h₁ : Layout),
    Reachable onePage c ∧ Reachable onePage c₁ ∧ Reachable onePage c₂ ∧
      c.Inv onePage h ∧ c₁.Inv onePage h₁ ∧ c₂.Inv onePage h ∧
      h = ⟨[⟨4096, 50, false⟩, ⟨4178, 3982, true⟩], 4178⟩ ∧
      h₁ = ⟨[⟨4096, 50, false⟩, ⟨4178, 3750, true⟩, ⟨7960, 200, false⟩], 4178⟩ := by
  obtain ⟨s, hm, hr, -⟩ := mymalloc_fresh (x := 50) onePage.toFits onePage.header_le
    onePage.stop_lt_fuel (s := untouched) rfl
  have hp : (Layout.fresh onePage.base onePage.stop).malloc 50 =
      (4128, ⟨[⟨4096, 50, false⟩, ⟨4178, 3982, true⟩], 4178⟩) := by decide
  rw [hp] at hm hr
  have hstart : Step onePage (.malloc 50) ⟨untouched, []⟩ ⟨s, [(4128, 50)]⟩ :=
    Step.malloc (c := ⟨untouched, []⟩) (p := 4128) (by decide) hm
  have hc : Reachable onePage ⟨s, [(4128, 50)]⟩ := .start rfl hstart
  obtain ⟨h, hi⟩ := hc.exists_inv
  obtain rfl := hi.rep.unique onePage.base_pos hr
  obtain ⟨s₁, hm₁⟩ := hi.exists_served (x := 200)
  have hp₁ : (⟨[⟨4096, 50, false⟩, ⟨4178, 3982, true⟩], 4178⟩ : Layout).malloc 200 =
      (7992, ⟨[⟨4096, 50, false⟩, ⟨4178, 3750, true⟩, ⟨7960, 200, false⟩], 4178⟩) := by decide
  have hi₁ := (hi.malloc hm₁).1
  rw [hp₁] at hm₁ hi₁
  have hc₁ : Reachable onePage ⟨s₁, [(7992, 200), (4128, 50)]⟩ :=
    .step hc (Step.malloc (c := ⟨s, [(4128, 50)]⟩) (p := 7992) (by decide) hm₁)
  obtain ⟨o, s₂, hm₂, hr₂, ho⟩ := myfree_represents (b := ⟨7960, 200, false⟩) onePage.toFits
    hi₁.rep ⟨by simp, rfl⟩
  have hc₂ := hc₁.step (Step.free (x := 200) List.mem_cons_self hm₂)
  obtain ⟨h₂, hi₂⟩ := hc₂.exists_inv
  obtain rfl := hi₂.rep.unique onePage.base_pos hr₂
  exact ⟨_, _, _, _, _, hc, hc₁, hc₂, hi, hi₁, hi₂, rfl, rfl⟩

/-- A heap in which fewer blocks are allocated serves every request that another one
serves, whatever calls have led to the two. -/
theorem mymalloc_antitone (hc : Reachable R c) (hc' : Reachable R c')
    (hps : HeapList R c.heap ps) (hps' : HeapList R c'.heap ps')
    (hsub : occupied c.heap.mem ps ⊆ occupied c'.heap.mem ps') (hp : p ≠ 0)
    (hm : mymalloc heapFuel x R.base R.bytes c'.heap = some (p, s)) :
    ∃ p₁ s₁, p₁ ≠ 0 ∧ mymalloc heapFuel x R.base R.bytes c.heap = some (p₁, s₁) := by
  obtain ⟨h, hi⟩ := hc.exists_inv
  obtain ⟨h', hi'⟩ := hc'.exists_inv
  rw [hi.heapList_eq hps, hi'.heapList_eq hps', hi.rep.occupied, hi'.rep.occupied] at hsub
  obtain ⟨s', hm'⟩ := hi'.exists_served (x := x)
  obtain ⟨rfl, -⟩ := Prod.mk.inj (Option.some.inj (hm.symm.trans hm'))
  obtain ⟨s₁, hm₁⟩ := hi.exists_served (x := x)
  exact ⟨_, s₁, hi.rep.wf.malloc_mono hi'.rep.wf hsub hp, hm₁⟩

/-- With 200 bytes less allocated, 3000 bytes are found as well. -/
theorem mymalloc_antitone_onePage : ∃ (c : Client) (p : ℕ) (s : HeapState),
    Reachable onePage c ∧ p ≠ 0 ∧
      mymalloc heapFuel 3000 onePage.base onePage.bytes c.heap = some (p, s) := by
  obtain ⟨c, c₁, -, h, h₁, hc, hc₁, -, hi, hi₁, -, rfl, rfl⟩ := exists_runs_onePage
  obtain ⟨s₁, hm⟩ := hi₁.exists_served (x := 3000)
  obtain ⟨p, s, hp, hm'⟩ := mymalloc_antitone hc hc₁ hi.rep.heapList hi₁.rep.heapList
    (by rw [hi.rep.occupied, hi₁.rep.occupied]; decide) (by decide) hm
  exact ⟨c, p, s, hc, hp, hm'⟩

/-- Two heaps with the same allocated blocks are the same list of headers, and a request
for less than 100 bytes gets the same pointer from both. -/
theorem heap_determined (hc : Reachable R c) (hc' : Reachable R c')
    (hps : HeapList R c.heap ps) (hps' : HeapList R c'.heap ps')
    (heq : ∀ e, e ∈ occupied c.heap.mem ps ↔ e ∈ occupied c'.heap.mem ps') :
    ps = ps' ∧ (∀ q ∈ ps, entryAt c'.heap.mem q = entryAt c.heap.mem q) ∧
      ∀ x, x < 100 ∨ c.heap.middle = c'.heap.middle →
        ∃ p s s', mymalloc heapFuel x R.base R.bytes c.heap = some (p, s) ∧
          mymalloc heapFuel x R.base R.bytes c'.heap = some (p, s') := by
  obtain ⟨h, hi⟩ := hc.exists_inv
  obtain ⟨h', hi'⟩ := hc'.exists_inv
  obtain rfl := hi.heapList_eq hps
  obtain rfl := hi'.heapList_eq hps'
  rw [hi.rep.occupied, hi'.rep.occupied] at heq
  have hb := hi.rep.wf.blocks_eq hi'.rep.wf heq
  refine ⟨congrArg _ hb, fun q hq ↦ ?_, fun x hx ↦ ?_⟩
  · obtain ⟨b, hmem, rfl⟩ := List.mem_map.mp hq
    have hseg' := hi'.rep.seg
    rw [← hb] at hseg'
    exact hi.rep.seg.entry_eq hseg' hmem
  · rw [hi.rep.middle, hi'.rep.middle] at hx
    obtain ⟨s, hm⟩ := hi.exists_served (x := x)
    obtain ⟨s', hm'⟩ := hi'.exists_served (x := x)
    rw [← Layout.malloc_fst_congr hb hx] at hm'
    exact ⟨_, s, s', hm, hm'⟩

/-- The two runs that end with 50 bytes. -/
theorem heap_determined_onePage : ∃ (c c₂ : Client) (ps : List ℕ), Reachable onePage c ∧
    Reachable onePage c₂ ∧ HeapList onePage c.heap ps ∧ HeapList onePage c₂.heap ps ∧
      ∀ q ∈ ps, entryAt c₂.heap.mem q = entryAt c.heap.mem q := by
  obtain ⟨c, -, c₂, h, -, hc, -, hc₂, hi, -, hi₂, -, -⟩ := exists_runs_onePage
  obtain ⟨-, hentry, -⟩ := heap_determined hc hc₂ hi.rep.heapList hi₂.rep.heapList
    (by rw [hi.rep.occupied, hi₂.rep.occupied]; exact fun _ ↦ Iff.rfl)
  exact ⟨c, c₂, _, hc, hc₂, hi.rep.heapList, hi₂.rep.heapList, hentry⟩

end Runs

end MyPthread.Heap
