import MyPthread.Heap.Undo

/-!
# Many frees

Blocks can be released in any order: the ones that stay apart, and the merged ones, are the same
in the end, and so is the block that `middle` comes to.  Where all blocks have been released one
free block is left, which is the whole region.
-/

namespace MyPthread.Heap

open MyPthread.Lib

namespace Layout

variable {a b lo hi : ℕ} {h : Layout} {as bs : List ℕ}

/-! ## The order of releases -/

/-- Release blocks one after the other. -/
def releases (as : List ℕ) (h : Layout) : Layout := as.foldl (fun h a ↦ h.release a) h

/-- `middle` is in a block whatever is merged. -/
theorem WF.exists_cover_middle (hw : h.WF lo hi) {bs : List Block} (ht : Tiles 32 lo bs hi) :
    ∃ y, cover 32 bs h.middle = some y := by
  obtain ⟨c, hc, hcm⟩ := hw.middle_mem
  obtain ⟨hlo, hhi⟩ := hw.tiles.bounds hc
  have hlt := Tiles.addr_lt_stop (o := 32) (by omega) c
  obtain ⟨d, -, hd⟩ := exists_cover (x := h.middle) ht (by omega) (by omega)
  exact ⟨d.addr, hd⟩

/-- Two blocks that are released are merged as if they had been released at once. -/
theorem WF.release_release (hw : h.WF lo hi) (a b : ℕ) : (h.release a).release b =
    ⟨coalesce 32 (mark b (mark a h.blocks)),
      (cover 32 (coalesce 32 (mark b (mark a h.blocks))) h.middle).getD h.middle⟩ := by
  have ht := tiles_coalesce (tiles_mark (a := a) hw.tiles)
  obtain ⟨y, hy⟩ := hw.exists_cover_middle ht
  obtain ⟨z, hz⟩ := hw.exists_cover_middle (tiles_coalesce (tiles_mark (a := b) ht))
  have hyz : cover 32 (coalesce 32 (mark b (coalesce 32 (mark a h.blocks)))) y = some z := by
    rw [← hz]
    refine (cover_coalesce (by omega) (tiles_mark ht) ?_).symm
    rw [cover_mark]
    exact hy
  rw [← @coalesce_mark_coalesce 32 b (mark a h.blocks)]
  simp only [Layout.release, hy, Option.getD_some, hyz, hz]

theorem WF.release_comm (hw : h.WF lo hi) (a b : ℕ) :
    (h.release a).release b = (h.release b).release a := by
  rw [hw.release_release, hw.release_release, mark_comm]

theorem WF.releases_perm (hw : h.WF lo hi) (hp : as.Perm bs) : h.releases as = h.releases bs := by
  induction hp generalizing h with
  | nil => rfl
  | cons a _ ih => exact ih hw.release
  | swap a b as =>
    show Layout.releases as ((h.release b).release a) = Layout.releases as ((h.release a).release b)
    rw [hw.release_comm]
  | trans _ _ ih₁ ih₂ => exact (ih₁ hw).trans (ih₂ hw)

theorem allocated_releases {c : Block} :
    (h.releases as).Allocated c ↔ h.Allocated c ∧ c.addr ∉ as := by
  induction as generalizing h with
  | nil => exact ⟨fun hc ↦ ⟨hc, List.not_mem_nil⟩, fun hc ↦ hc.1⟩
  | cons a as ih =>
    rw [List.mem_cons, not_or, ← and_assoc, ← WF.allocated_release]
    exact ih

/-- A layout without an allocated block is the fresh one. -/
theorem WF.eq_fresh (hw : h.WF lo hi) (hnone : ∀ c, ¬h.Allocated c) : h = Layout.fresh lo hi := by
  have hfree : ∀ c ∈ h.blocks, c.free = true := by
    intro c hc
    by_contra hf
    exact hnone c ⟨hc, Bool.not_eq_true _ ▸ hf⟩
  obtain ⟨c, hc, hcm⟩ := hw.middle_mem
  obtain ⟨blocks, middle⟩ := h
  have ht := hw.tiles
  have hco := hw.coalesced
  cases blocks with
  | nil => cases hc
  | cons d ds =>
    cases ds with
    | nil =>
      obtain rfl := List.mem_singleton.mp hc
      have hd := hfree c List.mem_cons_self
      obtain ⟨haddr, hstop⟩ := ht
      have hstop : c.stop 32 = hi := hstop
      obtain ⟨addr, size, free⟩ := c
      subst haddr hcm hd
      have hsum : addr + 32 + size = hi := hstop
      obtain rfl : size = hi - addr - 32 := by omega
      rfl
    | cons e es =>
      exfalso
      exact (Coalesced.cons_iff.mp hco).1 e rfl
        ⟨hfree d List.mem_cons_self, hfree e (List.mem_cons_of_mem _ List.mem_cons_self)⟩

end Layout

/-! ## Runs of `myfree` -/

/-- `myfree` of pointers, one after the other. -/
def frees (ps : List ℕ) (s : HeapState) : HeapState := ps.foldl (fun s p ↦ (myfree p s).2) s

/-- The headers that `frees` releases: of the pointers that are not out of bounds. -/
def freed (lo : ℕ) (ps : List ℕ) : List ℕ := (ps.filter (· ≤ lo + 4999)).map (· - 32)

section Frees

variable {R : Region} {c : Client} {lo hi p : ℕ} {s : HeapState} {h : Layout} {ps qs : List ℕ}

theorem mem_freed {a : ℕ} : a ∈ freed lo ps ↔ ∃ p ∈ ps, p ≤ lo + 4999 ∧ p - 32 = a := by
  simp only [freed, List.mem_map, List.mem_filter, decide_eq_true_eq, and_assoc]

/-- `myfree` of an allocated block releases it unless it is out of bounds. -/
theorem myfree_represents (hf : Fits lo hi) (hr : Represents lo hi s h) {b : Block}
    (hb : h.Allocated b) : ∃ o s', myfree (b.addr + 32) s = (o, s') ∧
      Represents lo hi s' (h.releases (freed lo [b.addr + 32])) ∧
      (o = .released ↔ b.addr + 32 ≤ lo + 4999) := by
  by_cases hle : b.addr + 32 ≤ lo + 4999
  · obtain ⟨s', hm, hr', -⟩ := myfree_released hf hr hb hle
    have hlist : freed lo [b.addr + 32] = [b.addr] := by
      simp [freed, hle]
    rw [hlist]
    exact ⟨_, s', hm, hr', fun _ ↦ hle, fun _ ↦ rfl⟩
  · have hlist : freed lo [b.addr + 32] = [] := by
      simp [freed, hle]
    rw [hlist]
    exact ⟨_, s, myfree_outOfBounds hr (not_le.mp hle), hr, fun h ↦ (nomatch h),
      fun h ↦ absurd h hle⟩

theorem freed_cons (p : ℕ) (ps : List ℕ) : freed lo (p :: ps) = freed lo [p] ++ freed lo ps := by
  rw [← List.singleton_append, freed, freed, freed, List.filter_append, List.map_append]

theorem releases_append (as bs : List ℕ) (h : Layout) :
    h.releases (as ++ bs) = (h.releases as).releases bs := List.foldl_append

/-- `frees` of different allocated blocks releases those that are in bounds. -/
theorem frees_represents (hf : Fits lo hi) (hr : Represents lo hi s h)
    (hps : ∀ p ∈ ps, ∃ b, h.Allocated b ∧ b.addr + 32 = p) (hnodup : ps.Nodup) :
    Represents lo hi (frees ps s) (h.releases (freed lo ps)) := by
  induction ps generalizing s h with
  | nil => exact hr
  | cons p ps ih =>
    obtain ⟨b, hb, rfl⟩ := hps p List.mem_cons_self
    obtain ⟨hnot, hnodup'⟩ := List.nodup_cons.mp hnodup
    obtain ⟨o, s', hm, hr', -⟩ := myfree_represents hf hr hb
    rw [freed_cons, releases_append, frees, List.foldl_cons, hm]
    refine ih hr' (fun q hq ↦ ?_) hnodup'
    obtain ⟨d, hd, rfl⟩ := hps q (List.mem_cons_of_mem _ hq)
    refine ⟨d, Layout.allocated_releases.mpr ⟨hd, fun hmem ↦ ?_⟩, rfl⟩
    obtain ⟨q, hq', -, hqa⟩ := mem_freed.mp hmem
    obtain rfl := List.mem_singleton.mp hq'
    rw [Nat.add_sub_cancel] at hqa
    exact hnot (hqa ▸ hq)

theorem freed_perm (hp : ps.Perm qs) : (freed lo ps).Perm (freed lo qs) :=
  (hp.filter _).map _

/-- The order in which live pointers are freed does not matter: the lists of headers, what is in
them and `middle` are the same in the end. -/
theorem frees_commute {R : Region} {c : Client} {ps qs : List ℕ} (hc : Reachable R c)
    (hlive : ∀ p ∈ ps, ∃ x, (p, x) ∈ c.live) (hnodup : ps.Nodup) (hperm : ps.Perm qs) :
    ∃ rs, HeapList R (frees ps c.heap) rs ∧ HeapList R (frees qs c.heap) rs ∧
      (frees ps c.heap).middle = (frees qs c.heap).middle ∧
      ∀ r ∈ rs, entryAt (frees ps c.heap).mem r = entryAt (frees qs c.heap).mem r := by
  obtain ⟨h, hi⟩ := hc.exists_inv
  have hblock : ∀ p ∈ ps, ∃ b, h.Allocated b ∧ b.addr + 32 = p := by
    intro p hp
    obtain ⟨x, hx⟩ := hlive p hp
    obtain ⟨b, hb, haddr, -⟩ := hi.alloc _ hx
    exact ⟨b, hb, haddr⟩
  have hr := frees_represents R.toFits hi.rep hblock hnodup
  have hr' := frees_represents R.toFits hi.rep (fun q hq ↦ hblock q (hperm.mem_iff.mpr hq))
    (hperm.nodup_iff.mp hnodup)
  rw [← hi.rep.wf.releases_perm (freed_perm hperm)] at hr'
  refine ⟨_, hr.heapList, hr'.heapList, hr.middle.trans hr'.middle.symm, fun r hmem ↦ ?_⟩
  obtain ⟨b, hb, rfl⟩ := List.mem_map.mp hmem
  exact hr'.entry_eq hr hb

/-- On a page on which 50 and 200 bytes are allocated, either can be freed first. -/
theorem frees_commute_onePage : ∃ (c : Client) (rs : List ℕ), c.live = [(7992, 200), (4128, 50)] ∧
    HeapList onePage (frees [7992, 4128] c.heap) rs ∧
      HeapList onePage (frees [4128, 7992] c.heap) rs := by
  obtain ⟨c, hc, hlive⟩ := exists_run_onePage
  have hmem : ∀ p ∈ [7992, 4128], ∃ x, (p, x) ∈ c.live := by
    rw [hlive]
    intro p hp
    rcases List.mem_pair.mp hp with rfl | rfl
    · exact ⟨200, List.mem_cons_self⟩
    · exact ⟨50, List.mem_cons_of_mem _ List.mem_cons_self⟩
  obtain ⟨rs, hrs, hrs', -⟩ := frees_commute hc hmem (by decide) (.swap 4128 7992 [])
  exact ⟨c, rs, hlive, hrs, hrs'⟩

/-! ## Emptying a heap -/

/-- The runs in which the client keeps every pointer until it frees it. -/
inductive Keeping (R : Region) : Client → Prop where
  | start {s : HeapState} {x : ℕ} {c : Client} : s.head = 0 → Step R (.malloc x) ⟨s, []⟩ c →
      Keeping R c
  | step {op : Op} {c c' : Client} : Keeping R c → (∀ p, op ≠ .forget p) → Step R op c c' →
      Keeping R c'

theorem Keeping.reachable (hc : Keeping R c) : Reachable R c := by
  induction hc with
  | start hs hm => exact .start hs hm
  | step _ _ hs ih => exact .step ih hs

/-- Every allocated block is live. -/
def Whole (c : Client) (h : Layout) : Prop := ∀ b, h.Allocated b → ∃ x, (b.addr + 32, x) ∈ c.live

theorem Whole.malloc {x : ℕ} (hw : Whole c h) (hwf : h.WF lo hi) {s : HeapState} :
    Whole ⟨s, if (h.malloc x).1 = 0 then c.live else ((h.malloc x).1, x) :: c.live⟩
      (h.malloc x).2 := by
  intro b hb
  by_cases h₀ : (h.malloc x).1 = 0
  · rw [Layout.malloc_eq_self h₀] at hb
    rw [if_pos h₀]
    exact hw b hb
  · obtain ⟨d, hd, -, halloc, -⟩ := hwf.malloc_allocated h₀
    rw [if_neg h₀]
    rcases (halloc b).mp hb with hb | rfl
    · obtain ⟨y, hy⟩ := hw b hb
      exact ⟨y, List.mem_cons_of_mem _ hy⟩
    · exact ⟨x, hd ▸ List.mem_cons_self⟩

/-- Every operation but forgetting keeps the allocated blocks live. -/
theorem Whole.step {c' : Client} {op : Op} (hw : Whole c h) (hi : c.Inv R h)
    (hop : ∀ p, op ≠ .forget p) (hs : Step R op c c') : ∃ h', c'.Inv R h' ∧ Whole c' h' := by
  cases hs with
  | malloc hx hm =>
    have hi' := (hi.malloc hm).1
    obtain ⟨s, hm', -⟩ := mymalloc_spec R.toFits hi.rep R.stop_lt_fuel R.base R.bytes
    obtain ⟨rfl, rfl⟩ := Prod.mk.inj (Option.some.inj (hm.symm.trans hm'))
    exact ⟨_, hi', hw.malloc hi.rep.wf⟩
  | @free _ p x o s hp hm =>
    obtain ⟨h', hi', -⟩ := hi.free hp hm
    obtain ⟨d, hd, hdp, -⟩ := hi.alloc _ hp
    obtain rfl : d.addr + 32 = p := hdp
    obtain ⟨o', s', hm', hr, ho⟩ := myfree_represents R.toFits hi.rep hd
    obtain ⟨rfl, rfl⟩ := Prod.mk.inj (hm.symm.trans hm')
    obtain rfl := hi'.rep.unique R.base_pos hr
    refine ⟨_, hi', fun b hb ↦ ?_⟩
    obtain ⟨hb, hnot⟩ := Layout.allocated_releases.mp hb
    obtain ⟨y, hy⟩ := hw b hb
    refine ⟨y, ?_⟩
    show (b.addr + 32, y) ∈ if o = .released then c.live.erase (d.addr + 32, x) else c.live
    split_ifs with hrel
    · refine (List.mem_erase_of_ne fun heq ↦ ?_).mpr hy
      obtain ⟨heq, -⟩ := Prod.mk.inj heq
      exact hnot (mem_freed.mpr ⟨_, List.mem_singleton_self _, ho.mp hrel, by omega⟩)
    · exact hy
  | write hp ha => exact ⟨h, hi.write hp ha, hw⟩
  | forget hp => exact absurd rfl (hop _)

theorem Keeping.exists_inv (hc : Keeping R c) : ∃ h, c.Inv R h ∧ Whole c h := by
  induction hc with
  | @start s x c hs hm =>
    cases hm with
    | malloc hx hm =>
      obtain ⟨s', hm', hr, -⟩ := mymalloc_fresh (x := x) R.toFits R.header_le R.stop_lt_fuel hs
      obtain ⟨h, hi⟩ := Client.Inv.start hs (.malloc hx hm)
      have hsize : ((R.stop : ℤ) - R.base) = R.bytes := by
        rw [Region.stop]
        omega
      rw [hsize] at hm'
      obtain ⟨rfl, rfl⟩ := Prod.mk.inj (Option.some.inj (hm.symm.trans hm'))
      obtain rfl := hi.rep.unique R.base_pos hr
      have hfresh : Whole ⟨s, []⟩ (Layout.fresh R.base R.stop) := by
        rintro b ⟨hb, hf⟩
        obtain rfl := List.mem_singleton.mp hb
        cases hf
      exact ⟨_, hi, hfresh.malloc (Layout.wf_fresh R.header_le)⟩
  | step _ hop hs ih =>
    obtain ⟨h, hi, hw⟩ := ih
    exact hw.step hi hop hs

/-- From `s` to `s'` the block of `p` is released, and no other. -/
def Releases (R : Region) (p : ℕ) (s s' : HeapState) : Prop :=
  ∀ qs qs', HeapList R s qs → HeapList R s' qs' → ∀ q,
    q ∈ qs' ∧ (entryAt s'.mem q).free = 0 ↔
      (q ∈ qs ∧ (entryAt s.mem q).free = 0) ∧ q ≠ p - sizeofMementry

/-- The heap is one free block, on which `middle` is. -/
structure Emptied (R : Region) (s : HeapState) : Prop where
  list : HeapList R s [R.base]
  free : (entryAt s.mem R.base).free = 1
  size : (entryAt s.mem R.base).size = 4096 * R.pages - 32
  middle : s.middle = R.base

/-- The allocated headers of a list are those of the allocated blocks. -/
theorem Represents.allocated_iff {q : ℕ} {qs : List ℕ} (hr : Represents R.base R.stop s h)
    (hqs : HeapList R s qs) :
    q ∈ qs ∧ (entryAt s.mem q).free = 0 ↔ ∃ b, h.Allocated b ∧ b.addr = q := by
  obtain rfl := hqs.follows.unique hr.heapList.follows
  constructor
  · rintro ⟨hq, hfree⟩
    obtain ⟨b, hb, rfl⟩ := List.mem_map.mp hq
    refine ⟨b, ⟨hb, ?_⟩, rfl⟩
    rw [(hr.seg.entry_of_mem hb).2.2] at hfree
    cases hf : b.free with
    | false => rfl
    | true =>
      rw [hf] at hfree
      cases hfree
  · rintro ⟨b, ⟨hb, hf⟩, rfl⟩
    refine ⟨List.mem_map_of_mem hb, ?_⟩
    rw [(hr.seg.entry_of_mem hb).2.2, hf]
    rfl

theorem Represents.emptied (hr : Represents R.base R.stop s (Layout.fresh R.base R.stop)) :
    Emptied R s := by
  have hhead := R.header_le
  have hmem : (⟨R.base, R.stop - R.base - 32, true⟩ : Block) ∈
      (Layout.fresh R.base R.stop).blocks := List.mem_singleton_self _
  obtain ⟨hsize, -, hfree⟩ := hr.seg.entry_of_mem hmem
  refine ⟨hr.heapList, hfree, ?_, hr.middle⟩
  rw [hsize]
  show ((R.stop - R.base - 32 : ℕ) : ℤ) = 4096 * R.pages - 32
  rw [Region.stop, Region.bytes] at hhead ⊢
  omega

theorem Client.Inv.exists_block (hi : c.Inv R h) (hps : ps.Perm (c.live.map Prod.fst))
    (hp : p ∈ ps) :
    ∃ b, h.Allocated b ∧ b.addr + 32 = p := by
  obtain ⟨e, he, rfl⟩ := List.mem_map.mp (hps.mem_iff.mp hp)
  obtain ⟨b, hb, haddr, -⟩ := hi.alloc e he
  exact ⟨b, hb, haddr⟩

/-- When all pointers are in bounds and have been freed, the heap is empty. -/
theorem Keeping.emptied (hc : Keeping R c) (hps : ps.Perm (c.live.map Prod.fst))
    (hle : ∀ p ∈ ps, p ≤ R.base + 4999) : Emptied R (frees ps c.heap) := by
  obtain ⟨h, hi, hw⟩ := hc.exists_inv
  have hr := frees_represents R.toFits hi.rep (fun p hp ↦ hi.exists_block hps hp)
    (hps.nodup_iff.mpr hi.nodup)
  have hfresh : h.releases (freed R.base ps) = Layout.fresh R.base R.stop := by
    apply hr.wf.eq_fresh
    intro d hd
    obtain ⟨hd, hnot⟩ := Layout.allocated_releases.mp hd
    obtain ⟨x, hx⟩ := hw d hd
    have hmem : d.addr + 32 ∈ ps := hps.mem_iff.mpr (List.mem_map_of_mem hx)
    exact hnot (mem_freed.mpr ⟨_, hmem, hle _ hmem, Nat.add_sub_cancel _ _⟩)
  rw [hfresh] at hr
  exact hr.emptied

/-- No pointer into a page is out of bounds. -/
theorem Keeping.emptied_of_onePage (hc : Keeping R c) (hone : R.pages = 1)
    (hps : ps.Perm (c.live.map Prod.fst)) : Emptied R (frees ps c.heap) := by
  obtain ⟨h, hi, -⟩ := hc.exists_inv
  refine hc.emptied hps fun p hp ↦ ?_
  obtain ⟨b, hb, rfl⟩ := hi.exists_block hps hp
  have hstop := (hi.rep.wf.tiles.bounds hb.1).2
  rw [Block.stop, Region.stop, Region.bytes, hone] at hstop
  omega

/-- Over regions of any number of pages: every live pointer can be freed, and the heap is empty
when all have been, exactly when no live pointer is more than 4999 bytes past the start. -/
theorem emptied_iff {R : Region} {c : Client} {ps : List ℕ} (hc : Keeping R c)
    (hps : ps.Perm (c.live.map Prod.fst)) :
    ((∀ p ∈ ps, ∃ s', myfree p c.heap = (.released, s') ∧ Releases R p c.heap s') ∧
      Emptied R (frees ps c.heap)) ↔ ∀ p ∈ ps, p ≤ R.base + 4999 := by
  obtain ⟨h, hi, -⟩ := hc.exists_inv
  constructor
  · rintro ⟨hrel, -⟩ p hp
    obtain ⟨b, hb, rfl⟩ := hi.exists_block hps hp
    obtain ⟨s', hs', -⟩ := hrel _ hp
    obtain ⟨o, s'', hm, -, ho⟩ := myfree_represents R.toFits hi.rep hb
    exact ho.mp (Prod.mk.inj (hm.symm.trans hs')).1
  · refine fun hle ↦ ⟨fun p hp ↦ ?_, hc.emptied hps hle⟩
    obtain ⟨b, hb, rfl⟩ := hi.exists_block hps hp
    obtain ⟨s', hm, hr, -⟩ := myfree_released R.toFits hi.rep hb (hle _ hp)
    refine ⟨s', hm, fun qs qs' hqs hqs' q ↦ ?_⟩
    rw [hr.allocated_iff hqs', hi.rep.allocated_iff hqs]
    constructor
    · rintro ⟨d, hd, rfl⟩
      obtain ⟨hd, hne⟩ := Layout.WF.allocated_release.mp hd
      exact ⟨⟨d, hd, rfl⟩, hne⟩
    · rintro ⟨⟨d, hd, rfl⟩, hne⟩
      exact ⟨d, Layout.WF.allocated_release.mpr ⟨hd, hne⟩, rfl⟩

/-- A region of two pages at address 4096. -/
def twoPages : Region := ⟨4096, 2, onePage.base_pos, by decide, by decide, by decide⟩

/-- The first request over two pages is for 200 bytes, which are at their end. -/
theorem exists_run_twoPages : ∃ c, Keeping twoPages c ∧ c.live = [(12088, 200)] ∧
    c.heap.head = 4096 := by
  obtain ⟨s, hm, hr, -⟩ := mymalloc_fresh (x := 200) twoPages.toFits twoPages.header_le
    twoPages.stop_lt_fuel (s := untouched) rfl
  have hp : ((Layout.fresh twoPages.base twoPages.stop).malloc 200).1 = 12088 := by decide
  rw [hp] at hm
  exact ⟨⟨s, [(12088, 200)]⟩,
    .start rfl (Step.malloc (c := ⟨untouched, []⟩) (p := 12088) (by decide) hm), rfl, hr.head⟩

theorem emptied_iff_twoPages : ∃ c : Client, c.live = [(12088, 200)] ∧
    (((∀ p ∈ [12088], ∃ s', myfree p c.heap = (.released, s') ∧ Releases twoPages p c.heap s') ∧
      Emptied twoPages (frees [12088] c.heap)) ↔ ∀ p ∈ [12088], p ≤ twoPages.base + 4999) := by
  obtain ⟨c, hc, hlive, -⟩ := exists_run_twoPages
  exact ⟨c, hlive, emptied_iff hc (by rw [hlive]; rfl)⟩

/-- The pointer is out of bounds. -/
theorem not_emptied : ¬∀ (R : Region) (c : Client) (ps : List ℕ), Keeping R c →
    ps.Perm (c.live.map Prod.fst) →
      (∀ p ∈ ps, ∃ s', myfree p c.heap = (.released, s') ∧ Releases R p c.heap s') ∧
        Emptied R (frees ps c.heap) := by
  intro hall
  obtain ⟨c, hc, hlive, hhead⟩ := exists_run_twoPages
  obtain ⟨s', hs', -⟩ := (hall twoPages c [12088] hc (by rw [hlive]; rfl)).1 12088
    (List.mem_singleton_self _)
  rw [myfree, if_pos (.inr (by rw [hhead]; decide))] at hs'
  cases hs'

end Frees

end MyPthread.Heap
