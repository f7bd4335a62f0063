import MyPthread.Heap.Invariant

/-!
# Which block `mymalloc` uses

The searches of `mymalloc` are complete, although they start at different blocks and
walk in different directions: a request is refused only when no listed block is free
and large enough.  Small requests use the first such block in address order; larger
ones the first right of `middle`, or else the nearest one at or left of it.
-/

namespace MyPthread.Heap

open MyPthread.Lib

section Order

variable {α : Type} {r : α → α → Prop} {p : α → Bool} {l : List α} {a b : α}

/-- In a list ordered by `r`, nothing before what `find?` finds satisfies the test. -/
theorem not_of_find?_eq_some (hasymm : ∀ a b, r a b → ¬r b a) (hl : l.Pairwise r)
    (hf : l.find? p = some b) (ha : a ∈ l) (hab : r a b) : ¬p a = true := by
  obtain ⟨-, l₁, l₂, rfl, hl₁⟩ := List.find?_eq_some_iff_append.mp hf
  rw [List.pairwise_append, List.pairwise_cons] at hl
  rcases List.mem_append.mp ha with ha | ha
  · simpa using hl₁ a ha
  · rcases List.mem_cons.mp ha with rfl | ha
    · exact absurd hab (hasymm _ _ hab)
    · exact absurd hab (hasymm _ _ (hl.2.1.1 a ha))

end Order

namespace Layout

variable {x lo hi : ℕ} {side : Side} {b c : Block} {h : Layout}

/-- A request finds no block only when there is none. -/
theorem search_eq_none_iff : h.search x = none ↔ ∀ b ∈ h.blocks, ¬b.fits x = true := by
  by_cases hx : x < 100
  · rw [search_small hx, Option.map_eq_none_iff, List.find?_eq_none]
  · rw [search_large hx, Option.or_eq_none_iff, Option.map_eq_none_iff, Option.map_eq_none_iff,
      List.find?_eq_none, List.find?_eq_none]
    simp only [List.mem_reverse, List.mem_filter, decide_eq_true_eq]
    constructor
    · rintro ⟨hright, hleft⟩ b hb
      rcases Nat.lt_or_ge h.middle b.addr with hlt | hle
      · exact hright b ⟨hb, hlt⟩
      · exact hleft b ⟨hb, hle⟩
    · intro hall
      exact ⟨fun b hb ↦ hall b hb.1, fun b hb ↦ hall b hb.1⟩

/-- A request is refused only when no free block holds it. -/
theorem malloc_eq_zero_iff : (h.malloc x).1 = 0 ↔ ∀ b ∈ h.blocks, ¬b.fits x = true := by
  rw [← search_eq_none_iff]
  cases hs : h.search x with
  | none =>
    rw [malloc_of_search_none hs]
    simp
  | some found =>
    obtain ⟨side, b⟩ := found
    rw [malloc_of_search hs]
    simp

/-- A fresh region has room for every request that fits behind its first header. -/
theorem fresh_malloc_ne_zero (hx : x + 32 ≤ hi - lo) : ((fresh lo hi).malloc x).1 ≠ 0 := by
  intro h₀
  refine malloc_eq_zero_iff.mp h₀ _ List.mem_cons_self (Block.fits_iff.mpr ⟨rfl, ?_⟩)
  dsimp only
  omega

/-- A block that is released is free for a request of its size. -/
theorem release_malloc_ne_zero (hb : b ∈ h.blocks) (hx : x ≤ b.size) :
    ((h.release b.addr).malloc x).1 ≠ 0 := by
  rw [Ne, malloc_eq_zero_iff]
  intro hnone
  have hmark : { b with free := true } ∈ mark b.addr h.blocks :=
    List.mem_map.mpr ⟨b, hb, if_pos rfl⟩
  obtain ⟨d, hd, hdf, hle⟩ := exists_mem_coalesce (o := 32) hmark rfl
  exact hnone d hd (Block.fits_iff.mpr ⟨hdf, hx.trans hle⟩)

variable (hw : h.WF lo hi)
include hw

theorem WF.pairwise_addr : h.blocks.Pairwise fun b c ↦ b.addr < c.addr :=
  List.pairwise_map.mp (hw.tiles.sorted (by omega))

/-- A small request uses the first block that fits. -/
theorem WF.search_fromHead (hs : h.search x = some (side, b)) (hx : x < 100) :
    side = .fromHead ∧ ∀ c ∈ h.blocks, c.addr < b.addr → ¬c.fits x = true := by
  rw [search_small hx, Option.map_eq_some_iff] at hs
  obtain ⟨d, hf, heq⟩ := hs
  obtain ⟨rfl, rfl⟩ := Prod.mk.inj heq
  refine ⟨rfl, ?_⟩
  intro c hc hcd
  exact not_of_find?_eq_some (fun _ _ h₁ h₂ ↦ lt_asymm h₁ h₂) hw.pairwise_addr hf hc hcd

/-- A larger request uses the first block right of `middle` that fits, or else the
nearest one up to `middle`. -/
theorem WF.search_around (hs : h.search x = some (side, b)) (hx : ¬x < 100) :
    (side = .right ∧ h.middle < b.addr ∧
      ∀ c ∈ h.blocks, h.middle < c.addr → c.addr < b.addr → ¬c.fits x = true) ∨
    (side = .left ∧ b.addr ≤ h.middle ∧ (∀ c ∈ h.blocks, h.middle < c.addr → ¬c.fits x = true) ∧
      ∀ c ∈ h.blocks, b.addr < c.addr → c.addr ≤ h.middle → ¬c.fits x = true) := by
  have hpair := hw.pairwise_addr
  rw [search_large hx, Option.or_eq_some_iff, Option.map_eq_some_iff, Option.map_eq_none_iff,
    Option.map_eq_some_iff] at hs
  rcases hs with ⟨d, hf, heq⟩ | ⟨hnone, d, hf, heq⟩
  · obtain ⟨rfl, rfl⟩ := Prod.mk.inj heq
    refine .inl ⟨rfl, by simpa using (List.mem_filter.mp (List.mem_of_find?_eq_some hf)).2, ?_⟩
    intro c hc hmc hcd
    exact not_of_find?_eq_some (fun _ _ h₁ h₂ ↦ lt_asymm h₁ h₂) (hpair.filter _) hf
      (List.mem_filter.mpr ⟨hc, by simpa using hmc⟩) hcd
  · obtain ⟨rfl, rfl⟩ := Prod.mk.inj heq
    have hd := List.mem_reverse.mp (List.mem_of_find?_eq_some hf)
    refine .inr ⟨rfl, by simpa using (List.mem_filter.mp hd).2, ?_, ?_⟩
    · intro c hc hmc
      exact List.find?_eq_none.mp hnone c (List.mem_filter.mpr ⟨hc, by simpa using hmc⟩)
    · intro c hc hdc hcm
      exact not_of_find?_eq_some (r := fun b c ↦ c.addr < b.addr)
        (fun _ _ h₁ h₂ ↦ lt_asymm h₁ h₂) (List.pairwise_reverse.mpr (hpair.filter _)) hf
        (List.mem_reverse.mpr (List.mem_filter.mpr ⟨hc, by simpa using hcm⟩)) hdc

end Layout

/-! ## On memory -/

/-- The block at `q` is free and holds `x` bytes. -/
def Fit (m : Mem) (x q : ℕ) : Prop := (entryAt m q).free = 1 ∧ (x : ℤ) ≤ (entryAt m q).size

/-- `q` is the first of the blocks `ps` that fits. -/
structure FirstFit (s : HeapState) (x : ℕ) (ps : List ℕ) (q : ℕ) : Prop where
  mem : q ∈ ps
  fit : Fit s.mem x q
  first : ∀ r ∈ ps, r < q → ¬Fit s.mem x r

/-- `q` is the first of the blocks `ps` right of `middle` that fits. -/
structure RightFit (s : HeapState) (x : ℕ) (ps : List ℕ) (q : ℕ) : Prop where
  mem : q ∈ ps
  fit : Fit s.mem x q
  right : s.middle < q
  first : ∀ r ∈ ps, s.middle < r → r < q → ¬Fit s.mem x r

/-- None of the blocks `ps` right of `middle` fits, and `q` is the nearest one up to
`middle` that does. -/
structure LeftFit (s : HeapState) (x : ℕ) (ps : List ℕ) (q : ℕ) : Prop where
  mem : q ∈ ps
  fit : Fit s.mem x q
  left : q ≤ s.middle
  no_right : ∀ r ∈ ps, s.middle < r → ¬Fit s.mem x r
  nearest : ∀ r ∈ ps, q < r → r ≤ s.middle → ¬Fit s.mem x r

/-- Where `x` bytes at the back end of the block at `q` start, or all of the block when
it cannot be split. -/
def backEnd (m : Mem) (x q : ℕ) : ℤ :=
  if (x : ℤ) + sizeofMementry < (entryAt m q).size then
    q + sizeofMementry + (entryAt m q).size - x
  else q + sizeofMementry

section Represents

variable {R : Region} {c : Client} {h : Layout} {s s' : HeapState} {x : ℕ} {ps : List ℕ}
  {lo hi : ℕ} {b : Block} {side : Layout.Side}

theorem Represents.fit_iff (hr : Represents lo hi s h) (hb : b ∈ h.blocks) :
    Fit s.mem x b.addr ↔ b.fits x = true := by
  obtain ⟨hsize, -, hfree⟩ := hr.seg.entry_of_mem hb
  rw [Fit, hsize, hfree, Block.fits_iff]
  cases b.free <;> simp

theorem Represents.forall_fit_iff (hr : Represents lo hi s h) (P : ℕ → Prop) :
    (∀ q ∈ h.blocks.map Block.addr, P q → ¬Fit s.mem x q) ↔
      ∀ b ∈ h.blocks, P b.addr → ¬b.fits x = true := by
  rw [List.forall_mem_map]
  refine forall₂_congr fun b hb ↦ ?_
  rw [hr.fit_iff hb]

/-- Two states of the same layout have the same headers. -/
theorem Represents.entry_eq (hr : Represents lo hi s h) (hr' : Represents lo hi s' h)
    (hb : b ∈ h.blocks) : entryAt s'.mem b.addr = entryAt s.mem b.addr := by
  obtain ⟨pre, post, heq⟩ := List.append_of_mem hb
  have hs := hr.seg
  have hs' := hr'.seg
  rw [heq] at hs hs'
  rw [hs.entry, hs'.entry]

/-- What is left when the block found is small, or found right of `middle`, is behind
what is handed out. -/
theorem taken_addr_front (hs : side ≠ .left) : (Layout.taken side x b).addr = b.addr := by
  unfold Layout.taken
  split
  · cases side with
    | left => exact absurd rfl hs
    | fromHead => rfl
    | right => rfl
  · rfl

/-- What a block found left of `middle` hands out is its back end. -/
theorem taken_addr_back (hr : Represents lo hi s h) (hb : b ∈ h.blocks) :
    (((Layout.taken .left x b).addr + 32 : ℕ) : ℤ) = backEnd s.mem x b.addr := by
  rw [backEnd, (hr.seg.entry_of_mem hb).1]
  unfold Layout.taken sizeofMementry
  by_cases hx : x + 32 < b.size
  · rw [if_pos hx, if_pos (by exact_mod_cast hx)]
    push_cast
    omega
  · rw [if_neg hx, if_neg (by exact_mod_cast hx)]
    push_cast
    rfl

/-- `mymalloc` refuses exactly when no listed block fits, and then nothing has changed;
else it uses the block its search order says. -/
theorem mymalloc_finds {R : Region} {c : Client} (hc : Reachable R c)
    (hps : HeapList R c.heap ps) (x : ℕ) :
    ∃ p s', mymalloc heapFuel x R.base R.bytes c.heap = some (p, s') ∧
      (p = 0 ↔ ∀ q ∈ ps, ¬Fit c.heap.mem x q) ∧
      (p = 0 → HeapList R s' ps ∧ s'.middle = c.heap.middle ∧
        ∀ q ∈ ps, entryAt s'.mem q = entryAt c.heap.mem q) ∧
      (p ≠ 0 → x < 100 → ∃ q, FirstFit c.heap x ps q ∧ p = q + sizeofMementry) ∧
      (p ≠ 0 → 100 ≤ x → (∃ q, RightFit c.heap x ps q ∧ p = q + sizeofMementry) ∨
        ∃ q, LeftFit c.heap x ps q ∧ p = backEnd c.heap.mem x q) := by
  obtain ⟨h, hi⟩ := hc.exists_inv
  have hr := hi.rep
  have hw := hr.wf
  obtain rfl := hps.follows.unique hr.heapList.follows
  obtain ⟨s', hm, hr', -⟩ :=
    mymalloc_spec (x := x) R.toFits hr R.stop_lt_fuel R.base R.bytes
  refine ⟨_, s', hm, ?_, ?_, ?_, ?_⟩
  · have hiff : (h.malloc x).1 = 0 ↔ h.search x = none := by
      cases hs : h.search x with
      | none => simp [Layout.malloc_of_search_none hs]
      | some found =>
        rw [Layout.malloc_of_search hs]
        simp
    rw [hiff, Layout.search_eq_none_iff, List.forall_mem_map]
    refine forall₂_congr fun b hb ↦ ?_
    rw [hr.fit_iff hb]
  · intro h₀
    rw [Layout.malloc_eq_self h₀] at hr'
    refine ⟨hr'.heapList, hr'.middle.trans hr.middle.symm, ?_⟩
    intro q hq
    obtain ⟨b, hb, rfl⟩ := List.mem_map.mp hq
    exact hr.entry_eq hr' hb
  · intro h₀ hx
    cases hs : h.search x with
    | none =>
      rw [Layout.malloc_of_search_none hs] at h₀
      exact absurd rfl h₀
    | some found =>
      obtain ⟨side, b⟩ := found
      obtain ⟨hb, hfree, hsize⟩ := Layout.search_some hs
      obtain ⟨rfl, hfirst⟩ := hw.search_fromHead hs hx
      rw [Layout.malloc_of_search hs]
      refine ⟨b.addr, ⟨List.mem_map_of_mem hb, ?_, ?_⟩, ?_⟩
      · exact (hr.fit_iff hb).mpr (Block.fits_iff.mpr ⟨hfree, hsize⟩)
      · exact (hr.forall_fit_iff (· < b.addr)).mpr hfirst
      · exact congrArg (· + 32) (taken_addr_front (by decide))
  · intro h₀ hx
    cases hs : h.search x with
    | none =>
      rw [Layout.malloc_of_search_none hs] at h₀
      exact absurd rfl h₀
    | some found =>
      obtain ⟨side, b⟩ := found
      obtain ⟨hb, hfree, hsize⟩ := Layout.search_some hs
      have hfit : Fit c.heap.mem x b.addr :=
        (hr.fit_iff hb).mpr (Block.fits_iff.mpr ⟨hfree, hsize⟩)
      rw [Layout.malloc_of_search hs]
      rcases hw.search_around hs (by omega) with ⟨rfl, hright, hfirst⟩ | ⟨rfl, hleft, hno, hnear⟩
      · refine .inl ⟨b.addr, ⟨List.mem_map_of_mem hb, hfit, ?_, ?_⟩, ?_⟩
        · rw [hr.middle]
          exact hright
        · rw [hr.middle, List.forall_mem_map]
          intro d hd hmd hdb
          rw [hr.fit_iff hd]
          exact hfirst d hd hmd hdb
        · exact congrArg (· + 32) (taken_addr_front (by decide))
      · refine .inr ⟨b.addr, ⟨List.mem_map_of_mem hb, hfit, ?_, ?_, ?_⟩, taken_addr_back hr hb⟩
        · rw [hr.middle]
          exact hleft
        · rw [hr.middle]
          exact (hr.forall_fit_iff (h.middle < ·)).mpr hno
        · rw [hr.middle, List.forall_mem_map]
          intro d hd hbd hdm
          rw [hr.fit_iff hd]
          exact hnear d hd hbd hdm

/-- On the heap of the run over one page, 3000 bytes come from the back of the block that
is left. -/
theorem mymalloc_finds_onePage : ∃ (c : Client) (p : ℕ) (s' : HeapState),
    c.live = [(7992, 200), (4128, 50)] ∧
      mymalloc heapFuel 3000 onePage.base onePage.bytes c.heap = some (p, s') := by
  obtain ⟨c, hc, hlive⟩ := exists_run_onePage
  obtain ⟨h, hi⟩ := hc.exists_inv
  obtain ⟨p, s', hm, -⟩ := mymalloc_finds hc hi.rep.heapList 3000
  exact ⟨c, p, s', hlive, hm⟩

end Represents

end MyPthread.Heap
