import MyPthread.Heap.Canonical

/-!
# What a fresh region holds

As long as nothing is freed there is at most one free block, so `mymalloc` over a fresh
region loses no byte, however it goes about it: each request takes its size and a header
from what is left, and is refused exactly when that is too little.
-/

namespace MyPthread.Heap

open MyPthread.Lib

/-- What is left of `n` bytes once a request for `x` bytes has been served, or refused. -/
def spend (n x : ℕ) : ℕ := if x + 32 ≤ n then n - (x + 32) else n

/-- Which of the requests are served out of `n` bytes, with a header each. -/
def served (n : ℕ) : List ℕ → List Bool
  | [] => []
  | x :: xs => decide (x + 32 ≤ n) :: served (spend n x) xs

/-- `mymalloc` of the sizes `xs`, one after the other. -/
def mymallocs (R : Region) : List ℕ → HeapState → Option (List ℕ × HeapState)
  | [], s => some ([], s)
  | x :: xs, s => do
    let (p, s) ← mymalloc heapFuel x R.base R.bytes s
    let (ps, s) ← mymallocs R xs s
    return (p :: ps, s)

/-- All requests are served when they have room together. -/
theorem all_served_iff {n : ℕ} {xs : List ℕ} :
    (∀ b ∈ served n xs, b = true) ↔ (xs.map (· + 32)).sum ≤ n := by
  induction xs generalizing n with
  | nil => simp [served]
  | cons x xs ih =>
    rw [served, List.forall_mem_cons, ih, decide_eq_true_eq, List.map_cons, List.sum_cons, spend]
    split_ifs with hx
    · omega
    · omega

namespace Layout

variable {x lo hi n : ℕ} {side : Side} {b c : Block} {h : Layout}

/-- The free bytes are in one block, and with its header they are `n`.  What is no more than
a header need not be in a block. -/
inductive Packed (h : Layout) (n : ℕ) : Prop where
  | one (b : Block) : b ∈ h.blocks → b.free = true → b.size + 32 = n →
      (∀ c ∈ h.blocks, c.free = true → c = b) → Packed h n
  | none : n ≤ 32 → (∀ c ∈ h.blocks, c.free = false) → Packed h n

theorem packed_fresh (hlo : lo + 32 ≤ hi) : (fresh lo hi).Packed (hi - lo) := by
  refine .one ⟨lo, hi - lo - 32, true⟩ (List.mem_singleton_self _) rfl ?_ ?_
  · show hi - lo - 32 + 32 = hi - lo
    omega
  · exact fun c hc _ ↦ List.mem_singleton.mp hc

/-- A positive request is served when it has room. -/
theorem Packed.malloc_ne_zero_iff (hp : h.Packed n) (hx : 0 < x) :
    (h.malloc x).1 ≠ 0 ↔ x + 32 ≤ n := by
  rw [ne_eq, malloc_eq_zero_iff]
  push Not
  cases hp with
  | one b hb hf hn hall =>
    constructor
    · rintro ⟨c, hc, hfit⟩
      obtain ⟨hcf, hle⟩ := Block.fits_iff.mp hfit
      obtain rfl := hall c hc hcf
      omega
    · exact fun hle ↦ ⟨b, hb, Block.fits_iff.mpr ⟨hf, by omega⟩⟩
  | none hn hall =>
    constructor
    · rintro ⟨c, hc, hfit⟩
      have hcf := (Block.fits_iff.mp hfit).1
      rw [hall c hc] at hcf
      cases hcf
    · intro hle
      omega

/-- What is free after taking from `b`: the other free blocks, and what is left of it. -/
theorem WF.free_take (hw : h.WF lo hi) (hb : b ∈ h.blocks) (hc : c ∈ (h.take side x b).blocks) :
    c ∈ h.blocks ∧ c ≠ b ∨ c ∈ carve side x b := by
  obtain ⟨pre, post, heq, hpre⟩ := hw.exists_split hb
  have ht := hw.tiles
  rw [Layout.take, heq, subst_append hpre] at hc
  rw [heq] at ht ⊢
  rcases List.mem_append.mp hc with hmem | hc
  · refine .inl ⟨List.mem_append_left _ hmem, ?_⟩
    rintro rfl
    exact hpre hmem
  · rcases List.mem_append.mp hc with hmem | hmem
    · exact .inr hmem
    · refine .inl ⟨List.mem_append_right _ (List.mem_cons_of_mem _ hmem), ?_⟩
      rintro rfl
      have hlt := Tiles.addr_lt_stop (o := 32) (by omega) c
      have hle := ((Tiles.split_iff.mp ht).2.bounds hmem).1
      omega

/-- What is left of a block that was carved, if any, is one free block. -/
theorem exists_rest (side : Side) (hx : x + 32 < b.size) : ∃ d ∈ carve side x b, d.free = true ∧
    d.size + 32 = b.size - x ∧ ∀ c ∈ carve side x b, c.free = true → c = d := by
  cases side with
  | left =>
    rw [carve_back hx]
    refine ⟨_, List.mem_cons_self, rfl, ?_, fun c hc hf ↦ ?_⟩
    · show b.size - x - 32 + 32 = b.size - x
      omega
    · rcases List.mem_pair.mp hc with rfl | rfl
      · rfl
      · cases hf
  | _ =>
    rw [carve_front (by rintro ⟨⟩) hx]
    refine ⟨_, List.mem_cons_of_mem _ List.mem_cons_self, rfl, ?_, fun c hc hf ↦ ?_⟩
    · show b.size - 32 - x + 32 = b.size - x
      omega
    · rcases List.mem_pair.mp hc with rfl | rfl
      · cases hf
      · rfl

/-- A request that has room leaves that much less. -/
theorem Packed.malloc (hw : h.WF lo hi) (hp : h.Packed n) (hx : 0 < x) (hle : x + 32 ≤ n) :
    (h.malloc x).2.Packed (n - (x + 32)) := by
  have h₀ := (hp.malloc_ne_zero_iff hx).mpr hle
  cases hp with
  | none hn => omega
  | one b hb hf hn hall =>
    cases hs : h.search x with
    | none =>
      rw [malloc_of_search_none hs] at h₀
      exact absurd rfl h₀
    | some found =>
      obtain ⟨side, d⟩ := found
      obtain ⟨hd, hdf, -⟩ := search_some hs
      obtain rfl := hall d hd hdf
      rw [malloc_of_search hs]
      -- nothing else is free, so only the rest of this block is
      have hrest : ∀ c ∈ (h.take side x d).blocks, c.free = true → c ∈ carve side x d := by
        intro c hc hcf
        rcases hw.free_take hb hc with ⟨hc, hne⟩ | hc
        · exact absurd (hall c hc hcf) hne
        · exact hc
      by_cases hsize : x + 32 < d.size
      · obtain ⟨r, hr, hrf, hrn, hone⟩ := exists_rest side hsize
        obtain ⟨pre, post, heq, hpre⟩ := hw.exists_split hb
        refine .one r ?_ hrf (by omega) fun c hc hcf ↦ hone c (hrest c hc hcf) hcf
        rw [Layout.take, heq, subst_append hpre]
        exact List.mem_append_right _ (List.mem_append_left _ hr)
      · refine .none (by omega) fun c hc ↦ ?_
        by_contra hcf
        have hmem := hrest c hc (Bool.not_eq_false _ ▸ hcf)
        rw [carve_whole hsize] at hmem
        obtain rfl := List.mem_singleton.mp hmem
        exact hcf rfl

theorem Packed.spend (hw : h.WF lo hi) (hp : h.Packed n) (hx : 0 < x) :
    (h.malloc x).2.Packed (Heap.spend n x) := by
  unfold Heap.spend
  split_ifs with hle
  · exact hp.malloc hw hx hle
  · rwa [malloc_eq_self (not_not.mp ((hp.malloc_ne_zero_iff hx).not.mpr hle))]

end Layout

section Runs

variable {R : Region} {h : Layout} {s : HeapState} {n : ℕ} {xs : List ℕ}

theorem Represents.exists_mymallocs (hr : Represents R.base R.stop s h) (hp : h.Packed n)
    (hpos : ∀ x ∈ xs, 0 < x) : ∃ ps s', mymallocs R xs s = some (ps, s') ∧
      ps.map (fun p ↦ decide (p ≠ 0)) = served n xs := by
  induction xs generalizing s h n with
  | nil => exact ⟨[], s, rfl, rfl⟩
  | cons x xs ih =>
    obtain ⟨hx, hpos⟩ := List.forall_mem_cons.mp hpos
    obtain ⟨s₁, hm, hr₁, -⟩ := mymalloc_spec (x := x) R.toFits hr R.stop_lt_fuel R.base R.bytes
    obtain ⟨ps, s₂, hms, hps⟩ := ih hr₁ (hp.spend hr.wf hx) hpos
    refine ⟨(h.malloc x).1 :: ps, s₂, ?_, ?_⟩
    · rw [mymallocs, hm]
      show (mymallocs R xs s₁).bind _ = _
      rw [hms]
      rfl
    · rw [List.map_cons, hps, served]
      exact congrArg (· :: _) (decide_eq_decide.mpr (hp.malloc_ne_zero_iff hx))

/-- Over a fresh region requests are served in any order and mix as long as they have room,
each with its header, and all are when they have room together. -/
theorem mymallocs_served (hs : s.head = 0) (hpos : ∀ x ∈ xs, 0 < x) :
    ∃ ps s', mymallocs R xs s = some (ps, s') ∧
      ps.map (fun p ↦ decide (p ≠ 0)) = served R.bytes xs ∧
      (0 ∉ ps ↔ (xs.map (· + 32)).sum ≤ R.bytes) := by
  obtain ⟨s₁, hi, -, hfirst⟩ := R.exists_first hs
  have hp := Layout.packed_fresh R.header_le
  rw [show R.stop - R.base = R.bytes from Nat.add_sub_cancel_left _ _] at hp
  obtain ⟨ps, s', hm, hps⟩ := hi.rep.exists_mymallocs hp hpos
  have hall : 0 ∉ ps ↔ (xs.map (· + 32)).sum ≤ R.bytes := by
    rw [← all_served_iff, ← hps, List.forall_mem_map]
    constructor
    · intro h₀ p hp
      rw [decide_eq_true_eq]
      rintro rfl
      exact h₀ hp
    · intro hall h₀
      exact of_decide_eq_true (hall 0 h₀) rfl
  cases xs with
  | nil =>
    cases hm
    exact ⟨[], s, rfl, hps, hall⟩
  | cons x xs =>
    refine ⟨ps, s', ?_, hps, hall⟩
    rw [mymallocs] at hm ⊢
    rw [hfirst x]
    exact hm

/-- Of 2000, 50, 2000 and 1900 bytes a page holds all but the third. -/
theorem mymallocs_served_onePage : ∃ ps s',
    mymallocs onePage [2000, 50, 2000, 1900] untouched = some (ps, s') ∧
      ps.map (fun p ↦ decide (p ≠ 0)) = [true, true, false, true] := by
  obtain ⟨ps, s', hm, hps, -⟩ := mymallocs_served (R := onePage) (s := untouched) rfl
    (show ∀ x ∈ [2000, 50, 2000, 1900], 0 < x by decide)
  exact ⟨ps, s', hm, hps⟩

end Runs

end MyPthread.Heap
