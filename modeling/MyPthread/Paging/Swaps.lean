import MyPthread.Paging.Growth
import Mathlib.Logic.Relation

/-!
# What happens to the pages in the swap file

A call moves pages to the swap file and from it in calls of `swap_pages` only: frames are given
up, and pages of the caller are brought in.  What it does in between is quiet: the file and the
pages in it stay as they are.
-/

namespace MyPthread.Paging

open MyPthread.Lib MyPthread.Heap Function Relation

variable {B : Block} {s s' s₁ : Manager} {ch : ℕ → List PageMetaPtr} {c : ℕ → ℕ} {H : Set ℕ}
  {i k n r x : ℕ} {p front last : PageMetaPtr} {o o' : Option PageMetaPtr}

/-- `swap_pages` is not called, and the swap file and the pages in it are as before. -/
structure Quiet (s s' : Manager) : Prop where
  swapFile : s'.swapFile = s.swapFile
  pages : ∀ p ∈ s'.pages, 1597 ≤ s'.pageFrame p → p ∈ s.pages ∧ s'.pageFrame p = s.pageFrame p
  trace : ∃ evs, s'.trace = evs ++ s.trace ∧ ∀ e ∈ evs, ¬e.IsSwap

/-- A frame is given up, or something quiet is done. -/
inductive Vacate (B : Block) : Manager → Manager → Prop where
  | evict {s s' : Manager} {ch : ℕ → List PageMetaPtr} {H : Set ℕ} {i : ℕ} : Table s ch H →
      i < 1597 → i ≤ s.pageCounter → i ∉ H → swapPages B i none s = some s' → Vacate B s s'
  | quiet {s s' : Manager} : Quiet s s' → Vacate B s s'

/-- A frame is given up, a page of the caller is brought in, or something quiet is done. -/
inductive Move (B : Block) : Manager → Manager → Prop where
  | vacate {s s' : Manager} : Vacate B s s' → Move B s s'
  | bring {s s' : Manager} {ch : ℕ → List PageMetaPtr} {k : ℕ} {p : PageMetaPtr} : Table s ch ∅ →
      k < 1597 → k < s.pageCounter → (ch s.current)[k]? = some p → s.pageFrame p ≠ k →
      swapPages B k (some (s.pageFrame p)) s = some s' → Move B s s'

/-- Any number of frames are given up. -/
abbrev Vacates (B : Block) : Manager → Manager → Prop :=
  ReflTransGen (Vacate B)

/-- Any number of moves. -/
abbrev Moves (B : Block) : Manager → Manager → Prop :=
  ReflTransGen (Move B)

theorem Vacates.moves (h : Vacates B s s') : Moves B s s' := by
  induction h with
  | refl => exact .refl
  | tail _ hv ih => exact ih.tail (.vacate hv)

theorem Quiet.moves (h : Quiet s s') : Moves B s s' := .single (.vacate (.quiet h))

/-! ## Quiet changes -/

/-- A change with no event. -/
theorem quiet_of_trace (hfile : s'.swapFile = s.swapFile) (hloc : s'.pageFrame = s.pageFrame)
    (hmade : s'.made = s.made) (htrace : s'.trace = s.trace) : Quiet s s' := by
  refine ⟨hfile, fun p hp _ ↦ ⟨?_, by rw [hloc]⟩, [], htrace, nofun⟩
  rwa [Manager.pages, hmade] at hp

/-- A heap operation. -/
theorem quiet_of_note (op : HeapOp) (p : PageMetaPtr) (hfile : s'.swapFile = s.swapFile)
    (hloc : s'.pageFrame = s.pageFrame) (hmade : s'.made = s.made)
    (htrace : s'.trace = (s.note op p).trace) : Quiet s s' := by
  refine ⟨hfile, fun p hp _ ↦ ⟨?_, by rw [hloc]⟩, [_], htrace, fun e he ↦ ?_⟩
  · rwa [Manager.pages, hmade] at hp
  · rw [List.mem_singleton.mp he]
    exact id

theorem quiet_flags (flag : ℤ) (access : ℕ → Bool) :
    Quiet s { s with memFlag := flag, accessible := access } := quiet_of_trace rfl rfl rfl rfl

theorem quiet_setMallocFrame (i : ℕ) : Quiet s (s.setMallocFrame i) :=
    quiet_of_trace rfl rfl rfl rfl

theorem loadHeap_quiet (p : PageMetaPtr) : Quiet s (loadHeap p s) := by
  refine ⟨rfl, fun _ hp _ ↦ ⟨hp, rfl⟩, [_], rfl, fun e he ↦ ?_⟩
  rw [List.mem_singleton.mp he]
  exact id

theorem resetHeap_quiet (p : PageMetaPtr) : Quiet s (resetHeap p s) := by
  refine ⟨rfl, fun _ hp _ ↦ ⟨hp, rfl⟩, [_], rfl, fun e he ↦ ?_⟩
  rw [List.mem_singleton.mp he]
  exact id

theorem request_quiet {memptr : ℕ} {size : ℤ} (h : request p x memptr size s = some (r, s')) :
    Quiet s s' := by
  obtain ⟨heap, -, rfl⟩ := request_eq_some.mp h
  exact quiet_of_note .mymalloc p rfl rfl rfl rfl

theorem storeHeap_quiet (h : storeHeap p s = some s') : Quiet s s' := by
  obtain ⟨free, -, rfl⟩ := storeHeap_eq_some.mp h
  exact quiet_of_note .store p rfl rfl rfl rfl

theorem release_quiet (p : PageMetaPtr) (x : ℕ) : Quiet s (release p x s) :=
  quiet_of_note .myfree p rfl rfl rfl rfl

theorem chainFirst_quiet (init : PageMetaPtr → PageMeta → PageMeta) (hi : i < 1597) :
    Quiet s (chainFirst i init s) := by
  rw [chainFirst_eq]
  refine ⟨rfl, fun p hp hd ↦ ?_, [], rfl, nofun⟩
  dsimp only at hd ⊢
  rw [update_apply] at hd ⊢
  split_ifs at hd ⊢ with hnew
  · omega
  · exact ⟨(List.mem_cons.mp hp).resolve_left hnew, rfl⟩

theorem chainAfter_quiet (init : PageMetaPtr → PageMeta → PageMeta) (last : PageMetaPtr)
    (hi : i < 1597) : Quiet s (chainAfter i init last s) := by
  rw [chainAfter_eq]
  refine ⟨rfl, fun p hp hd ↦ ?_, [], rfl, nofun⟩
  dsimp only at hd ⊢
  rw [update_apply] at hd ⊢
  split_ifs at hd ⊢ with hnew
  · omega
  · exact ⟨(List.mem_cons.mp hp).resolve_left hnew, rfl⟩

/-! ## Making pages -/

theorem Table.evictRange_vacates (h : Table s ch H) (hi : i + n ≤ 1597) (hin : i ≤ s.pageCounter)
    (hH : ∀ j, i ≤ j → j < i + n → j ∉ H) (hs : Paging.evictRange B i n s = some s') :
    Vacates B s s' := by
  induction n generalizing i H s with
  | zero =>
    obtain rfl := Option.some.inj hs
    exact .refl
  | succ n ih =>
    obtain ⟨s₁, hs₁, hrest⟩ := Option.bind_eq_some_iff.mp hs
    have hiH := hH i (le_refl i) (by omega)
    obtain ⟨s₂, hs₂, he, ht, -⟩ := h.evict (B := B) (i := i) (by omega) hin hiH
    obtain rfl := Option.some.inj (hs₂.symm.trans hs₁)
    have hpc := he.pageCounter
    refine (ReflTransGen.single (.evict h (by omega) hin hiH hs₁)).trans
      (ih (i := i + 1) ht (by omega) (by omega) (fun j hij hjn hmem ↦ ?_) hrest)
    rcases hmem with rfl | hmem
    · omega
    · exact hH j (by omega) (by omega) hmem

theorem chunkRest_vacates (hi : i + k ≤ 1597) (hs : chunkRest front n i k o s = some (o', s')) :
    Vacates B s s' := by
  induction k generalizing i o s with
  | zero =>
    obtain ⟨-, rfl⟩ := Prod.mk.inj (Option.some.inj hs)
    exact .refl
  | succ k ih =>
    obtain ⟨prev, -, hs⟩ := chunkRest_eq_some.mp hs
    exact (ReflTransGen.single (.quiet (chainAfter_quiet _ prev (by omega)))).trans
      (ih (i := i + 1) (by omega) hs)

theorem Settled.newFirst_vacates (h : Settled s ch c) (hs : newFirst B s = some (p, s')) :
    Vacates B s s' := by
  obtain ⟨s₁, hs₁, -, rfl⟩ := newFirst_eq_some.mp hs
  have hevict : Vacate B s s₁ :=
    .evict h.table (by decide) (Nat.zero_le _) (Set.notMem_empty _) hs₁
  exact (ReflTransGen.single hevict).tail (.quiet (chainFirst_quiet _ (by decide)))

theorem Settled.newPage_vacates (h : Settled s ch c)
    (hlast : (ch s.current)[s.tcb.mallocFrame]? = some last) (hroom : s.tcb.mallocFrame < 1596)
    (hs : newPage B s = some (p, s')) : Vacates B s s' := by
  obtain ⟨s₁, prev, hs₁, -, -, rfl⟩ := newPage_eq_some.mp hs
  have hlen := lt_length hlast
  have hspan := h.span s.current
  have hevict : Vacate B (s.setMallocFrame (s.tcb.mallocFrame + 1)) s₁ :=
    .evict (h.table.touch (touched_setMallocFrame _ s)) (by omega)
      (show s.tcb.mallocFrame + 1 ≤ s.pageCounter by omega) (Set.notMem_empty _) hs₁
  exact ((ReflTransGen.single (.quiet (quiet_setMallocFrame _))).tail hevict).tail
    (.quiet (chainAfter_quiet _ prev (by omega)))

theorem Settled.chunkFirst_vacates (h : Settled s ch c) (hn : n ≤ 1596)
    (hs : chunkFirst B n s = some (o, s')) : Vacates B s s' := by
  obtain ⟨s₁, s₂, hs₁, hrest, rfl⟩ := chunkFirst_eq_some.mp hs
  have hevict : Vacates B s s₁ := h.table.evictRange_vacates (by omega) (Nat.zero_le _)
    (fun j _ _ ↦ Set.notMem_empty j) hs₁
  have hfront : Quiet s₁ (chainFirst 0 (chunkMeta s₁.current n) s₁) :=
    chainFirst_quiet _ (by decide)
  have hrest' : Vacates B (chainFirst 0 (chunkMeta s₁.current n) s₁) s₂ :=
    chunkRest_vacates (by omega) hrest
  exact ((hevict.tail (.quiet hfront)).trans hrest').tail (.quiet (quiet_setMallocFrame _))

end MyPthread.Paging
