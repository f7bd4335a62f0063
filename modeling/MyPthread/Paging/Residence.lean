import MyPthread.Paging.Steady

/-!
# Pages in place

Before they work on a heap, the calls bring its pages into their frames.  When the pages
are there already nothing is done; otherwise `swap_pages` is called, which ends with
`mem_flag = 0`.  Which of the two happens is decided by the page table before the call.
-/

namespace MyPthread.Paging

open MyPthread.Lib MyPthread.Heap Function

variable {B : Block} {s s' s₁ s₂ : Manager} {i x r k fuel : ℕ} {p q cur : PageMetaPtr}
  {o : Option PageMetaPtr}

/-! ## Calls of `swap_pages` -/

/-- A call of `swap_pages`. -/
def Event.IsSwap : Event → Prop
  | .swap .. => True
  | .heap .. => False

/-- The state after one or more calls of `swap_pages`. -/
structure Swapping (s s' : Manager) : Prop where
  memFlag : s'.memFlag = 0
  accessible : s'.accessible = fun _ ↦ true
  trace : ∃ evs, s'.trace = evs ++ s.trace ∧ ∀ e ∈ evs, e.IsSwap

theorem Swapping.trans (h₁ : Swapping s s₁) (h₂ : Swapping s₁ s₂) : Swapping s s₂ := by
  obtain ⟨evs, htrace, hevs⟩ := h₁.trace
  obtain ⟨evs', htrace', hevs'⟩ := h₂.trace
  refine ⟨h₂.memFlag, h₂.accessible, evs' ++ evs, ?_, ?_⟩
  · rw [htrace', htrace, List.append_assoc]
  · intro e he
    rcases List.mem_append.mp he with he | he
    · exact hevs' e he
    · exact hevs e he

theorem swapPages_swapping {src : ℕ} {dest : Option ℕ} (h : swapPages B src dest s = some s') :
    Swapping s s' := by
  have hf := (swapPages_keeps h).2
  refine ⟨hf.memFlag, hf.accessible, [_], hf.trace, ?_⟩
  intro e he
  rw [List.mem_singleton.mp he]
  trivial

/-! ## The page table decides -/

/-- The pages of the chunk that ends with `cur` are in their frames. -/
def FrontInPlace (s : Manager) (cur : PageMetaPtr) : Prop :=
  ∀ front, (s.metas cur).frontMeta = some front → ∀ j, s.pageFrame front + j < s.pageFrame cur →
    s.frameTable (s.pageFrame front + j) = follow s.next j (some front)

/-- The page in frame `malloc_frame` is the caller's. -/
def LastInPlace (s : Manager) : Prop :=
  ∀ p, s.frameTable s.tcb.mallocFrame = some p → (s.metas p).tid = s.current

theorem bringLast_cases (h : bringLast B s = some (p, s')) :
    LastInPlace s ∧ s.frameTable s.tcb.mallocFrame = some p ∧ s' = s ∨
      ¬LastInPlace s ∧ Swapping s s' := by
  obtain ⟨temp, htemp, h⟩ := bringLast_eq_some.mp h
  rcases h with ⟨htid, rfl, rfl⟩ | ⟨htid, -, -, -, hswap⟩
  · refine .inl ⟨?_, htemp, rfl⟩
    intro q hq
    obtain rfl := Option.some.inj (htemp.symm.trans hq)
    exact htid
  · exact .inr ⟨fun hin ↦ htid (hin temp htemp), swapPages_swapping hswap⟩

theorem bringPage_cases (h : bringPage B k p s = some s') :
    s.pageFrame p = k ∧ s' = s ∨ s.pageFrame p ≠ k ∧ Swapping s s' := by
  rcases bringPage_eq_some.mp h with ⟨hk, rfl⟩ | ⟨hk, hswap⟩
  · exact .inl ⟨hk, rfl⟩
  · exact .inr ⟨hk, swapPages_swapping hswap⟩

/-- The loop calls `swap_pages` unless the pages it goes through are in their frames. -/
theorem bringChunk_cases (h : bringChunk B cur fuel i o s = some s') :
    (∀ j, i + j < s.pageFrame cur → s.frameTable (i + j) = follow s.next j o) ∧ s' = s ∨
      ¬(∀ j, i + j < s.pageFrame cur → s.frameTable (i + j) = follow s.next j o) ∧
        Swapping s s' := by
  induction fuel generalizing i o s with
  | zero => cases h
  | succ fuel ih =>
    rcases bringChunk_eq_some.mp h with ⟨hle, rfl⟩ | ⟨hlt, p, s₁, rfl, hswap, hrest⟩
    · exact .inl ⟨fun j hj ↦ by omega, rfl⟩
    · rcases hswap with ⟨heq, rfl⟩ | ⟨hne, q, -, hswap⟩
      · have hiff :
          (∀ j, i + j < s.pageFrame cur → s.frameTable (i + j) = follow s.next j (some p)) ↔
            ∀ j, i + 1 + j < s.pageFrame cur →
              s.frameTable (i + 1 + j) = follow s.next j (s.next p) := by
          constructor
          · intro hin j hj
            rw [Nat.add_assoc, Nat.add_comm 1 j] at hj ⊢
            exact hin (j + 1) hj
          · intro hin j hj
            cases j with
            | zero => exact heq
            | succ j =>
              rw [Nat.add_comm j 1, ← Nat.add_assoc] at hj ⊢
              rw [Nat.add_comm 1 j]
              exact hin j hj
        rw [hiff]
        exact ih hrest
      · refine .inr ⟨fun hin ↦ hne (hin 0 hlt), ?_⟩
        have hs₁ := swapPages_swapping hswap
        rcases ih hrest with ⟨-, rfl⟩ | ⟨-, hs'⟩
        · exact hs₁
        · exact hs₁.trans hs'

theorem bringFront_cases (h : bringFront B cur s = some s') :
    FrontInPlace s cur ∧ s' = s ∨ ¬FrontInPlace s cur ∧ Swapping s s' := by
  rw [bringFront] at h
  cases hf : (s.metas cur).frontMeta with
  | none =>
    rw [hf] at h
    refine .inl ⟨?_, (Option.some.inj h).symm⟩
    intro front hfront
    cases hf.symm.trans hfront
  | some front =>
    rw [hf] at h
    have hiff : FrontInPlace s cur ↔ ∀ j, s.pageFrame front + j < s.pageFrame cur →
        s.frameTable (s.pageFrame front + j) = follow s.next j (some front) := by
      constructor
      · intro hin
        exact hin front hf
      · intro hin front' hfront
        obtain rfl := Option.some.inj (hf.symm.trans hfront)
        exact hin
    rw [hiff]
    exact bringChunk_cases h

/-! ## Failing requests -/

/-- A request that finds no room in a heap changes nothing. -/
theorem mymallocFrom_eq_zero {h h' : HeapState} (hm : mymallocFrom fuel x h = some (0, h')) :
    h' = h := by
  have hhead : ∀ w, (takeFromHead w x h).1 ≠ 0 := by
    intro w
    unfold takeFromHead
    split <;> simp
  have hright : ∀ w, (takeRight w x h).1 ≠ 0 := by
    intro w
    unfold takeRight
    split <;> simp
  have hleft : ∀ w, (takeLeft w x h).1 ≠ 0 := by
    intro w
    unfold takeLeft
    split <;> simp
  simp only [mymallocFrom, Option.bind_eq_bind] at hm
  split_ifs at hm
  · obtain ⟨w, -, hm⟩ := Option.bind_eq_some_iff.mp hm
    split_ifs at hm
    · exact absurd (congrArg Prod.fst (Option.some.inj hm)) (hhead w)
    · exact (Prod.mk.inj (Option.some.inj hm)).2.symm
  · obtain ⟨w, -, hm⟩ := Option.bind_eq_some_iff.mp hm
    split_ifs at hm
    · exact absurd (congrArg Prod.fst (Option.some.inj hm)) (hright w)
    · obtain ⟨v, -, hm⟩ := Option.bind_eq_some_iff.mp hm
      split_ifs at hm
      · exact absurd (congrArg Prod.fst (Option.some.inj hm)) (hleft v)
      · exact (Prod.mk.inj (Option.some.inj hm)).2.symm

/-- Without memory to set a heap up in, the heap is one that there is. -/
theorem mymalloc_eq_zero {h h' : HeapState} (hm : mymalloc fuel x 0 0 h = some (0, h')) :
    h' = h := by
  rw [mymalloc] at hm
  split_ifs at hm
  · cases hm
  · exact mymallocFrom_eq_zero hm

/-- A heap that is not there cannot be set up in no memory. -/
theorem mymalloc_head_ne_zero {size : ℤ} {h h' : HeapState}
    (hm : mymalloc fuel x 0 size h = some (r, h')) : h.head ≠ 0 := by
  intro hhead
  rw [mymalloc, if_pos hhead] at hm
  cases hm

end MyPthread.Paging
