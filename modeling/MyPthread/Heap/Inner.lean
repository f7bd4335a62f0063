import MyPthread.Heap.Layout

/-!
# Pointers into a region

The payload of a block of a region begins in the region, also when the block was asked to
hold no bytes: the rest of a split, or the block taken from the back of another one, is never
empty.
-/

namespace MyPthread.Heap

open MyPthread.Lib

namespace Layout

variable {x lo hi a : ℕ} {h : Layout} {b c : Block} {side : Side} {bs new : List Block}

/-- The payload of every block begins before `hi`. -/
def Inner (hi : ℕ) (h : Layout) : Prop := ∀ b ∈ h.blocks, b.addr + 32 < hi

theorem inner_fresh (h32 : lo + 32 < hi) : (fresh lo hi).Inner hi := by
  intro b hb
  rw [List.mem_singleton.mp hb]
  exact h32

theorem mem_subst (hc : c ∈ subst b new bs) : c ∈ bs ∨ c ∈ new := by
  induction bs with
  | nil => cases hc
  | cons d ds ih =>
    rw [subst] at hc
    split_ifs at hc
    · rcases List.mem_append.mp hc with hc | hc
      · exact .inr hc
      · exact .inl (List.mem_cons_of_mem d hc)
    · rcases List.mem_cons.mp hc with rfl | hc
      · exact .inl List.mem_cons_self
      · exact (ih hc).imp_left (List.mem_cons_of_mem d)

/-- A part of a block that is split begins where the block does, or ends not before its
payload has begun. -/
theorem inner_carve (hside : side = .left → 0 < x) (hc : c ∈ carve side x b) :
    c.addr = b.addr ∨ c.addr + 32 < b.stop 32 := by
  by_cases hx : x + 32 < b.size
  · by_cases hs : side = .left
    · have hpos := hside hs
      rw [hs, carve_back hx] at hc
      rcases List.mem_cons.mp hc with rfl | hc
      · exact .inl rfl
      · rw [List.mem_singleton.mp hc]
        right
        unfold Block.stop
        dsimp only
        omega
    · rw [carve_front hs hx] at hc
      rcases List.mem_cons.mp hc with rfl | hc
      · exact .inl rfl
      · rw [List.mem_singleton.mp hc]
        right
        unfold Block.stop
        dsimp only
        omega
  · rw [carve_whole hx] at hc
    rw [List.mem_singleton.mp hc]
    exact .inl rfl

theorem Inner.malloc (hi' : h.Inner hi) (hw : h.WF lo hi) : (h.malloc x).2.Inner hi := by
  cases hs : h.search x with
  | none => rwa [malloc_of_search_none hs]
  | some found =>
    obtain ⟨side, b⟩ := found
    obtain ⟨hb, -, -⟩ := search_some hs
    have hside : side = .left → 0 < x := by
      rintro rfl
      by_contra hx
      rw [search_small (by omega)] at hs
      obtain ⟨d, -, hd⟩ := Option.map_eq_some_iff.mp hs
      cases hd
    rw [malloc_of_search hs]
    intro c hc
    rcases mem_subst hc with hc | hc
    · exact hi' c hc
    · rcases inner_carve hside hc with haddr | hlt
      · rw [haddr]
        exact hi' b hb
      · exact lt_of_lt_of_le hlt (hw.tiles.bounds hb).2

theorem exists_addr_glue (hc : c ∈ glue 32 b bs) : c.addr = b.addr ∨ c ∈ bs := by
  cases bs with
  | nil =>
    rw [glue, List.mem_singleton] at hc
    exact .inl (congrArg Block.addr hc)
  | cons d ds =>
    rw [glue_cons] at hc
    split_ifs at hc
    · rcases List.mem_cons.mp hc with rfl | hc
      · exact .inl rfl
      · exact .inr (List.mem_cons_of_mem d hc)
    · rcases List.mem_cons.mp hc with rfl | hc
      · exact .inl rfl
      · exact .inr hc

theorem exists_addr_coalesce (hc : c ∈ coalesce 32 bs) : ∃ b ∈ bs, b.addr = c.addr := by
  induction bs generalizing c with
  | nil => cases hc
  | cons b bs ih =>
    rcases exists_addr_glue hc with haddr | hc
    · exact ⟨b, List.mem_cons_self, haddr.symm⟩
    · obtain ⟨d, hd, haddr⟩ := ih hc
      exact ⟨d, List.mem_cons_of_mem b hd, haddr⟩

theorem Inner.release (hi' : h.Inner hi) : (h.release a).Inner hi := by
  intro c hc
  obtain ⟨b, hb, haddr⟩ := exists_addr_coalesce hc
  obtain ⟨d, hd, rfl⟩ := List.mem_map.mp hb
  rw [← haddr]
  have hlt := hi' d hd
  split_ifs <;> exact hlt

end Layout

end MyPthread.Heap
