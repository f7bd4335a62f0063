import MyPthread.Paging.Settled

/-!
# New pages

A thread gets pages for the frames after those it has.  The frames are given up first, and
what was in them goes to locations never used; then the pages are made and chained one after
the other.  The chains stay complete.
-/

namespace MyPthread.Paging

open MyPthread.Lib MyPthread.Heap Function

variable {B : Block} {s s' s₁ s₂ : Manager} {ch : ℕ → List PageMetaPtr} {c : ℕ → ℕ} {H : Set ℕ}
  {t i j k n : ℕ} {p q last front : PageMetaPtr} {l l' : List PageMetaPtr}
  {o o' : Option PageMetaPtr}

/-! ## Giving frames up -/

/-- What was in frames that are given up is past all locations that were in use. -/
structure GivenUp (B : Block) (i n : ℕ) (s s' : Manager) : Prop where
  keeps : Keeps s s'
  pageCounter : s'.pageCounter = s.pageCounter + n
  pageFrame : ∀ p ∈ s.pages, s'.pageFrame p = s.pageFrame p ∨ s.pageCounter ≤ s'.pageFrame p
  contents : SameContents B s s'

/-- The loop that gives up the frames `i`, .., `i + n - 1`. -/
theorem Table.evictRange (h : Table s ch H) (hi : i + n ≤ 1597) (hin : i ≤ s.pageCounter)
    (hH : ∀ j, i ≤ j → j < i + n → j ∉ H) :
    ∃ s', evictRange B i n s = some s' ∧ GivenUp B i n s s' ∧
      Table s' ch (H ∪ Set.Ico i (i + n)) := by
  induction n generalizing i H s with
  | zero =>
    refine ⟨s, rfl, ⟨Keeps.refl s, rfl, fun _ _ ↦ .inl rfl, SameContents.refl s⟩, ?_⟩
    rwa [Nat.add_zero, Set.Ico_self, Set.union_empty]
  | succ n ih =>
    obtain ⟨s₁, hs₁, he, ht₁, hsame⟩ := h.evict (B := B) (i := i) (by omega) hin
      (hH i (le_refl i) (by omega))
    have hk := (swapPages_keeps hs₁).1
    have hpc := he.pageCounter
    obtain ⟨s', hs', hg, ht'⟩ := ih (i := i + 1) ht₁ (by omega) (by omega) fun j hij hjn hmem ↦ by
      rcases hmem with rfl | hmem
      · omega
      · exact hH j (by omega) (by omega) hmem
    have hpages : s.pages ⊆ s₁.pages := hk.pages.ge
    refine ⟨s', ?_, ⟨hk.trans hg.keeps, ?_, ?_, hsame.trans hg.contents hpages⟩, ?_⟩
    · exact Option.bind_eq_some_iff.mpr ⟨s₁, hs₁, hs'⟩
    · rw [hg.pageCounter, hpc]
      omega
    · intro p hp
      have hcase := hg.pageFrame p (hpages hp)
      rw [he.pageFrame, hpc] at hcase
      split_ifs at hcase with hpi
      · right
        omega
      · rcases hcase with hcase | hcase
        · exact .inl hcase
        · right
          omega
    · have hset : insert i H ∪ Set.Ico (i + 1) (i + 1 + n) = H ∪ Set.Ico i (i + (n + 1)) := by
        ext j
        simp only [Set.mem_union, Set.mem_insert_iff, Set.mem_Ico]
        constructor
        · rintro ((rfl | hj) | hj)
          · exact .inr ⟨le_refl _, by omega⟩
          · exact .inl hj
          · exact .inr (by omega)
        · rintro (hj | hj)
          · exact .inl (.inr hj)
          · rcases Nat.eq_or_lt_of_le hj.1 with rfl | hlt
            · exact .inl (.inl rfl)
            · exact .inr (by omega)
      rwa [hset] at ht'

theorem evictRange_one (B : Block) (i : ℕ) (s : Manager) :
    evictRange B i 1 s = swapPages B i none s := by
  show (swapPages B i none s).bind some = _
  exact Option.bind_fun_some _

/-! ## Making pages -/

/-- Pages that thread `t` gets behind those it has. -/
def extend (ch : ℕ → List PageMetaPtr) (t : ℕ) (l : List PageMetaPtr) : ℕ → List PageMetaPtr :=
  update ch t (ch t ++ l)

@[simp] theorem extend_self (ch : ℕ → List PageMetaPtr) (t : ℕ) (l : List PageMetaPtr) :
    extend ch t l t = ch t ++ l := update_self ..

theorem extend_of_ne {u : ℕ} (h : u ≠ t) : extend ch t l u = ch u := update_of_ne h ..

theorem extend_nil (ch : ℕ → List PageMetaPtr) (t : ℕ) : extend ch t [] = ch := by
  rw [extend, List.append_nil, update_eq_self]

theorem extend_addPage (ch : ℕ → List PageMetaPtr) (t : ℕ) (p : PageMetaPtr)
    (l : List PageMetaPtr) : extend (addPage ch t p) t l = extend ch t (p :: l) := by
  rw [extend, extend, addPage_self, addPage, update_idem, List.append_assoc]
  rfl

/-- The pages `l` have been made for the frames from `i` on, with the fields that `M` allows. -/
structure Built (B : Block) (M : PageMeta → Prop) (i : ℕ) (l : List PageMetaPtr)
    (s s' : Manager) : Prop where
  pages : ∀ p, p ∈ s'.pages ↔ p ∈ s.pages ∨ p ∈ l
  pageFrame : ∀ p ∈ s.pages, s'.pageFrame p = s.pageFrame p
  home : ∀ p ∈ s.pages, s'.home p = s.home p
  metas : ∀ p ∈ s.pages, s'.metas p = s.metas p
  place : ∀ k p, l[k]? = some p → s'.pageFrame p = i + k ∧ s'.home p = i + k ∧ M (s'.metas p)
  fresh : ∀ p ∈ l, p ∉ s.pages
  pageCounter : s'.pageCounter = s.pageCounter
  current : s'.current = s.current
  mem : s'.heap.mem = s.heap.mem
  swapFile : s'.swapFile = s.swapFile

namespace Built

variable {M : PageMeta → Prop}

theorem nil (B : Block) (M : PageMeta → Prop) (i : ℕ) (s : Manager) : Built B M i [] s s where
  pages p := by simp
  pageFrame _ _ := rfl
  home _ _ := rfl
  metas _ _ := rfl
  place _ _ hp := by cases hp
  fresh _ hp := by cases hp
  pageCounter := rfl
  current := rfl
  mem := rfl
  swapFile := rfl

/-- One page, and the rest after it. -/
theorem cons (ha : Added i s s₁) (hfresh : s.osMemPtr ∉ s.pages) (hM : M (s₁.metas s.osMemPtr))
    (h : Built B M (i + 1) l s₁ s') : Built B M i (s.osMemPtr :: l) s s' := by
  have hnew : s.osMemPtr ∈ s₁.pages := by
    rw [ha.pages]
    exact Set.mem_insert _ _
  have hold : ∀ p ∈ s.pages, p ∈ s₁.pages ∧ p ≠ s.osMemPtr := by
    intro p hp
    rw [ha.pages]
    exact ⟨Set.mem_insert_of_mem _ hp, ne_of_mem_of_not_mem hp hfresh⟩
  refine ⟨?_, ?_, ?_, ?_, ?_, ?_, h.pageCounter.trans ha.pageCounter, h.current.trans ha.current,
    h.mem.trans ha.mem, h.swapFile.trans ha.swapFile⟩
  · intro p
    rw [h.pages, ha.pages, Set.mem_insert_iff, List.mem_cons]
    tauto
  · intro p hp
    obtain ⟨hp₁, hne⟩ := hold p hp
    rw [h.pageFrame p hp₁, ha.pageFrame, update_of_ne hne]
  · intro p hp
    obtain ⟨hp₁, hne⟩ := hold p hp
    rw [h.home p hp₁, ha.home, update_of_ne hne]
  · intro p hp
    obtain ⟨hp₁, hne⟩ := hold p hp
    rw [h.metas p hp₁, ha.metas p hne]
  · intro k p hp
    cases k with
    | zero =>
      obtain rfl := Option.some.inj hp
      refine ⟨?_, ?_, ?_⟩
      · rw [h.pageFrame _ hnew, ha.pageFrame, update_self]
        rfl
      · rw [h.home _ hnew, ha.home, update_self]
        rfl
      · rwa [h.metas _ hnew]
    | succ k =>
      obtain ⟨hloc, hhome, hmeta⟩ := h.place k p hp
      exact ⟨by omega, by omega, hmeta⟩
  · intro p hp
    rcases List.mem_cons.mp hp with rfl | hp
    · exact hfresh
    · exact fun hmem ↦ h.fresh p hp (hold p hmem).1

theorem one (ha : Added i s s') (hfresh : s.osMemPtr ∉ s.pages) (hM : M (s'.metas s.osMemPtr)) :
    Built B M i [s.osMemPtr] s s' :=
  cons ha hfresh hM (nil B M (i + 1) s')

/-- The bytes of the pages there were are where they were. -/
theorem contents (h : Built B M i l s s') : SameContents B s s' := by
  intro p hp o _
  simp only [content, slot, h.pageFrame p hp, h.mem, h.swapFile]

end Built

/-- The loop that makes the pages of a chunk after its front. -/
theorem Table.chunkRest (h : Table s ch H) (hH : ∀ j, i ≤ j → j < i + k → j ∈ H)
    (hlast : (ch s.current).getLast? = some last) (hloc : s.pageFrame last + 1 = i)
    (hi : i + k ≤ 1597) (hs : chunkRest front n i k o s = some (o', s')) :
    ∃ l : List PageMetaPtr, l.length = k ∧
      Built B (fun m ↦ m = chunkMeta s.current n front m) i l s s' ∧
      Table s' (extend ch s.current l) (H \ Set.Ico i (i + k)) ∧
      (∀ p, o' = some p → k ≠ 0 → l.getLast? = some p) ∧ s'.tcbs = s.tcbs := by
  induction k generalizing i o s ch H last with
  | zero =>
    obtain ⟨rfl, rfl⟩ := Prod.mk.inj (Option.some.inj hs)
    refine ⟨[], rfl, Built.nil B _ i s, ?_, fun _ _ h₀ ↦ absurd rfl h₀, rfl⟩
    rwa [extend_nil, Nat.add_zero, Set.Ico_self, Set.sdiff_empty]
  | succ k ih =>
    obtain ⟨prev, hprev, hs⟩ := chunkRest_eq_some.mp hs
    have hlastmem := h.chained _ _ (List.mem_of_getLast? hlast)
    -- the page before is the last one of the chain
    obtain rfl : prev = last := by
      have htable := h.placed.table_loc hlastmem (by omega)
      rw [show s.pageFrame last = i - 1 by omega, hprev] at htable
      exact Option.some.inj htable
    obtain ⟨ha, ht₁⟩ := h.chainAfter (hH i (le_refl i) (by omega)) hlast
      (fun _ ↦ chunkMeta s.current n front) fun _ _ ↦ rfl
    have hmeta :
      (Paging.chainAfter i (fun _ ↦ chunkMeta s.current n front) prev s).metas s.osMemPtr =
        chunkMeta s.current n front (s.metas s.osMemPtr) := by
      rw [chainAfter_eq]
      simp only [update_self]
    have htcbs :
      (Paging.chainAfter i (fun _ ↦ chunkMeta s.current n front) prev s).tcbs = s.tcbs := by
      rw [chainAfter_eq]
    generalize Paging.chainAfter i (fun _ ↦ chunkMeta s.current n front) prev s = s₁ at *
    have hfresh := h.notMem_osMemPtr
    obtain ⟨l, hl, hb, ht', ho, htcbs'⟩ := ih (i := i + 1) ht₁ (fun j hij hjk ↦ by
        refine ⟨hH j (by omega) (by omega), ?_⟩
        rw [Set.mem_singleton_iff]
        omega)
      (show _ = some s.osMemPtr by rw [ha.current, addPage_self, List.getLast?_concat])
      (by rw [ha.pageFrame, update_self]) (by omega) hs
    rw [ha.current] at hb ht'
    refine ⟨s.osMemPtr :: l, ?_, hb.cons ha hfresh ?_, ?_, ?_, htcbs'.trans htcbs⟩
    · rw [List.length_cons, hl]
    · rw [hmeta]
      rfl
    · rw [← extend_addPage]
      have hset : (H \ {i}) \ Set.Ico (i + 1) (i + 1 + k) = H \ Set.Ico i (i + (k + 1)) := by
        ext j
        simp only [Set.mem_sdiff, Set.mem_singleton_iff, Set.mem_Ico]
        constructor
        · rintro ⟨⟨hj, hne⟩, hnot⟩
          exact ⟨hj, by omega⟩
        · rintro ⟨hj, hnot⟩
          exact ⟨⟨hj, by omega⟩, by omega⟩
      rwa [hset] at ht'
    · intro p hp _
      rcases Nat.eq_zero_or_pos k with rfl | hk
      · obtain rfl := List.length_eq_zero_iff.mp hl
        obtain ⟨rfl, -⟩ := Prod.mk.inj (Option.some.inj hs)
        obtain rfl := Option.some.inj hp
        rfl
      · have hlast' := ho p hp (by omega)
        have hne : l ≠ [] := by
          rintro rfl
          cases hlast'
        rw [List.getLast?_cons_of_ne_nil hne]
        exact hlast'

/-! ## The chains afterwards -/

/-- A page of the thread that has got pages is one that it had or a new one. -/
theorem getElem?_extend (hi : (ch t).length = i) (hp : (extend ch t l t)[k]? = some p) :
    k < i ∧ (ch t)[k]? = some p ∨ i ≤ k ∧ l[k - i]? = some p := by
  rw [extend_self, List.getElem?_append, hi] at hp
  split_ifs at hp with hk
  · exact .inl ⟨hk, hp⟩
  · exact .inr ⟨by omega, hp⟩

/-- A page of a thread is one that it had or a new one. -/
theorem place_cases {u : ℕ} (hi : (ch t).length = i) (hp : (extend ch t l u)[k]? = some p) :
    (ch u)[k]? = some p ∨ u = t ∧ i ≤ k ∧ l[k - i]? = some p := by
  by_cases hu : u = t
  · subst hu
    rcases getElem?_extend hi hp with ⟨-, hp⟩ | hp
    · exact .inl hp
    · exact .inr ⟨rfl, hp⟩
  · rw [extend_of_ne hu] at hp
    exact .inl hp

theorem length_extend (hi : (ch t).length = i) (hl : l.length = n) (u : ℕ) :
    (extend ch t l u).length = if u = t then i + n else (ch u).length := by
  split_ifs with hu
  · rw [hu, extend_self, List.length_append, hi, hl]
  · rw [extend_of_ne hu]

/-- The chains are complete when the caller has got `n` pages in frames that were given up. -/
theorem Settled.grow {T : ℕ → Tcb} {M : PageMeta → Prop} {c' : ℕ → ℕ} (h : Settled s ch c)
    (hg : GivenUp B i n { s with tcbs := T } s₁) (hb : Built B M i l s₁ s')
    (ht : Table s' (extend ch s.current l) ∅) (he : Extended n s s')
    (hi : (ch s.current).length = i) (hl : l.length = n) (hn : i + n ≤ 1597)
    (hc : ∀ t ≠ s.current, c' t = c t) (hle : c' s.current ≤ i + n)
    (hfront : ∀ k p, (ch s.current ++ l)[k]? = some p → (s'.metas p).frontMeta =
      if k < c' s.current then (ch s.current ++ l)[0]? else none) :
    Settled s' (extend ch s.current l) c' := by
  have hpages : ∀ p, p ∈ s'.pages ↔ p ∈ s.pages ∨ p ∈ l := by
    intro p
    rw [hb.pages, hg.keeps.pages]
    rfl
  have hold : ∀ p ∈ s.pages, p ∈ s₁.pages := fun p hp ↦ hg.keeps.pages.ge hp
  have hpc : s'.pageCounter = s.pageCounter + n := he.pageCounter
  have hlen := length_extend hi hl
  have hspan := h.span s.current
  -- a page the caller did not get is in none of the new frames
  have hout : ∀ p ∈ s.pages, s'.pageFrame p < i ∨ i + n ≤ s'.pageFrame p := by
    intro p hp
    by_contra hin
    obtain ⟨q, hq⟩ : ∃ q, l[s'.pageFrame p - i]? = some q :=
      ⟨_, List.getElem?_eq_getElem (by omega)⟩
    have hloc := (hb.place _ q hq).1
    have hql := List.mem_of_getElem? hq
    have hpq := ht.placed.inj p ((hpages p).mpr (.inl hp)) q ((hpages q).mpr (.inr hql)) (by omega)
    rw [hpq] at hp
    exact hb.fresh q hql (hold q hp)
  refine ⟨ht, ?_, ?_, ?_, ?_, ?_, ?_, ?_, ?_⟩
  · intro p hp
    rcases (hpages p).mp hp with hp | hp
    · obtain ⟨u, hu⟩ := h.complete p hp
      refine ⟨u, ?_⟩
      by_cases hut : u = s.current
      · subst hut
        rw [extend_self]
        exact List.mem_append_left _ hu
      · rwa [extend_of_ne hut]
    · refine ⟨s.current, ?_⟩
      rw [extend_self]
      exact List.mem_append_right _ hp
  · intro u hne
    rw [hlen]
    split_ifs with hut
    · have hframe := he.mallocFrame
      rw [Manager.tcb, he.current] at hframe
      rw [hut, hframe]
      split_ifs with hnone
      · have hnil : ch s.current = [] := by
          by_contra hsome
          exact h.firstPage_ne.mpr hsome hnone
        rw [hnil] at hi
        rw [← hi]
        rfl
      · have hlength := h.length s.current (h.firstPage_ne.mp hnone)
        rw [hi] at hlength
        rw [hlength]
    · rw [he.tcbs u hut]
      rw [extend_of_ne hut] at hne
      exact h.length u hne
  · intro u
    have hu := h.span u
    rw [hlen, hpc]
    split_ifs <;> omega
  · intro u
    have hu := h.small u
    rw [hlen]
    split_ifs <;> omega
  · intro u k p hp
    rcases place_cases hi hp with hp | ⟨rfl, hk, hp⟩
    · have hmem := h.mem_pages hp
      rw [hb.home p (hold p hmem), hg.keeps.home]
      exact h.home u k p hp
    · rw [(hb.place _ p hp).2.1]
      omega
  · intro u k p hp hne v
    rcases place_cases hi hp with hp | ⟨rfl, hk, hp⟩
    · have hmem := h.mem_pages hp
      have hloc := hb.pageFrame p (hold p hmem)
      have hmove := hg.pageFrame p hmem
      rw [← hloc] at hmove
      have hfar : ∀ v, (ch v).length ≤ s'.pageFrame p := by
        intro v
        rcases hmove with hsame | hge
        · have hsame' : s'.pageFrame p = s.pageFrame p := hsame
          rw [hsame'] at hne ⊢
          exact h.away u k p hp hne v
        · exact le_trans (h.span v) hge
      have hcur := hfar s.current
      have hnot := hout p hmem
      rw [hlen]
      split_ifs with hv
      · omega
      · exact hfar v
    · have hloc := (hb.place _ p hp).1
      omega
  · intro u k p hp
    by_cases hut : u = s.current
    · subst hut
      rw [extend_self] at hp ⊢
      exact hfront k p hp
    · rw [extend_of_ne hut] at hp ⊢
      have hmem := h.mem_pages hp
      rw [hc u hut, hb.metas p (hold p hmem), hg.keeps.metas]
      exact h.front u k p hp
  · intro u
    rw [hlen]
    split_ifs with hut
    · rw [hut]
      exact hle
    · rw [hc u hut]
      exact h.chunk u

/-! ## The functions that make pages -/

theorem touched_setMallocFrame (i : ℕ) (s : Manager) : Touched s (s.setMallocFrame i) := by
  refine ⟨rfl, rfl, rfl, rfl, le_refl _, rfl, rfl, fun _ ↦ rfl, ?_, rfl⟩
  intro t
  by_cases ht : t = s.current
  · rw [ht]
    show (update s.tcbs s.current { s.tcb with mallocFrame := i } s.current).firstPage = _
    rw [update_self]
  · rw [Manager.tcbs_setMallocFrame_of_ne ht]

/-- The caller has got the pages `l`. -/
structure Grew (B : Block) (ch : ℕ → List PageMetaPtr) (c' : ℕ → ℕ) (l : List PageMetaPtr)
    (s s' : Manager) : Prop where
  settled : Settled s' (extend ch s.current l) c'
  fresh : ∀ p ∈ l, p ∉ s.pages
  place : ∀ k p, l[k]? = some p → s'.pageFrame p = (ch s.current).length + k
  contents : SameContents B s s'
  metas : ∀ p ∈ s.pages, s'.metas p = s.metas p
  idle : 2 ≤ l.length → ∀ p ∈ l, (s'.metas p).head = 0 ∧ (s'.metas p).freePageMem = -1
  current : s'.current = s.current
  moved : ∀ p ∈ s.pages, s'.pageFrame p = s.pageFrame p ∨ s.pageCounter ≤ s'.pageFrame p

/-- One page, in a frame that was given up for it. -/
theorem Settled.grow_one {T : ℕ → Tcb} (h : Settled s ch c)
    (hg : GivenUp B i 1 { s with tcbs := T } s₁) (ha : Added i s₁ s')
    (hfresh : s₁.osMemPtr ∉ s₁.pages)
    (ht : Table s' (extend ch s.current [s₁.osMemPtr]) ∅) (he : Extended 1 s s')
    (hi : (ch s.current).length = i) (hn : i + 1 ≤ 1597)
    (hnone : (s'.metas s₁.osMemPtr).frontMeta = none) :
    Grew B ch c [s₁.osMemPtr] s s' := by
  have hb : Built B (fun m ↦ m.frontMeta = none) i [s₁.osMemPtr] s₁ s' := Built.one ha hfresh hnone
  have hpages : s₁.pages = s.pages := hg.keeps.pages
  have hmetas : ∀ p ∈ s.pages, s'.metas p = s.metas p := by
    intro p hp
    rw [hb.metas p (hpages.ge hp), hg.keeps.metas]
  have hchunk := h.chunk s.current
  refine ⟨h.grow hg hb ht he hi rfl hn (fun _ _ ↦ rfl) (by omega) ?_, ?_, ?_, ?_, hmetas,
    fun htwo ↦ absurd htwo (by simp), he.current, ?_⟩
  · intro k p hp
    rw [List.getElem?_append, hi] at hp
    split_ifs at hp with hk
    · rw [hmetas p (h.mem_pages hp), h.front _ k p hp]
      split_ifs
      · rw [List.getElem?_append_left (by omega)]
      · rfl
    · have hmem := List.mem_singleton.mp (List.mem_of_getElem? hp)
      rw [hmem, hnone, if_neg (by omega)]
  · intro p hp
    rw [← hpages]
    exact hb.fresh p hp
  · intro k p hp
    rw [hi]
    exact (hb.place k p hp).1
  · exact SameContents.trans hg.contents hb.contents hpages.ge
  · intro p hp
    rw [hb.pageFrame p (hpages.ge hp)]
    exact hg.pageFrame p hp

theorem newFirst_settled (h : Settled s ch c) (hsd : Sound B s) (hc : Counted s)
    (hnone : s.tcb.firstPage = none) (hs : newFirst B s = some (p, s')) :
    Grew B ch c [p] s s' := by
  obtain ⟨-, -, he⟩ := newFirst_counted hsd hc hnone hs
  obtain ⟨s₁, hs₁, rfl, rfl⟩ := newFirst_eq_some.mp hs
  have hnil : ch s.current = [] := by
    by_contra hsome
    exact h.firstPage_ne.mpr hsome hnone
  obtain ⟨s₂, hs₂, hg, ht₁⟩ := h.table.evictRange (B := B) (i := 0) (n := 1) (by omega)
    (Nat.zero_le _) fun j _ _ ↦ Set.notMem_empty j
  rw [evictRange_one] at hs₂
  obtain rfl := Option.some.inj (hs₂.symm.trans hs₁)
  have hnone₁ : s₂.tcb.firstPage = none := by
    rw [Manager.tcb, hg.keeps.tcbs, hg.keeps.current]
    exact hnone
  obtain ⟨ha, ht⟩ := ht₁.chainFirst (i := 0) (.inr ⟨le_refl _, Nat.zero_lt_one⟩) hnone₁
    (firstInit s₂.current) fun _ _ ↦ rfl
  have hset : (∅ ∪ Set.Ico 0 (0 + 1)) \ {0} = (∅ : Set ℕ) := by
    ext j
    simp only [Set.mem_sdiff, Set.mem_union, Set.mem_empty_iff_false, Set.mem_Ico, false_or,
      Set.mem_singleton_iff, iff_false]
    omega
  rw [hset] at ht
  refine h.grow_one (T := s.tcbs) hg ha ht₁.notMem_osMemPtr ?_ he ?_ (by omega) ?_
  · rw [← hg.keeps.current]
    exact ht
  · rw [hnil]
    rfl
  · rw [chainFirst_eq]
    simp only [update_self]
    rfl

/-- The frame after the last page of the caller is given up, and the last page is still in the
frame before. -/
theorem Settled.evict_next (h : Settled s ch c)
    (hlast : (ch s.current)[s.tcb.mallocFrame]? = some last)
    (hloc : s.pageFrame last = s.tcb.mallocFrame) (hroom : s.tcb.mallocFrame < 1596) :
    ∃ s₁, swapPages B (s.tcb.mallocFrame + 1) none (s.setMallocFrame (s.tcb.mallocFrame + 1)) =
        some s₁ ∧
      GivenUp B (s.tcb.mallocFrame + 1) 1 (s.setMallocFrame (s.tcb.mallocFrame + 1)) s₁ ∧
      Table s₁ ch (∅ ∪ Set.Ico (s.tcb.mallocFrame + 1) (s.tcb.mallocFrame + 1 + 1)) ∧
      s₁.frameTable s.tcb.mallocFrame = some last := by
  have hlen := Settled.lt_length hlast
  have hspan := h.span s.current
  have ht := h.table.touch (touched_setMallocFrame (s.tcb.mallocFrame + 1) s)
  obtain ⟨s₁, hs₁, hev, -⟩ := ht.evict (B := B) (i := s.tcb.mallocFrame + 1) (by omega)
    (show s.tcb.mallocFrame + 1 ≤ s.pageCounter by omega) (Set.notMem_empty _)
  obtain ⟨s₂, hs₂, hg, ht₁⟩ :=
    ht.evictRange (B := B) (n := 1) (i := s.tcb.mallocFrame + 1) (by omega)
    (show s.tcb.mallocFrame + 1 ≤ s.pageCounter by omega) fun j _ _ ↦ Set.notMem_empty j
  rw [evictRange_one] at hs₂
  obtain rfl := Option.some.inj (hs₂.symm.trans hs₁)
  have hmem : last ∈ s.pages := h.mem_pages hlast
  have hloc₁ : s₂.pageFrame last = s.tcb.mallocFrame := by
    have hframe := hev.pageFrame last
    split_ifs at hframe with htable
    · have hin := ((ht.placed.table_iff _ (by omega) (Set.notMem_empty _) last).mp htable).2
      have hin' : s.pageFrame last = s.tcb.mallocFrame + 1 := hin
      omega
    · exact hframe.trans hloc
  refine ⟨s₂, hs₁, hg, ht₁, ?_⟩
  rw [← hloc₁]
  exact ht₁.placed.table_loc (hg.keeps.pages.ge hmem) (by omega)

theorem newPage_settled (h : Settled s ch c) (hsd : Sound B s) (hc : Counted s)
    (hlast : (ch s.current)[s.tcb.mallocFrame]? = some last)
    (hloc : s.pageFrame last = s.tcb.mallocFrame) (hroom : s.tcb.mallocFrame < 1596)
    (hs : newPage B s = some (p, s')) : Grew B ch c [p] s s' := by
  have hne : ch s.current ≠ [] := by
    intro hnil
    rw [hnil] at hlast
    cases hlast
  obtain ⟨-, -, he⟩ := newPage_counted hsd hc (h.firstPage_ne.mpr hne) hs
  obtain ⟨s₁, prev, hs₁, hprev, rfl, rfl⟩ := newPage_eq_some.mp hs
  have hlen : (ch s.current).length = s.tcb.mallocFrame + 1 := h.length _ hne
  obtain ⟨s₂, hs₂, hg, ht₁, hlast₁⟩ := h.evict_next (B := B) hlast hloc hroom
  obtain rfl := Option.some.inj (hs₂.symm.trans hs₁)
  obtain rfl := Option.some.inj (hlast₁.symm.trans hprev)
  have hcur : s₂.current = s.current := hg.keeps.current
  have hgetLast : (ch s₂.current).getLast? = some last := by
    rw [hcur, List.getLast?_eq_getElem?, hlen]
    exact hlast
  obtain ⟨ha, ht⟩ :=
    ht₁.chainAfter (i := s.tcb.mallocFrame + 1) (.inr ⟨le_refl _, Nat.lt_succ_self _⟩)
    hgetLast (nextInit s₂.current) fun _ _ ↦ rfl
  have hset : (∅ ∪ Set.Ico (s.tcb.mallocFrame + 1) (s.tcb.mallocFrame + 1 + 1)) \
      {s.tcb.mallocFrame + 1} = (∅ : Set ℕ) := by
    ext j
    simp only [Set.mem_sdiff, Set.mem_union, Set.mem_empty_iff_false, Set.mem_Ico, false_or,
      Set.mem_singleton_iff, iff_false]
    omega
  rw [hset] at ht
  refine h.grow_one (T := (s.setMallocFrame (s.tcb.mallocFrame + 1)).tcbs) hg ha
    ht₁.notMem_osMemPtr ?_ he hlen (by omega) ?_
  · rw [← hcur]
    exact ht
  · rw [chainAfter_eq]
    simp only [update_self]
    show (s₂.metas s₂.osMemPtr).frontMeta = none
    rw [hg.keeps.metas, hg.keeps.osMemPtr]
    exact hsd.zero _ (le_refl _)

/-- A chunk for a thread that has no page. -/
theorem chunkFirst_settled (h : Settled s ch c) (hsd : Sound B s) (hc : Counted s)
    (hnone : s.tcb.firstPage = none) (hn : n ≤ 1596)
    (hs : chunkFirst B n s = some (some last, s')) :
    ∃ l, l.length = n ∧ l.getLast? = some last ∧ Grew B ch (update c s.current n) l s s' := by
  obtain ⟨htwo, -, -, he⟩ := chunkFirst_counted hsd hc hnone hs
  obtain ⟨s₁, s₂, hs₁, hrest, rfl⟩ := chunkFirst_eq_some.mp hs
  have hnil : ch s.current = [] := by
    by_contra hsome
    exact h.firstPage_ne.mpr hsome hnone
  obtain ⟨s₀, hs₀, hg, ht₁⟩ := h.table.evictRange (B := B) (i := 0) (n := n) (by omega)
    (Nat.zero_le _) fun j _ _ ↦ Set.notMem_empty j
  obtain rfl := Option.some.inj (hs₀.symm.trans hs₁)
  have hcur : s₀.current = s.current := hg.keeps.current
  have hnone₁ : s₀.tcb.firstPage = none := by
    rw [Manager.tcb, hg.keeps.tcbs, hcur]
    exact hnone
  obtain ⟨ha, ht₂⟩ := ht₁.chainFirst (i := 0) (.inr ⟨le_refl _, by omega⟩) hnone₁
    (chunkMeta s₀.current n) fun _ _ ↦ rfl
  have hmeta : (chainFirst 0 (chunkMeta s₀.current n) s₀).metas s₀.osMemPtr =
      chunkMeta s₀.current n s₀.osMemPtr (s₀.metas s₀.osMemPtr) := by
    rw [chainFirst_eq]
    simp only [update_self]
  generalize chainFirst 0 (chunkMeta s₀.current n) s₀ = s₃ at *
  have hlast : (addPage ch s₀.current s₀.osMemPtr s₃.current).getLast? = some s₀.osMemPtr := by
    rw [ha.current, addPage_self, List.getLast?_concat]
  obtain ⟨l, hl, hb, ht, ho, -⟩ := ht₂.chunkRest (B := B) (i := 1) (fun j hj hjn ↦ by
      refine ⟨.inr ⟨Nat.zero_le _, by omega⟩, ?_⟩
      rw [Set.mem_singleton_iff]
      omega) hlast (by rw [ha.pageFrame, update_self]) (by omega) hrest
  have hset : ((∅ ∪ Set.Ico 0 (0 + n)) \ {0}) \ Set.Ico 1 (1 + (n - 1)) = (∅ : Set ℕ) := by
    ext j
    simp only [Set.mem_sdiff, Set.mem_union, Set.mem_empty_iff_false, Set.mem_Ico, false_or,
      Set.mem_singleton_iff, iff_false]
    omega
  rw [hset, ha.current, hcur, extend_addPage] at ht
  rw [ha.current] at hb
  have hbuilt : Built B (fun m ↦ m = chunkMeta s₀.current n s₀.osMemPtr m) 0 (s₀.osMemPtr :: l) s₀
      (s₂.setMallocFrame (n - 1)) := by
    have hb' : Built B (fun m ↦ m = chunkMeta s₀.current n s₀.osMemPtr m) 1 l s₃
        (s₂.setMallocFrame (n - 1)) :=
      ⟨hb.pages, hb.pageFrame, hb.home, hb.metas, hb.place, hb.fresh, hb.pageCounter, hb.current,
        hb.mem, hb.swapFile⟩
    refine hb'.cons ha ht₁.notMem_osMemPtr ?_
    rw [hmeta]
    rfl
  have hrecord : ∀ (k : ℕ) p, (s₀.osMemPtr :: l)[k]? = some p →
      ((s₂.setMallocFrame (n - 1)).metas p).frontMeta = some s₀.osMemPtr ∧
        ((s₂.setMallocFrame (n - 1)).metas p).head = 0 ∧
        ((s₂.setMallocFrame (n - 1)).metas p).freePageMem = -1 := by
    intro k p hp
    rw [(hbuilt.place k p hp).2.2]
    exact ⟨rfl, rfl, rfl⟩
  have hlen : (s₀.osMemPtr :: l).length = n := by
    rw [List.length_cons, hl]
    omega
  have hpages : s₀.pages = s.pages := hg.keeps.pages
  have hend := touched_setMallocFrame (n - 1) s₂
  have hi : (ch s.current).length = 0 := by
    rw [hnil]
    rfl
  refine ⟨s₀.osMemPtr :: l, hlen, ?_, ?_, ?_, ?_, ?_, ?_, ?_, he.current, ?_⟩
  · have hne : l ≠ [] := by
      rintro rfl
      rw [List.length_nil] at hl
      omega
    rw [List.getLast?_cons_of_ne_nil hne]
    exact ho last rfl (by omega)
  · refine h.grow (T := s.tcbs) hg hbuilt (ht.touch hend) he hi hlen (by omega) ?_ ?_ ?_
    · intro t ht
      exact update_of_ne ht ..
    · rw [update_self]
      omega
    · intro k p hp
      rw [hnil, List.nil_append] at hp ⊢
      have hk := (List.getElem?_eq_some_iff.mp hp).1
      rw [(hrecord k p hp).1, update_self, if_pos (by omega)]
      rfl
  · intro p hp
    rw [← hpages]
    exact hbuilt.fresh p hp
  · intro k p hp
    rw [hi]
    exact (hbuilt.place k p hp).1
  · exact SameContents.trans hg.contents hbuilt.contents hpages.ge
  · intro p hp
    rw [hbuilt.metas p (hpages.ge hp), hg.keeps.metas]
  · intro _ p hp
    obtain ⟨k, hk⟩ := List.getElem?_of_mem hp
    exact (hrecord k p hk).2
  · intro p hp
    have hloc := hbuilt.pageFrame p (hpages.ge hp)
    rw [hloc]
    exact hg.pageFrame p hp

end MyPthread.Paging
