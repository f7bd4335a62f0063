import MyPthread.Paging.Sound

/-!
# The counters

`page_counter` is the number of pages, and a thread that has pages has `malloc_frame + 1`
of them.  Requests of one page and of several, first and later ones, all keep this.
-/

namespace MyPthread.Paging

open MyPthread.Lib MyPthread.Heap Function

variable {B : Block} {s s' s₁ s₂ : Manager} {i x r k n m : ℕ} {p q front : PageMetaPtr}
  {o o' : Option PageMetaPtr} {P : Call → Manager → Prop}

/-- How many pages have been made for the thread `t`. -/
def Manager.owned (s : Manager) (t : ℕ) : ℕ := s.made.countP fun p ↦ (s.metas p).tid = t

/-- The counters agree with the pages. -/
structure Counted (s : Manager) : Prop where
  length : s.made.length = s.pageCounter
  frames : ∀ t, (s.tcbs t).firstPage ≠ none → s.owned t = (s.tcbs t).mallocFrame + 1
  idle : ∀ t, (s.tcbs t).firstPage = none → (s.tcbs t).mallocFrame = 0 ∧ s.owned t = 0

theorem owned_le_length (t : ℕ) : s.owned t ≤ s.made.length := List.countP_le_length

theorem Steady.owned (h : Steady s s') (t : ℕ) : s'.owned t = s.owned t := by
  simp only [Manager.owned, h.made, h.tid]

/-- The frame a thread would put its next page in is in use, or the next one. -/
theorem Counted.lt_pageCounter (h : Counted s) {t : ℕ} (ht : (s.tcbs t).firstPage ≠ none) :
    (s.tcbs t).mallocFrame < s.pageCounter := by
  have hframes := h.frames t ht
  have hle := owned_le_length (s := s) t
  have hlen := h.length
  omega

theorem Counted.steady (h : Counted s) (hs : Steady s s') : Counted s' := by
  refine ⟨?_, ?_, ?_⟩
  · rw [hs.made, hs.pageCounter, h.length]
  · intro t
    rw [hs.tcbs, hs.owned]
    exact h.frames t
  · intro t
    rw [hs.tcbs, hs.owned]
    exact h.idle t

/-- `n` pages have been made for the current thread. -/
structure Grown (n : ℕ) (s s' : Manager) : Prop where
  length : s'.made.length = s.made.length + n
  owned : ∀ t, s'.owned t = s.owned t + if t = s.current then n else 0
  pageCounter : s'.pageCounter = s.pageCounter
  current : s'.current = s.current

theorem Grown.zero (s : Manager) : Grown 0 s s :=
  ⟨rfl, fun t ↦ by simp, rfl, rfl⟩

theorem Grown.trans (h₁ : Grown n s s₁) (h₂ : Grown m s₁ s₂) : Grown (n + m) s s₂ := by
  refine ⟨?_, ?_, h₂.pageCounter.trans h₁.pageCounter, h₂.current.trans h₁.current⟩
  · rw [h₂.length, h₁.length, Nat.add_assoc]
  · intro t
    rw [h₂.owned, h₁.owned, h₁.current]
    split_ifs
    · rw [Nat.add_assoc]
    · rfl

/-- The counters after `n` pages have been made for the current thread in as many
frames that were given up. -/
theorem Counted.grown (h : Counted s) (hpc : s₁.pageCounter = s.pageCounter + n)
    (hst : Grown n s₁ s') (hmade : s₁.made = s.made) (hmetas : s₁.metas = s.metas)
    (hcur : s₁.current = s.current) (htcbs : ∀ t, t ≠ s.current → s'.tcbs t = s.tcbs t)
    (hfirst : s'.tcb.firstPage ≠ none)
    (hframe : s'.tcb.mallocFrame + 1 =
      (if s.tcb.firstPage = none then 0 else s.tcb.mallocFrame + 1) + n) :
    Counted s' := by
  have howned : ∀ t, s₁.owned t = s.owned t := by
    intro t
    rw [Manager.owned, Manager.owned, hmade, hmetas]
  have hcur' := hst.current.trans hcur
  have hold : s.owned s.current = if s.tcb.firstPage = none then 0 else s.tcb.mallocFrame + 1 := by
    split_ifs with hnone
    · exact (h.idle _ hnone).2
    · exact h.frames _ hnone
  have hnew : s'.owned s.current = s'.tcb.mallocFrame + 1 := by
    rw [hst.owned, howned, hcur, if_pos rfl, hold, hframe]
  refine ⟨?_, ?_, ?_⟩
  · rw [hst.length, hst.pageCounter, hmade, hpc, h.length]
  · intro t ht
    by_cases htc : t = s.current
    · subst htc
      rw [hnew, Manager.tcb, hcur']
    · rw [htcbs t htc] at ht ⊢
      rw [hst.owned, howned, hcur, if_neg htc]
      exact h.frames t ht
  · intro t ht
    by_cases htc : t = s.current
    · subst htc
      rw [Manager.tcb, hcur'] at hfirst
      exact absurd ht hfirst
    · rw [htcbs t htc] at ht ⊢
      rw [hst.owned, howned, hcur, if_neg htc]
      exact h.idle t ht

/-! ## Pages are made -/

/-- What making a page does to the pages. -/
theorem Added.grown (h : Added i s s') (hfresh : s.osMemPtr ∉ s.made) : Grown 1 s s' := by
  refine ⟨?_, ?_, h.pageCounter, h.current⟩
  · rw [h.made, List.length_cons]
  · intro t
    have hold : s.made.countP (fun p ↦ (s'.metas p).tid = t) = s.owned t := by
      apply List.countP_congr
      intro p hp
      rw [h.metas p (ne_of_mem_of_not_mem hp hfresh)]
    rw [Manager.owned, h.made, List.countP_cons, hold, h.tid]
    by_cases htc : t = s.current
    · rw [if_pos htc, if_pos (by simpa using htc.symm)]
    · rw [if_neg htc, if_neg (by simpa using Ne.symm htc)]

namespace Sound

theorem notMem_osMemPtr (h : Sound B s) : s.osMemPtr ∉ s.made :=
  fun hmem ↦ absurd (h.fresh _ hmem) (lt_irrefl _)

/-- A new page, in a frame in use. -/
theorem of_added (h : Sound B s) (ha : Added i s s') (hi : i < s.pageCounter)
    (hlen : s.made.length < s.pageCounter)
    (hnext : ∀ p q, p ∈ s'.made → s'.next p = some q → q ∈ s'.made ∧ p < q)
    (hfirst : ∀ t p, (s'.tcbs t).firstPage = some p → p ∈ s'.made)
    (hfront : ∀ q, (s'.metas s.osMemPtr).frontMeta = some q → q ∈ s'.made)
    (htrace : s'.trace = s.trace) : Sound B s' := by
  have hmem : ∀ p, p ∈ s'.made ↔ p = s.osMemPtr ∨ p ∈ s.made := by
    intro p
    rw [ha.made, List.mem_cons]
  refine ⟨?_, ?_, ?_, ?_, fun p hp q ↦ hnext p q hp, hfirst, ?_, ?_, ?_, ?_⟩
  · rw [ha.made, List.nodup_cons]
    exact ⟨h.notMem_osMemPtr, h.nodup⟩
  · intro p hp
    rcases (hmem p).mp hp with rfl | hp
    · exact ha.osMemPtr
    · exact lt_trans (h.fresh p hp) ha.osMemPtr
  · intro p hp
    rw [ha.pageFrame, ha.pageCounter, update_apply]
    split_ifs with hpo
    · exact hi
    · exact h.placed p (((hmem p).mp hp).resolve_left hpo)
  · intro j p hp
    rw [ha.frameTable, update_apply] at hp
    rw [ha.pageCounter, hmem]
    split_ifs at hp with hj
    · obtain rfl := Option.some.inj hp
      exact ⟨.inl rfl, by rw [hj]; exact hi⟩
    · exact ⟨.inr (h.table j p hp).1, (h.table j p hp).2⟩
  · intro p hp q hq
    by_cases hpo : p = s.osMemPtr
    · subst hpo
      exact hfront q hq
    · rw [ha.metas p hpo] at hq
      exact (hmem q).mpr (.inr (h.front p (((hmem p).mp hp).resolve_left hpo) q hq))
  · intro p hp
    have hlt := ha.osMemPtr
    rw [ha.metas p (ne_of_gt (lt_of_lt_of_le hlt hp))]
    exact h.zero p (le_trans (le_of_lt hlt) hp)
  · rw [ha.made, ha.pageCounter, List.length_cons]
    exact hlen
  · intro e he
    rw [htrace] at he
    rw [ha.pageCounter]
    exact h.within e he

theorem chainFirst (h : Sound B s) (hi : i < s.pageCounter) (hlen : s.made.length < s.pageCounter)
    (init : PageMetaPtr → PageMeta → PageMeta) (hinit : ∀ p m, (init p m).tid = s.current)
    (hfront : ∀ q, (init s.osMemPtr (s.metas s.osMemPtr)).frontMeta = some q → q = s.osMemPtr) :
    Sound B (chainFirst i init s) := by
  refine h.of_added (chainFirst_added init hinit) hi hlen ?_ ?_ ?_ ?_
  all_goals rw [chainFirst_eq]
  · intro p q hp hq
    dsimp only at hp hq ⊢
    rw [update_apply] at hq
    split_ifs at hq with hpo
    obtain ⟨hqm, hpq⟩ := h.next p ((List.mem_cons.mp hp).resolve_left hpo) q hq
    exact ⟨List.mem_cons_of_mem _ hqm, hpq⟩
  · intro t p hp
    dsimp only at hp ⊢
    rw [update_apply] at hp
    split_ifs at hp
    · obtain rfl := Option.some.inj hp
      exact List.mem_cons_self
    · exact List.mem_cons_of_mem _ (h.first t p hp)
  · intro q hq
    simp only [update_self] at hq
    rw [hfront q hq]
    exact List.mem_cons_self

theorem chainAfter (h : Sound B s) (hi : i < s.pageCounter) (hlen : s.made.length < s.pageCounter)
    {prev : PageMetaPtr} (hprev : prev ∈ s.made)
    (init : PageMetaPtr → PageMeta → PageMeta) (hinit : ∀ p m, (init p m).tid = s.current)
    (hfront : ∀ q, (init s.osMemPtr (s.metas s.osMemPtr)).frontMeta = some q →
      q = s.osMemPtr ∨ q ∈ s.made) : Sound B (chainAfter i init prev s) := by
  refine h.of_added (chainAfter_added init prev hinit) hi hlen ?_ ?_ ?_ ?_
  all_goals rw [chainAfter_eq]
  · intro p q hp hq
    dsimp only at hp hq ⊢
    simp only [update_apply] at hq
    split_ifs at hq with hpp hpo
    · obtain rfl := Option.some.inj hq
      rw [hpp]
      exact ⟨List.mem_cons_self, h.fresh prev hprev⟩
    · obtain ⟨hqm, hpq⟩ := h.next p ((List.mem_cons.mp hp).resolve_left hpo) q hq
      exact ⟨List.mem_cons_of_mem _ hqm, hpq⟩
  · intro t p hp
    exact List.mem_cons_of_mem _ (h.first t p hp)
  · intro q hq
    simp only [update_self] at hq
    exact List.mem_cons.mpr (hfront q hq)

/-- Another `tcb` of the current thread. -/
theorem setTcb (h : Sound B s) {b : Tcb} (hb : ∀ p, b.firstPage = some p → p ∈ s.made) :
    Sound B { s with tcbs := update s.tcbs s.current b } := by
  refine ⟨h.nodup, h.fresh, h.placed, h.table, h.next, ?_, h.front, h.zero, h.length, h.within⟩
  intro t p hp
  dsimp only at hp
  rw [update_apply] at hp
  split_ifs at hp
  · exact hb p hp
  · exact h.first t p hp

theorem setMallocFrame (h : Sound B s) (i : ℕ) : Sound B (s.setMallocFrame i) :=
  h.setTcb fun p hp ↦ h.first _ p hp

theorem setFirstPage (h : Sound B s) (hp : p ∈ s.made) : Sound B (s.setFirstPage p) :=
  h.setTcb fun q hq ↦ by
    obtain rfl := Option.some.inj hq
    exact hp

end Sound

/-! ## The functions that make pages -/

/-- What `n` calls of `swap_pages` that evict do to the counters. -/
theorem evictRange_sound (h : Sound B s) (hi : i ≤ s.pageCounter)
    (hs : evictRange B i n s = some s') :
    Sound B s' ∧ Keeps s s' ∧ s'.pageCounter = s.pageCounter + n := by
  induction n generalizing i s with
  | zero =>
    obtain rfl := Option.some.inj hs
    exact ⟨h, Keeps.refl s, rfl⟩
  | succ n ih =>
    obtain ⟨s₁, hs₁, hs⟩ := Option.bind_eq_some_iff.mp hs
    have hpc := swapPages_pageCounter hs₁
    rw [if_pos rfl] at hpc
    obtain ⟨hs', hk, hpc'⟩ := ih (h.evict hi hs₁) (by omega) hs
    exact ⟨hs', (swapPages_keeps hs₁).1.trans hk, by omega⟩

/-- The loop over the pages of a chunk. -/
theorem chunkRest_sound (h : Sound B s) (hfront : front ∈ s.made) (hi : i + k ≤ s.pageCounter)
    (hlen : s.made.length + k ≤ s.pageCounter)
    (hs : chunkRest front n i k o s = some (o', s')) :
    Sound B s' ∧ Grown k s s' ∧ s'.tcbs = s.tcbs := by
  induction k generalizing i o s with
  | zero =>
    obtain ⟨-, rfl⟩ := Prod.mk.inj (Option.some.inj hs)
    exact ⟨h, Grown.zero s, rfl⟩
  | succ k ih =>
    obtain ⟨prev, hprev, hs⟩ := chunkRest_eq_some.mp hs
    have ha := chainAfter_added (s := s) (i := i) (fun _ ↦ chunkMeta s.current n front) prev
      fun _ _ ↦ rfl
    have hs₁ := h.chainAfter (i := i) (by omega) (by omega) (h.table _ _ hprev).1
      (fun _ ↦ chunkMeta s.current n front) (fun _ _ ↦ rfl) fun q hq ↦ by
        obtain rfl := Option.some.inj hq
        exact .inr hfront
    have hg := ha.grown h.notMem_osMemPtr
    have hmem : front ∈ (chainAfter i (fun _ ↦ chunkMeta s.current n front) prev s).made := by
      rw [ha.made]
      exact List.mem_cons_of_mem _ hfront
    have hpc := hg.pageCounter
    have hle := hg.length
    obtain ⟨hs', hg', htcbs⟩ := ih hs₁ hmem (by omega) (by omega) hs
    refine ⟨hs', ?_, ?_⟩
    · have := hg.trans hg'
      rwa [Nat.add_comm] at this
    · rw [htcbs, chainAfter_eq]

/-- The loop returns a page when it makes one. -/
theorem chunkRest_some {last : PageMetaPtr}
    (hs : chunkRest front n i k none s = some (some last, s')) :
    1 ≤ k := by
  cases k with
  | zero => cases hs
  | succ k => exact Nat.le_add_left 1 k

/-- How a call that makes `n` pages moves the counters. -/
structure Extended (n : ℕ) (s s' : Manager) : Prop where
  pageCounter : s'.pageCounter = s.pageCounter + n
  current : s'.current = s.current
  tcbs : ∀ t, t ≠ s.current → s'.tcbs t = s.tcbs t
  firstPage : s'.tcb.firstPage ≠ none
  mallocFrame : s'.tcb.mallocFrame + 1 =
    (if s.tcb.firstPage = none then 0 else s.tcb.mallocFrame + 1) + n

theorem Extended.steady (h : Extended n s s₁) (hs : Steady s₁ s') : Extended n s s' := by
  refine ⟨hs.pageCounter.trans h.pageCounter, hs.current.trans h.current, ?_, ?_, ?_⟩
  · rw [hs.tcbs]
    exact h.tcbs
  · rw [hs.tcb]
    exact h.firstPage
  · rw [hs.tcb]
    exact h.mallocFrame

theorem Steady.extended (h : Steady s s₁) (hs : Extended n s₁ s') : Extended n s s' := by
  have hpc := hs.pageCounter
  have hfr := hs.mallocFrame
  have htcbs := hs.tcbs
  rw [h.pageCounter] at hpc
  rw [h.tcb] at hfr
  rw [h.tcbs, h.current] at htcbs
  exact ⟨hpc, hs.current.trans h.current, htcbs, hs.firstPage, hfr⟩

/-- The counters after a call that makes pages. -/
theorem Counted.extended (h : Counted s) (hk : Keeps s s₁)
    (hpc : s₁.pageCounter = s.pageCounter + n) (hg : Grown n s₁ s') (he : Extended n s s') :
    Counted s' :=
  h.grown hpc hg hk.made hk.metas hk.current he.tcbs he.firstPage he.mallocFrame

theorem newFirst_counted (h : Sound B s) (hc : Counted s) (hnone : s.tcb.firstPage = none)
    (hs : newFirst B s = some (p, s')) :
    Sound B s' ∧ Counted s' ∧ Extended 1 s s' := by
  obtain ⟨s₁, hs₁, rfl, rfl⟩ := newFirst_eq_some.mp hs
  have hk := (swapPages_keeps hs₁).1
  have hpc := swapPages_pageCounter hs₁
  rw [if_pos rfl] at hpc
  have h₁ := h.evict (Nat.zero_le _) hs₁
  have hlen := h.length
  have hinit : ∀ p m, (firstInit s₁.current p m).tid = s₁.current := fun _ _ ↦ rfl
  have ha := chainFirst_added (s := s₁) (i := 0) _ hinit
  have hmf := (hc.idle _ hnone).1
  have he : Extended 1 s (chainFirst 0 (firstInit s₁.current) s₁) := by
    refine ⟨ha.pageCounter.trans hpc, ha.current.trans hk.current, ?_, ?_, ?_⟩
    · intro t ht
      rw [ha.firstPage t (by rwa [hk.current]), hk.tcbs]
    all_goals
      rw [chainFirst_eq]
      simp only [Manager.tcb, update_self]
    · exact nofun
    · rw [hk.tcbs, hk.current, hmf, if_pos hnone]
  refine ⟨h₁.chainFirst (by omega) (by rw [hk.made]; omega) _ hinit nofun, ?_, he⟩
  exact hc.extended hk hpc (ha.grown h₁.notMem_osMemPtr) he

theorem newPage_counted (h : Sound B s) (hc : Counted s) (hsome : s.tcb.firstPage ≠ none)
    (hs : newPage B s = some (p, s')) :
    Sound B s' ∧ Counted s' ∧ Extended 1 s s' := by
  obtain ⟨s₁, prev, hs₁, hprev, rfl, rfl⟩ := newPage_eq_some.mp hs
  have hk := (swapPages_keeps hs₁).1
  have hpc := swapPages_pageCounter hs₁
  rw [if_pos rfl] at hpc
  have hpc' : s₁.pageCounter = s.pageCounter + 1 := hpc
  have hlt : s.tcb.mallocFrame < s.pageCounter := hc.lt_pageCounter hsome
  have h₁ := (h.setMallocFrame (s.tcb.mallocFrame + 1)).evict hlt hs₁
  have hlen := h.length
  have hinit : ∀ p m, (nextInit s₁.current p m).tid = s₁.current := fun _ _ ↦ rfl
  have ha := chainAfter_added (s := s₁) (i := s.tcb.mallocFrame + 1) _ prev hinit
  have hmade : s₁.made = s.made := hk.made
  have hcur : s₁.current = s.current := hk.current
  have htcb : s₁.tcb = { s.tcb with mallocFrame := s.tcb.mallocFrame + 1 } := by
    rw [Manager.tcb, hk.tcbs, hcur]
    exact update_self ..
  have he : Extended 1 s (chainAfter (s.tcb.mallocFrame + 1) (nextInit s₁.current) prev s₁) := by
    refine ⟨ha.pageCounter.trans hpc', ha.current.trans hcur, ?_, ?_, ?_⟩
    · intro t ht
      rw [ha.firstPage t (by rwa [hcur]), hk.tcbs]
      exact update_of_ne ht ..
    · rw [chainAfter_eq]
      show s₁.tcb.firstPage ≠ none
      rw [htcb]
      exact hsome
    · rw [chainAfter_eq]
      show s₁.tcb.mallocFrame + 1 = _
      rw [htcb, if_neg hsome]
  refine ⟨h₁.chainAfter (by omega) (by rw [hmade]; omega) (h₁.table _ _ hprev).1 _ hinit ?_, ?_, he⟩
  · -- `front_meta` is not set, and is `NULL` in memory never used
    intro q hq
    have hzero := h₁.zero s₁.osMemPtr (le_refl _)
    rw [show (nextInit s₁.current s₁.osMemPtr (s₁.metas s₁.osMemPtr)).frontMeta =
      (s₁.metas s₁.osMemPtr).frontMeta from rfl, hzero] at hq
    cases hq
  · exact hc.grown hpc' (ha.grown h₁.notMem_osMemPtr) hmade hk.metas hcur he.tcbs he.firstPage
      he.mallocFrame

theorem chunkFirst_counted {last : PageMetaPtr} (h : Sound B s) (hc : Counted s)
    (hnone : s.tcb.firstPage = none) (hs : chunkFirst B n s = some (some last, s')) :
    2 ≤ n ∧ Sound B s' ∧ Counted s' ∧ Extended n s s' := by
  obtain ⟨s₁, s₂, hs₁, hrest, rfl⟩ := chunkFirst_eq_some.mp hs
  have hn : 2 ≤ n := by
    have := chunkRest_some hrest
    omega
  obtain ⟨h₁, hk, hpc⟩ := evictRange_sound h (Nat.zero_le _) hs₁
  have hlen := h.length
  have hinit : ∀ p m, (chunkMeta s₁.current n p m).tid = s₁.current := fun _ _ ↦ rfl
  have ha := chainFirst_added (s := s₁) (i := 0) _ hinit
  have hmade : s₁.made.length = s.made.length := by rw [hk.made]
  have h₂ := h₁.chainFirst (i := 0) (by omega) (by omega) _ hinit
    fun q hq ↦ (Option.some.inj hq).symm
  have hg₁ := ha.grown h₁.notMem_osMemPtr
  have hpc₁ := hg₁.pageCounter
  have hlen₁ := hg₁.length
  obtain ⟨h₃, hg₂, htcbs⟩ := chunkRest_sound h₂ (by rw [ha.made]; exact List.mem_cons_self)
    (by omega) (by omega) hrest
  have hg := hg₁.trans hg₂
  rw [show 1 + (n - 1) = n by omega] at hg
  have hcur : s₂.current = s.current := hg.current.trans hk.current
  have htcb : ∀ t, s₂.tcbs t = if t = s.current then
      { s.tcb with firstPage := some s₁.osMemPtr } else s.tcbs t := by
    intro t
    rw [htcbs, chainFirst_eq]
    dsimp only
    rw [update_apply, hk.current, Manager.tcb, hk.tcbs, hk.current]
  have he : Extended n s (s₂.setMallocFrame (n - 1)) := by
    refine ⟨hg.pageCounter.trans hpc, hcur, ?_, ?_, ?_⟩
    · intro t ht
      rw [Manager.tcbs_setMallocFrame_of_ne (by rwa [hcur]), htcb, if_neg ht]
    · rw [Manager.tcb_setMallocFrame, Manager.tcb, hcur, htcb, if_pos rfl]
      rintro ⟨⟩
    · rw [Manager.tcb_setMallocFrame, if_pos hnone]
      dsimp only
      omega
  refine ⟨hn, h₃.setMallocFrame _, ?_, he⟩
  exact hc.extended hk hpc ⟨hg.length, hg.owned, hg.pageCounter, hg.current⟩ he

theorem chunkLater_counted {last : PageMetaPtr} (h : Sound B s) (hc : Counted s)
    (hsome : s.tcb.firstPage ≠ none) (hs : chunkLater B n s = some (some last, s')) :
    2 ≤ n ∧ Sound B s' ∧ Counted s' ∧ Extended n s s' := by
  obtain ⟨s₁, prev, s₂, hs₁, hprev, hrest, rfl⟩ := chunkLater_eq_some.mp hs
  have hn : 2 ≤ n := by
    have := chunkRest_some hrest
    omega
  have hlt : s.tcb.mallocFrame < s.pageCounter := hc.lt_pageCounter hsome
  obtain ⟨h₁, hk, hpc⟩ := evictRange_sound (h.setMallocFrame (s.tcb.mallocFrame + 1)) hlt hs₁
  have hpc' : s₁.pageCounter = s.pageCounter + n := hpc
  have hlen := h.length
  have hmade : s₁.made = s.made := hk.made
  have hcur₁ : s₁.current = s.current := hk.current
  have hlen₁ : s₁.made.length = s.made.length := by rw [hmade]
  have hinit : ∀ p m, (chunkMeta s₁.current n p m).tid = s₁.current := fun _ _ ↦ rfl
  have ha := chainAfter_added (s := s₁) (i := s.tcb.mallocFrame + 1) _ prev hinit
  have h₂ := h₁.chainAfter (i := s.tcb.mallocFrame + 1) (by omega) (by omega)
    (h₁.table _ _ hprev).1 _ hinit fun q hq ↦ .inl (Option.some.inj hq).symm
  have htcbs₀ : (chainAfter (s.tcb.mallocFrame + 1) (chunkMeta s₁.current n) prev s₁).tcbs =
      s₁.tcbs := by rw [chainAfter_eq]
  generalize chainAfter (s.tcb.mallocFrame + 1) (chunkMeta s₁.current n) prev s₁ = s₀ at *
  have hg₁ := ha.grown h₁.notMem_osMemPtr
  have hmem : s₁.osMemPtr ∈ s₀.made := by
    rw [ha.made]
    exact List.mem_cons_self
  have hpc₀ := hg₁.pageCounter
  have hlen₀ := hg₁.length
  have hcur₀ : s₀.current = s.current := ha.current.trans hcur₁
  obtain ⟨h₃, hg₂, htcbs⟩ := chunkRest_sound (h₂.setFirstPage hmem) hmem
    (show s.tcb.mallocFrame + 1 + 1 + (n - 1) ≤ s₀.pageCounter by omega)
    (show s₀.made.length + (n - 1) ≤ s₀.pageCounter by omega) hrest
  have hg : Grown n s₁ s₂ := by
    have := hg₁.trans ⟨hg₂.length, hg₂.owned, hg₂.pageCounter, hg₂.current⟩
    rwa [show 1 + (n - 1) = n by omega] at this
  have hcur : s₂.current = s.current := hg.current.trans hcur₁
  have htcb : ∀ t, s₂.tcbs t = if t = s.current then
      ⟨s.tcb.mallocFrame + 1, some s₁.osMemPtr⟩ else s.tcbs t := by
    intro t
    have htcbs₁ : ∀ t, s₁.tcbs t = if t = s.current then
        { s.tcb with mallocFrame := s.tcb.mallocFrame + 1 } else s.tcbs t := by
      intro t
      rw [hk.tcbs]
      exact update_apply ..
    rw [htcbs]
    split_ifs with ht
    · rw [ht, ← hcur₀]
      refine (Manager.tcb_setFirstPage _ _).trans ?_
      rw [Manager.tcb, htcbs₀, hcur₀, htcbs₁, if_pos rfl]
    · rw [Manager.tcbs_setFirstPage_of_ne (by rwa [hcur₀]), htcbs₀, htcbs₁, if_neg ht]
  have he : Extended n s (s₂.setMallocFrame (s.tcb.mallocFrame + 1 + (n - 1))) := by
    refine ⟨hg.pageCounter.trans hpc', hcur, ?_, ?_, ?_⟩
    · intro t ht
      rw [Manager.tcbs_setMallocFrame_of_ne (by rwa [hcur]), htcb, if_neg ht]
    · rw [Manager.tcb_setMallocFrame, Manager.tcb, hcur, htcb, if_pos rfl]
      rintro ⟨⟩
    · rw [Manager.tcb_setMallocFrame, if_neg hsome]
      dsimp only
      omega
  refine ⟨hn, h₃.setMallocFrame _, ?_, he⟩
  exact hc.grown hpc' ⟨hg.length, hg.owned, hg.pageCounter, hg.current⟩ hmade hk.metas hcur₁
    he.tcbs he.firstPage he.mallocFrame

/-! ## Calls -/

/-- What a request of several pages does to the counters. -/
theorem allocateChunk_counted (h : Sound B s) (hc : Counted s)
    (hs : allocateChunk B x s = some (r, s')) : Sound B s' ∧ Counted s' ∧
      (s.TooMany (numOfPages x) ∧ Steady s s' ∨
        ¬s.TooMany (numOfPages x) ∧ 2 ≤ numOfPages x ∧ Extended (numOfPages x) s s') := by
  rcases allocateChunk_eq_some.mp hs with ⟨hmany, -, rfl⟩ | ⟨hmany, last, s₁, front, s₂, s₃, hchunk,
    -, hreq, hstore, rfl⟩
  · exact ⟨h, hc, .inl ⟨hmany, Steady.refl s⟩⟩
  · obtain ⟨hn, h₁, hc₁, he⟩ : 2 ≤ numOfPages x ∧ Sound B s₁ ∧ Counted s₁ ∧
        Extended (numOfPages x) s s₁ := by
      rcases hchunk with ⟨hnone, hchunk⟩ | ⟨hsome, hchunk⟩
      · exact chunkFirst_counted h hc hnone hchunk
      · exact chunkLater_counted h hc hsome hchunk
    have hst := (resetHeap_steady last s₁).trans ((request_steady hreq).trans
      ((storeHeap_steady hstore).trans (leave_steady s₃)))
    exact ⟨(((h₁.resetHeap last).request hreq).storeHeap hstore).leave, hc₁.steady hst,
      .inr ⟨hmany, hn, he.steady hst⟩⟩

/-- What the choice of the first page does. -/
theorem currentPage_counted {cur : Option PageMetaPtr} (h : Sound B s) (hc : Counted s)
    (hs : currentPage B s = some (cur, s')) : Sound B s' ∧ Counted s' ∧
      (s.tcb.firstPage ≠ none ∧ Steady s s' ∨
        s.tcb.firstPage = none ∧ s.pageCounter < 5692 ∧ Extended 1 s s' ∨
        s.tcb.firstPage = none ∧ cur = none ∧ Steady s s') := by
  rcases currentPage_eq_some.mp hs with ⟨hsome, last, s₁, s₂, hlast, hfront, rfl, rfl⟩ |
    ⟨hnone, hpc, new, s₁, hnew, rfl, rfl⟩ | ⟨hnone, -, rfl, rfl⟩
  · obtain ⟨h₁, hmem⟩ := h.bringLast (hc.lt_pageCounter hsome) hlast
    have hst := (bringLast_steady hlast).trans ((bringFront_steady hfront).trans
      (loadHeap_steady last s₂))
    exact ⟨(h₁.bringFront hmem hfront).loadHeap last, hc.steady hst, .inl ⟨hsome, hst⟩⟩
  · obtain ⟨h₁, hc₁, he⟩ := newFirst_counted h hc hnone hnew
    have hst := resetHeap_steady new s₁
    exact ⟨h₁.resetHeap new, hc₁.steady hst, .inr (.inl ⟨hnone, hpc, he.steady hst⟩)⟩
  · exact ⟨h, hc, .inr (.inr ⟨hnone, rfl, Steady.refl s⟩)⟩

/-- What a new page does. -/
theorem allocateNew_counted (h : Sound B s) (hc : Counted s) (hsome : s.tcb.firstPage ≠ none)
    (hs : allocateNew B x s = some (r, s')) : Sound B s' ∧ Counted s' ∧
      (Steady s s' ∨ s.pageCounter < 5692 ∧ s.tcb.mallocFrame < 1596 ∧ Extended 1 s s') := by
  rcases allocateNew_eq_some.mp hs with ⟨-, -, rfl⟩ |
    ⟨hroom, cur, s₁, s₂, s₃, hnew, hreq, hstore, rfl⟩
  · exact ⟨h, hc, .inl (Steady.refl s)⟩
  · obtain ⟨h₁, hc₁, he⟩ := newPage_counted h hc hsome hnew
    have hst := (resetHeap_steady cur s₁).trans ((request_steady hreq).trans
      ((storeHeap_steady hstore).trans (leave_steady s₃)))
    exact ⟨(((h₁.resetHeap cur).request hreq).storeHeap hstore).leave, hc₁.steady hst,
      .inr ⟨hroom.1, hroom.2, he.steady hst⟩⟩

end MyPthread.Paging
