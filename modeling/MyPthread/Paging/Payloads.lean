import MyPthread.Paging.Good
import MyPthread.Paging.Heaps

/-!
# New pages and payloads

What the threads see stays good when a thread gets pages, which hold a new heap, and when it
stores to its own payloads.  No call changes a byte of a payload that a thread has and does not
give back.
-/

namespace MyPthread.Paging

open MyPthread.Lib MyPthread.Heap Function Relation

variable {B : Block} {Q : Prop} {s s' s₁ s₂ : Manager} {ch ch' : ℕ → List PageMetaPtr}
  {c c' : ℕ → ℕ} {lay lay' : ℕ → ℕ → Layout} {live live' : ℕ → List (ℕ × ℕ)}
  {i j k n o x r t u a lo hi : ℕ} {p q cur last front : PageMetaPtr} {l : List PageMetaPtr}
  {h : Layout}

/-! ## New pages -/

/-- The frames the caller gets, and its chunk afterwards. -/
structure Room (ch : ℕ → List PageMetaPtr) (c c' : ℕ → ℕ) (l : List PageMetaPtr)
    (t : ℕ) : Prop where
  le : (ch t).length + l.length ≤ 1597
  chunk : l.length = 1 ∧ c' = c ∨ ch t = [] ∧ 2 ≤ l.length ∧ c' = Function.update c t l.length

theorem Grow.room (h : Grow B ch c x r s s' c' l) : Settled s ch c ∧ Room ch c c' l s.current := by
  obtain ⟨hset, -, -, hcase, -, -, -, -, hlen, -⟩ := h
  exact ⟨hset, hlen, hcase⟩

namespace Room

theorem pos (h : Room ch c c' l t) : 1 ≤ l.length := by
  rcases h.chunk with ⟨hone, -⟩ | ⟨-, htwo, -⟩ <;> omega

/-- The chunk of a thread that has pages stays as it is. -/
theorem chunk_eq (h : Room ch c c' l t) (hp : (ch u)[k]? = some p) : c' u = c u := by
  rcases h.chunk with ⟨-, rfl⟩ | ⟨hnil, -, rfl⟩
  · rfl
  · refine Function.update_of_ne ?_ ..
    rintro rfl
    rw [hnil] at hp
    cases hp

/-- A heap in the new pages is the one that begins with them. -/
theorem base_eq (h : Room ch c c' l t) (hc : c t ≤ (ch t).length) (hk : (ch t).length ≤ k)
    (hkl : k < (ch t).length + l.length) (hck : c' t ≤ k + 1) :
    base (c' t) k = (ch t).length ∧ k + 1 = (ch t).length + l.length := by
  unfold base
  rcases h.chunk with ⟨hone, rfl⟩ | ⟨hnil, htwo, rfl⟩
  · rw [if_neg (by omega)]
    omega
  · have hlen : (ch t).length = 0 := by
      rw [hnil]
      rfl
    rw [Function.update_self] at hck ⊢
    rw [if_pos (by omega)]
    omega

/-- A new page that is not the last is of a chunk. -/
theorem two_le (h : Room ch c c' l t) (hc : c t ≤ (ch t).length) (hk : (ch t).length ≤ k)
    (hck : k + 1 < c' t) : ch t = [] ∧ 2 ≤ l.length ∧ c' t = l.length := by
  rcases h.chunk with ⟨-, rfl⟩ | ⟨hnil, htwo, rfl⟩
  · omega
  · exact ⟨hnil, htwo, Function.update_self ..⟩

end Room

/-- The pages that there were keep their bytes when a heap is set up in new ones. -/
theorem Fresh.content (hf : Fresh B ch c' l x r last s s₁ s') (hset : Settled s ch c)
    (hp : p ∈ s.pages) (ho : o < 4096) :
    content B s' p o = content B s p o := by
  rw [← hf.grew.contents p hp o ho]
  simp only [Paging.content, slot, hf.pageFrame, hf.swapFile]
  split_ifs with hlt
  · refine hf.mem _ fun hin ↦ ?_
    rw [mem_frames ho] at hin
    -- the new frames hold the new pages
    obtain ⟨q, hq⟩ : ∃ q, l[s₁.pageFrame p - (ch s.current).length]? = some q :=
      ⟨_, List.getElem?_eq_getElem (by omega)⟩
    have hloc := hf.grew.place _ q hq
    have hql := List.mem_of_getElem? hq
    have hmem : ∀ {u q}, q ∈ extend ch s.current l u → q ∈ s₁.pages :=
      fun hq ↦ hf.grew.settled.table.chained _ _ hq
    have hqmem : q ∈ s₁.pages := by
      apply hmem (u := s.current)
      rw [extend_self]
      exact List.mem_append_right _ hql
    have hpmem : p ∈ s₁.pages := by
      obtain ⟨t, ht⟩ := hset.complete p hp
      apply hmem (u := t)
      by_cases htc : t = s.current
      · subst htc
        rw [extend_self]
        exact List.mem_append_left _ ht
      · rwa [extend_of_ne htc]
    have hpq := hf.grew.settled.table.placed.inj p hpmem q hqmem (by omega)
    exact hf.grew.fresh q hql (hpq ▸ hp)
  · rfl

/-- The layouts after the caller has got pages. -/
def grownLay (B : Block) (lay : ℕ → ℕ → Layout) (t i n x : ℕ) : ℕ → ℕ → Layout :=
  Function.update lay t (Function.update (lay t) (i + n - 1) (firstLayout B i n x).2)

theorem grownLay_of_ne {i n : ℕ} (h : u = t → k < i) (hn : 1 ≤ n) :
    grownLay B lay t i n x u k = lay u k := by
  unfold grownLay
  by_cases hu : u = t
  · subst hu
    have hk := h rfl
    rw [Function.update_self, Function.update_of_ne (by omega)]
  · rw [Function.update_of_ne hu]

theorem grownLay_last {i n : ℕ} (hk : k + 1 = i + n) :
    grownLay B lay t i n x t k = (firstLayout B i n x).2 := by
  unfold grownLay
  obtain rfl : k = i + n - 1 := by omega
  rw [Function.update_self, Function.update_self]

/-- A page of a thread after the caller has got pages is one that it had, whose heap is as it
was, or a new one. -/
theorem Room.place_cases (hroom : Room ch c c' l t) (B : Block) (lay : ℕ → ℕ → Layout) (x : ℕ)
    (hp : (extend ch t l u)[k]? = some p) :
    (ch u)[k]? = some p ∧ c' u = c u ∧
      grownLay B lay t (ch t).length l.length x u k = lay u k ∨
    u = t ∧ (ch t).length ≤ k ∧ k < (ch t).length + l.length ∧ l[k - (ch t).length]? = some p := by
  rcases Paging.place_cases rfl hp with hold | ⟨rfl, hk, hp⟩
  · refine .inl ⟨hold, hroom.chunk_eq hold, grownLay_of_ne ?_ hroom.pos⟩
    rintro rfl
    exact Settled.lt_length hold
  · have hlt := (List.getElem?_eq_some_iff.mp hp).1
    exact .inr ⟨rfl, hk, by omega, hp⟩

namespace Good

/-- The caller gets pages, and the request is served by the heap that is set up in them. -/
theorem grow (hg : Good B s ch c lay live) (hgr : Grow B ch c x r s s' c' l) :
    Good B s' (extend ch s.current l) c'
      (grownLay B lay s.current (ch s.current).length l.length x)
      (afterMalloc live s.current x r) := by
  have hset := hgr.settled
  obtain ⟨-, hroom⟩ := hgr.room
  obtain ⟨last, s₁, hf⟩ := hgr.fresh
  have hpos := hroom.pos
  have hc := hg.settled.chunk s.current
  have hadd := frame_add B (ch s.current).length l.length
  have hlastmem := List.mem_of_getLast? hf.getLast
  have hne : ∀ p ∈ s.pages, p ≠ last := by
    rintro p hp rfl
    exact hf.grew.fresh p hlastmem hp
  have hmetas : ∀ p ∈ s.pages, s'.metas p = s.metas p := by
    intro p hp
    rw [hf.stored, Function.update_of_ne (hne p hp), hf.grew.metas p hp]
  have hlast : ∀ k p, k + 1 = (ch s.current).length + l.length →
      l[k - (ch s.current).length]? = some p → p = last := by
    intro k p hk hp
    have hend := hf.getLast
    rw [List.getLast?_eq_getElem?] at hend
    rw [show k - (ch s.current).length = l.length - 1 by omega] at hp
    exact Option.some.inj (hp.symm.trans hend)
  have hw : (firstLayout B (ch s.current).length l.length x).2.WF (B.frame (ch s.current).length)
      (B.frame ((ch s.current).length + l.length)) := hf.represents.wf
  have hwf : (Layout.fresh (B.frame (ch s.current).length)
      (B.frame ((ch s.current).length + l.length))).WF (B.frame (ch s.current).length)
      (B.frame ((ch s.current).length + l.length)) := Layout.wf_fresh (by omega)
  have hserved : r ≠ 0 → ∃ b : Lib.Block, b.addr + 32 = r ∧ x ≤ b.size ∧
      (firstLayout B (ch s.current).length l.length x).2.Allocated b := by
    intro hr
    rw [hf.result] at hr ⊢
    obtain ⟨b, hb, hx, halloc, -⟩ := hwf.malloc_allocated (x := x) hr
    exact ⟨b, hb, hx, (halloc b).mpr (.inr rfl)⟩
  refine ⟨hset, ?_, ?_, ?_, ?_, ?_, ?_⟩
  · intro u k p hp hk
    rcases hroom.place_cases B lay x hp with ⟨hp', hcu, hlay⟩ | ⟨rfl, hle, hlt, hp'⟩
    · rw [hcu] at hk ⊢
      rw [hlay]
      have hr := hg.heap u k p hp' hk
      rw [hg.heapOf_eq hp'] at hr
      rw [heapOf, hset.tid hp, hmetas p (hg.settled.mem_pages hp')]
      refine hr.of_agree fun a hlo hhi ↦ ?_
      refine view_congr hg.settled hset fun i o ho hao ↦ ⟨?_, fun q hq ↦ ?_⟩
      · by_cases hu : u = s.current
        · subst hu
          have hi : a ∈ heapFrames B (c s.current) k := mem_heapFrames_iff.mpr ⟨hlo, hhi⟩
          rw [hao, mem_heapFrames ho] at hi
          have hkl := Settled.lt_length hp'
          rw [extend_self, List.getElem?_append_left (by omega)]
        · rw [extend_of_ne hu]
      · exact hf.content hg.settled (hg.settled.mem_pages hq) ho
    · obtain ⟨hbase, hend⟩ := hroom.base_eq hc hle hlt hk
      obtain rfl := hlast k p hend hp'
      rw [hbase, hend, grownLay_last hend]
      have hrec : s'.metas p = { s₁.metas p with
          freePageMem := (firstLayout B (ch s.current).length l.length x).2.room,
          head := s'.heap.head, middle := s'.heap.middle } := by
        rw [hf.stored, Function.update_self]
      rw [heapOf, hset.tid hp, hrec]
      refine hf.represents.of_agree fun a hlo hhi ↦ ?_
      obtain ⟨i, o, ho, rfl⟩ := exists_frame (le_trans (addr_le_frame B _) hlo)
      have hin : B.frame i + o ∈ B.frames (ch s.current).length l.length := by
        rw [Block.frames, mem_Range]
        omega
      rw [mem_frames ho] at hin
      obtain ⟨q, hq⟩ : ∃ q, l[i - (ch s.current).length]? = some q :=
        ⟨_, List.getElem?_eq_getElem (by omega)⟩
      have hloc := hf.grew.place _ q hq
      refine view_here hset (p := q) ?_ ?_ ho
      · rw [extend_self, List.getElem?_append_right hin.1]
        exact hq
      · rw [hf.pageFrame]
        omega
  · intro u k p hp hk
    rcases hroom.place_cases B lay x hp with ⟨hp', hcu, hlay⟩ | ⟨rfl, hle, hlt, -⟩
    · rw [hcu] at hk
      rw [hlay]
      exact hg.inner u k p hp' hk
    · obtain ⟨-, hend⟩ := hroom.base_eq hc hle hlt hk
      rw [hend, grownLay_last hend]
      exact (Layout.inner_fresh (by omega)).malloc hwf
  · intro u k p hp hk
    rcases hroom.place_cases B lay x hp with ⟨hp', hcu, hlay⟩ | ⟨rfl, hle, hlt, hp'⟩
    · rw [hcu] at hk
      rw [hlay, hmetas p (hg.settled.mem_pages hp')]
      exact hg.free u k p hp' hk
    · obtain ⟨-, hend⟩ := hroom.base_eq hc hle hlt hk
      obtain rfl := hlast k p hend hp'
      rw [grownLay_last hend, hf.stored, Function.update_self]
  · intro u k p hp hk
    rcases hroom.place_cases B lay x hp with ⟨hp', hcu, -⟩ | ⟨rfl, hle, hlt, hp'⟩
    · rw [hcu] at hk
      rw [hmetas p (hg.settled.mem_pages hp')]
      exact hg.idle u k p hp' hk
    · obtain ⟨hnil, htwo, hcl⟩ := hroom.two_le hc hle hk
      obtain ⟨hhead, hfree⟩ := hf.grew.idle htwo p (List.mem_of_getElem? hp')
      have hpl : p ≠ last := by
        rintro rfl
        have hend := hf.getLast
        rw [List.getLast?_eq_getElem?] at hend
        have hlast' : (extend ch s.current l s.current)[l.length - 1]? = some p := by
          rw [extend_self, hnil, List.nil_append]
          exact hend
        have hkl := (hset.table.index_unique hp hlast').2
        omega
      rw [hf.stored, Function.update_of_ne hpl, hhead, hfree]
      exact ⟨rfl, by omega⟩
  · intro u e he
    have hold : e ∈ live u → ∃ k b, k < (extend ch s.current l u).length ∧ c' u ≤ k + 1 ∧
        (grownLay B lay s.current (ch s.current).length l.length x u k).Allocated b ∧
        b.addr + 32 = e.1 ∧ e.2 ≤ b.size := by
      intro he
      obtain ⟨k, p, b, hp, hk, hb, haddr, hsize⟩ := hg.exists_block he
      refine ⟨k, b, ?_, ?_, ?_, haddr, hsize⟩
      · have hk := Settled.lt_length hp
        rw [length_extend rfl rfl]
        split_ifs with hu
        · subst hu
          omega
        · exact hk
      · rwa [hroom.chunk_eq hp]
      · rw [grownLay_of_ne ?_ hpos]
        · exact hb
        · rintro rfl
          exact Settled.lt_length hp
    unfold afterMalloc at he
    split_ifs at he with hr
    · exact hold he
    · obtain ⟨b, hb, hx, halloc⟩ := hserved hr
      by_cases hu : u = s.current
      · subst hu
        rw [Function.update_self] at he
        rcases List.mem_cons.mp he with rfl | he
        · refine ⟨(ch s.current).length + l.length - 1, b, ?_, ?_, ?_, hb, hx⟩
          · rw [length_extend rfl rfl, if_pos rfl]
            omega
          · rcases hroom.chunk with ⟨-, rfl⟩ | ⟨-, -, rfl⟩
            · omega
            · rw [Function.update_self]
              omega
          · rwa [grownLay_last (by omega)]
        · exact hold he
      · rw [Function.update_of_ne hu] at he
        exact hold he
  · intro u
    unfold afterMalloc
    split_ifs with hr
    · exact hg.nodup u
    · obtain ⟨b, hb, hx, halloc⟩ := hserved hr
      by_cases hu : u = s.current
      · subst hu
        rw [Function.update_self, List.map_cons, List.nodup_cons]
        refine ⟨fun hmem ↦ ?_, hg.nodup s.current⟩
        -- a pointer that the caller has is to a page that it had
        obtain ⟨e, he, heq⟩ := List.mem_map.mp hmem
        obtain ⟨k, p, d, hp, hk, hd, haddr, -⟩ := hg.exists_block he
        have hdk := (mem_heapFrames_iff.mp (mem_heapFrames_of_wf (hg.wf hp hk) hd.1)).2
        have hmono : B.frame (k + 1) ≤ B.frame (ch s.current).length :=
          frame_mono B (Settled.lt_length hp)
        have hbounds := (hw.tiles.bounds halloc.1).1
        have heq' : e.1 = r := heq
        omega
      · rw [Function.update_of_ne hu]
        exact hg.nodup u

/-! ## Payloads -/

/-- The bytes of the pointer `e` of the thread `t` are as they were. -/
def Kept (B : Block) (t : ℕ) (e : ℕ × ℕ) (s s' : Manager) : Prop :=
  ∀ a, e.1 ≤ a → a < e.1 + e.2 → view B s' t a = view B s t a

/-- An operation on a heap of the caller keeps the payloads of the blocks that stay. -/
theorem kept_operated (hg : Good B s ch c lay live) (hs' : Settled s' ch c)
    (ho : Operated B ch c k p (lay s.current k) h s s') {e : ℕ × ℕ} (he : e ∈ live t)
    (hkeep : t = s.current → ∀ b, (lay s.current k).Allocated b → b.addr + 32 = e.1 →
      h.Allocated b) : Kept B t e s s' := by
  intro a hlo hhi
  have hw := hg.wf ho.place ho.last
  obtain ⟨hother, hview⟩ := ho.view_changes hg.settled hs' hw
  by_cases ht : t = s.current
  · subst ht
    refine hview a ?_
    obtain ⟨j, q, b, hq, hj, hb, haddr, hsize⟩ := hg.exists_block he
    have hin : a ∈ Range (b.addr + 32) b.size := by
      rw [mem_Range]
      omega
    by_cases hjk : j = k
    · subst hjk
      rintro (hmem | hmem)
      · exact notMem_headers hw.tiles hb.1 hin hmem
      · exact notMem_headers ho.represents.wf.tiles (hkeep rfl b hb haddr).1 hin hmem
    · have hframes : a ∈ heapFrames B (c s.current) j := by
        have hbounds := (hg.wf hq hj).tiles.bounds hb.1
        unfold Block.stop at hbounds
        rw [mem_heapFrames_iff]
        omega
      have hnot := disjoint_heapFrames hj ho.last hjk hframes
      rintro (hmem | hmem)
      · exact hnot (headers_subset_heapFrames hw hmem)
      · exact hnot (headers_subset_heapFrames ho.represents.wf hmem)
  · rw [hother t ht]

theorem kept_attempt (hg : Good B s ch c lay live) (ha : Attempt B True ch c x r s s')
    {e : ℕ × ℕ} (he : e ∈ live t) : Kept B t e s s' := by
  obtain ⟨k, p, ho, -⟩ := hg.attempt_operated ha
  refine hg.kept_operated ha.settled ho he fun _ b hb _ ↦ ?_
  by_cases hr : ((lay s.current k).malloc x).1 = 0
  · rwa [Layout.malloc_eq_self hr]
  · obtain ⟨d, -, -, halloc, -⟩ := (hg.wf ho.place ho.last).malloc_allocated hr
    exact (halloc b).mpr (.inl hb)

theorem kept_work (hg : Good B s ch c lay live) (hn : Near s) (hw : Work B True ch c x s s')
    {e : ℕ × ℕ} (he : e ∈ live t) : Kept B t e s s' := by
  have hs' := (hw.settled hg.settled).1
  cases hw with
  | flags => exact fun _ _ _ ↦ by rw [view_of_contents hg.settled hs' (SameContents.refl s)]
  | bring _ hp hne hs =>
    have hnear := hn _ (hg.settled.mem_pages hp) (hg.settled.tid hp)
    intro _ _ _
    rw [view_of_contents hg.settled hs' ((hg.settled.bring hp hne hs).2.2 hnear)]
  | load => exact fun _ _ _ ↦ by rw [view_of_contents hg.settled hs' (SameContents.refl s)]
  | fail ha => exact hg.kept_attempt ha he

theorem kept_works (hg : Good B s ch c lay live) (hn : Near s) (hw : Works B True ch c x s s')
    {e : ℕ × ℕ} (he : e ∈ live t) : Kept B t e s s' := by
  induction hw with
  | refl => exact fun _ _ _ ↦ rfl
  | tail hws hw ih =>
    have hg' := hg.works hn hws
    have hn' := Works.near hws hg.settled hn
    exact fun a hlo hhi ↦ (hg'.kept_work hn' hw he a hlo hhi).trans (ih a hlo hhi)

theorem kept_grow (hg : Good B s ch c lay live) (hgr : Grow B ch c x r s s' c' l)
    {e : ℕ × ℕ} (he : e ∈ live t) : Kept B t e s s' := by
  intro a hlo hhi
  obtain ⟨-, hroom⟩ := hgr.room
  obtain ⟨last, s₁, hf⟩ := hgr.fresh
  obtain ⟨k, p, b, hp, hk, hb, haddr, hsize⟩ := hg.exists_block he
  refine view_congr hg.settled hgr.settled fun i o ho hao ↦ ⟨?_, fun q hq ↦ ?_⟩
  · by_cases ht : t = s.current
    · subst ht
      have hframes : a ∈ heapFrames B (c s.current) k := by
        have hbounds := (hg.wf hp hk).tiles.bounds hb.1
        unfold Block.stop at hbounds
        rw [mem_heapFrames_iff]
        omega
      rw [hao, mem_heapFrames ho] at hframes
      have hlt := Settled.lt_length hp
      rw [extend_self, List.getElem?_append_left (by omega)]
    · rw [extend_of_ne ht]
  · exact hf.content hg.settled (hg.settled.mem_pages hq) ho

theorem kept_release (hg : Good B s ch c lay live) (hrel : Release B True ch c x s s')
    {b : Lib.Block} (hk : c s.current ≤ (frameOf B x).toNat + 1)
    (hb : (lay s.current (frameOf B x).toNat).Allocated b) (hx : b.addr + 32 = x)
    (hle : x ≤ B.frame (base (c s.current) (frameOf B x).toNat) + 4999) {e : ℕ × ℕ}
    (he : e ∈ afterFree live s.current x t) : Kept B t e s s' := by
  obtain ⟨p, ho⟩ := hg.release_operated hrel hk hb hx hle
  obtain ⟨he, hne⟩ := mem_afterFree.mp he
  refine hg.kept_operated hrel.settled ho he fun ht d hd haddr ↦ ?_
  refine Layout.WF.allocated_release.mpr ⟨hd, fun hdb ↦ ?_⟩
  apply hne ht
  omega

/-! ## Loads and stores -/

/-- The page of a byte of a pointer. -/
theorem exists_page (hg : Good B s ch c lay live) {e : ℕ × ℕ} (he : e ∈ live t) (hlo : e.1 ≤ a)
    (hhi : a < e.1 + e.2) : ∃ i o p, o < 4096 ∧ a = B.frame i + o ∧ (ch t)[i]? = some p := by
  obtain ⟨k, p, b, hp, hk, hb, haddr, hsize⟩ := hg.exists_block he
  have hframes : a ∈ heapFrames B (c t) k := by
    have hbounds := (hg.wf hp hk).tiles.bounds hb.1
    unfold Block.stop at hbounds
    rw [mem_heapFrames_iff]
    omega
  obtain ⟨i, o, ho, rfl⟩ :=
    exists_frame (le_trans (addr_le_frame B _) (mem_heapFrames_iff.mp hframes).1)
  rw [mem_heapFrames ho] at hframes
  have hlt := Settled.lt_length hp
  exact ⟨i, o, _, ho, rfl, List.getElem?_eq_getElem (by omega)⟩

end Good

/-- A byte is stored in the page that is in place in its frame. -/
def setMem (a : ℕ) (v : UInt8) (s : Manager) : Manager :=
  { s with heap.mem := setByte s.heap.mem a v }

theorem Settled.view_setMem {v : UInt8} (hset : Settled s ch c) (hp : (ch s.current)[i]? = some p)
    (hin : s.pageFrame p = i) (ho : o < 4096) :
    (∀ u, u ≠ s.current → view B (setMem (B.frame i + o) v s) u = view B s u) ∧
      view B (setMem (B.frame i + o) v s) s.current =
        setByte (view B s s.current) (B.frame i + o) v := by
  have hset' : Settled (setMem (B.frame i + o) v s) ch c := hset.store
  have hsmall := hset.small s.current
  have hlt := Settled.lt_length hp
  -- the other bytes of all pages are as they were
  have hkeep : ∀ u j o' q, o' < 4096 → (ch u)[j]? = some q →
      (u = s.current → B.frame j + o' ≠ B.frame i + o) →
      content B (setMem (B.frame i + o) v s) q o' = content B s q o' := by
    intro u j o' q ho' hq hne
    have hsame : (setMem (B.frame i + o) v s).pageFrame q = s.pageFrame q := rfl
    rw [content, content, hsame]
    by_cases hloc : s.pageFrame q < 1597
    · rw [slot_of_lt hloc, slot_of_lt hloc]
      refine setByte_of_ne fun heq ↦ ?_
      have hloc' : s.pageFrame q = i := by
        rw [← frame_div B (s.pageFrame q) ho', heq, frame_div B i ho]
      have hqp := hset.table.placed.inj q (hset.mem_pages hq) p (hset.mem_pages hp)
        (hloc'.trans hin.symm)
      subst hqp
      obtain ⟨rfl, rfl⟩ := hset.table.index_unique hp hq
      rw [hloc'] at heq
      exact hne rfl heq
    · rw [slot_of_ge (not_lt.mp hloc), slot_of_ge (not_lt.mp hloc)]
      rfl
  constructor
  · intro u hu
    funext a
    refine view_congr hset hset' fun j o' ho' _ ↦ ⟨rfl, fun q hq ↦ ?_⟩
    exact hkeep u j o' q ho' hq fun huc ↦ absurd huc hu
  · funext a
    by_cases ha : a = B.frame i + o
    · subst ha
      rw [view_here hset' hp hin ho, setByte_self]
      show setByte s.heap.mem (B.frame i + o) v (B.frame i + o) = v
      exact setByte_self ..
    · rw [setByte_of_ne ha]
      refine view_congr hset hset' fun j o' ho' hao ↦ ⟨rfl, fun q hq ↦ ?_⟩
      exact hkeep s.current j o' q ho' hq fun _ heq ↦ ha (hao.trans heq)

/-- A thread stores to a payload of its own. -/
theorem Good.setMem {v : UInt8} (hg : Good B s ch c lay live) {e : ℕ × ℕ} (he : e ∈ live s.current)
    (hlo : e.1 ≤ B.frame i + o) (hhi : B.frame i + o < e.1 + e.2)
    (hp : (ch s.current)[i]? = some p) (hin : s.pageFrame p = i) (ho : o < 4096) :
    Good B (setMem (B.frame i + o) v s) ch c lay live := by
  have hset' : Settled (Paging.setMem (B.frame i + o) v s) ch c := hg.settled.store
  obtain ⟨hother, hself⟩ := hg.settled.view_setMem (v := v) hp hin ho
  refine ⟨hset', ?_, hg.inner, hg.free, hg.idle, hg.alloc, hg.nodup⟩
  intro t k q hq hk
  have hr := hg.heap t k q hq hk
  rw [hg.heapOf_eq hq] at hr
  rw [heapOf, hset'.tid hq]
  by_cases ht : t = s.current
  · subst ht
    have hch : ChangesOnly {B.frame i + o} (view B s s.current)
        (view B (Paging.setMem (B.frame i + o) v s) s.current) := by
      rw [hself]
      exact fun a ha ↦ setByte_of_ne ha
    refine hr.congr hch fun a ha hmem ↦ ?_
    obtain rfl := Set.mem_singleton_iff.mp hmem
    -- a payload has no header in it
    obtain ⟨j, q', b, hq', hj, hb, haddr, hsize⟩ := hg.exists_block he
    have hin : B.frame i + o ∈ Range (b.addr + 32) b.size := by
      rw [mem_Range]
      omega
    by_cases hjk : j = k
    · subst hjk
      exact notMem_headers hr.wf.tiles hb.1 hin ha
    · have hframes : B.frame i + o ∈ heapFrames B (c s.current) j := by
        have hbounds := (hg.wf hq' hj).tiles.bounds hb.1
        unfold Block.stop at hbounds
        rw [mem_heapFrames_iff]
        omega
      exact disjoint_heapFrames hj hk hjk hframes (headers_subset_heapFrames hr.wf ha)
  · have hview := hother t ht
    rw [hview]
    exact hr

end MyPthread.Paging
