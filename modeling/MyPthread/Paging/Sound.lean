import MyPthread.Paging.Steady

/-!
# What the page table always keeps

`Sound` is what every call keeps, on any pointer and whatever is in memory: the pages
that the table, the chains and the chunks name have been made, their locations are in
use, and `swap_pages` has moved pages between locations in use.  The addresses of pages
grow along the chains, so that no walk is longer than the number of pages.
-/

namespace MyPthread.Paging

open MyPthread.Lib MyPthread.Heap Function

variable {B : Block} {s s' : Manager} {i x r k d n m fuel : ℕ} {p q cur : PageMetaPtr}
  {o : Option PageMetaPtr}

/-! ## What `swap_pages` writes -/

/-- The bytes that `swap_pages(src, ..)` may write, when the page in `src` moves to `loc`. -/
def Block.written (B : Block) (src loc : ℕ) : Set ℕ :=
  Range (B.frame src) 4096 ∪ Range (B.frame loc) 4096 ∪ Range B.swapTemp 4096

/-- `swap_pages` has moved pages between locations below `n`, and written nothing else. -/
def Event.Within (B : Block) (n : ℕ) : Event → Prop
  | .swap _ src _ loc before after =>
    src < n ∧ loc < n ∧ ChangesOnly (B.written src loc) before after
  | .heap .. => True

theorem Event.Within.mono {e : Event} (h : e.Within B n) (hnm : n ≤ m) : e.Within B m := by
  cases e with
  | swap page src dest loc before after =>
    obtain ⟨hsrc, hdest, hch⟩ := h
    exact ⟨lt_of_lt_of_le hsrc hnm, lt_of_lt_of_le hdest hnm, hch⟩
  | heap => trivial

theorem changesOnly_copyBytes {S : Set ℕ} {m m' : Mem} {dst n : ℕ} (src : ℕ)
    (h : ChangesOnly S m m')
    (hS : Range dst n ⊆ S) : ChangesOnly S m (copyBytes m' dst src n) := by
  intro a ha
  rw [← h a ha]
  apply copyBytes_of_notMem
  by_contra hmem
  exact ha (hS (mem_Range.mpr (by omega)))

theorem changesOnly_moveBytes {S : Set ℕ} {m m' f : Mem} {dst src n : ℕ} (h : ChangesOnly S m m')
    (hS : Range dst n ⊆ S) : ChangesOnly S m (moveBytes m' dst f src n) := by
  intro a ha
  rw [← h a ha]
  apply moveBytes_of_notMem
  by_contra hmem
  exact ha (hS (mem_Range.mpr (by omega)))

/-- The frames and the scratch page are written. -/
theorem movePages_changesOnly {src : ℕ} {dest : Option ℕ} (h : movePages B src dest s = some s') :
    ChangesOnly (B.written src (dest.getD s.pageCounter)) s.heap.mem s'.heap.mem := by
  have hrefl := ChangesOnly.refl (B.written src (dest.getD s.pageCounter)) s.heap.mem
  have hleft : Range (B.frame src) 4096 ⊆ B.written src (dest.getD s.pageCounter) :=
    fun a ha ↦ .inl (.inl ha)
  have hright : Range (B.frame (dest.getD s.pageCounter)) 4096 ⊆
      B.written src (dest.getD s.pageCounter) := fun a ha ↦ .inl (.inr ha)
  have htemp : Range B.swapTemp 4096 ⊆ B.written src (dest.getD s.pageCounter) :=
    fun a ha ↦ .inr ha
  cases dest with
  | none =>
    simp only [movePages, evict] at h
    split at h
    · split at h
      all_goals
        obtain rfl := Option.some.inj h
        exact changesOnly_copyBytes _ hrefl hright
    · obtain ⟨p, -, h⟩ := Option.bind_eq_some_iff.mp h
      obtain rfl := Option.some.inj h
      exact hrefl
  | some dest =>
    simp only [movePages] at h
    split at h
    · obtain ⟨p, -, h⟩ := Option.bind_eq_some_iff.mp h
      obtain ⟨q, -, h⟩ := Option.bind_eq_some_iff.mp h
      obtain rfl := Option.some.inj h
      have h₁ := changesOnly_copyBytes (B.frame src) hrefl htemp
      have h₂ := changesOnly_copyBytes (B.frame dest) h₁ hleft
      exact changesOnly_copyBytes _ h₂ hright
    · obtain ⟨p, -, h⟩ := Option.bind_eq_some_iff.mp h
      obtain ⟨q, -, h⟩ := Option.bind_eq_some_iff.mp h
      obtain rfl := Option.some.inj h
      exact changesOnly_moveBytes (changesOnly_copyBytes _ hrefl htemp) hleft

/-! ## The invariant -/

/-- What every call keeps of the page table. -/
structure Sound (B : Block) (s : Manager) : Prop where
  nodup : s.made.Nodup
  fresh : ∀ p ∈ s.made, p < s.osMemPtr
  placed : ∀ p ∈ s.made, s.pageFrame p < s.pageCounter
  table : ∀ i p, s.frameTable i = some p → p ∈ s.made ∧ i < s.pageCounter
  next : ∀ p ∈ s.made, ∀ q, s.next p = some q → q ∈ s.made ∧ p < q
  first : ∀ t p, (s.tcbs t).firstPage = some p → p ∈ s.made
  front : ∀ p ∈ s.made, ∀ q, (s.metas p).frontMeta = some q → q ∈ s.made
  zero : ∀ p, s.osMemPtr ≤ p → (s.metas p).frontMeta = none
  length : s.made.length ≤ s.pageCounter
  within : ∀ e ∈ s.trace, e.Within B s.pageCounter

theorem Sound.start {b : Boot} (hb : b.Zeroed) : Sound B (b.start B) := by
  refine ⟨List.nodup_nil, nofun, nofun, ?_, nofun, nofun, nofun, ?_, le_refl _, nofun⟩
  · intro i p hp
    cases (hb.frameTable i).symm.trans hp
  · intro p _
    show (b.metas p).frontMeta = none
    rw [hb.metas]

/-- How many pages are before `p`. -/
def rank (s : Manager) (p : PageMetaPtr) : ℕ := (s.made.toFinset.filter (· < p)).card

theorem rank_lt (hp : p ∈ s.made) : rank s p < s.made.length := by
  calc
    rank s p < s.made.toFinset.card := by
      apply Finset.card_lt_card
      rw [Finset.filter_ssubset]
      exact ⟨p, List.mem_toFinset.mpr hp, lt_irrefl p⟩
    _ ≤ s.made.length := List.toFinset_card_le _

theorem rank_lt_rank (hp : p ∈ s.made) (hpq : p < q) : rank s p < rank s q := by
  apply Finset.card_lt_card
  rw [Finset.ssubset_iff_of_subset]
  · refine ⟨p, Finset.mem_filter.mpr ⟨List.mem_toFinset.mpr hp, hpq⟩, ?_⟩
    rw [Finset.mem_filter]
    exact fun hmem ↦ lt_irrefl p hmem.2
  · intro a ha
    rw [Finset.mem_filter] at ha ⊢
    exact ⟨ha.1, lt_trans ha.2 hpq⟩

namespace Sound

/-- What leaves the locations alone, and moves no page. -/
theorem of_steady (h : Sound B s) (hs : Steady s s') (hloc : s'.pageFrame = s.pageFrame)
    (htable : s'.frameTable = s.frameTable)
    (htrace : ∀ e ∈ s'.trace, e ∈ s.trace ∨ ∀ n, e.Within B n) : Sound B s' := by
  refine ⟨?_, ?_, ?_, ?_, ?_, ?_, ?_, ?_, ?_, ?_⟩
  · rw [hs.made]
    exact h.nodup
  · rw [hs.made, hs.osMemPtr]
    exact h.fresh
  · rw [hs.made, hs.pageCounter, hloc]
    exact h.placed
  · rw [hs.made, hs.pageCounter, htable]
    exact h.table
  · rw [hs.made, hs.next]
    exact h.next
  · rw [hs.made, hs.tcbs]
    exact h.first
  · intro p hp q hq
    rw [hs.made] at hp ⊢
    rw [hs.frontMeta] at hq
    exact h.front p hp q hq
  · intro p hp
    rw [hs.osMemPtr] at hp
    rw [hs.frontMeta]
    exact h.zero p hp
  · rw [hs.made, hs.pageCounter]
    exact h.length
  · intro e he
    rw [hs.pageCounter]
    rcases htrace e he with he | he
    · exact h.within e he
    · exact he _

/-- A walk along a chain stays on pages. -/
theorem follow_mem (h : Sound B s) (ho : ∀ p, o = some p → p ∈ s.made)
    (hp : follow s.next k o = some p) : p ∈ s.made := by
  induction k generalizing o with
  | zero => exact ho p hp
  | succ k ih =>
    rw [follow] at hp
    obtain ⟨q, rfl, hp⟩ := Option.bind_eq_some_iff.mp hp
    exact ih (fun r hr ↦ (h.next q (ho q rfl) r hr).1) hp

theorem lastPage_mem (h : Sound B s) (hq : q ∈ s.made) (hp : lastPage s.next fuel q = some p) :
    p ∈ s.made := by
  induction fuel generalizing q with
  | zero => cases hp
  | succ fuel ih =>
    rw [lastPage] at hp
    cases hnext : s.next q with
    | none =>
      rw [hnext] at hp
      obtain rfl := Option.some.inj hp
      exact hq
    | some r =>
      rw [hnext] at hp
      exact ih (h.next q hq r hnext).1 hp

/-! ### `swap_pages` -/

/-- What `swap_pages` does to the invariant, from what it does to the locations. -/
theorem of_swapPages {src : ℕ} {dest : Option ℕ} (h : Sound B s)
    (hs : swapPages B src dest s = some s')
    (hsrc : src < s'.pageCounter) (hdest : dest.getD s.pageCounter < s'.pageCounter)
    (hplaced : ∀ p ∈ s.made, s'.pageFrame p < s'.pageCounter)
    (htable : ∀ i p, s'.frameTable i = some p → p ∈ s.made ∧ i < s'.pageCounter) :
    Sound B s' := by
  obtain ⟨hk, hf⟩ := swapPages_keeps hs
  have hpc := swapPages_pageCounter hs
  have hle : s.pageCounter ≤ s'.pageCounter := by
    rw [hpc]
    split_ifs <;> omega
  refine ⟨?_, ?_, ?_, ?_, ?_, ?_, ?_, ?_, ?_, ?_⟩
  · rw [hk.made]
    exact h.nodup
  · rw [hk.made, hk.osMemPtr]
    exact h.fresh
  · rw [hk.made]
    exact hplaced
  · rw [hk.made]
    exact htable
  · rw [hk.made, hk.next]
    exact h.next
  · rw [hk.made, hk.tcbs]
    exact h.first
  · rw [hk.made, hk.metas]
    exact h.front
  · rw [hk.osMemPtr, hk.metas]
    exact h.zero
  · rw [hk.made]
    exact le_trans h.length hle
  · intro e he
    rw [hf.trace] at he
    rcases List.mem_cons.mp he with rfl | he
    · obtain ⟨s₁, hs₁, rfl⟩ := swapPages_eq_some.mp hs
      have hch := movePages_changesOnly hs₁
      exact ⟨hsrc, hdest, hch⟩
    · exact (h.within e he).mono hle

/-- `swap_pages(i, -1)`. -/
theorem evict (h : Sound B s) (hi : i ≤ s.pageCounter)
    (hs : swapPages B i none s = some s') : Sound B s' := by
  have hpc := swapPages_pageCounter hs
  rw [if_pos rfl] at hpc
  refine h.of_swapPages hs (by omega) (by rw [hpc]; exact Nat.lt_succ_self _) ?_ ?_
  all_goals
    obtain ⟨s₁, hs₁, rfl⟩ := swapPages_eq_some.mp hs
    simp only [movePages, Paging.evict] at hs₁
    dsimp only at hpc ⊢
    rw [hpc]
  · intro p hp
    have hlt := h.placed p hp
    split at hs₁
    · split at hs₁
      · obtain rfl := Option.some.inj hs₁
        dsimp only
        rw [update_apply]
        split_ifs
        · exact Nat.lt_succ_self _
        · exact Nat.lt_succ_of_lt hlt
      · obtain rfl := Option.some.inj hs₁
        exact Nat.lt_succ_of_lt hlt
    · obtain ⟨q, -, hs₁⟩ := Option.bind_eq_some_iff.mp hs₁
      obtain rfl := Option.some.inj hs₁
      dsimp only
      rw [update_apply]
      split_ifs
      · exact Nat.lt_succ_self _
      · exact Nat.lt_succ_of_lt hlt
  · intro j p hp
    split at hs₁
    · split at hs₁
      case h_1 q hq =>
        obtain rfl := Option.some.inj hs₁
        dsimp only at hp
        simp only [update_apply] at hp
        split_ifs at hp with hji hjn
        · obtain rfl := Option.some.inj hp
          exact ⟨(h.table i q hq).1, by rw [hjn]; exact Nat.lt_succ_self _⟩
        · exact ⟨(h.table j p hp).1, Nat.lt_succ_of_lt (h.table j p hp).2⟩
      case h_2 =>
        obtain rfl := Option.some.inj hs₁
        exact ⟨(h.table j p hp).1, Nat.lt_succ_of_lt (h.table j p hp).2⟩
    · obtain ⟨q, -, hs₁⟩ := Option.bind_eq_some_iff.mp hs₁
      obtain rfl := Option.some.inj hs₁
      exact ⟨(h.table j p hp).1, Nat.lt_succ_of_lt (h.table j p hp).2⟩

/-- `swap_pages(k, d)` between locations in use. -/
theorem bring (h : Sound B s) (hk : k < s.pageCounter) (hd : d < s.pageCounter)
    (hs : swapPages B k (some d) s = some s') : Sound B s' := by
  have hpc := swapPages_pageCounter hs
  rw [if_neg nofun] at hpc
  refine h.of_swapPages hs (by omega) (by rw [hpc]; exact hd) ?_ ?_
  all_goals
    obtain ⟨s₁, hs₁, rfl⟩ := swapPages_eq_some.mp hs
    simp only [movePages] at hs₁
    dsimp only at hpc ⊢
    rw [hpc]
  · intro r hr
    have hlt := h.placed r hr
    split at hs₁
    all_goals
      obtain ⟨p, -, hs₁⟩ := Option.bind_eq_some_iff.mp hs₁
      obtain ⟨q, -, hs₁⟩ := Option.bind_eq_some_iff.mp hs₁
      obtain rfl := Option.some.inj hs₁
      dsimp only
      simp only [update_apply]
      split_ifs <;> assumption
  · intro j r hr
    split at hs₁
    · obtain ⟨p, hp, hs₁⟩ := Option.bind_eq_some_iff.mp hs₁
      obtain ⟨q, hq, hs₁⟩ := Option.bind_eq_some_iff.mp hs₁
      obtain rfl := Option.some.inj hs₁
      dsimp only at hr
      simp only [update_apply] at hr
      split_ifs at hr with hjd hjk
      · obtain rfl := Option.some.inj hr
        exact ⟨(h.table k p hp).1, by rw [hjd]; exact hd⟩
      · obtain rfl := Option.some.inj hr
        exact ⟨(h.table d q hq).1, by rw [hjk]; exact hk⟩
      · exact h.table j r hr
    · obtain ⟨q, -, hs₁⟩ := Option.bind_eq_some_iff.mp hs₁
      obtain ⟨p, hp, hs₁⟩ := Option.bind_eq_some_iff.mp hs₁
      obtain rfl := Option.some.inj hs₁
      dsimp only at hr
      rw [update_apply] at hr
      split_ifs at hr with hjk
      · obtain rfl := Option.some.inj hr
        exact ⟨h.follow_mem (h.first _) hp, by rw [hjk]; exact hk⟩
      · exact h.table j r hr

/-! ### Bringing pages in -/

theorem bringLast (h : Sound B s) (hmf : s.tcb.mallocFrame < s.pageCounter)
    (hs : bringLast B s = some (p, s')) : Sound B s' ∧ p ∈ s'.made := by
  obtain ⟨temp, htemp, hs⟩ := bringLast_eq_some.mp hs
  rcases hs with ⟨-, rfl, rfl⟩ | ⟨-, first, hfirst, hlast, hswap⟩
  · exact ⟨h, (h.table _ _ htemp).1⟩
  · have hp := h.lastPage_mem (h.first _ _ hfirst) hlast
    refine ⟨h.bring hmf (h.placed p hp) hswap, ?_⟩
    rwa [(swapPages_steady hswap).made]

theorem bringChunk (h : Sound B s) (ho : ∀ p, o = some p → p ∈ s.made)
    (hs : bringChunk B cur fuel i o s = some s') : Sound B s' := by
  induction fuel generalizing i o s with
  | zero => cases hs
  | succ fuel ih =>
    rcases bringChunk_eq_some.mp hs with ⟨-, rfl⟩ | ⟨-, p, s₁, rfl, hswap, hrest⟩
    · exact h
    · have hp := ho p rfl
      rcases hswap with ⟨-, rfl⟩ | ⟨-, q, hq, hswap⟩
      · exact ih h (fun r hr ↦ (h.next p hp r hr).1) hrest
      · have hs₁ := h.bring (h.placed q (h.table i q hq).1) (h.placed p hp) hswap
        refine ih hs₁ (fun r hr ↦ (hs₁.next p ?_ r hr).1) hrest
        rwa [(swapPages_steady hswap).made]

theorem bringFront (h : Sound B s) (hcur : cur ∈ s.made) (hs : bringFront B cur s = some s') :
    Sound B s' := by
  rw [Paging.bringFront] at hs
  cases hf : (s.metas cur).frontMeta with
  | none =>
    rw [hf] at hs
    obtain rfl := Option.some.inj hs
    exact h
  | some front =>
    rw [hf] at hs
    refine h.bringChunk ?_ hs
    rintro p hp
    obtain rfl := Option.some.inj hp
    exact h.front cur hcur front hf

theorem bringPage (h : Sound B s) (hk : k < s.pageCounter) (hp : p ∈ s.made)
    (hs : bringPage B k p s = some s') : Sound B s' := by
  rcases bringPage_eq_some.mp hs with ⟨-, rfl⟩ | ⟨-, hswap⟩
  · exact h
  · exact h.bring hk (h.placed p hp) hswap

/-! ### Heaps -/

theorem note (h : Sound B s) (op : HeapOp) (p : PageMetaPtr) : Sound B (s.note op p) := by
  refine h.of_steady ⟨rfl, fun _ ↦ rfl, fun _ ↦ rfl, rfl, rfl, rfl, rfl, rfl, rfl⟩ rfl rfl ?_
  intro e he
  rcases List.mem_cons.mp he with rfl | he
  · exact .inr fun _ ↦ trivial
  · exact .inl he

theorem loadHeap (h : Sound B s) (p : PageMetaPtr) : Sound B (loadHeap p s) :=
  h.of_steady (loadHeap_steady p s) rfl rfl (fun e he ↦ by
    rcases List.mem_cons.mp he with rfl | he
    · exact .inr fun _ ↦ trivial
    · exact .inl he)

theorem resetHeap (h : Sound B s) (p : PageMetaPtr) : Sound B (resetHeap p s) :=
  h.of_steady (resetHeap_steady p s) rfl rfl (fun e he ↦ by
    rcases List.mem_cons.mp he with rfl | he
    · exact .inr fun _ ↦ trivial
    · exact .inl he)

theorem release (h : Sound B s) (p : PageMetaPtr) (x : ℕ) : Sound B (release p x s) :=
  (h.note .myfree p).of_steady ⟨rfl, fun _ ↦ rfl, fun _ ↦ rfl, rfl, rfl, rfl, rfl, rfl, rfl⟩
    rfl rfl fun _ he ↦ .inl he

theorem request {memptr : ℕ} {size : ℤ} (h : Sound B s)
    (hs : request p x memptr size s = some (r, s')) : Sound B s' := by
  obtain ⟨heap, -, rfl⟩ := request_eq_some.mp hs
  exact (h.note .mymalloc p).of_steady ⟨rfl, fun _ ↦ rfl, fun _ ↦ rfl, rfl, rfl, rfl, rfl, rfl, rfl⟩
    rfl rfl fun _ he ↦ .inl he

theorem storeHeap (h : Sound B s) (hs : storeHeap p s = some s') : Sound B s' := by
  have hsteady := storeHeap_steady hs
  obtain ⟨free, -, rfl⟩ := storeHeap_eq_some.mp hs
  refine h.of_steady hsteady rfl rfl ?_
  intro e he
  rcases List.mem_cons.mp he with rfl | he
  · exact .inr fun _ ↦ trivial
  · exact .inl he

theorem enter (h : Sound B s) : Sound B s.enter :=
  h.of_steady (enter_steady s) rfl rfl fun _ he ↦ .inl he

theorem leave (h : Sound B s) : Sound B s.leave :=
  h.of_steady (leave_steady s) rfl rfl fun _ he ↦ .inl he

theorem tryHeap (h : Sound B s) (hp : p ∈ s.made) (hs : tryHeap B x p s = some (r, s')) :
    Sound B s' := by
  obtain ⟨s₁, hfront, hreq⟩ := tryHeap_eq_some.mp hs
  exact ((h.bringFront hp hfront).loadHeap p).request hreq

/-! ### Calls that make no page -/

/-- The counter of the search never passes the rank of the page it is at. -/
theorem searchPages (h : Sound B s) (ho : ∀ p, o = some p → p ∈ s.made ∧ k ≤ rank s p)
    (hs : searchPages B x fuel k o s = some (r, s')) : Sound B s' := by
  induction fuel generalizing k o s with
  | zero => cases hs
  | succ fuel ih =>
    cases o with
    | none =>
      obtain ⟨-, rfl⟩ := Prod.mk.inj (Option.some.inj hs)
      exact h
    | some p =>
      obtain ⟨hp, hk⟩ := ho p rfl
      have hrank : k < s.pageCounter := by
        have := rank_lt hp
        have := h.length
        omega
      have hnext : ∀ s₁, Steady s s₁ → ∀ q, s₁.next p = some q → q ∈ s₁.made ∧
        k + 1 ≤ rank s₁ q := by
        intro s₁ hst q hq
        rw [hst.next] at hq
        obtain ⟨hqm, hpq⟩ := h.next p hp q hq
        have := rank_lt_rank hp hpq
        rw [rank, hst.made]
        exact ⟨hqm, by unfold rank at hk this; omega⟩
      rcases searchPages_eq_some.mp hs with ⟨-, hrest⟩ | ⟨-, s₁, r₁, s₂, hbring, htry, hs⟩
      · exact ih h (hnext s (Steady.refl s)) hrest
      · have hst₁ := bringPage_steady hbring
        have hs₂ := (h.bringPage hrank hp hbring).tryHeap (by rwa [hst₁.made]) htry
        rcases hs with ⟨-, -, s₃, hstore, rfl⟩ | ⟨-, hrest⟩
        · exact (hs₂.storeHeap hstore).leave
        · exact ih hs₂ (hnext s₂ (hst₁.trans (tryHeap_steady htry))) hrest

theorem tryPages (h : Sound B s) (hs : tryPages B x cur s = some (r, s')) : Sound B s' := by
  obtain ⟨r₁, s₁, s₂, hreq, hstore, hs⟩ := tryPages_eq_some.mp hs
  have hs₂ := (h.request hreq).storeHeap hstore
  rcases hs with ⟨-, -, rfl⟩ | ⟨-, hsearch⟩
  · exact hs₂.leave
  · exact hs₂.searchPages (fun p hp ↦ ⟨hs₂.first _ p hp, Nat.zero_le _⟩) hsearch

theorem findPage (h : Sound B s) (hs : findPage i s = some p) : p ∈ s.made := by
  have hfollow := h.follow_mem (k := i) (p := p) (h.first s.current)
  rw [Paging.findPage] at hs
  split at hs
  · obtain ⟨before, hbefore, hs⟩ := Option.bind_eq_some_iff.mp hs
    split at hs
    · exact (h.next before (h.table _ _ hbefore).1 p hs).1
    · exact hfollow hs
  · exact hfollow hs

theorem mydeallocate (h : Sound B s) (hs : mydeallocate B x s = some s') : Sound B s' := by
  obtain ⟨-, resident, hres, hs⟩ := mydeallocate_eq_some.mp hs
  rcases hs with ⟨-, s₁, hstore, rfl⟩ | ⟨-, temp, s₁, s₂, hfind, hswap, hstore, rfl⟩
  · exact ((((h.enter).loadHeap resident).release resident x).storeHeap hstore).leave
  · have hs₁ := ((h.enter).loadHeap temp).bring (h.table _ _ hres).2
      (h.placed temp (h.findPage hfind)) hswap
    exact ((hs₁.release temp x).storeHeap hstore).leave

theorem swapHandler (h : Sound B s) (hs : swapHandler B x s = some s') : Sound B s' := by
  obtain ⟨-, -, resident, hres, hs⟩ := swapHandler_eq_some.mp hs
  rcases hs with ⟨-, rfl⟩ | ⟨-, temp, s₁, hfollow, hswap, rfl⟩
  · exact h.of_steady ⟨rfl, fun _ ↦ rfl, fun _ ↦ rfl, rfl, rfl, rfl, rfl, rfl, rfl⟩ rfl rfl
      fun _ he ↦ .inl he
  · have hs₁ := h.bring (h.table _ _ hres).2
      (h.placed temp (h.follow_mem (h.first s.current) hfollow)) hswap
    exact hs₁.of_steady ⟨rfl, fun _ ↦ rfl, fun _ ↦ rfl, rfl, rfl, rfl, rfl, rfl, rfl⟩ rfl rfl
      fun _ he ↦ .inl he

theorem access (h : Sound B s) (hs : access B x s = some s') : Sound B s' := by
  rw [Paging.access] at hs
  split at hs
  · exact h.swapHandler hs
  · obtain rfl := Option.some.inj hs
    exact h

end Sound

end MyPthread.Paging
