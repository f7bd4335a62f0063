import MyPthread.Lib.Placement
import MyPthread.Paging.Myallocate

/-!
# The page table

What `swap_pages` keeps.  `Table s ch H` says that the pages of each thread `t` are
chained as `ch t` and that every page has a location of its own, which `frame_table`
knows when it is a frame.  A page that is in no chain is one that a change of
`first_page` has cut off.  The frames `H` have been given up and not been taken again,
which they are only inside a call.

`swap_pages` moves pages, and nothing else of a page changes (`Keeps`); neither do
the bytes of a page (`SameContents`), unless it was read from the swap file at
another offset than it was written.
-/

namespace MyPthread.Paging

open MyPthread.Lib MyPthread.Heap Function

variable {B : Block} {s s' s₁ s₂ : Manager} {ch : ℕ → List PageMetaPtr}
  {H : Set ℕ} {p q : PageMetaPtr} {i k d o : ℕ}

/-! ## Locations and their bytes -/

/-- The bytes at location `d`, by their offset. -/
def slot (B : Block) (s : Manager) (d o : ℕ) : UInt8 :=
  if d < 1597 then s.heap.mem (B.frame d + o) else s.swapFile ((d - 1597) * 4096 + o)

/-- The bytes of the page `p`, wherever it is. -/
def content (B : Block) (s : Manager) (p : PageMetaPtr) (o : ℕ) : UInt8 :=
  slot B s (s.pageFrame p) o

theorem slot_of_lt (hd : d < 1597) : slot B s d o = s.heap.mem (B.frame d + o) := if_pos hd

theorem slot_of_ge (hd : 1597 ≤ d) : slot B s d o = s.swapFile ((d - 1597) * 4096 + o) :=
  if_neg (by omega)

theorem moveBytes_of_mem {dst src : Mem} {doff soff n : ℕ} (ho : o < n) :
    moveBytes dst doff src soff n (doff + o) = src (soff + o) := by
  rw [moveBytes, if_pos (by omega), Nat.add_sub_cancel_left]

theorem moveBytes_of_notMem {dst src : Mem} {doff soff n x : ℕ} (hx : x < doff ∨ doff + n ≤ x) :
    moveBytes dst doff src soff n x = dst x := by
  rw [moveBytes, if_neg (by omega)]

/-- Different frames have different bytes. -/
theorem frame_disjoint {j : ℕ} (hij : i ≠ j) (ho : o < 4096) :
    B.frame i + o < B.frame j ∨ B.frame j + 4096 ≤ B.frame i + o := by
  unfold Block.frame
  omega

/-- A copy to another frame leaves the bytes of a frame alone. -/
theorem copyBytes_frame {m : Mem} {j src : ℕ} (hij : i ≠ j) (ho : o < 4096) :
    copyBytes m (B.frame j) src 4096 (B.frame i + o) = m (B.frame i + o) :=
  copyBytes_of_notMem (frame_disjoint hij ho)

/-! ## Chains -/

/-- Following `next` along a chain. -/
theorem follow_eq {next : PageMetaPtr → Option PageMetaPtr} {r : Option PageMetaPtr}
    {l : List PageMetaPtr} (h : Path next r l) (k : ℕ) : follow next k r = l[k]? := by
  induction k generalizing r l with
  | zero =>
    rw [follow, h.head, List.head?_eq_getElem?]
  | succ k ih =>
    cases l with
    | nil =>
      rw [show r = none from h]
      rfl
    | cons p l =>
      rw [h.1]
      exact ih h.2

/-- One step further along a chain. -/
theorem follow_succ (next : PageMetaPtr → Option PageMetaPtr) (k : ℕ) (o : Option PageMetaPtr) :
    follow next (k + 1) o = (follow next k o).bind next := by
  induction k generalizing o with
  | zero => cases o <;> rfl
  | succ k ih =>
    cases o with
    | none => rfl
    | some p => exact ih (next p)

/-- The walk to the end of a chain. -/
theorem lastPage_eq {next : PageMetaPtr → Option PageMetaPtr} {l : List PageMetaPtr} {fuel : ℕ}
    (h : Path next (some p) (p :: l)) (hfuel : l.length < fuel) :
    lastPage next fuel p = (p :: l).getLast? := by
  induction l generalizing p fuel with
  | nil =>
    cases fuel with
    | zero => cases hfuel
    | succ fuel =>
      rw [lastPage, show next p = none from h.2]
      rfl
  | cons q l ih =>
    cases fuel with
    | zero => cases hfuel
    | succ fuel =>
      rw [lastPage, h.2.1]
      exact ih ⟨rfl, h.2.2⟩ (by simpa using hfuel)

/-- The pages of the threads are chained as `ch`, and all pages are in the locations
below `page_counter` that are not in `H`. -/
structure Table (s : Manager) (ch : ℕ → List PageMetaPtr) (H : Set ℕ) : Prop where
  path : ∀ t, Path s.next (s.tcbs t).firstPage (ch t)
  tid : ∀ t, ∀ p ∈ ch t, (s.metas p).tid = t
  nodup : ∀ t, (ch t).Nodup
  chained : ∀ t, ∀ p ∈ ch t, p ∈ s.pages
  cut : ∀ p ∈ s.pages, (∀ t, p ∉ ch t) → s.next p ≠ none
  fresh : ∀ p ∈ s.pages, p < s.osMemPtr
  holes : ∀ i ∈ H, i < s.pageCounter
  placed : Placed 1597 s.pageCounter H s.frameTable s.pageFrame s.pages

namespace Table

/-- The pages of one thread are not those of another. -/
theorem eq_of_mem (h : Table s ch H) {t u : ℕ} (ht : p ∈ ch t) (hu : p ∈ ch u) : t = u :=
  (h.tid t p ht).symm.trans (h.tid u p hu)

/-- A page is one place of one chain. -/
theorem index_unique (h : Table s ch H) {t u j : ℕ} (ht : (ch t)[k]? = some p)
    (hu : (ch u)[j]? = some p) : t = u ∧ k = j := by
  obtain rfl := h.eq_of_mem (List.mem_of_getElem? ht) (List.mem_of_getElem? hu)
  refine ⟨rfl, ?_⟩
  obtain ⟨hk, hkp⟩ := List.getElem?_eq_some_iff.mp ht
  obtain ⟨hj, hjp⟩ := List.getElem?_eq_some_iff.mp hu
  exact (h.nodup t).getElem_inj_iff.mp (hkp.trans hjp.symm)

end Table

/-! ## What `swap_pages` leaves alone -/

/-- Everything but the locations and their bytes is as before. -/
structure Keeps (s s' : Manager) : Prop where
  next : s'.next = s.next
  metas : s'.metas = s.metas
  osMemPtr : s'.osMemPtr = s.osMemPtr
  tcbs : s'.tcbs = s.tcbs
  current : s'.current = s.current
  head : s'.heap.head = s.heap.head
  middle : s'.heap.middle = s.heap.middle
  made : s'.made = s.made
  home : s'.home = s.home

theorem Keeps.refl (s : Manager) : Keeps s s := ⟨rfl, rfl, rfl, rfl, rfl, rfl, rfl, rfl, rfl⟩

theorem Keeps.pages (h : Keeps s s') : s'.pages = s.pages := by
  rw [Manager.pages, h.made]
  rfl

theorem Keeps.trans (h₁ : Keeps s s₁) (h₂ : Keeps s₁ s₂) : Keeps s s₂ :=
  ⟨h₂.next.trans h₁.next, h₂.metas.trans h₁.metas, h₂.osMemPtr.trans h₁.osMemPtr,
    h₂.tcbs.trans h₁.tcbs, h₂.current.trans h₁.current, h₂.head.trans h₁.head,
    h₂.middle.trans h₁.middle, h₂.made.trans h₁.made, h₂.home.trans h₁.home⟩

/-- How `swap_pages` ends. -/
structure Finished (src : ℕ) (dest : Option ℕ) (s s' : Manager) : Prop where
  accessible : s'.accessible = fun _ ↦ true
  memFlag : s'.memFlag = 0
  trace : s'.trace =
    .swap (s.frameTable src) src dest (dest.getD s.pageCounter) s.heap.mem s'.heap.mem :: s.trace

/-- Moving pages changes the locations and their bytes only. -/
theorem movePages_keeps {src : ℕ} {dest : Option ℕ} (h : movePages B src dest s = some s') :
    Keeps s s' ∧ s'.accessible = s.accessible ∧ s'.trace = s.trace := by
  have hkeeps : ∀ m f ft pf pc, Keeps s { s with
      heap.mem := m, swapFile := f, frameTable := ft, pageFrame := pf, pageCounter := pc } :=
    fun _ _ _ _ _ ↦ ⟨rfl, rfl, rfl, rfl, rfl, rfl, rfl, rfl, rfl⟩
  cases dest with
  | none =>
    simp only [movePages, evict] at h
    split at h
    · split at h
      all_goals
        obtain rfl := Option.some.inj h
        exact ⟨hkeeps _ _ _ _ _, rfl, rfl⟩
    · obtain ⟨p, -, h⟩ := Option.bind_eq_some_iff.mp h
      obtain rfl := Option.some.inj h
      exact ⟨hkeeps _ _ _ _ _, rfl, rfl⟩
  | some dest =>
    simp only [movePages] at h
    split at h
    · obtain ⟨p, -, h⟩ := Option.bind_eq_some_iff.mp h
      obtain ⟨q, -, h⟩ := Option.bind_eq_some_iff.mp h
      obtain rfl := Option.some.inj h
      exact ⟨hkeeps _ _ _ _ _, rfl, rfl⟩
    · obtain ⟨q, -, h⟩ := Option.bind_eq_some_iff.mp h
      obtain ⟨p, -, h⟩ := Option.bind_eq_some_iff.mp h
      obtain rfl := Option.some.inj h
      exact ⟨hkeeps _ _ _ _ _, rfl, rfl⟩

/-- The pages that `swap_pages` moves, and the rest of what it does. -/
theorem swapPages_eq_some {src : ℕ} {dest : Option ℕ} :
    swapPages B src dest s = some s' ↔ ∃ s₁, movePages B src dest s.enter = some s₁ ∧
      { s₁ with
        memFlag := 0
        trace :=
          .swap (s.frameTable src) src dest (dest.getD s.pageCounter) s.heap.mem s₁.heap.mem ::
            s₁.trace } = s' := by
  simp only [swapPages, Option.bind_eq_bind, Option.bind_eq_some_iff, Option.some_inj]

/-- What `swap_pages` leaves alone, and how it ends. -/
theorem swapPages_keeps {src : ℕ} {dest : Option ℕ} (h : swapPages B src dest s = some s') :
    Keeps s s' ∧ Finished src dest s s' := by
  obtain ⟨s₁, h₁, rfl⟩ := swapPages_eq_some.mp h
  obtain ⟨hk, haccess, htrace⟩ := movePages_keeps h₁
  refine ⟨⟨hk.next, hk.metas, hk.osMemPtr, hk.tcbs, hk.current, hk.head, hk.middle, hk.made,
    hk.home⟩, haccess, rfl, ?_⟩
  dsimp only
  rw [htrace]
  rfl

/-- The bytes of the pages are as before. -/
def SameContents (B : Block) (s s' : Manager) : Prop :=
  ∀ p ∈ s.pages, ∀ o < 4096, content B s' p o = content B s p o

theorem SameContents.refl (s : Manager) : SameContents B s s := fun _ _ _ _ ↦ rfl

theorem SameContents.trans (h₁ : SameContents B s s₁) (h₂ : SameContents B s₁ s₂)
    (hp : s.pages ⊆ s₁.pages) : SameContents B s s₂ :=
  fun p hps o ho ↦ (h₂ p (hp hps) o ho).trans (h₁ p hps o ho)

/-- The tables of two states that agree on all but the locations. -/
theorem Table.of_keeps (h : Table s ch H) (hk : Keeps s s') {H' : Set ℕ}
    (hholes : ∀ i ∈ H', i < s'.pageCounter)
    (hplaced : Placed 1597 s'.pageCounter H' s'.frameTable s'.pageFrame s.pages) :
    Table s' ch H' where
  path t := by
    rw [hk.next, hk.tcbs]
    exact h.path t
  tid t p hp := by
    rw [hk.metas]
    exact h.tid t p hp
  nodup := h.nodup
  chained := by
    rw [hk.pages]
    exact h.chained
  cut := by
    rw [hk.pages, hk.next]
    exact h.cut
  fresh := by
    rw [hk.pages, hk.osMemPtr]
    exact h.fresh
  holes := hholes
  placed := by
    rw [hk.pages]
    exact hplaced

/-! ## Eviction -/

/-- What `swap_pages(i, -1)` does. -/
structure Evicted (B : Block) (i : ℕ) (s s' : Manager) : Prop where
  pageCounter : s'.pageCounter = s.pageCounter + 1
  pageFrame : ∀ p, s'.pageFrame p =
    if s.frameTable i = some p then s.pageCounter else s.pageFrame p
  frameTable : ∀ j < 1597, j ≠ i →
    s'.frameTable j = if j = s.pageCounter then s.frameTable i else s.frameTable j
  slot_new : ∀ o < 4096, slot B s' s.pageCounter o = slot B s i o
  slot_of_ne : ∀ d, d ≠ s.pageCounter → ∀ o < 4096, slot B s' d o = slot B s d o

/-- Eviction to a frame. -/
theorem evict_frame (hn : s.pageCounter < 1597) (hi : i < 1597)
    (hnone : s.frameTable i = none → i = s.pageCounter) :
    ∃ s', evict B i s = some s' ∧ Evicted B i s s' := by
  have hslot : ∀ s' : Manager,
      s'.heap.mem = copyBytes s.heap.mem (B.frame s.pageCounter) (B.frame i) 4096 →
      s'.swapFile = s.swapFile →
      (∀ o < 4096, slot B s' s.pageCounter o = slot B s i o) ∧
        ∀ d, d ≠ s.pageCounter → ∀ o < 4096, slot B s' d o = slot B s d o := by
    intro s' hmem hfile
    constructor
    · intro o ho
      rw [slot_of_lt hn, slot_of_lt hi, hmem, copyBytes_of_mem ho]
    · intro d hd o ho
      by_cases hlt : d < 1597
      · rw [slot_of_lt hlt, slot_of_lt hlt, hmem, copyBytes_frame hd ho]
      · rw [slot_of_ge (by omega), slot_of_ge (by omega), hfile]
  rw [evict, if_pos hn]
  cases htable : s.frameTable i with
  | none =>
    obtain rfl := hnone htable
    refine ⟨_, rfl, ⟨rfl, ?_, ?_, ?_, ?_⟩⟩
    · intro p
      rw [htable]
      rfl
    · intro j _ hj
      rw [if_neg hj]
    · apply (hslot _ _ _).1 <;> rfl
    · apply (hslot _ _ _).2 <;> rfl
  | some p =>
    refine ⟨_, rfl, ⟨rfl, ?_, ?_, ?_, ?_⟩⟩
    · intro r
      simp only [update_apply, htable, Option.some_inj, eq_comm]
    · intro j _ hj
      show update (update s.frameTable s.pageCounter (some p)) i none j = _
      rw [update_of_ne hj, update_apply, htable]
    · apply (hslot _ _ _).1 <;> rfl
    · apply (hslot _ _ _).2 <;> rfl

/-- Eviction to the swap file. -/
theorem evict_file (hn : 1597 ≤ s.pageCounter) (hi : i < 1597) (hp : s.frameTable i = some p) :
    ∃ s', evict B i s = some s' ∧ Evicted B i s s' := by
  rw [evict, if_neg (by omega), hp]
  refine ⟨_, rfl, ⟨rfl, ?_, ?_, ?_, ?_⟩⟩
  · intro r
    simp only [update_apply, hp, Option.some_inj, eq_comm]
  · intro j hj _
    rw [if_neg (by omega)]
  · intro o ho
    rw [slot_of_ge hn, slot_of_lt hi]
    dsimp only
    rw [moveBytes_of_mem ho]
  · intro d hd o ho
    by_cases hlt : d < 1597
    · rw [slot_of_lt hlt, slot_of_lt hlt]
    · rw [slot_of_ge (by omega), slot_of_ge (by omega)]
      dsimp only
      rw [moveBytes_of_notMem (by omega)]

namespace Table

/-- `swap_pages(i, -1)` at a frame that is in use, or the first never used, gives the
frame up. -/
theorem evict (h : Table s ch H) (hi : i < 1597) (hin : i ≤ s.pageCounter) (hH : i ∉ H) :
    ∃ s', swapPages B i none s = some s' ∧ Evicted B i s s' ∧ Table s' ch (insert i H) ∧
      SameContents B s s' := by
  have hnH : s.pageCounter ∉ H := fun hmem ↦ absurd (h.holes _ hmem) (lt_irrefl _)
  obtain ⟨s₁, hs₁, he⟩ : ∃ s₁, Paging.evict B i s.enter = some s₁ ∧ Evicted B i s.enter s₁ := by
    rcases Nat.lt_or_ge s.pageCounter 1597 with hn | hn
    · refine evict_frame (s := s.enter) hn hi ?_
      intro hnone
      by_contra hne
      obtain ⟨p, -, -, hp⟩ := h.placed.exists_table hi (lt_of_le_of_ne hin hne) hH
      cases hnone.symm.trans hp
    · obtain ⟨p, -, -, hp⟩ := h.placed.exists_table hi (by omega) hH
      exact evict_file (s := s.enter) hn hi hp
  obtain ⟨s', hs', he⟩ : ∃ s', swapPages B i none s = some s' ∧ Evicted B i s s' :=
    ⟨_, swapPages_eq_some.mpr ⟨s₁, hs₁, rfl⟩, he.pageCounter, he.pageFrame, he.frameTable,
      he.slot_new, he.slot_of_ne⟩
  refine ⟨s', hs', he, h.of_keeps (swapPages_keeps hs').1 ?_ ?_, ?_⟩
  · intro j hj
    rw [he.pageCounter]
    rcases hj with rfl | hj
    · omega
    · have := h.holes j hj
      omega
  · rw [he.pageCounter]
    exact h.placed.evict hi hin hH hnH he.frameTable he.pageFrame
  · intro p hp o ho
    unfold content
    rw [he.pageFrame]
    split_ifs with htable
    · rw [he.slot_new o ho, ((h.placed.table_iff i hi hH p).mp htable).2]
    · have := h.placed.lt p hp
      exact he.slot_of_ne _ (by omega) o ho

end Table

/-! ## Exchange -/

/-- What `swap_pages(k, d)` does, with the page `q` in frame `k` and the page `p` at
location `d`. -/
structure Swapped (k : ℕ) (p q : PageMetaPtr) (s s' : Manager) : Prop where
  pageCounter : s'.pageCounter = s.pageCounter
  pageFrame : s'.pageFrame = update (update s.pageFrame q (s.pageFrame p)) p k
  frameTable : ∀ j < 1597, s'.frameTable j =
    if j = k then some p else if j = s.pageFrame p then some q else s.frameTable j

/-- The bytes at `k` and `d` have changed places. -/
structure SlotsSwapped (B : Block) (k d : ℕ) (s s' : Manager) : Prop where
  left : ∀ o < 4096, slot B s' k o = slot B s d o
  right : ∀ o < 4096, slot B s' d o = slot B s k o
  of_ne : ∀ e, e ≠ k → e ≠ d → ∀ o < 4096, slot B s' e o = slot B s e o

/-- Exchange with a frame. -/
theorem exchange_spec (hk : k < 1597) (hq : s.frameTable k = some q) (hd : s.pageFrame p < 1597)
    (hp : s.frameTable (s.pageFrame p) = some p) (hkd : s.pageFrame p ≠ k) (hpq : p ≠ q) :
    ∃ s', exchange B k (s.pageFrame p) s = some s' ∧ Swapped k p q s s' ∧
      SlotsSwapped B k (s.pageFrame p) s s' := by
  have htemp : ∀ j < 1597, j ≠ 1600 := fun j hj ↦ by omega
  rw [exchange, hq, hp]
  refine ⟨_, rfl, ⟨rfl, ?_, ?_⟩, ⟨?_, ?_, ?_⟩⟩
  · exact update_comm hpq _ _ _
  · intro j _
    simp only [update_apply]
    split_ifs with hjd hjk
    · omega
    all_goals rfl
  · intro o ho
    rw [slot_of_lt hk, slot_of_lt hd]
    show copyBytes _ _ _ _ _ = _
    rw [copyBytes_frame (Ne.symm hkd) ho, copyBytes_of_mem ho]
    exact copyBytes_frame (htemp _ hd) ho
  · intro o ho
    rw [slot_of_lt hk, slot_of_lt hd]
    show copyBytes _ _ _ _ _ = _
    rw [copyBytes_of_mem ho]
    unfold Block.swapTemp
    rw [copyBytes_frame (htemp _ hk).symm ho, copyBytes_of_mem ho]
  · intro e hek hed o ho
    by_cases he : e < 1597
    · rw [slot_of_lt he, slot_of_lt he]
      show copyBytes _ _ _ _ _ = _
      rw [copyBytes_frame hed ho, copyBytes_frame hek ho]
      exact copyBytes_frame (htemp _ he) ho
    · rw [slot_of_ge (by omega), slot_of_ge (by omega)]

/-- Reading a slot of the swap file at the offset of the code. -/
theorem swapIn_spec (hk : k < 1597) (hq : s.frameTable k = some q) (hd : 1597 ≤ s.pageFrame p)
    (hp : follow s.next k s.tcb.firstPage = some p) :
    ∃ s', swapIn B k (s.pageFrame p) s = some s' ∧ Swapped k p q s s' ∧
      (∀ o < 4096, slot B s' k o = s.swapFile ((s.pageFrame p - 1597) * 4906 + o)) ∧
      (s.pageFrame p = 1597 → SlotsSwapped B k 1597 s s') := by
  have htemp : ∀ j < 1597, j ≠ 1600 := fun j hj ↦ by omega
  have hleft : ∀ m f : Mem, ∀ o < 4096, moveBytes m (B.frame k) f
      ((s.pageFrame p - 1597) * 4906) 4096 (B.frame k + o) =
        f ((s.pageFrame p - 1597) * 4906 + o) := fun m f o ho ↦ moveBytes_of_mem ho
  rw [swapIn, hq, hp]
  refine ⟨_, rfl, ⟨rfl, rfl, ?_⟩, ?_, ?_⟩
  · intro j hj
    show update s.frameTable k (some p) j = _
    rw [update_apply, if_neg (show j ≠ s.pageFrame p by omega)]
  · intro o ho
    rw [slot_of_lt hk]
    exact hleft _ _ o ho
  · intro h1597
    refine ⟨?_, ?_, ?_⟩
    · intro o ho
      rw [slot_of_lt hk, slot_of_ge (le_refl _)]
      have h := hleft (copyBytes s.heap.mem B.swapTemp (B.frame k) 4096) s.swapFile o ho
      rw [h1597] at h
      rw [h1597]
      exact h
    · intro o ho
      rw [slot_of_lt hk, slot_of_ge (le_refl _), h1597]
      have h : moveBytes s.swapFile 0 (copyBytes s.heap.mem B.swapTemp (B.frame k) 4096)
          B.swapTemp 4096 (0 + o) = _ := moveBytes_of_mem ho
      rw [copyBytes_of_mem ho] at h
      exact h
    · intro e hek hed o ho
      by_cases he : e < 1597
      · rw [slot_of_lt he, slot_of_lt he]
        show moveBytes _ _ _ _ _ _ = _
        rw [moveBytes_of_notMem (frame_disjoint hek ho)]
        exact copyBytes_frame (htemp e he) ho
      · rw [slot_of_ge (by omega), slot_of_ge (by omega), h1597]
        exact moveBytes_of_notMem (by omega)

namespace Table

/-- A swap that moves the bytes with the pages. -/
theorem sameContents (h : Table s ch H) (hsw : Swapped k p q s s')
    (hsl : SlotsSwapped B k (s.pageFrame p) s s') (hp : p ∈ s.pages) (hqk : s.pageFrame q = k)
    (hq : q ∈ s.pages) : SameContents B s s' := by
  intro r hr o ho
  unfold content
  rw [hsw.pageFrame, update_apply, update_apply]
  split_ifs with hrp hrq
  · rw [hsl.left o ho, hrp]
  · rw [hsl.right o ho, hrq, hqk]
  · apply hsl.of_ne _ _ _ o ho
    · intro hrk
      exact hrq (h.placed.inj r hr q hq (hrk.trans hqk.symm))
    · intro hrd
      exact hrp (h.placed.inj r hr p hp hrd)

/-- `swap_pages(k, d)`, for a page at location `d`, brings it to frame `k`; from a slot of
the swap file only when it is the page `k` of the current thread.  Its bytes come with
it from a frame and from the first slot. -/
theorem swap (h : Table s ch H) (hk : k < 1597) (hkn : k < s.pageCounter) (hH : k ∉ H)
    (hp : p ∈ s.pages) (hchain : 1597 ≤ s.pageFrame p → (ch s.current)[k]? = some p)
    (hne : s.pageFrame p ≠ k) :
    ∃ s' q, swapPages B k (some (s.pageFrame p)) s = some s' ∧ q ∈ s.pages ∧
      s.frameTable k = some q ∧ Swapped k p q s s' ∧ Table s' ch H ∧
      (s.pageFrame p ≤ 1597 →
        SlotsSwapped B k (s.pageFrame p) s s' ∧ SameContents B s s') ∧
      (1597 ≤ s.pageFrame p →
        ∀ o < 4096, slot B s' k o = s.swapFile ((s.pageFrame p - 1597) * 4906 + o)) := by
  obtain ⟨q, hqS, hqk, hq⟩ := h.placed.exists_table hk hkn hH
  have hpq : p ≠ q := by
    rintro rfl
    exact hne hqk
  obtain ⟨s₁, hs₁, hsw, hsl, hfile⟩ : ∃ s₁,
      movePages B k (some (s.pageFrame p)) s.enter = some s₁ ∧ Swapped k p q s.enter s₁ ∧
      (s.pageFrame p ≤ 1597 → SlotsSwapped B k (s.pageFrame p) s.enter s₁) ∧
      (1597 ≤ s.pageFrame p →
        ∀ o < 4096, slot B s₁ k o = s.swapFile ((s.pageFrame p - 1597) * 4906 + o)) := by
    rcases Nat.lt_or_ge (s.pageFrame p) 1597 with hd | hd
    · obtain ⟨s₁, hs₁, hsw, hsl⟩ :=
        exchange_spec (B := B) (s := s.enter) hk hq hd (h.placed.table_loc hp hd) hne hpq
      exact ⟨s₁, (if_pos hd).trans hs₁, hsw, fun _ ↦ hsl, fun hge ↦ by omega⟩
    · have hfollow : follow s.next k s.tcb.firstPage = some p :=
        (follow_eq (h.path s.current) k).trans (hchain hd)
      obtain ⟨s₁, hs₁, hsw, hfile, hsl⟩ :=
        swapIn_spec (B := B) (s := s.enter) hk hq hd hfollow
      refine ⟨s₁, (if_neg (by omega)).trans hs₁, hsw, ?_, fun _ ↦ hfile⟩
      intro hle
      have h1597 : s.pageFrame p = 1597 := by omega
      rw [h1597]
      exact hsl h1597
  obtain ⟨s', hs', hsw, hsl, hfile⟩ : ∃ s',
      swapPages B k (some (s.pageFrame p)) s = some s' ∧ Swapped k p q s s' ∧
      (s.pageFrame p ≤ 1597 → SlotsSwapped B k (s.pageFrame p) s s') ∧
      (1597 ≤ s.pageFrame p →
        ∀ o < 4096, slot B s' k o = s.swapFile ((s.pageFrame p - 1597) * 4906 + o)) :=
    ⟨_, swapPages_eq_some.mpr ⟨s₁, hs₁, rfl⟩, ⟨hsw.pageCounter, hsw.pageFrame, hsw.frameTable⟩,
      fun hle ↦ ⟨(hsl hle).left, (hsl hle).right, (hsl hle).of_ne⟩, hfile⟩
  refine ⟨s', q, hs', hqS, hq, hsw, h.of_keeps (swapPages_keeps hs').1 ?_ ?_, ?_, hfile⟩
  · rw [hsw.pageCounter]
    exact h.holes
  · rw [hsw.pageCounter, hsw.pageFrame]
    exact h.placed.swap hk hH hq hp hpq hsw.frameTable
  · intro hle
    exact ⟨hsl hle, h.sameContents hsw (hsl hle) hp hqk hqS⟩

end Table

/-! ## New pages -/

/-- A page that thread `t` gets behind those it has. -/
def addPage (ch : ℕ → List PageMetaPtr) (t : ℕ) (p : PageMetaPtr) : ℕ → List PageMetaPtr :=
  update ch t (ch t ++ [p])

@[simp] theorem addPage_self (t : ℕ) : addPage ch t p t = ch t ++ [p] := update_self ..

theorem addPage_of_ne {t u : ℕ} (h : u ≠ t) : addPage ch t p u = ch u := update_of_ne h ..

theorem mem_addPage {t u : ℕ} : q ∈ addPage ch t p u ↔ q ∈ ch u ∨ u = t ∧ q = p := by
  by_cases hut : u = t
  · subst hut
    rw [addPage_self, List.mem_append, List.mem_singleton]
    simp
  · rw [addPage_of_ne hut]
    simp [hut]

/-- What making a page for frame `i` does, once it is chained. -/
structure Added (i : ℕ) (s s' : Manager) : Prop where
  osMemPtr : s.osMemPtr < s'.osMemPtr
  pageCounter : s'.pageCounter = s.pageCounter
  pageFrame : s'.pageFrame = update s.pageFrame s.osMemPtr i
  frameTable : s'.frameTable = update s.frameTable i (some s.osMemPtr)
  metas : ∀ q, q ≠ s.osMemPtr → s'.metas q = s.metas q
  tid : (s'.metas s.osMemPtr).tid = s.current
  firstPage : ∀ t, t ≠ s.current → s'.tcbs t = s.tcbs t
  current : s'.current = s.current
  mem : s'.heap.mem = s.heap.mem
  swapFile : s'.swapFile = s.swapFile
  made : s'.made = s.osMemPtr :: s.made
  home : s'.home = update s.home s.osMemPtr i

theorem Added.pages (h : Added i s s') : s'.pages = insert s.osMemPtr s.pages := by
  ext q
  rw [Manager.pages, h.made]
  exact List.mem_cons

namespace Table

theorem notMem_osMemPtr (h : Table s ch H) : s.osMemPtr ∉ s.pages :=
  fun hmem ↦ absurd (h.fresh _ hmem) (lt_irrefl _)

/-- A page that is chained behind the last one of the current thread, in a frame that
was given up. -/
theorem add (h : Table s ch H) (hiH : i ∈ H) (ha : Added i s s')
    (hpath : Path s'.next s'.tcb.firstPage (ch s.current ++ [s.osMemPtr]))
    (hnext : ∀ q ∈ s.pages, q ∉ ch s.current → s'.next q = s.next q) :
    Table s' (addPage ch s.current s.osMemPtr) (H \ {i}) := by
  have hnotMem := h.notMem_osMemPtr
  have hnew : ∀ t, s.osMemPtr ∉ ch t := fun t hmem ↦ hnotMem (h.chained t _ hmem)
  refine ⟨?_, ?_, ?_, ?_, ?_, ?_, ?_, ?_⟩
  · intro t
    by_cases ht : t = s.current
    · subst ht
      rw [addPage_self, ← ha.current]
      rwa [← ha.current] at hpath
    · rw [addPage_of_ne ht, ha.firstPage t ht]
      apply (h.path t).congr
      intro q hq
      exact hnext q (h.chained t q hq) fun hqc ↦ ht (h.eq_of_mem hq hqc)
  · intro t q hq
    rcases mem_addPage.mp hq with hq | ⟨rfl, rfl⟩
    · rw [ha.metas q fun hqp ↦ hnew t (hqp ▸ hq)]
      exact h.tid t q hq
    · exact ha.tid
  · intro t
    by_cases ht : t = s.current
    · subst ht
      rw [addPage_self]
      exact (h.nodup _).append (List.nodup_singleton _) (by simpa using hnew _)
    · rw [addPage_of_ne ht]
      exact h.nodup t
  · intro t q hq
    rw [ha.pages]
    rcases mem_addPage.mp hq with hq | ⟨-, rfl⟩
    · exact Set.mem_insert_of_mem _ (h.chained t q hq)
    · exact Set.mem_insert _ _
  · intro q hq hqc
    rw [ha.pages] at hq
    have hqc' : ∀ t, q ∉ ch t := fun t hmem ↦ hqc t (mem_addPage.mpr (.inl hmem))
    rcases hq with rfl | hq
    · exact absurd (mem_addPage.mpr (.inr ⟨rfl, rfl⟩)) (hqc s.current)
    · rw [hnext q hq (hqc' _)]
      exact h.cut q hq hqc'
  · intro q hq
    rw [ha.pages] at hq
    have hlt := ha.osMemPtr
    rcases hq with rfl | hq
    · exact hlt
    · exact lt_trans (h.fresh q hq) hlt
  · intro j hj
    rw [ha.pageCounter]
    exact h.holes j hj.1
  · rw [ha.pages, ha.pageCounter, ha.pageFrame, ha.frameTable]
    refine h.placed.fill (h.holes i hiH) hiH hnotMem ?_
    intro j _
    rw [update_apply]

/-- A page linked behind the last page of a chain. -/
theorem path_last {next : PageMetaPtr → Option PageMetaPtr} {r : Option PageMetaPtr}
    {l : List PageMetaPtr} {last : PageMetaPtr} (h : Path next r l) (hlast : l.getLast? = some last)
    (hnodup : l.Nodup) (hp : p ∉ l) :
    Path (update (update next p none) last (some p)) r (l ++ [p]) := by
  obtain ⟨l, rfl⟩ : ∃ l', l = l' ++ [last] := by
    obtain ⟨hne, hl⟩ := List.getLast?_eq_some_iff.mp hlast
    exact ⟨hne, hl⟩
  rw [List.append_assoc]
  refine (h.update hp none).splice (k := [p]) ⟨rfl, update_self ..⟩ hnodup ?_
  rw [List.mem_singleton]
  rintro rfl
  exact hp (by simp)

end Table

end MyPthread.Paging
