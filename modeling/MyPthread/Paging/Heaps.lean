import MyPthread.Paging.Chains

/-!
# Heap operations and the pages they see

A heap operation reads and writes the frames from the first to the last page of its heap.
They hold the caller's pages when the heap is that of a page in its frame, or of a chunk all
of whose pages are in their frames.  The code brings the pages of a chunk in from where the
front of the chunk is, so the front must be in its own frame; and `mydeallocate` brings in
the page of the block alone.
-/

namespace MyPthread.Paging

open MyPthread.Lib MyPthread.Heap Function Relation

variable {B : Block} {Q : Prop} {s s' s₁ s₂ : Manager} {ch : ℕ → List PageMetaPtr} {c c' : ℕ → ℕ}
  {i j k n x r t : ℕ} {p q cur last front : PageMetaPtr} {l : List PageMetaPtr}
  {P : Call → Manager → Prop} {call : Call}

/-- Whenever `mymalloc` or `myfree` works on a heap that was loaded from a page, every frame
that the heap spans holds the page of the caller that was made for it. -/
def Event.Own : Event → Prop
  | .swap .. => True
  | .heap op tid head _ first last held => op = .mymalloc ∨ op = .myfree → head ≠ 0 →
      ∀ i, first ≤ i → i ≤ last → held i = some (tid, i)

/-- The chains are complete, the pages of a chunk before its last hold no heap, and every heap
operation so far saw pages of its caller only. -/
structure Tidy (s : Manager) (ch : ℕ → List PageMetaPtr) (c : ℕ → ℕ) : Prop where
  settled : Settled s ch c
  idle : ∀ t k p, (ch t)[k]? = some p → k + 1 < c t → (s.metas p).head = 0
  own : ∀ e ∈ s.trace, e.Own

/-! ## Heaps in place -/

/-- The frames of the heap of the `k`-th page of a thread. -/
theorem Settled.home_frontOf (h : Settled s ch c) (hp : (ch t)[k]? = some p) :
    s.home (s.frontOf p) = base (c t) k := by
  have hfront := h.front _ k p hp
  rw [Manager.frontOf, hfront, base]
  split_ifs with hk
  · have hlen := Settled.lt_length hp
    rw [List.getElem?_eq_getElem (show 0 < (ch t).length by omega)]
    exact h.home _ 0 _ (List.getElem?_eq_getElem (by omega))
  · exact h.home _ k p hp

theorem HeapHere.held (h : Settled s ch c) (hp : (ch s.current)[k]? = some p)
    (hhere : HeapHere s ch c k) (hi : base (c s.current) k ≤ i) (hik : i ≤ k) :
    s.held i = some (s.current, i) := by
  have hlen := Settled.lt_length hp
  obtain ⟨q, hq⟩ : ∃ q, (ch s.current)[i]? = some q := ⟨_, List.getElem?_eq_getElem (by omega)⟩
  have hloc := hhere i q hi hik hq
  rw [Manager.held, (h.pageFrame_iff hq).mp hloc, Option.map_some, h.tid hq, h.home _ i q hq]

/-- An operation on a heap that is in place. -/
theorem own_of_here (op : HeapOp) (h : Settled s ch c) (hp : (ch s.current)[k]? = some p)
    (hhere : s.heap.head ≠ 0 → HeapHere s ch c k) :
    (Event.heap op s.current s.heap.head s.memFlag (s.home (s.frontOf p)) (s.home p)
    s.held).Own := by
  intro _ hhead i hi hik
  rw [h.home_frontOf hp] at hi
  rw [h.home _ k p hp] at hik
  exact (hhere hhead).held h hp hi hik

/-! ## The work of a call -/

/-- The records of the other pages are as they were. -/
theorem Tidy.idle_of_metas (h : Tidy s ch c) (hp : (ch s.current)[k]? = some p)
    (hmetas : ∀ q, q ≠ p → s'.metas q = s.metas q)
    (hhead : k + 1 < c s.current → (s'.metas p).head = 0) :
    ∀ t j q, (ch t)[j]? = some q → j + 1 < c t → (s'.metas q).head = 0 := by
  intro t j q hq hj
  by_cases hqp : q = p
  · subst hqp
    obtain ⟨rfl, rfl⟩ := h.settled.table.index_unique hp hq
    exact hhead hj
  · rw [hmetas q hqp]
    exact h.idle t j q hq hj

theorem own_cons {e : Event} (h : ∀ e ∈ s.trace, e.Own) (he : e.Own)
    (htrace : s'.trace = e :: s.trace) : ∀ e ∈ s'.trace, e.Own := by
  intro d hd
  rw [htrace] at hd
  rcases List.mem_cons.mp hd with rfl | hd
  · exact he
  · exact h d hd

theorem own_store {tid head first last : ℕ} {memFlag : ℤ} {held : ℕ → Option (ℕ × ℕ)} :
    (Event.heap .store tid head memFlag first last held).Own := by
  intro hop
  rcases hop with hop | hop <;> cases hop

theorem own_load {tid head first last : ℕ} {memFlag : ℤ} {held : ℕ → Option (ℕ × ℕ)} :
    (Event.heap .load tid head memFlag first last held).Own := by
  intro hop
  rcases hop with hop | hop <;> cases hop

/-- A page whose heap is tried is not one before the last of a chunk. -/
theorem Tidy.chunk_le {memptr : ℕ} {size : ℤ} (h : Tidy s ch c) (hload : Loaded p s)
    (hp : (ch s.current)[k]? = some p) (hmemptr : memptr = 0 ∨ c s.current ≤ k + 1)
    (hreq : request p x memptr size s = some (r, s')) : c s.current ≤ k + 1 := by
  rcases hmemptr with rfl | hle
  · by_contra hlt
    obtain ⟨heap, hm, -⟩ := request_eq_some.mp hreq
    apply mymalloc_head_ne_zero hm
    rw [hload.head]
    exact h.idle _ k p hp (by omega)
  · exact hle

theorem Tidy.attempt (h : Tidy s ch c) (hq : Q) (ha : Attempt B Q ch c x r s s') :
    Tidy s' ch c := by
  have hset := ha.settled
  obtain ⟨-, hload, hp, hmemptr, hhere, hreq, hstore⟩ := ha
  have hlast := h.chunk_le hload hp hmemptr hreq
  have hown := own_of_here .mymalloc h.settled hp fun _ ↦ hhere hq hlast
  obtain ⟨heap, -, rfl⟩ := request_eq_some.mp hreq
  have hown₁ := own_cons h.own hown
    (show ({ s.note .mymalloc _ with heap } : Manager).trace = _ from rfl)
  rcases hstore with hstore | ⟨-, rfl⟩
  · obtain ⟨free, -, rfl⟩ := storeHeap_eq_some.mp hstore
    refine ⟨hset, h.idle_of_metas hp ?_ fun hlt ↦ by omega, own_cons hown₁ own_store rfl⟩
    intro q hqp
    exact update_of_ne hqp ..
  · exact ⟨hset, h.idle, hown₁⟩

theorem Tidy.release (h : Tidy s ch c) (hq : Q) (hr : Release B Q ch c x s s') : Tidy s' ch c := by
  have hset := hr.settled
  obtain ⟨-, hload, hp, -, hhere, hstore⟩ := hr
  rename_i k p
  -- the head of a page before the last of a chunk is `NULL`
  have hzero : k + 1 < c s.current → s.heap.head = 0 := by
    intro hlt
    rw [hload.head]
    exact h.idle _ k p hp hlt
  have hown := own_of_here .myfree h.settled hp fun hhead ↦ hhere hq (by
    by_contra hlt
    exact hhead (hzero (by omega)))
  have hown₁ := own_cons h.own hown (show (Paging.release p x s).trace = _ from rfl)
  obtain ⟨free, -, rfl⟩ := storeHeap_eq_some.mp hstore
  refine ⟨hset, h.idle_of_metas hp ?_ ?_, own_cons hown₁ own_store rfl⟩
  · intro q hqp
    exact update_of_ne hqp ..
  · intro hlt
    simp only [update_self]
    exact (myfree_head x s.heap).trans (hzero hlt)

theorem own_swapPages {src : ℕ} {dest : Option ℕ} (h : ∀ e ∈ s.trace, e.Own)
    (hs : swapPages B src dest s = some s') : ∀ e ∈ s'.trace, e.Own := by
  refine own_cons h ?_ (swapPages_keeps hs).2.trace
  trivial

theorem Tidy.work (h : Tidy s ch c) (hq : Q) (hw : Work B Q ch c x s s') : Tidy s' ch c := by
  have hset := (hw.settled h.settled).1
  cases hw with
  | flags flag access => exact ⟨hset, h.idle, h.own⟩
  | bring _ _ _ hs =>
    refine ⟨hset, ?_, own_swapPages h.own hs⟩
    rw [(swapPages_keeps hs).1.metas]
    exact h.idle
  | load _ => exact ⟨hset, h.idle, own_cons h.own own_load rfl⟩
  | fail ha => exact h.attempt hq ha

theorem Tidy.works (h : Tidy s ch c) (hq : Q) (hw : Works B Q ch c x s s') : Tidy s' ch c := by
  induction hw with
  | refl => exact h
  | tail _ hw ih => exact ih.work hq hw

/-- New pages have no headers in them but those of the heap that is set up. -/
theorem Tidy.grow (h : Tidy s ch c) (hg : Grow B ch c x r s s' c' l) :
    Tidy s' (extend ch s.current l) c' := by
  have hset := hg.settled
  obtain ⟨hset₀, hgrew, hlast, hcase, hswaps, ⟨evs, hevs⟩, -, -, -, hreq, hstore⟩ := hg
  rename_i last s₁ s₂
  have hown : ∀ e ∈ s₁.trace, e.Own := by
    intro e he
    rw [← hevs] at he
    rcases List.mem_append.mp he with he | he
    · have hswap := hswaps evs hevs.symm e he
      cases e with
      | swap => trivial
      | heap => exact hswap.elim
    · exact h.own e he
  obtain ⟨heap, -, rfl⟩ := request_eq_some.mp hreq
  obtain ⟨free, -, rfl⟩ := storeHeap_eq_some.mp hstore
  have hpages := hset₀.chunk s.current
  have hlastmem := List.mem_of_getLast? hlast
  refine ⟨hset, ?_, ?_⟩
  · intro t j q hp hj
    have hplace := place_cases rfl hp
    have hold : (ch t)[j]? = some q → (s₁.metas q).head = (s.metas q).head ∧ q ≠ last := by
      intro hp'
      have hmem := hset₀.mem_pages hp'
      exact ⟨by rw [hgrew.metas q hmem], fun hq ↦ hgrew.fresh last hlastmem (hq ▸ hmem)⟩
    obtain ⟨hhead, hne⟩ : (s₁.metas q).head = 0 ∧ q ≠ last := by
      rcases hcase with ⟨hone, rfl⟩ | ⟨hnil, htwo, rfl⟩
      · rcases hplace with hp' | ⟨rfl, hle, -⟩
        · rw [(hold hp').1]
          exact ⟨h.idle t j q hp' hj, (hold hp').2⟩
        · omega
      · rcases hplace with hp' | ⟨rfl, -, hp'⟩
        · have htc : t ≠ s.current := by
            rintro rfl
            rw [hnil] at hp'
            cases hp'
          rw [update_of_ne htc] at hj
          rw [(hold hp').1]
          exact ⟨h.idle t j q hp' hj, (hold hp').2⟩
        · -- a page of the chunk before its last
          rw [update_self] at hj
          rw [hnil, List.length_nil, Nat.sub_zero] at hp'
          refine ⟨(hgrew.idle htwo q (List.mem_of_getElem? hp')).1, ?_⟩
          rintro rfl
          rw [List.getLast?_eq_getElem?] at hlast
          have hend : (extend ch s.current l s.current)[l.length - 1]? = some q := by
            rw [extend_self, hnil, List.nil_append]
            exact hlast
          have hjl := (hset.table.index_unique hp hend).2
          omega
    show (update s₁.metas last _ q).head = 0
    rw [update_of_ne hne]
    exact hhead
  · intro e he
    rcases List.mem_cons.mp he with rfl | he
    · exact own_store
    · rcases List.mem_cons.mp he with rfl | he
      · intro _ hhead
        exact absurd rfl hhead
      · rcases List.mem_cons.mp he with rfl | he
        · rintro (hop | hop) <;> cases hop
        · exact hown e he

/-! ## Runs -/

/-- The page `p` is the last one of the chunk with the front `front`. -/
def ChunkEnd (s : Manager) (p front : PageMetaPtr) : Prop :=
  (s.metas p).frontMeta = some front ∧ ∀ q, s.next p = some q → (s.metas q).frontMeta ≠ some front

/-- If a request for `x` bytes comes to the heap of a chunk of the caller, the front of the
chunk is in its frame.  It comes there when the chunk is the last the caller has, or when
enough bytes of it are free and the last page of the caller has no room. -/
def FrontHome (B : Block) (x : ℕ) (s : Manager) : Prop :=
  ∀ p front, p ∈ s.made → (s.metas p).tid = s.current → ChunkEnd s p front →
    (s.next p = none ∨ toI32 x ≤ (s.metas p).freePageMem ∧ ¬LastServes B x s.enter) →
    s.pageFrame front = s.home front

/-- If `mydeallocate(x)` works on the heap of a chunk, the other pages of the chunk are in
their frames. -/
def ChunkHome (B : Block) (x : ℕ) (s : Manager) : Prop :=
  ∀ p front, p ∈ s.made → (s.metas p).tid = s.current → s.home p = (frameOf B x).toNat →
    ChunkEnd s p front → ∀ q ∈ s.made, (s.metas q).frontMeta = some front → q ≠ p →
    s.pageFrame q = s.home q

/-- A thread that has pages gets no chunk, and the heaps of chunks are worked on when they are
in place. -/
def HeapsHome (B : Block) : Call → Manager → Prop
  | .malloc x, s => x < 2 ^ 32 ∧ ¬LaterChunk x s ∧ (x ≤ 4064 → FrontHome B x s)
  | .free p, s => (frameOf B p).toNat ≤ s.tcb.mallocFrame ∧ ChunkHome B p s
  | _, _ => True

namespace Settled

/-- The last page of the chunk of the caller. -/
theorem chunkEnd (h : Settled s ch c) (hp : (ch s.current)[k]? = some p) (hk : k + 1 = c s.current)
    (hf : (ch s.current)[0]? = some front) : ChunkEnd s p front := by
  refine ⟨?_, ?_⟩
  · rw [h.front _ k p hp, if_pos (by omega), hf]
  · intro q hq
    rw [h.next_eq hp] at hq
    rw [h.front _ _ q hq, if_neg (by omega)]
    nofun

theorem frontHere (h : Settled s ch c) (hhome : FrontHome B x s) : FrontHere B x s.enter ch c := by
  intro k p hp hcase hk front hf
  have hp' : (ch s.current)[k]? = some p := hp
  have hf' : (ch s.current)[0]? = some front := hf
  have hloc := hhome p front (h.mem_pages hp') (h.tid hp') (h.chunkEnd hp' hk hf') (by
    rcases hcase with rfl | hcase
    · left
      have hlen : (ch s.current).length = s.tcb.mallocFrame + 1 := by
        apply h.length
        intro hnil
        rw [hnil] at hp'
        cases hp'
      rw [h.next_eq hp']
      exact List.getElem?_eq_none hlen.le
    · exact .inr hcase)
  rw [h.home _ 0 front hf'] at hloc
  exact hloc

theorem chunkFreeHere (h : Settled s ch c) (hhome : ChunkHome B x s) :
    ChunkFreeHere B x s ch c := by
  intro hk j q hj hq
  have hle := h.chunk s.current
  obtain ⟨p, hp⟩ : ∃ p, (ch s.current)[(frameOf B x).toNat]? = some p :=
    ⟨_, List.getElem?_eq_getElem (by omega)⟩
  obtain ⟨front, hf⟩ : ∃ front, (ch s.current)[0]? = some front :=
    ⟨_, List.getElem?_eq_getElem (by omega)⟩
  rw [hhome p front (h.mem_pages hp) (h.tid hp) (h.home _ _ p hp) (h.chunkEnd hp hk hf) q
    (h.mem_pages hq), h.home _ j q hq]
  · rw [h.front _ j q hq, if_pos (by omega), hf]
  · rintro rfl
    have hjk := (h.table.index_unique hp hq).2
    omega

end Settled

theorem HeapsHome.chained (hP : HeapsHome B call s) : Chained B call s := by
  cases call with
  | malloc x => exact ⟨hP.1, hP.2.1⟩
  | free p => exact .inr hP.1
  | load | store | switch | library => trivial

theorem Tidy.exec (h : Tidy s ch c) (hsd : Sound B s) (hc : Counted s) (hP : HeapsHome B call s)
    (hs : call.exec B s = some (r, s')) : ∃ ch' c', Tidy s' ch' c' := by
  have hleave : ∀ {s : Manager} {ch c}, Tidy s ch c → Tidy s.leave ch c :=
    fun h ↦ ⟨h.settled.leave, h.idle, h.own⟩
  cases call with
  | malloc x =>
    obtain ⟨hx, hlater, hfront⟩ := hP
    have he := myallocate_ending (Q := True) h.settled hsd hc hx hlater
      (fun _ hx ↦ h.settled.frontHere (hfront hx)) hs
    cases he with
    | found hf =>
      cases hf with
      | nothing _ hw => exact ⟨ch, c, h.works trivial hw⟩
      | page _ hw ha hs =>
        rw [← hs]
        exact ⟨ch, c, hleave ((h.works trivial hw).attempt trivial ha)⟩
    | grown _ hw hg _ hs =>
      rw [← hs]
      exact ⟨_, _, hleave ((h.works trivial hw).grow hg)⟩
  | free p =>
    obtain ⟨-, hs⟩ := exec_free.mp hs
    obtain ⟨s₁, s₂, hw, hrel, rfl⟩ := mydeallocate_works (Q := True) h.settled hsd (.inr hP.1)
      (fun _ ↦ ⟨hP.1, h.settled.chunkFreeHere hP.2⟩) hs
    exact ⟨ch, c, hleave ((h.works trivial hw).release trivial hrel)⟩
  | load a =>
    obtain ⟨hs, -⟩ := exec_load.mp hs
    exact ⟨ch, c, h.works trivial (access_works (Q := True) h.settled hs)⟩
  | store a v =>
    obtain ⟨-, hs⟩ := exec_store.mp hs
    obtain ⟨s₁, hs₁, rfl⟩ := store_eq_some.mp hs
    have h₁ := h.works trivial (access_works (Q := True) h.settled hs₁)
    exact ⟨ch, c, h₁.settled.store, h₁.idle, h₁.own⟩
  | switch t =>
    have hset := h.settled.exec_other (.inl ⟨t, rfl⟩) hs
    obtain ⟨-, rfl⟩ := Prod.mk.inj (Option.some.inj hs)
    exact ⟨ch, c, hset, h.idle, h.own⟩
  | library n =>
    have hset := h.settled.exec_other (.inr ⟨n, rfl⟩) hs
    obtain ⟨-, rfl⟩ := Prod.mk.inj (Option.some.inj hs)
    exact ⟨ch, c, hset, h.idle, h.own⟩

theorem Reachable.tidy (h : Reachable B (HeapsHome B) s) : ∃ ch c, Tidy s ch c := by
  induction h with
  | start hb => exact ⟨_, _, .start hb, nofun, nofun⟩
  | call hr hp hs ih =>
    obtain ⟨ch, c, htidy⟩ := ih
    exact htidy.exec hr.sound.1 hr.sound.2 hp hs

end MyPthread.Paging
