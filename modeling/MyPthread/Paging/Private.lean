import MyPthread.Paging.Sessions

/-!
# Private pages

When all requests are for up to a page, the threads do not notice that their pages share the
frames.  What they are to see is `Private`: every thread has an array of pages of its own, its
pointers are to disjoint ranges of them, and a byte it has stored stays until it stores another
or gives the range back.  Every log of a session in which `page_counter` stays within the
frames is the log of a run of `Private`.
-/

namespace MyPthread.Paging

open MyPthread.Lib MyPthread.Heap Function Relation

variable {B : Block} {s s' : Manager} {ch : ℕ → List PageMetaPtr} {lay : ℕ → ℕ → Layout}
  {live : ℕ → List (ℕ × ℕ)} {i k o x r t u a : ℕ} {p q : PageMetaPtr} {call : Call}
  {log : List Entry} {v : UInt8} {e d : ℕ × ℕ}

/-! ## The abstract system -/

/-- The bytes of a pointer. -/
def bytesOf (e : ℕ × ℕ) : Set ℕ := Range e.1 e.2

/-- The pages each thread has, the pointers it has been handed out and not given back, and the
bytes it has stored in them. -/
structure Private where
  pages : ℕ → ℕ
  live : ℕ → List (ℕ × ℕ)
  stored : ℕ → ℕ → Option UInt8

namespace Private

/-- No thread has anything. -/
def empty : Private := ⟨fun _ ↦ 0, fun _ ↦ [], fun _ _ ↦ none⟩

/-- The steps of the system. -/
inductive Step (B : Block) : Entry → Private → Private → Prop where
  /-- A request gets a range of the pages of the thread that is free, maybe after it has got
  further pages. -/
  | malloc {A : Private} {t x r n : ℕ} : A.pages t ≤ n → r ≠ 0 →
      Range r x ⊆ Range (B.frame 0) (4096 * n) →
        (∀ e ∈ A.live t, Disjoint (Range r x) (bytesOf e)) →
      Step B ⟨t, .malloc x, r⟩ A
        { A with pages := update A.pages t n, live := update A.live t ((r, x) :: A.live t) }
  /-- What was stored in a range is gone when it is given back. -/
  | free {A : Private} {t x p : ℕ} {stored : ℕ → Option UInt8} : (p, x) ∈ A.live t →
      (∀ a, a ∉ Range p x → stored a = A.stored t a) → (∀ a ∈ Range p x, stored a = none) →
      Step B ⟨t, .free p, 0⟩ A
        { A with live := afterFree A.live t p, stored := update A.stored t stored }
  /-- A byte that was stored is loaded. -/
  | load {A : Private} {t a r : ℕ} : (∀ v, A.stored t a = some v → v.toNat = r) →
      Step B ⟨t, .load a, r⟩ A A
  | store {A : Private} {t a : ℕ} {v : UInt8} :
      Step B ⟨t, .store a v, 0⟩ A
        { A with stored := update A.stored t (update (A.stored t) a (some v)) }
  | switch {A : Private} {t u : ℕ} : Step B ⟨t, .switch u, 0⟩ A A
  | library {A : Private} {t n : ℕ} : Step B ⟨t, .library n, 0⟩ A A

/-- A run with the given log. -/
inductive Run (B : Block) : List Entry → Private → Prop where
  | start : Run B [] empty
  | step {A A' : Private} {e : Entry} {log : List Entry} : Run B log A → Step B e A A' →
      Run B (e :: log) A'

end Private

/-! ## Sessions of one-page requests -/

/-- A request is for up to a page, and a thread gives back and accesses what it has. -/
def OnePage : Call → Manager → List Entry → Prop
  | .malloc x, _, _ => x ≤ 4064
  | .free p, s, log => ∃ x, (p, x) ∈ pointers log s.current
  | .load a, s, log => ∃ e ∈ pointers log s.current, a ∈ bytesOf e
  | .store a _, s, log => ∃ e ∈ pointers log s.current, a ∈ bytesOf e
  | .switch _, _, _ => True
  | .library _, _, _ => True

theorem mem_bytesOf : a ∈ bytesOf e ↔ e.1 ≤ a ∧ a < e.1 + e.2 := mem_Range

/-- Calls make pages, up to one when a page is enough, and take none back; and only a switch changes
the thread. -/
theorem Sound.exec_counts (h : Sound B s) (hc : Counted s) (log : List Entry)
    (hs : call.exec B s = some (r, s')) : ∃ n, s'.pageCounter = s.pageCounter + n ∧
      (OnePage call s log → n ≤ 1) ∧ ((∀ t, call ≠ .switch t) → s'.current = s.current) := by
  have hsteady {s' : Manager} (hst : Steady s s') :
      ∃ n, s'.pageCounter = s.pageCounter + n ∧ (OnePage call s log → n ≤ 1) ∧
        ((∀ t, call ≠ .switch t) → s'.current = s.current) :=
    ⟨0, hst.pageCounter, fun _ ↦ Nat.zero_le 1, fun _ ↦ hst.current⟩
  cases call with
  | malloc x =>
    change myallocate B x s = some (r, s') at hs
    rw [myallocate] at hs
    split_ifs at hs with hx
    · obtain ⟨-, -, ⟨-, hst⟩ | ⟨-, -, he⟩⟩ :=
        allocateChunk_counted (h.of_steady (enter_steady s) rfl rfl fun _ he ↦ .inl he)
          (hc.steady (enter_steady s)) hs
      · exact hsteady ((enter_steady s).trans hst)
      · have he := (enter_steady s).extended he
        exact ⟨_, he.pageCounter, fun hone ↦ absurd hone (not_le.mpr hx), fun _ ↦ he.current⟩
    · obtain ⟨-, -, ho⟩ := allocatePage_outcome h hc (not_lt.mp hx) hs
      cases ho with
      | refused _ _ _ hst => exact hsteady hst
      | served _ _ _ hst => exact hsteady hst
      | grown _ _ _ hm he =>
        rw [Makes, if_neg hx] at hm
        exact ⟨_, he.pageCounter, fun _ ↦ hm.1.le, fun _ ↦ he.current⟩
  | free p => exact hsteady (mydeallocate_steady (exec_free.mp hs).2)
  | load a => exact hsteady (access_steady (exec_load.mp hs).1)
  | store a v =>
    obtain ⟨s₁, hs₁, rfl⟩ := store_eq_some.mp (exec_store.mp hs).2
    have hst := access_steady hs₁
    exact ⟨0, hst.pageCounter, fun _ ↦ Nat.zero_le 1, fun _ ↦ hst.current⟩
  | switch t =>
    obtain ⟨-, rfl⟩ := Prod.mk.inj (Option.some.inj hs)
    exact ⟨0, rfl, fun _ ↦ Nat.zero_le 1, fun hne ↦ absurd rfl (hne t)⟩
  | library n =>
    obtain ⟨-, rfl⟩ := Prod.mk.inj (Option.some.inj hs)
    exact ⟨0, rfl, fun _ ↦ Nat.zero_le 1, fun _ ↦ rfl⟩

theorem Sound.pageCounter_le (h : Sound B s) (hc : Counted s) (hs : call.exec B s = some (r, s')) :
    s.pageCounter ≤ s'.pageCounter := by
  obtain ⟨n, hn, -⟩ := h.exec_counts hc [] hs
  omega

/-- All pages are in frames. -/
theorem Sound.near (h : Sound B s) (hpc : s.pageCounter ≤ 1597) : Near s := by
  intro q hq _
  have := h.placed q hq
  omega

/-! ## Bytes of pointers -/

theorem Good.block_bytes (hg : Good B s ch c lay live) (hp : (ch t)[k]? = some p) (hk : c t ≤ k + 1)
    {b : Lib.Block} (hb : b ∈ (lay t k).blocks) (ha : a ∈ Range (b.addr + 32) b.size) :
    a ∈ heapFrames B (c t) k := by
  obtain ⟨hlo, hhi⟩ := (hg.wf hp hk).tiles.bounds hb
  rw [mem_heapFrames_iff]
  rw [mem_Range] at ha
  rw [Block.stop] at hhi
  constructor <;> omega

/-- The bytes of a pointer are in pages of its thread. -/
theorem Good.bytesOf_subset (hg : Good B s ch c lay live) (he : e ∈ live t) :
    bytesOf e ⊆ B.frames 0 (ch t).length := by
  intro a ha
  obtain ⟨k, p, b, hp, hk, hb, haddr, hsize⟩ := hg.exists_block he
  rw [mem_bytesOf] at ha
  have hmem := hg.block_bytes hp hk hb.1 (a := a) (mem_Range.mpr (by omega))
  obtain ⟨hlo, hhi⟩ := mem_heapFrames_iff.mp hmem
  have hlen : B.frame (k + 1) ≤ B.frame (ch t).length :=
    frame_mono B (show k + 1 ≤ (ch t).length from Settled.lt_length hp)
  have h0 : B.frame 0 ≤ a := le_trans (frame_mono B (Nat.zero_le _)) hlo
  rw [Block.frames, mem_Range, frame_add, Nat.zero_add]
  exact ⟨h0, lt_of_lt_of_le hhi hlen⟩

/-- The pointers of a thread are to disjoint ranges. -/
theorem Good.disjoint (hg : Good B s ch c lay live) (he : e ∈ live t) (hd : d ∈ live t)
    (hne : e.1 ≠ d.1) : Disjoint (bytesOf e) (bytesOf d) := by
  obtain ⟨k, p, b, hp, hk, hb, haddr, hsize⟩ := hg.exists_block he
  obtain ⟨j, q, b', hq, hj, hb', haddr', hsize'⟩ := hg.exists_block hd
  rw [Set.disjoint_left]
  intro a ha ha'
  rw [mem_bytesOf] at ha ha'
  have hmem := hg.block_bytes hp hk hb.1 (a := a) (mem_Range.mpr (by omega))
  have hmem' := hg.block_bytes hq hj hb'.1 (a := a) (mem_Range.mpr (by omega))
  have hkj : k = j := by
    by_contra hkj
    exact disjoint_heapFrames hk hj hkj hmem hmem'
  subst hkj
  have hbb : b ≠ b' := by
    rintro rfl
    omega
  rcases (hg.wf hp hk).tiles.disjoint hb.1 hb'.1 hbb with hlt | hlt <;>
    · rw [Block.stop] at hlt
      omega

theorem Good.eq_of_fst (hg : Good B s ch c lay live) (he : e ∈ live t) (hd : d ∈ live t)
    (h : e.1 = d.1) : e = d :=
  List.inj_on_of_nodup_map (hg.nodup t) he hd h

/-! ## The simulation -/

/-- No thread has a chunk. -/
abbrev noChunk : ℕ → ℕ := fun _ ↦ 0

theorem chunkHere_noChunk : ChunkHere s ch noChunk k := fun h ↦ absurd h (Nat.succ_ne_zero k)

theorem frontHere_noChunk : FrontHere B x s ch noChunk := fun _ _ _ _ ↦ chunkHere_noChunk

theorem chunkFreeHere_noChunk : ChunkFreeHere B x s ch noChunk := fun h ↦
  absurd h (Nat.succ_ne_zero _)

/-- The frame of a pointer is that of its page. -/
theorem Good.frameOf_block (hg : Good B s ch noChunk lay live) (hp : (ch t)[k]? = some p)
    {b : Lib.Block} (hb : b ∈ (lay t k).blocks) : frameOf B (b.addr + 32) = k := by
  obtain ⟨hlo, hhi⟩ := (hg.wf hp (Nat.zero_le _)).tiles.bounds hb
  have hinner := hg.inner _ k p hp (Nat.zero_le _) b hb
  have hsmall := hg.settled.small t
  have hlt := Settled.lt_length hp
  have hbase : base (noChunk t) k = k := if_neg (Nat.not_lt_zero k)
  rw [hbase] at hlo
  have hnext : B.frame (k + 1) = B.frame k + 4096 := by rw [← frame_add B k 1]
  obtain ⟨o, ho⟩ := Nat.exists_eq_add_of_le (show B.frame k ≤ b.addr + 32 by omega)
  rw [ho]
  exact frameOf_eq (by omega) (by omega)

theorem Good.freeable (hg : Good B s ch noChunk lay live) (he : e ∈ live s.current) :
    Freeable B e.1 s := by
  obtain ⟨k, p, b, hp, hk, hb, haddr, -⟩ := hg.exists_block he
  have hinner := hg.inner _ k p hp hk b hb.1
  have hnext : B.frame (k + 1) = B.frame k + 4096 := by rw [← frame_add B k 1]
  have hhead : (s.metas p).head = B.frame k := by
    have hbase : base (noChunk s.current) k = k := if_neg (Nat.not_lt_zero k)
    rw [← hbase]
    exact (hg.heap _ k p hp hk).head
  refine ⟨p, ?_, ?_, ?_⟩
  · rw [← haddr, hg.frameOf_block hp hb.1, hg.settled.follow_eq]
    exact hp
  · rw [hhead]
    exact (frame_pos B k).ne'
  · rw [hhead]
    omega

/-- The pages of `Private`, and of the threads. -/
structure Shows (B : Block) (s : Manager) (log : List Entry) (ch : ℕ → List PageMetaPtr)
    (lay : ℕ → ℕ → Layout) (A : Private) : Prop where
  good : Good B s ch noChunk lay (pointers log)
  mine : Mine s ch
  pages : ∀ t, A.pages t = (ch t).length
  live : A.live = pointers log
  stored : ∀ t a v, A.stored t a = some v →
    (∃ e ∈ pointers log t, a ∈ bytesOf e) ∧ view B s t a = v

namespace Shows

variable {A : Private}

theorem start {b : Boot} (hb : b.Zeroed) (lay : ℕ → ℕ → Layout) :
    Shows B (b.start B) [] (fun _ ↦ []) lay Private.empty where
  good := Good.start hb lay
  mine := fun _ _ hacc _ ↦ nomatch hacc
  pages _ := rfl
  live := rfl
  stored _ _ _ h := nomatch h

theorem malloc (h : Shows B s log ch lay A) (hsd : Sound B s) (hc : Counted s)
    (hle : s.pageCounter ≤ 1596) (hx : x ≤ 4064) (hs : myallocate B x s = some (r, s')) :
    ∃ ch' lay' A', Private.Step B ⟨s.current, .malloc x, r⟩ A A' ∧
      Shows B s' (⟨s.current, .malloc x, r⟩ :: log) ch' lay' A' := by
  have hx32 : x < 2 ^ 32 := by omega
  have hlater : ¬LaterChunk x s := fun hl ↦ absurd hl.1 (not_lt.mpr hx)
  obtain ⟨hsd', hc', ho⟩ := myallocate_outcome hsd hc hx32 hs
  obtain ⟨ch', c', lay', hg', hzero, hext, hkept⟩ := h.good.served hsd hc (hsd.near (by omega)) hx32
    hlater (fun _ ↦ frontHere_noChunk) hs
  obtain rfl := hzero hx
  have hr : r ≠ 0 := by
    cases ho with
    | served _ hr => exact hr
    | grown _ hr => exact hr
    | refused href =>
      exfalso
      rw [Refused, if_neg (not_lt.mpr hx)] at href
      split_ifs at href with hfirst
      · omega
      · have hlt : s.tcb.mallocFrame < s.pageCounter := hc.lt_pageCounter hfirst
        exact href.2 ⟨by omega, by omega⟩
  have hrel : s'.Released := by
    cases ho with
    | served _ _ hrel => exact hrel
    | grown _ _ hrel => exact hrel
    | refused _ hr' => exact absurd hr' hr
  have hlen : (ch s.current).length ≤ (ch' s.current).length ∧
      ∀ t, t ≠ s.current → (ch' t).length = (ch t).length := by
    obtain rfl | ⟨l, rfl⟩ := hext
    · exact ⟨le_refl _, fun _ _ ↦ rfl⟩
    · rw [length_extend rfl rfl, if_pos rfl]
      refine ⟨Nat.le_add_right _ _, fun t ht ↦ ?_⟩
      rw [length_extend rfl rfl, if_neg ht]
  have hmem : (r, x) ∈ afterMalloc (pointers log) s.current x r s.current := by
    rw [afterMalloc, if_neg hr, update_self]
    exact List.mem_cons_self
  have hold : ∀ t, ∀ e ∈ pointers log t, e ∈ afterMalloc (pointers log) s.current x r t := by
    intro t e he
    rw [afterMalloc, if_neg hr]
    by_cases ht : t = s.current
    · subst ht
      rw [update_self]
      exact List.mem_cons_of_mem _ he
    · rwa [update_of_ne ht]
  have hnew : ∀ e ∈ pointers log s.current, r ≠ e.1 := by
    have hnodup := hg'.nodup s.current
    rw [afterMalloc, if_neg hr, update_self, List.map_cons, List.nodup_cons] at hnodup
    intro e he heq
    exact hnodup.1 (List.mem_map.mpr ⟨e, he, heq.symm⟩)
  refine ⟨ch', lay', _, .malloc (n := (ch' s.current).length) ?_ hr ?_ ?_, hg', ?_, ?_, ?_, ?_⟩
  · rw [h.pages]
    exact hlen.1
  · exact hg'.bytesOf_subset hmem
  · intro e he
    rw [h.live] at he
    exact hg'.disjoint hmem (hold _ e he) (hnew e he)
  · intro k p hacc
    rw [hrel.accessible] at hacc
    cases hacc
  · intro t
    by_cases ht : t = s.current
    · subst ht
      exact update_self ..
    · rw [hlen.2 t ht, ← h.pages]
      exact update_of_ne ht ..
  · show update A.live s.current ((r, x) :: A.live s.current) = _
    rw [h.live, pointers, afterMalloc, if_neg hr]
  · intro t a v hv
    obtain ⟨⟨e, he, ha⟩, hview⟩ := h.stored t a v hv
    refine ⟨⟨e, hold t e he, ha⟩, ?_⟩
    rw [hkept t e he a ha.1 ha.2]
    exact hview

theorem free (h : Shows B s log ch lay A) (hsd : Sound B s) (hle : s.pageCounter ≤ 1596)
    {p : ℕ} (he : (p, x) ∈ pointers log s.current) (hs : mydeallocate B p s = some s') :
    ∃ lay' A', Private.Step B ⟨s.current, .free p, 0⟩ A A' ∧
      Shows B s' (⟨s.current, .free p, 0⟩ :: log) ch lay' A' := by
  have hcur := (mydeallocate_steady hs).current
  obtain ⟨k, q, b, -, -, -, -, -, hg', hkept⟩ := h.good.freed hsd (hsd.near (by omega)) he
    (h.good.freeable he) chunkFreeHere_noChunk hs
  classical
  -- nothing is stored in the range any more
  let stored : ℕ → Option UInt8 := fun a ↦ if a ∈ Range p x then none else A.stored s.current a
  refine ⟨_, _, .free ?_ (fun a ha ↦ show stored a = _ from if_neg ha) (fun a ha ↦ if_pos ha), hg',
    ?_, h.pages, ?_, ?_⟩
  · rwa [h.live]
  · obtain ⟨s₁, rfl⟩ : ∃ s₁ : Manager, s₁.leave = s' := by
      obtain ⟨-, q, -, ⟨-, s₁, -, hl⟩ | ⟨-, -, -, s₁, -, -, -, hl⟩⟩ := mydeallocate_eq_some.mp hs
      · exact ⟨s₁, hl⟩
      · exact ⟨s₁, hl⟩
    exact fun _ _ hacc _ ↦ nomatch hacc
  · show afterFree A.live s.current p = _
    rw [h.live, pointers]
  · intro t a v hv
    have hstored : A.stored t a = some v ∧ (t = s.current → a ∉ Range p x) := by
      by_cases ht : t = s.current
      · subst ht
        simp only [update_self, stored] at hv
        split_ifs at hv with ha
        exact ⟨hv, fun _ ↦ ha⟩
      · simp only [update_of_ne ht] at hv
        exact ⟨hv, fun ht' ↦ absurd ht' ht⟩
    obtain ⟨⟨d, hd, ha⟩, hview⟩ := h.stored t a v hstored.1
    have hmem : d ∈ afterFree (pointers log) s.current p t := by
      refine mem_afterFree.mpr ⟨hd, ?_⟩
      rintro rfl hdp
      obtain rfl := h.good.eq_of_fst hd he hdp
      exact hstored.2 rfl ha
    refine ⟨⟨d, hmem, ha⟩, ?_⟩
    rw [hkept t d hmem a ha.1 ha.2]
    exact hview

/-- An access to a byte of the caller returns, and then the caller's page is in its frame. -/
theorem exists_access (h : Shows B s log ch lay A) (hle : s.pageCounter ≤ 1596)
    (he : e ∈ pointers log s.current) (ha : a ∈ bytesOf e) :
    ∃ i o p s', o < 4096 ∧ a = B.frame i + o ∧ (ch s.current)[i]? = some p ∧
      access B a s = some s' ∧ Mine s' ch ∧ s'.pageFrame p = i := by
  obtain ⟨i, o, p, ho, rfl, hp⟩ := h.good.exists_page he ha.1 ha.2
  have hspan := h.good.settled.span s.current
  have hlt := Settled.lt_length hp
  obtain ⟨s', hs', hmine, hin⟩ := h.good.settled.exists_access (B := B) hp (by omega) ho
  refine ⟨i, o, p, s', ho, rfl, hp, hs', hmine h.mine, hin ?_⟩
  cases hacc : s.accessible i with
  | false => exact .inl rfl
  | true => exact .inr (h.mine i p hacc hp)

/-- After an access the threads see what they saw. -/
theorem access (h : Shows B s log ch lay A) (hsd : Sound B s) (hle : s.pageCounter ≤ 1596)
    (hs : access B a s = some s') :
    Good B s' ch noChunk lay (pointers log) ∧ s'.current = s.current ∧
      ∀ t, ∀ e ∈ pointers log t, Good.Kept B t e s s' := by
  have hn := hsd.near (show s.pageCounter ≤ 1597 by omega)
  have hw := access_works (Q := True) h.good.settled hs
  exact ⟨h.good.works hn hw, (hw.settled h.good.settled).2.1,
    fun _ _ he ↦ h.good.kept_works hn hw he⟩

theorem load (h : Shows B s log ch lay A) (hsd : Sound B s) (hle : s.pageCounter ≤ 1596)
    (he : e ∈ pointers log s.current) (ha : a ∈ bytesOf e)
    (hs : (Call.load a).exec B s = some (r, s')) :
    ∃ A', Private.Step B ⟨s.current, .load a, r⟩ A A' ∧
      Shows B s' (⟨s.current, .load a, r⟩ :: log) ch lay A' := by
  obtain ⟨hs₁, hr⟩ := exec_load.mp hs
  obtain ⟨i, o, p, s₂, ho, rfl, hp, hs₂, hmine, hin⟩ := h.exists_access hle he ha
  obtain rfl := Option.some.inj (hs₁.symm.trans hs₂)
  obtain ⟨hg', hcur, hkept⟩ := h.access hsd hle hs₁
  refine ⟨A, .load fun v hv ↦ ?_, hg', hmine, h.pages, h.live, fun t a v hv ↦ ?_⟩
  · have hview := (h.stored _ _ v hv).2
    rw [← hkept _ e he _ ha.1 ha.2] at hview
    rw [← hr, ← hview, ← hcur]
    rw [← hcur] at hp
    rw [view_here hg'.settled hp hin ho]
  · obtain ⟨⟨d, hd, ha⟩, hview⟩ := h.stored t a v hv
    refine ⟨⟨d, hd, ha⟩, ?_⟩
    rw [hkept t d hd a ha.1 ha.2]
    exact hview

theorem store (h : Shows B s log ch lay A) (hsd : Sound B s) (hle : s.pageCounter ≤ 1596)
    (he : e ∈ pointers log s.current) (ha : a ∈ bytesOf e)
    (hs : (Call.store a v).exec B s = some (r, s')) :
    ∃ A', Private.Step B ⟨s.current, .store a v, r⟩ A A' ∧
      Shows B s' (⟨s.current, .store a v, r⟩ :: log) ch lay A' := by
  obtain ⟨rfl, hst⟩ := exec_store.mp hs
  obtain ⟨s₁, hs₁, rfl⟩ := store_eq_some.mp hst
  obtain ⟨i, o, p, s₂, ho, rfl, hp, hs₂, hmine, hin⟩ := h.exists_access hle he ha
  obtain rfl := Option.some.inj (hs₁.symm.trans hs₂)
  obtain ⟨hg', hcur, hkept⟩ := h.access hsd hle hs₁
  rw [← hcur] at he hp
  obtain ⟨hother, hself⟩ := hg'.settled.view_setMem (B := B) (v := v) hp hin ho
  refine ⟨_, .store, hg'.setMem he ha.1 ha.2 hp hin ho, hmine, h.pages, h.live,
    fun t a' w hw ↦ ?_⟩
  have hstored (hw : A.stored t a' = some w) :
      (∃ d ∈ pointers log t, a' ∈ bytesOf d) ∧ view B s₁ t a' = w := by
    obtain ⟨⟨d, hd, ha'⟩, hview⟩ := h.stored t a' w hw
    refine ⟨⟨d, hd, ha'⟩, ?_⟩
    rw [hkept t d hd a' ha'.1 ha'.2]
    exact hview
  change _ ∧ view B (Paging.setMem (B.frame i + o) v s₁) t a' = w
  by_cases ht : t = s.current
  · subst ht
    simp only [update_self] at hw
    rw [← hcur, hself]
    by_cases ha' : a' = B.frame i + o
    · subst ha'
      rw [update_self] at hw
      rw [setByte_self]
      exact ⟨⟨e, he, ha⟩, Option.some.inj hw⟩
    · rw [update_of_ne ha'] at hw
      rw [setByte_of_ne ha', hcur]
      exact hstored hw
  · simp only [update_of_ne ht] at hw
    rw [hother t (hcur ▸ ht)]
    exact hstored hw

/-- What the threads see changes in no other way on a call that touches no page. -/
theorem other (h : Shows B s log ch lay A) (hg : Good B s' ch noChunk lay (pointers log))
    (hacc : s'.accessible = fun _ ↦ false) (hview : ∀ t, view B s' t = view B s t)
    {entry : Entry} (hlog : pointers (entry :: log) = pointers log) :
    Shows B s' (entry :: log) ch lay A where
  good := hlog ▸ hg
  mine k p hk := by
    rw [hacc] at hk
    cases hk
  pages := h.pages
  live := h.live.trans hlog.symm
  stored t a v hv := by
    rw [hlog, hview t]
    exact h.stored t a v hv

/-- Every allowed call is a step of the private pages. -/
theorem exec (h : Shows B s log ch lay A) (hsd : Sound B s) (hc : Counted s)
    (hpc : s'.pageCounter ≤ 1596) (hcall : OnePage call s log)
    (hs : call.exec B s = some (r, s')) :
    ∃ ch' lay' A', Private.Step B ⟨s.current, call, r⟩ A A' ∧
      Shows B s' (⟨s.current, call, r⟩ :: log) ch' lay' A' := by
  have hle := le_trans (hsd.pageCounter_le hc hs) hpc
  cases call with
  | malloc x => exact h.malloc hsd hc hle hcall hs
  | free p =>
    obtain ⟨x, he⟩ := hcall
    obtain ⟨rfl, hs'⟩ := exec_free.mp hs
    obtain ⟨lay', A', hstep, h'⟩ := h.free hsd hle he hs'
    exact ⟨ch, lay', A', hstep, h'⟩
  | load a =>
    obtain ⟨e, he, ha⟩ := hcall
    obtain ⟨A', hstep, h'⟩ := h.load hsd hle he ha hs
    exact ⟨ch, lay, A', hstep, h'⟩
  | store a v =>
    obtain ⟨e, he, ha⟩ := hcall
    obtain ⟨A', hstep, h'⟩ := h.store hsd hle he ha hs
    exact ⟨ch, lay, A', hstep, h'⟩
  | switch t =>
    obtain ⟨rfl, rfl⟩ := Prod.mk.inj (Option.some.inj hs)
    have hg := h.good.switch t
    exact ⟨ch, lay, A, .switch, h.other hg rfl (view_of_contents h.good.settled hg.settled
      (SameContents.refl s)) rfl⟩
  | library n =>
    obtain ⟨rfl, rfl⟩ := Prod.mk.inj (Option.some.inj hs)
    have hg := h.good.library n
    exact ⟨ch, lay, A, .library, h.other hg rfl (view_of_contents h.good.settled hg.settled
      (SameContents.refl s)) rfl⟩

end Shows

/-! ## Sessions -/

theorem Good.enter (hg : Good B s ch c lay live) : Good B s.enter ch c lay live :=
  hg.of_contents (hg.settled.of_steady (enter_steady s) rfl rfl rfl) rfl (SameContents.refl s)

/-- A request of up to a page returns. -/
theorem Good.exists_myallocate (hg : Good B s ch noChunk lay live) (hsd : Sound B s)
    (hc : Counted s)
    (hpc : s.pageCounter ≤ 1596) (hx : x ≤ 4064) : ∃ r s', myallocate B x s = some (r, s') := by
  by_cases hfirst : s.tcb.firstPage = none
  · obtain ⟨r, -, s', hs', -⟩ := hg.settled.exists_first hsd hc hfirst (by omega) hx
    exact ⟨r, s'.leave, hs'⟩
  · have hn := hsd.near (show s.pageCounter ≤ 1597 by omega)
    obtain ⟨r, s', hs', -⟩ := hg.enter.exists_allocatePage hn hx
      (hg.settled.firstPage_ne.mp hfirst) frontHere_noChunk
    refine ⟨r, s', ?_⟩
    rw [myallocate, if_neg (not_lt.mpr hx)]
    exact hs'

/-- Every allowed call returns. -/
theorem Shows.exists_exec {A : Private} (h : Shows B s log ch lay A) (hsd : Sound B s)
    (hc : Counted s) (hpc : s.pageCounter ≤ 1596) (hcall : OnePage call s log) :
    ∃ r s', call.exec B s = some (r, s') := by
  cases call with
  | malloc x => exact h.good.exists_myallocate hsd hc hpc hcall
  | free p =>
    obtain ⟨x, he⟩ := hcall
    obtain ⟨s', hs'⟩ := h.good.exists_mydeallocate (hsd.near (by omega)) he (h.good.freeable he)
      chunkFreeHere_noChunk
    exact ⟨0, s', exec_free.mpr ⟨rfl, hs'⟩⟩
  | load a =>
    obtain ⟨e, he, ha⟩ := hcall
    obtain ⟨-, -, -, s', -, -, -, hs', -⟩ := h.exists_access hpc he ha
    exact ⟨_, s', exec_load.mpr ⟨hs', rfl⟩⟩
  | store a v =>
    obtain ⟨e, he, ha⟩ := hcall
    obtain ⟨-, -, -, s', -, -, -, hs', -⟩ := h.exists_access hpc he ha
    exact ⟨0, _, exec_store.mpr ⟨rfl, store_eq_some.mpr ⟨s', hs', rfl⟩⟩⟩
  | switch t => exact ⟨_, _, rfl⟩
  | library n => exact ⟨_, _, rfl⟩

/-- The run of the private pages that goes with a session. -/
theorem Session.exists_run (h : Session B OnePage s log) (hpc : s.pageCounter ≤ 1596) :
    ∃ ch lay A, Private.Run B log A ∧ Shows B s log ch lay A := by
  induction h with
  | start hb => exact ⟨_, fun _ _ ↦ Layout.fresh 0 0, _, .start, .start hb _⟩
  | call hsession hcall hs ih =>
    obtain ⟨hsd, hc⟩ := hsession.reachable.sound
    obtain ⟨ch, lay, A, hrun, hshows⟩ := ih (le_trans (hsd.pageCounter_le hc hs) hpc)
    obtain ⟨ch', lay', A', hstep, hshows'⟩ := hshows.exec hsd hc hpc hcall hs
    exact ⟨ch', lay', A', .step hrun hstep, hshows'⟩

/-- The calls of a session meet what follows from the private pages. -/
theorem Session.imp {P : Call → Manager → List Entry → Prop} {n : ℕ} (h : Session B OnePage s log)
    (hpc : s.pageCounter ≤ n) (hn : n ≤ 1596)
    (hP : ∀ call s log ch lay A, Shows B s log ch lay A → Sound B s → Counted s →
      s.pageCounter ≤ n → OnePage call s log → P call s log) : Session B P s log := by
  induction h with
  | start hb => exact .start hb
  | call hsession hcall hs ih =>
    obtain ⟨hsd, hc⟩ := hsession.reachable.sound
    have hle := (hsd.pageCounter_le hc hs).trans hpc
    obtain ⟨ch, lay, A, -, hshows⟩ := hsession.exists_run (hle.trans hn)
    exact .call (ih hle) (hP _ _ _ _ _ _ hshows hsd hc hle hcall) hs

theorem Shows.chained {A : Private} (h : Shows B s log ch lay A) (hcall : OnePage call s log) :
    Chained B call s := by
  cases call with
  | malloc x =>
    change x ≤ 4064 at hcall
    exact ⟨by omega, fun hlater ↦ absurd hlater.1 (not_lt.mpr hcall)⟩
  | free p =>
    obtain ⟨x, he⟩ := hcall
    obtain ⟨q, hq, -⟩ := h.good.freeable he
    rw [h.good.settled.follow_eq] at hq
    change (ch s.current)[(frameOf B p).toNat]? = some q at hq
    have hlt := Settled.lt_length hq
    have hlen : (ch s.current).length = s.tcb.mallocFrame + 1 :=
      h.good.settled.length _ (List.ne_nil_of_length_pos (Nat.zero_lt_of_lt hlt))
    exact .inr (by omega)
  | _ => trivial

theorem Session.chained (h : Session B OnePage s log) (hpc : s.pageCounter ≤ 1596) :
    Reachable B (Chained B) s := by
  have hchained : Session B (fun call s _ ↦ Chained B call s) s log :=
    h.imp hpc (le_refl _) fun _ _ _ _ _ _ hshows _ _ _ hcall ↦ hshows.chained hcall
  exact hchained.reachable_of fun _ _ _ h ↦ h

/-- Every log of requests of up to a page is one of private pages: what a thread loads is what it
has stored last.  Its pointers are to disjoint ranges, and every allowed call returns.  A frame
up to the `malloc_frame` of a thread that has pages holds the page that its own thread addresses
there. -/
theorem paging_transparent (h : Session B OnePage s log) (hpc : s.pageCounter ≤ 1596) :
    (∃ A, Private.Run B log A ∧ A.live = pointers log) ∧
      (∀ t, (pointers log t).Pairwise fun e d ↦ Disjoint (bytesOf e) (bytesOf d)) ∧
      (∀ call, OnePage call s log → ∃ r s', call.exec B s = some (r, s')) ∧
      ∀ t f, (s.tcbs t).firstPage ≠ none → f ≤ (s.tcbs t).mallocFrame →
        ∃ q, s.frameTable f = some q ∧ s.pageFrame q = f ∧
          follow s.next f (s.tcbs (s.metas q).tid).firstPage = some q := by
  obtain ⟨hsd, hc⟩ := h.reachable.sound
  obtain ⟨ch, lay, A, hrun, hshows⟩ := h.exists_run hpc
  have hg := hshows.good
  refine ⟨⟨A, hrun, hshows.live⟩, fun t ↦ ?_, fun _ ↦ hshows.exists_exec hsd hc hpc,
    fun t f hfirst hf ↦ ?_⟩
  · have hne := List.pairwise_map.mp (hg.nodup t)
    exact hne.imp_of_mem fun he hd h ↦ hg.disjoint he hd h
  · have hlen := hg.settled.length t (hg.settled.firstPage_ne.mp hfirst)
    have hlt : f < (ch t).length := by omega
    obtain ⟨q, hq, hin⟩ := hg.settled.exists_resident hlt
    obtain ⟨u, hu⟩ := hg.settled.resident hlt hq
    refine ⟨q, hq, hin, ?_⟩
    rw [hg.settled.tid hu, follow_eq (hg.settled.table.path u)]
    exact hu

/-- One more call that is allowed. -/
theorem Session.exists_call (h : Session B OnePage s log) (hcur : s.current = t)
    (hpc : s.pageCounter ≤ 1596) (hcall : OnePage call s log) (hstay : ∀ t, call ≠ .switch t) :
    ∃ r s', Session B OnePage s' (⟨t, call, r⟩ :: log) ∧ s'.current = t ∧
      s'.pageCounter ≤ s.pageCounter + 1 := by
  obtain ⟨hsd, hc⟩ := h.reachable.sound
  obtain ⟨ch, lay, A, -, hshows⟩ := h.exists_run hpc
  obtain ⟨r, s', hs⟩ := hshows.exists_exec hsd hc hpc hcall
  obtain ⟨n, hn, hle, hstays⟩ := hsd.exec_counts hc log hs
  have hle := hle hcall
  exact ⟨r, s', hcur ▸ h.call hcall hs, (hstays hstay).trans hcur, by omega⟩

/-- A request for up to a page is not refused. -/
theorem Session.exists_malloc (h : Session B OnePage s log) (hcur : s.current = t)
    (hpc : s.pageCounter < 1596) (hx : x ≤ 4064) :
    ∃ r s', Session B OnePage s' (⟨t, .malloc x, r⟩ :: log) ∧ s'.current = t ∧
      s'.pageCounter ≤ s.pageCounter + 1 ∧ r ≠ 0 := by
  obtain ⟨r, s', h', hcur', hpc'⟩ :=
    h.exists_call hcur hpc.le (show OnePage (.malloc x) s log from hx) nofun
  refine ⟨r, s', h', hcur', hpc', ?_⟩
  obtain ⟨ch, lay, A, hrun, -⟩ := h'.exists_run (by omega)
  cases hrun with
  | step _ hstep =>
    cases hstep with
    | malloc _ hr => exact hr

theorem mem_pointers_malloc (hr : r ≠ 0) : (r, x) ∈ pointers (⟨t, .malloc x, r⟩ :: log) t := by
  rw [pointers, afterMalloc, if_neg hr, update_self]
  exact List.mem_cons_self

/-- A store to the first byte of a pointer. -/
theorem Session.exists_store (h : Session B OnePage s log) (hcur : s.current = t)
    (hpc : s.pageCounter ≤ 1596) (he : (r, x) ∈ pointers log t) (hx : 0 < x) (v : UInt8) :
    ∃ s', Session B OnePage s' (⟨t, .store r v, 0⟩ :: log) ∧ s'.current = t ∧
      s'.pageCounter ≤ s.pageCounter + 1 := by
  have hmem : ∃ e ∈ pointers log s.current, r ∈ bytesOf e := by
    rw [hcur]
    exact ⟨(r, x), he, mem_bytesOf.mpr ⟨le_refl r, Nat.lt_add_of_pos_right hx⟩⟩
  obtain ⟨n, s', hs, hcur', hpc'⟩ :=
    h.exists_call hcur hpc (show OnePage (.store r v) s log from hmem) nofun
  refine ⟨s', ?_, hcur', hpc'⟩
  cases hs with
  | call hrun hcall hs =>
    obtain rfl := (exec_store.mp hs).1
    exact .call hrun hcall hs

/-- A thread that has a pointer has pages. -/
theorem Session.firstPage_ne (h : Session B OnePage s log) (hpc : s.pageCounter ≤ 1596)
    (he : e ∈ pointers log t) : (s.tcbs t).firstPage ≠ none := by
  obtain ⟨ch, lay, A, -, hshows⟩ := h.exists_run hpc
  obtain ⟨k, p, b, hp, -⟩ := hshows.good.exists_block he
  exact hshows.good.settled.firstPage_ne.mpr
    (List.ne_nil_of_length_pos (Nat.zero_lt_of_lt (Settled.lt_length hp)))

/-- Threads 0 and 1 store to their pages, and thread 0 loads from its one. -/
theorem exists_session : ∃ (s : Manager) (r r₁ n : ℕ), Session lowBlock OnePage s
      [⟨0, .load r, n⟩, ⟨1, .switch 0, 0⟩, ⟨1, .store r₁ 9, 0⟩, ⟨1, .malloc 100, r₁⟩,
        ⟨0, .switch 1, 0⟩, ⟨0, .store r 7, 0⟩, ⟨0, .malloc 100, r⟩] ∧
    s.pageCounter ≤ 1595 ∧ s.tcb.firstPage ≠ none ∧ r ≠ 0 ∧ r₁ ≠ 0 := by
  have hstart : Session lowBlock OnePage (blank.start lowBlock) [] := .start blank_zeroed
  obtain ⟨r, s₁, h₁, hcur₁, hpc₁, hr⟩ := hstart.exists_malloc (t := 0) (x := 100) rfl (by decide)
    (by decide)
  change s₁.pageCounter ≤ 1 at hpc₁
  obtain ⟨s₂, h₂, hcur₂, hpc₂⟩ := h₁.exists_store hcur₁ (by omega) (mem_pointers_malloc hr)
    (by decide) 7
  have h₃ := h₂.switch hcur₂ 1 trivial
  have hpc₃ : (switch 1 s₂).pageCounter = s₂.pageCounter := rfl
  obtain ⟨r₁, s₄, h₄, hcur₄, hpc₄, hr₁⟩ := h₃.exists_malloc (x := 100) rfl (by omega) (by decide)
  obtain ⟨s₅, h₅, hcur₅, hpc₅⟩ := h₄.exists_store hcur₄ (by omega) (mem_pointers_malloc hr₁)
    (by decide) 9
  have h₆ := h₅.switch hcur₅ 0 trivial
  have hpc₆ : (switch 0 s₅).pageCounter = s₅.pageCounter := rfl
  have hlive : (r, 100) ∈ afterMalloc (pointers [⟨0, .malloc 100, r⟩]) 1 100 r₁ 0 := by
    rw [afterMalloc_of_ne Nat.zero_ne_one]
    exact mem_pointers_malloc hr
  have hload : OnePage (.load r) (switch 0 s₅) (⟨1, .switch 0, 0⟩ :: ⟨1, .store r₁ 9, 0⟩ ::
      ⟨1, .malloc 100, r₁⟩ :: ⟨0, .switch 1, 0⟩ :: ⟨0, .store r 7, 0⟩ :: [⟨0, .malloc 100, r⟩]) :=
    ⟨_, hlive, mem_bytesOf.mpr ⟨le_refl r, show r < r + 100 by omega⟩⟩
  obtain ⟨n, s₇, h₇, hcur₇, hpc₇⟩ := h₆.exists_call (t := 0) rfl (by omega) hload nofun
  have hfirst := h₇.firstPage_ne (t := 0) (by omega) hlive
  rw [← hcur₇] at hfirst
  exact ⟨s₇, r, r₁, n, h₇, by omega, hfirst, hr, hr₁⟩

/-- The load is of the byte that thread 0 has stored. -/
theorem paging_transparent_first : ∃ (s : Manager) (r r₁ : ℕ) (log : List Entry),
    log = [⟨0, .load r, 7⟩, ⟨1, .switch 0, 0⟩, ⟨1, .store r₁ 9, 0⟩, ⟨1, .malloc 100, r₁⟩,
      ⟨0, .switch 1, 0⟩, ⟨0, .store r 7, 0⟩, ⟨0, .malloc 100, r⟩] ∧
    (∃ A, Private.Run lowBlock log A ∧ A.live = pointers log) ∧
    ∃ n s', (Call.malloc 4064).exec lowBlock s = some (n, s') := by
  obtain ⟨s, r, r₁, n, hs, hpc, -⟩ := exists_session
  obtain ⟨⟨A, hrun, hlive⟩, -, hexec, -⟩ := paging_transparent hs (by omega)
  have hn : n = 7 := by
    cases hrun with | step hrun hload =>
    cases hload with | load hn =>
    -- back over what thread 1 does, to the store of thread 0
    cases hrun with | step hrun hstep =>
    cases hstep
    cases hrun with | step hrun hstep =>
    cases hstep
    cases hrun with | step hrun hstep =>
    cases hstep
    cases hrun with | step hrun hstep =>
    cases hstep
    cases hrun with | step hrun hstore =>
    cases hstore
    refine (hn 7 ?_).symm
    dsimp only
    rw [update_of_ne Nat.zero_ne_one, update_self, update_self]
  subst hn
  exact ⟨s, r, r₁, _, rfl, ⟨A, hrun, hlive⟩, hexec _ (show 4064 ≤ 4064 from le_refl _)⟩

end MyPthread.Paging
