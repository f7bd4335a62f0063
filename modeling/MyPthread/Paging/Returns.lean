import MyPthread.Paging.Displaced

/-!
# Giving blocks back

`mydeallocate` finds the heap of a pointer from the frame the pointer is in.  That is the heap the
block came from when the page of the frame holds one, which the pages of a chunk before its last
do not; and `myfree` refuses pointers far behind `head`.  Otherwise the block is free afterwards,
in the heap that is saved on its page, and an equal request of up to a page finds it.
-/

namespace MyPthread.Paging

open MyPthread.Lib MyPthread.Heap Function

variable {B : Block} {s s' : Manager} {ch : ℕ → List PageMetaPtr} {c : ℕ → ℕ}
  {lay : ℕ → ℕ → Layout} {live : ℕ → List (ℕ × ℕ)} {i j k o x r t a : ℕ} {p m : PageMetaPtr}
  {h h' : Layout} {log : List Entry} {call : Call} {e : ℕ × ℕ} {v : UInt8}

/-- The heap that is saved on the page `m`, in the frames from the front of its chunk on. -/
def HeapAt (B : Block) (s : Manager) (m : PageMetaPtr) (h : Layout) : Prop :=
  Represents (B.frame (s.home (s.frontOf m))) (B.frame (s.home m + 1)) (heapOf B s m) h

theorem heapAt_congr (hmetas : s'.metas m = s.metas m) (hhome : s'.home = s.home)
    (hview : ∀ t, view B s' t = view B s t) : HeapAt B s' m h ↔ HeapAt B s m h := by
  rw [HeapAt, HeapAt, heapOf, heapOf, Manager.frontOf, Manager.frontOf, hmetas, hhome, hview]

/-- The block at `x` is free in its heap after the call, and that heap is saved on its page. -/
def GivesBack (B : Block) (x : ℕ) (s s' : Manager) : Prop :=
  ∃ m ∈ s.made, (s.metas m).tid = s.current ∧ ∃ h b, HeapAt B s m h ∧ h.Allocated b ∧
    b.addr + 32 = x ∧ HeapAt B s' m (h.release b.addr) ∧
    (s'.metas m).freePageMem = (h.release b.addr).room

/-- Pointers that were returned are given back when that is possible, and accessed where the caller
has a page in the frame or the frame is closed; and no page of the caller is in the swap file behind
its first slot. -/
def Tame (B : Block) : Call → Manager → List Entry → Prop
  | .malloc x, s, _ => x < 2 ^ 32 ∧ ¬LaterChunk x s ∧ (x ≤ 4064 → FrontHome B x s) ∧ Near s
  | .free p, s, log => (∃ x, (p, x) ∈ pointers log s.current) ∧ Freeable B p s ∧ ChunkHome B p s ∧
      Near s
  | .load a, s, log => Reaches B a s log
  | .store a _, s, log => Reaches B a s log
  | .switch _, _, _ => True
  | .library _, _, _ => True
where
  /-- An access to a block of the caller. -/
  Reaches (B : Block) (a : ℕ) (s : Manager) (log : List Entry) : Prop :=
    (∃ e ∈ pointers log s.current, a ∈ bytesOf e) ∧ a < B.frame 1596 ∧ Near s ∧
      ∀ m, s.accessible ((a - B.addr) / 4096) = true →
        s.frameTable ((a - B.addr) / 4096) = some m → (s.metas m).tid = s.current

namespace Good

theorem heapAt (hg : Good B s ch c lay live) (hp : (ch t)[k]? = some p) (hk : c t ≤ k + 1) :
    HeapAt B s p (lay t k) := by
  rw [HeapAt, hg.settled.home_frontOf hp, hg.settled.home t k p hp]
  exact hg.heap t k p hp hk

/-- The block of a live pointer is given back. -/
theorem givesBack (hg : Good B s ch c lay live) (hsd : Sound B s) (hn : Near s)
    (he : e ∈ live s.current) (hf : Freeable B e.1 s) (hhome : ChunkFreeHere B e.1 s ch c) :
    ∃ s' lay', mydeallocate B e.1 s = some s' ∧ GivesBack B e.1 s s' ∧
      Good B s' ch c lay' (afterFree live s.current e.1) ∧ HasRoom ch c lay' s.current e.2 := by
  obtain ⟨s', hs'⟩ := hg.exists_mydeallocate hn he hf hhome
  obtain ⟨k, p, b, hp, hk, hb, haddr, hsize, hg', -⟩ := hg.freed hsd hn he hf hhome hs'
  have hlay : Function.update lay s.current (Function.update (lay s.current) k
      ((lay s.current k).release b.addr)) s.current k = (lay s.current k).release b.addr := by
    rw [Function.update_self, Function.update_self]
  refine ⟨s', _, hs', ⟨p, hg.settled.mem_pages hp, hg.settled.tid hp, lay s.current k, b,
    hg.heapAt hp hk, hb, haddr, ?_, ?_⟩, hg', k, Settled.lt_length hp, hk, ?_⟩
  · rw [← hlay]
    exact hg'.heapAt hp hk
  · rw [← hlay]
    exact hg'.free _ k p hp hk
  · rw [hlay]
    exact Layout.release_malloc_ne_zero hb.1 hsize

/-- A request of up to a page is served from a page that has room for it. -/
theorem served_hasRoom (hg : Good B s ch c lay live) (hn : Near s) (hx : x ≤ 4064)
    (hfront : FrontHome B x s) (hroom : HasRoom ch c lay s.current x) :
    ∃ r s', myallocate B x s = some (r, s') ∧ r ≠ 0 ∧ s'.made = s.made := by
  have hne : ch s.current ≠ [] := by
    obtain ⟨j, hj, -⟩ := hroom
    exact List.ne_nil_of_length_pos (Nat.zero_lt_of_lt hj)
  obtain ⟨r, s', hs', hserved⟩ := hg.enter.exists_allocatePage hn hx hne
    (hg.settled.frontHere hfront)
  refine ⟨r, s', ?_, hserved hroom⟩
  rw [myallocate, if_neg (not_lt.mpr hx)]
  exact hs'

/-- An access to a block of the caller. -/
theorem access (hg : Good B s ch c lay (pointers log)) (hcall : Tame.Reaches B a s log)
    (hs : access B a s = some s') :
    Good B s' ch c lay (pointers log) ∧ s'.current = s.current ∧ ∃ e ∈ pointers log s.current,
      e.1 ≤ a ∧ a < e.1 + e.2 ∧ ∃ i o p, o < 4096 ∧ a = B.frame i + o ∧
        (ch s.current)[i]? = some p ∧ s'.pageFrame p = i := by
  obtain ⟨⟨e, he, ha⟩, hin, hn, hopen⟩ := hcall
  have hw := access_works (Q := True) hg.settled hs
  obtain ⟨i, o, p, ho, rfl, hp⟩ := hg.exists_page he ha.1 ha.2
  have hi : i < 1596 := by
    simp only [Block.frame] at hin
    omega
  rw [frame_div B i ho] at hopen
  obtain ⟨s₁, hs₁, -, hplace⟩ := hg.settled.exists_access (B := B) hp hi ho
  obtain rfl := Option.some.inj (hs.symm.trans hs₁)
  refine ⟨hg.works hn hw, (hw.settled hg.settled).2.1, e, he, ha.1, ha.2, i, o, p, ho, rfl, hp,
    hplace ?_⟩
  cases hacc : s.accessible i with
  | false => exact .inl rfl
  | true =>
    obtain ⟨q, hq, -⟩ := hg.settled.exists_resident (Settled.lt_length hp)
    have hown := hg.settled.resident_own (Settled.lt_length hp) hq (hopen q hacc hq)
    obtain rfl := Option.some.inj (hown.symm.trans hp)
    exact .inr ((hg.settled.pageFrame_iff hp).mpr hq)

theorem tame (hg : Good B s ch c lay (pointers log)) (hsd : Sound B s) (hc : Counted s)
    (hcall : Tame B call s log) (hs : call.exec B s = some (r, s')) :
    ∃ ch' c' lay', Good B s' ch' c' lay' (pointers (⟨s.current, call, r⟩ :: log)) := by
  cases call with
  | malloc x =>
    obtain ⟨hx, hlater, hfront, hn⟩ := hcall
    obtain ⟨ch', c', lay', hg', -⟩ := hg.served hsd hc hn hx hlater
      (fun hx ↦ hg.settled.frontHere (hfront hx)) hs
    exact ⟨ch', c', lay', hg'⟩
  | free p =>
    obtain ⟨⟨x, he⟩, hf, hhome, hn⟩ := hcall
    obtain ⟨s₁, lay', hs₁, -, hg', -⟩ := hg.givesBack hsd hn he hf (hg.settled.chunkFreeHere hhome)
    obtain ⟨-, hs⟩ := exec_free.mp hs
    obtain rfl := Option.some.inj (hs₁.symm.trans hs)
    exact ⟨ch, c, lay', hg'⟩
  | load a =>
    obtain ⟨hs, -⟩ := exec_load.mp hs
    exact ⟨ch, c, lay, (hg.access hcall hs).1⟩
  | store a v =>
    obtain ⟨-, hs⟩ := exec_store.mp hs
    obtain ⟨s₁, hs₁, rfl⟩ := store_eq_some.mp hs
    obtain ⟨hg', hcur, e, he, hlo, hhi, i, o, p, ho, rfl, hp, hin⟩ := hg.access hcall hs₁
    rw [← hcur] at he hp
    exact ⟨ch, c, lay, hg'.setMem he hlo hhi hp hin ho⟩
  | switch t =>
    obtain ⟨-, rfl⟩ := Prod.mk.inj (Option.some.inj hs)
    exact ⟨ch, c, lay, hg.switch t⟩
  | library n =>
    obtain ⟨-, rfl⟩ := Prod.mk.inj (Option.some.inj hs)
    exact ⟨ch, c, lay, hg.library n⟩

end Good

theorem Session.tame {Q : Call → Manager → List Entry → Prop} (h : Session B Q s log)
    (htame : ∀ call s log, Q call s log → Tame B call s log) :
    ∃ ch c lay, Good B s ch c lay (pointers log) := by
  induction h with
  | start hb => exact ⟨_, _, _, Good.start hb fun _ _ ↦ Layout.fresh 0 0⟩
  | call hr hcall hs ih =>
    obtain ⟨ch, c, lay, hg⟩ := ih
    obtain ⟨hsd, hc⟩ := hr.reachable.sound
    exact hg.tame hsd hc (htame _ _ _ hcall) hs

/-- Without chunks no page ends one. -/
theorem Settled.not_chunkEnd {front : PageMetaPtr} (h : Settled s ch noChunk) (hp : p ∈ s.made) :
    ¬ChunkEnd s p front := by
  rintro ⟨hfront, -⟩
  obtain ⟨u, i, hi⟩ := h.exists_place hp
  rw [h.front u i p hi, if_neg (Nat.not_lt_zero i)] at hfront
  cases hfront

/-- The calls of the sessions of one-page requests are tame. -/
theorem Shows.tame {A : Private} (h : Shows B s log ch lay A) (hsd : Sound B s)
    (hpc : s.pageCounter ≤ 1596) (hcall : OnePage call s log) : Tame B call s log := by
  have hn : Near s := hsd.near (show s.pageCounter ≤ 1597 by omega)
  have hset := h.good.settled
  have hreaches {a : ℕ} (hcall : ∃ e ∈ pointers log s.current, a ∈ bytesOf e) :
      Tame.Reaches B a s log := by
    obtain ⟨e, he, ha⟩ := hcall
    obtain ⟨i, o, p, ho, rfl, hp⟩ := h.good.exists_page he ha.1 ha.2
    have hlt := Settled.lt_length hp
    have hspan := hset.span s.current
    refine ⟨⟨e, he, ha⟩, ?_, hn, fun m hopen hm ↦ ?_⟩
    · unfold Block.frame
      omega
    · rw [frame_div B i ho] at hopen hm
      have hin := (hset.pageFrame_iff hp).mp (h.mine i p hopen hp)
      obtain rfl := Option.some.inj (hm.symm.trans hin)
      exact hset.tid hp
  cases call with
  | malloc x =>
    change x ≤ 4064 at hcall
    refine ⟨by omega, fun hlater ↦ absurd hlater.1 (not_lt.mpr hcall), ?_, hn⟩
    intro _ p front hp _ hend
    exact absurd hend (hset.not_chunkEnd hp)
  | free p =>
    obtain ⟨x, he⟩ := hcall
    refine ⟨⟨x, he⟩, h.good.freeable he, ?_, hn⟩
    intro p front hp _ _ hend
    exact absurd hend (hset.not_chunkEnd hp)
  | load a => exact hreaches hcall
  | store a v => exact hreaches hcall
  | switch t => trivial
  | library n => trivial

/-! ## A page before the last of a chunk -/

/-- The head of a page before the last of a chunk is `NULL`, and `myfree` refuses the pointer: the
heap of its block is as it was. -/
theorem not_givesBack (hg : Good B s ch c lay live)
    (hp : (ch s.current)[(frameOf B x).toNat]? = some p)
    (hk : (frameOf B x).toNat + 1 < c s.current)
    (hin : s.pageFrame p = (frameOf B x).toNat) (hx : 4999 < x)
    (hs : mydeallocate B x s = some s') : ¬GivesBack B x s s' := by
  rintro ⟨m, hm, htid, h, b, hat, hb, hbx, hat', -⟩
  have hset := hg.settled
  have hst := mydeallocate_steady hs
  have hhead := (hg.idle _ _ p hp hk).1
  have hres := (hset.pageFrame_iff hp).mp hin
  obtain ⟨-, resident, hres', hs⟩ := mydeallocate_eq_some.mp hs
  obtain rfl := Option.some.inj (hres.symm.trans hres')
  rcases hs with ⟨-, s₁, hstore, rfl⟩ | ⟨hother, -⟩
  · have hrel : (release p x (loadHeap p s.enter)).heap.mem = s.heap.mem := by
      have hrefused : myfree x ⟨s.heap.mem, (s.metas p).head, (s.metas p).middle⟩ =
          (.outOfBounds, ⟨s.heap.mem, (s.metas p).head, (s.metas p).middle⟩) := by
        rw [myfree, if_pos (.inr (by rw [hhead, Nat.zero_add]; exact hx))]
      show (myfree x ⟨s.heap.mem, (s.metas p).head, (s.metas p).middle⟩).2.mem = _
      rw [hrefused]
    have hmp : m ≠ p := by
      rintro rfl
      exact (frame_pos B _).ne' (hat.head.symm.trans hhead)
    obtain ⟨free, -, hs₁⟩ := storeHeap_eq_some.mp hstore
    have hmetas : s₁.metas m = s.metas m := by
      rw [← hs₁]
      exact update_of_ne hmp _ _
    have hhome : s₁.home = s.home := by
      rw [← hs₁]
      rfl
    have hview : ∀ t, view B s₁.leave t = view B s t := by
      rw [← hs₁] at hst ⊢
      refine view_of_contents hset (hset.of_steady hst rfl rfl rfl) fun q _ o _ ↦ ?_
      show slot B _ (s.pageFrame q) o = slot B s (s.pageFrame q) o
      rw [slot, slot, ← hrel]
      rfl
    -- the heap is both what it was and what it should have become
    have hat₁ : HeapAt B s m (h.release b.addr) := (heapAt_congr hmetas hhome hview).mp hat'
    have heq : h = h.release b.addr := Represents.unique (frame_pos B _) hat hat₁
    rw [heq] at hb
    exact (Layout.WF.allocated_release.mp hb).2 rfl
  · exact hother (hset.tid hp)

/-! ## Runs -/

/-- In every run whose calls are tame the block of a live pointer is given back by a call that is
tame, and an equal request of up to a page is then served from a page that there is. -/
theorem gives_back (h : Session B (Tame B) s log) (he : (a, x) ∈ pointers log s.current)
    (hfree : Tame B (.free a) s log) : ∃ s', mydeallocate B a s = some s' ∧ GivesBack B a s s' ∧
      (x ≤ 4064 → Tame B (.malloc x) s' (⟨s.current, .free a, 0⟩ :: log) →
        ∃ r s'', myallocate B x s' = some (r, s'') ∧ r ≠ 0 ∧ s''.made = s'.made) := by
  obtain ⟨ch, c, lay, hg⟩ := h.tame fun _ _ _ h ↦ h
  obtain ⟨hsd, hc⟩ := h.reachable.sound
  obtain ⟨-, hf, hhome, hn⟩ := hfree
  obtain ⟨s', lay', hs', hback, hg', hroom⟩ := hg.givesBack hsd hn he hf
    (hg.settled.chunkFreeHere hhome)
  refine ⟨s', hs', hback, fun hx hnext ↦ ?_⟩
  obtain ⟨-, -, hfront, hn'⟩ := hnext
  refine hg'.served_hasRoom hn' hx (hfront hx) ?_
  rw [(mydeallocate_steady hs').current]
  exact hroom

/-- The block of the first request. -/
theorem gives_back_first : ∃ (s s' : Manager) (a : ℕ), mydeallocate lowBlock a s = some s' ∧
    GivesBack lowBlock a s s' := by
  have hg := Good.start (B := lowBlock) blank_zeroed fun _ _ ↦ Layout.fresh 0 0
  have hstart : Session lowBlock (Tame lowBlock) (blank.start lowBlock) [] := .start blank_zeroed
  obtain ⟨hsd, hc⟩ := hstart.reachable.sound
  obtain ⟨r, p, s, hs, hf⟩ := hg.exists_first hsd hc (x := 100) rfl (by decide) (by decide)
  have hrun : Session lowBlock (Tame lowBlock) s [⟨0, .malloc 100, r⟩] := by
    have hexec : Call.exec lowBlock (.malloc 100) (blank.start lowBlock) = some (r, s) := hs
    have htame : Tame lowBlock (.malloc 100) (blank.start lowBlock) [] := by
      refine ⟨by decide, ?_, ?_, nofun⟩
      · rintro ⟨hlarge, -⟩
        exact absurd hlarge (by decide)
      · rintro - p front hp
        cases hp
    exact hstart.call htame hexec
  have hcur : s.current = 0 := hf.current
  have hr : r ≠ 0 := hf.result.trans_ne (show (firstLayout lowBlock 0 1 100).1 ≠ 0 by decide)
  have hlive : (r, 100) ∈ afterMalloc (fun _ ↦ []) 0 100 r s.current := by
    rw [hcur, afterMalloc, if_neg hr, update_self]
    exact List.mem_cons_self
  have hpc : s.pageCounter ≤ 1597 := hf.pageCounter.le.trans (show 0 + 1 ≤ 1597 by decide)
  have hhome : ChunkHome lowBlock r s := by
    rintro q front hq - - ⟨hfront, -⟩
    obtain ⟨t, k, hk⟩ := hf.good.settled.exists_place hq
    rw [hf.good.settled.front t k q hk] at hfront
    cases hfront
  obtain ⟨s', hs', hback, -⟩ := gives_back hrun hlive ⟨⟨100, hlive⟩, hf.good.freeable hlive, hhome,
    hrun.reachable.sound.1.near hpc⟩
  exact ⟨s, s', r, hs', hback⟩

/-- A request of 5000 bytes: its block starts in the first page of the chunk, and is not given
back. -/
theorem not_gives_back : ¬∀ (B : Block) (s : Manager) (log : List Entry) (a x : ℕ),
    Session B (fun _ _ _ ↦ True) s log → (a, x) ∈ pointers log s.current →
      ∃ s', mydeallocate B a s = some s' ∧ GivesBack B a s s' := by
  intro hall
  have hg := Good.start (B := lowBlock) blank_zeroed fun _ _ ↦ Layout.fresh 0 0
  have hstart : Session lowBlock (fun _ _ _ ↦ True) (blank.start lowBlock) [] := .start blank_zeroed
  obtain ⟨hsd, hc⟩ := hstart.reachable.sound
  have hpages : numOfPages 5000 = 2 := by decide
  obtain ⟨r, l, s, hs, hf⟩ := hg.exists_chunk hsd hc (x := 5000) rfl (by decide) (by decide)
    (by decide) (by decide)
  have hexec : Call.exec lowBlock (.malloc 5000) (blank.start lowBlock) = some (r, s) := hs
  have hrun := Session.call hstart trivial hexec
  have hlen : l.length = 2 := hf.length.trans hpages
  obtain ⟨a, b, rfl⟩ := List.length_eq_two.mp hlen
  have hcur : s.current = 0 := hf.current
  have hr : r = (firstLayout lowBlock 0 2 5000).1 := hf.result
  have hr₀ : (firstLayout lowBlock 0 2 5000).1 ≠ 0 := by decide
  have hframe : (frameOf lowBlock (firstLayout lowBlock 0 2 5000).1).toNat = 0 := by decide
  obtain ⟨s', hs', hback⟩ := hall lowBlock s _ r 5000 hrun (by
    show (r, 5000) ∈ afterMalloc (fun _ ↦ []) 0 5000 r s.current
    rw [hcur, afterMalloc, if_neg (hr.trans_ne hr₀), update_self]
    exact List.mem_cons_self)
  refine not_givesBack hf.good (p := a) ?_ ?_ ?_ ?_ hs' hback
  · rw [hr, hframe, hcur]
    rfl
  · rw [hr, hframe, hcur]
    decide
  · rw [hr, hframe]
    exact hf.pageFrame 0 a rfl
  · rw [hr]
    decide

end MyPthread.Paging
