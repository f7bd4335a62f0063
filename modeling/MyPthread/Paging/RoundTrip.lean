import MyPthread.Paging.Slices

/-!
# Evicted pages come back

The history has the memory before every call of `swap_pages`, so that it tells with which bytes
a page went to the swap file, evicted or displaced.  `Restored` is what fetching the page is for:
the frame holds those bytes, the page that was in the frame is in the slot, and the other slots
are as they were.

A slot is written at a multiple of 4096 and read at a multiple of 4906.  The two agree on the
first slot only, and runs that fetch pages from nowhere else restore them.
-/

namespace MyPthread.Paging

open MyPthread.Lib MyPthread.Heap Function Relation

variable {B : Block} {Q : Prop} {s s' s₁ : Manager} {ch : ℕ → List PageMetaPtr} {c c' : ℕ → ℕ}
  {k x r : ℕ} {p : PageMetaPtr} {l : List PageMetaPtr} {evs es : List Event} {call : Call}

/-- The bytes with which the page `p` last went to the swap file. -/
def went (B : Block) (p : PageMetaPtr) : List Event → Option (ℕ → UInt8)
  | [] => none
  | .swap page src _ loc before _ :: evs =>
    if page = some p ∧ 1597 ≤ loc then some fun o ↦ before (B.frame src + o) else went B p evs
  | .heap .. :: evs => went B p evs

/-- The page `p` is in its slot of the swap file with the bytes with which it went. -/
def Kept (B : Block) (s : Manager) (p : PageMetaPtr) : Prop :=
  ∃ v, went B p s.trace = some v ∧
    ∀ o < 4096, s.swapFile ((s.pageFrame p - 1597) * 4096 + o) = v o

/-- All pages in the swap file are kept. -/
def AllKept (B : Block) (s : Manager) : Prop :=
  ∀ p ∈ s.pages, 1597 ≤ s.pageFrame p → Kept B s p

/-- The page `p` has been fetched from the swap file to frame `k`. -/
structure Restored (B : Block) (k : ℕ) (p : PageMetaPtr) (s s' : Manager) : Prop where
  pageFrame : s'.pageFrame p = k
  /-- The frame holds the bytes with which the page went. -/
  bytes : ∃ v, went B p s.trace = some v ∧ ∀ o < 4096, s'.heap.mem (B.frame k + o) = v o
  /-- The page that was in the frame is in the slot, with its own bytes. -/
  displaced : ∃ q, s.frameTable k = some q ∧ s'.pageFrame q = s.pageFrame p ∧ Kept B s' q ∧
    went B q s'.trace = some fun o ↦ s.heap.mem (B.frame k + o)
  /-- The other pages of the swap file are as before. -/
  others : ∀ q ∈ s.pages, q ≠ p → 1597 ≤ s.pageFrame q → s'.pageFrame q = s.pageFrame q ∧
    ∀ o < 4096, s'.swapFile ((s.pageFrame q - 1597) * 4096 + o) =
      s.swapFile ((s.pageFrame q - 1597) * 4096 + o)

/-- The location that a page is brought in from. -/
def Event.source : Event → Option ℕ
  | .swap _ _ dest _ _ _ => dest
  | .heap .. => none

/-- No page has been fetched from the swap file but from its first slot. -/
def FirstSlot (evs : List Event) : Prop :=
  ∀ e ∈ evs, ∀ d, e.source = some d → d ≤ 1597

/-- A call of `swap_pages` that restores the page it fetches, if it fetches one, and after which
the pages in the swap file are kept; or what comes between two such calls. -/
inductive Trip (B : Block) : Manager → Manager → Prop where
  | swap {s s' : Manager} {k : ℕ} {dest : Option ℕ} : swapPages B k dest s = some s' →
      AllKept B s' →
      (∀ d, dest = some d → 1597 ≤ d → ∃ p, follow s.next k s.tcb.firstPage = some p ∧
        s.pageFrame p = d ∧ Restored B k p s s') → Trip B s s'
  | quiet {s s' : Manager} : Quiet s s' → Trip B s s'

/-! ## Moves keep the pages in the swap file -/

theorem FirstSlot.suffix (h : FirstSlot es) (hsuf : evs <:+ es) : FirstSlot evs :=
  fun e he ↦ h e (hsuf.subset he)

/-- A call of `swap_pages` brings a page in from `dest`. -/
theorem firstSlot_swapPages {k : ℕ} {dest : Option ℕ} (hs : swapPages B k dest s = some s') :
    FirstSlot s'.trace ↔ (∀ d, dest = some d → d ≤ 1597) ∧ FirstSlot s.trace := by
  rw [(swapPages_keeps hs).2.trace]
  exact List.forall_mem_cons

/-- Without calls of `swap_pages` no page is brought in. -/
theorem firstSlot_append (h : ∀ e ∈ evs, ¬e.IsSwap) : FirstSlot (evs ++ es) ↔ FirstSlot es := by
  refine List.forall_mem_append.trans (and_iff_right fun e he d hd ↦ ?_)
  cases e with
  | swap => exact absurd trivial (h _ he)
  | heap => cases hd

theorem went_append (h : ∀ e ∈ evs, ¬e.IsSwap) : went B p (evs ++ es) = went B p es := by
  induction evs with
  | nil => rfl
  | cons e evs ih =>
    have hrest := ih fun d hd ↦ h d (List.mem_cons_of_mem e hd)
    cases e with
    | swap => exact absurd trivial (h _ List.mem_cons_self)
    | heap => exact hrest

/-- A page that is not in the frame does not go. -/
theorem went_of_ne {k : ℕ} {dest : Option ℕ} (h : swapPages B k dest s = some s')
    (hne : s.frameTable k ≠ some p) : went B p s'.trace = went B p s.trace := by
  rw [(swapPages_keeps h).2.trace, went, if_neg (fun hgo ↦ hne hgo.1)]

/-- The page in the frame goes, when its location is one of the swap file. -/
theorem went_of_eq {k : ℕ} {dest : Option ℕ} (h : swapPages B k dest s = some s')
    (heq : s.frameTable k = some p) (hd : 1597 ≤ dest.getD s.pageCounter) :
    went B p s'.trace = some fun o ↦ s.heap.mem (B.frame k + o) := by
  rw [(swapPages_keeps h).2.trace, went, if_pos ⟨heq, hd⟩]

theorem kept_iff (hd : 1597 ≤ s.pageFrame p) : Kept B s p ↔
    ∃ v, went B p s.trace = some v ∧ ∀ o < 4096, content B s p o = v o := by
  simp only [Kept, content, slot_of_ge hd]

theorem AllKept.quiet (h : AllKept B s) (hq : Quiet s s') : AllKept B s' := by
  intro p hp hd
  obtain ⟨hps, hloc⟩ := hq.pages p hp hd
  obtain ⟨evs, htrace, hevs⟩ := hq.trace
  rw [hloc] at hd
  obtain ⟨v, hv, hfile⟩ := h p hps hd
  refine ⟨v, ?_, ?_⟩
  · rw [htrace, went_append hevs, hv]
  · rw [hloc, hq.swapFile]
    exact hfile

/-- A frame is given up. -/
theorem AllKept.evict (h : AllKept B s) {H : Set ℕ} {i : ℕ} (ht : Table s ch H) (hi : i < 1597)
    (hin : i ≤ s.pageCounter) (hiH : i ∉ H) (hs : swapPages B i none s = some s') :
    AllKept B s' := by
  obtain ⟨s₁, hs₁, he, -, hsame⟩ := ht.evict (B := B) hi hin hiH
  obtain rfl := Option.some.inj (hs₁.symm.trans hs)
  intro p hp hd
  have hps : p ∈ s.pages := (swapPages_keeps hs₁).1.pages.le hp
  have hloc := he.pageFrame p
  rw [kept_iff hd]
  by_cases htable : s.frameTable i = some p
  · rw [if_pos htable] at hloc
    refine ⟨_, went_of_eq hs₁ htable (hloc ▸ hd), fun o ho ↦ ?_⟩
    have hin := ((ht.placed.table_iff i hi hiH p).mp htable).2
    rw [hsame p hps o ho, content, hin, slot_of_lt hi]
  · rw [if_neg htable] at hloc
    rw [hloc] at hd
    obtain ⟨v, hv, hcontent⟩ := (kept_iff hd).mp (h p hps hd)
    refine ⟨v, (went_of_ne hs₁ htable).trans hv, fun o ho ↦ ?_⟩
    rw [hsame p hps o ho, hcontent o ho]

/-- A page is brought in, from the swap file at most from its first slot. -/
theorem AllKept.bring (h : AllKept B s) (ht : Table s ch ∅) (hk : k < 1597)
    (hkn : k < s.pageCounter) (hp : (ch s.current)[k]? = some p) (hne : s.pageFrame p ≠ k)
    (hle : s.pageFrame p ≤ 1597) (hs : swapPages B k (some (s.pageFrame p)) s = some s') :
    AllKept B s' ∧ (1597 ≤ s.pageFrame p → Restored B k p s s') := by
  have hmem : p ∈ s.pages := ht.chained _ _ (List.mem_of_getElem? hp)
  obtain ⟨s₁, q, hs₁, hq, hqk, hsw, -, hsame, -⟩ := ht.swap (B := B) hk hkn (Set.notMem_empty k)
    hmem (fun _ ↦ hp) hne
  obtain rfl := Option.some.inj (hs₁.symm.trans hs)
  obtain ⟨hsl, hsame⟩ := hsame hle
  have hqf : s.pageFrame q = k := ((ht.placed.table_iff k hk (Set.notMem_empty k) q).mp hqk).2
  have hqp : q ≠ p := by
    rintro rfl
    exact hne hqf
  have hloc : ∀ r, s₁.pageFrame r =
      if r = p then k else if r = q then s.pageFrame p else s.pageFrame r := by
    intro r
    rw [hsw.pageFrame]
    simp only [update_apply]
  have hqd : s₁.pageFrame q = s.pageFrame p := by rw [hloc, if_neg hqp, if_pos rfl]
  have hall : AllKept B s₁ := by
    intro r hr hd
    have hrs : r ∈ s.pages := (swapPages_keeps hs₁).1.pages.le hr
    rw [kept_iff hd]
    by_cases hrq : r = q
    · subst hrq
      refine ⟨_, went_of_eq hs₁ hqk (hqd ▸ hd), fun o ho ↦ ?_⟩
      rw [hsame r hrs o ho, content, hqf, slot_of_lt hk]
    · have hrp : r ≠ p := by
        rintro rfl
        rw [hloc, if_pos rfl] at hd
        omega
      rw [hloc, if_neg hrp, if_neg hrq] at hd
      obtain ⟨v, hv, hcontent⟩ := (kept_iff hd).mp (h r hrs hd)
      refine ⟨v, (went_of_ne hs₁ ?_).trans hv, fun o ho ↦ ?_⟩
      · rw [hqk]
        exact fun heq ↦ hrq (Option.some.inj heq).symm
      · rw [hsame r hrs o ho, hcontent o ho]
  refine ⟨hall, fun hd ↦ ⟨by rw [hloc, if_pos rfl], ?_, ⟨q, hqk, hqd, ?_, ?_⟩, ?_⟩⟩
  · obtain ⟨v, hv, hcontent⟩ := (kept_iff hd).mp (h p hmem hd)
    refine ⟨v, hv, fun o ho ↦ ?_⟩
    rw [← slot_of_lt hk, hsl.left o ho]
    exact hcontent o ho
  · exact hall q ((swapPages_keeps hs₁).1.pages.ge hq) (hqd ▸ hd)
  · exact went_of_eq hs₁ hqk hd
  · intro r hr hrp hrd
    have hrq : r ≠ q := by
      rintro rfl
      omega
    refine ⟨by rw [hloc, if_neg hrp, if_neg hrq], fun o ho ↦ ?_⟩
    have hrl : s.pageFrame r ≠ s.pageFrame p := fun heq ↦ hrp (ht.placed.inj r hr p hmem heq)
    rw [← slot_of_ge hrd, ← slot_of_ge hrd]
    exact hsl.of_ne _ (by omega) hrl o ho

theorem Vacate.allKept (h : Vacate B s s') (hk : AllKept B s) : AllKept B s' := by
  cases h with
  | evict ht hi hin hiH hs => exact hk.evict ht hi hin hiH hs
  | quiet hq => exact hk.quiet hq

theorem Vacate.suffix (h : Vacate B s s') : s.trace <:+ s'.trace := by
  cases h with
  | evict _ _ _ _ hs =>
    rw [(swapPages_keeps hs).2.trace]
    exact List.suffix_cons _ _
  | quiet hq =>
    obtain ⟨evs, htrace, -⟩ := hq.trace
    exact ⟨evs, htrace.symm⟩

theorem Move.suffix (h : Move B s s') : s.trace <:+ s'.trace := by
  cases h with
  | vacate hv => exact hv.suffix
  | bring _ _ _ _ _ hs =>
    rw [(swapPages_keeps hs).2.trace]
    exact List.suffix_cons _ _

theorem Moves.suffix (h : Moves B s s') : s.trace <:+ s'.trace := by
  induction h with
  | refl => exact List.suffix_refl _
  | tail _ hm ih => exact ih.trans hm.suffix

/-- A move, unless it fetches a page from a slot after the first. -/
theorem Move.trip (h : Move B s s') (hf : FirstSlot s'.trace) (hk : AllKept B s) :
    Trip B s s' ∧ AllKept B s' := by
  cases h with
  | vacate hv =>
    have hall := hv.allKept hk
    cases hv with
    | evict _ _ _ _ hs => exact ⟨.swap hs hall nofun, hall⟩
    | quiet hq => exact ⟨.quiet hq, hall⟩
  | bring ht hk' hkn hp hne hs =>
    have hle := ((firstSlot_swapPages hs).mp hf).1 _ rfl
    obtain ⟨hall, hback⟩ := hk.bring ht hk' hkn hp hne hle hs
    refine ⟨.swap hs hall fun d hd hge ↦ ?_, hall⟩
    obtain rfl := Option.some.inj hd
    exact ⟨_, (follow_eq (ht.path _) _).trans hp, rfl, hback hge⟩

theorem Moves.trips (h : Moves B s s') (hf : FirstSlot s'.trace) (hk : AllKept B s) :
    ReflTransGen (Trip B) s s' ∧ AllKept B s' := by
  induction h with
  | refl => exact ⟨.refl, hk⟩
  | tail _ hm ih =>
    obtain ⟨htrips, hk'⟩ := ih (hf.suffix hm.suffix)
    obtain ⟨htrip, hk''⟩ := hm.trip hf hk'
    exact ⟨htrips.tail htrip, hk''⟩

/-! ## Calls are moves -/

theorem leave_quiet (s : Manager) : Quiet s s.leave := quiet_of_trace rfl rfl rfl rfl

theorem setByte_quiet (a : ℕ) (v : UInt8) :
    Quiet s { s with heap.mem := setByte s.heap.mem a v } := quiet_of_trace rfl rfl rfl rfl

theorem switch_quiet (t : ℕ) : Quiet s (switch t s) := quiet_of_trace rfl rfl rfl rfl

theorem library_quiet (n : ℕ) : Quiet s (library n s) := quiet_of_trace rfl rfl rfl rfl

theorem Attempt.moves (h : Attempt B Q ch c x r s s') : Moves B s s' := by
  obtain ⟨-, -, -, -, -, hreq, hstore⟩ := h
  rcases hstore with hstore | ⟨-, rfl⟩
  · exact (request_quiet hreq).moves.trans (storeHeap_quiet hstore).moves
  · exact (request_quiet hreq).moves

theorem Release.moves (h : Release B Q ch c x s s') : Moves B s s' := by
  obtain ⟨-, -, -, -, -, hstore⟩ := h
  exact (release_quiet _ x).moves.trans (storeHeap_quiet hstore).moves

theorem Work.moves (h : Work B Q ch c x s s') : Moves B s s' := by
  cases h with
  | flags flag access => exact (quiet_flags flag access).moves
  | bring hset hp hne hs =>
    have hlt := Settled.lt_length hp
    have hsmall := hset.small s.current
    have hspan := hset.span s.current
    exact .single (.bring hset.table (by omega) (by omega) hp hne hs)
  | load _ => exact (loadHeap_quiet _).moves
  | fail ha => exact ha.moves

theorem Works.moves (h : Works B Q ch c x s s') : Moves B s s' := by
  induction h with
  | refl => exact .refl
  | tail _ hw ih => exact ih.trans hw.moves

/-- New pages are made in frames that are given up. -/
theorem Grow.vacates (h : Grow B ch c x r s s' c' l) : Vacates B s s' := by
  obtain ⟨-, -, -, -, -, -, hvacates, -, -, hreq, hstore⟩ := h
  exact ((hvacates.tail (.quiet (resetHeap_quiet _))).tail (.quiet (request_quiet hreq))).tail
    (.quiet (storeHeap_quiet hstore))

theorem Ending.moves (h : Ending B Q ch c x r s s') : Moves B s s' := by
  cases h with
  | found hf =>
    cases hf with
    | nothing _ hw => exact hw.moves
    | page _ hw ha hs =>
      rw [← hs]
      exact (hw.moves.trans ha.moves).trans (leave_quiet _).moves
  | grown _ hw hg _ hs =>
    rw [← hs]
    exact (hw.moves.trans hg.vacates.moves).trans (leave_quiet _).moves

/-- A call is made of moves while the chains are complete. -/
theorem Settled.exec_moves (h : Settled s ch c) (hsd : Sound B s) (hc : Counted s)
    (hP : Chained B call s) (hs : call.exec B s = some (r, s')) : Moves B s s' := by
  cases call with
  | malloc x =>
    obtain ⟨hx, hlater⟩ := hP
    exact (myallocate_ending (Q := False) h hsd hc hx hlater nofun hs).moves
  | free p =>
    obtain ⟨-, hs⟩ := exec_free.mp hs
    obtain ⟨s₁, s₂, hw, hrel, rfl⟩ := mydeallocate_works (Q := False) h hsd hP nofun hs
    exact (hw.moves.trans hrel.moves).trans (leave_quiet s₂).moves
  | load a =>
    obtain ⟨hs, -⟩ := exec_load.mp hs
    exact (access_works (Q := False) h hs).moves
  | store a v =>
    obtain ⟨-, hs⟩ := exec_store.mp hs
    obtain ⟨s₁, hs₁, rfl⟩ := store_eq_some.mp hs
    exact (access_works (Q := False) h hs₁).moves.trans (setByte_quiet a v).moves
  | switch t =>
    obtain ⟨-, rfl⟩ := Prod.mk.inj (Option.some.inj hs)
    exact (switch_quiet t).moves
  | library n =>
    obtain ⟨-, rfl⟩ := Prod.mk.inj (Option.some.inj hs)
    exact (library_quiet n).moves

/-! ## Runs -/

/-- The pages in the swap file are kept in every run that fetches pages from the first slot
only. -/
theorem Reachable.allKept (h : Reachable B (Chained B) s) (hf : FirstSlot s.trace) :
    AllKept B s := by
  induction h with
  | start hb =>
    intro p hp
    cases hp
  | call hr hp hs ih =>
    obtain ⟨ch, c, hset⟩ := hr.settled fun _ _ hp ↦ hp
    have hmoves := hset.exec_moves hr.sound.1 hr.sound.2 hp hs
    exact (hmoves.trips hf (ih (hf.suffix hmoves.suffix))).2

/-- In the runs in which no thread that has pages gets a chunk, and in which pages are fetched
from the first slot of the swap file only: a page in the swap file is kept, its owner finds it and
the fetch returns, and restores the page if it is in the first slot; and a further call is a
sequence of calls of `swap_pages` all of which restore what they fetch. -/
theorem restored (h : Reachable B (Chained B) s) (hf : FirstSlot s.trace) :
    AllKept B s ∧
      (∀ p ∈ s.pages, (s.metas p).tid = s.current →
        ∃ k, follow s.next k s.tcb.firstPage = some p) ∧
      (∀ k p, follow s.next k s.tcb.firstPage = some p → 1597 ≤ s.pageFrame p →
        ∃ s', swapPages B k (some (s.pageFrame p)) s = some s' ∧
          (s.pageFrame p = 1597 → Restored B k p s s')) ∧
      ∀ call r s', Chained B call s → call.exec B s = some (r, s') → FirstSlot s'.trace →
        ReflTransGen (Trip B) s s' := by
  obtain ⟨ch, c, hset⟩ := h.settled fun _ _ hp ↦ hp
  have hall := h.allKept hf
  refine ⟨hall, fun p hp htid ↦ ?_, fun k p hp hd ↦ ?_, fun call r s' hcall hs hf' ↦ ?_⟩
  · obtain ⟨u, k, hk⟩ := hset.exists_place hp
    obtain rfl := (hset.tid hk).symm.trans htid
    exact ⟨k, (hset.follow_eq k).trans hk⟩
  · rw [hset.follow_eq] at hp
    have hk := Settled.lt_length hp
    have hsmall := hset.small s.current
    have hspan := hset.span s.current
    have hne : s.pageFrame p ≠ k := by omega
    obtain ⟨s', hs'⟩ := hset.exists_bring (B := B) hp hne
    refine ⟨s', hs', fun h1597 ↦ ?_⟩
    exact (hall.bring hset.table (by omega) (by omega) hp hne h1597.le hs').2 hd
  · exact ((hset.exec_moves h.sound.1 h.sound.2 hcall hs).trips hf' hall).1

/-! ## Runs that fill the memory -/

/-- No page is fetched while frames are given up. -/
theorem Vacate.firstSlot (h : Vacate B s s') (hf : FirstSlot s.trace) : FirstSlot s'.trace := by
  cases h with
  | evict _ _ _ _ hs => exact (firstSlot_swapPages hs).mpr ⟨nofun, hf⟩
  | quiet hq =>
    obtain ⟨evs, htrace, hevs⟩ := hq.trace
    rw [htrace]
    exact (firstSlot_append hevs).mpr hf

theorem Vacates.firstSlot (h : Vacates B s s') (hf : FirstSlot s.trace) : FirstSlot s'.trace := by
  induction h with
  | refl => exact hf
  | tail _ hv ih => exact hv.firstSlot ih

/-- A run that fetched pages from the first slot only, with the chains it has made. -/
structure Early (B : Block) (ch : ℕ → List PageMetaPtr) (c : ℕ → ℕ) (s : Manager) : Prop where
  reach : Reachable B (Chained B) s
  first : FirstSlot s.trace
  settled : Settled s ch c

namespace Early

theorem switch (h : Early B ch c s) (t : ℕ) : Early B ch c (switch t s) :=
  ⟨.call (c := .switch t) h.reach trivial rfl, h.first,
    h.settled.exec_other (B := B) (.inl ⟨t, rfl⟩) rfl⟩

/-- A request of a thread that has no page. -/
theorem grow (h : Early B ch c s) (hx : x < 2 ^ 32) (hnone : s.tcb.firstPage = none)
    (hs : myallocate B x s = some (r, s'.leave)) (hgr : Grow B ch c x r s.enter s' c' l) :
    Early B (update ch s.current l) c' s'.leave ∧ s'.leave.current = s.current ∧
      s'.leave.pageCounter = s.pageCounter + pagesFor x := by
  have hreach : Reachable B (Chained B) s'.leave :=
    .call (c := .malloc x) h.reach ⟨hx, fun hlater ↦ hlater.2.1 hnone⟩ hs
  have hset := hgr.settled.leave
  have hnil : ch s.current = [] := by
    by_contra hne
    exact h.settled.firstPage_ne.mpr hne hnone
  rw [extend, show ch s.enter.current = [] from hnil, List.nil_append] at hset
  obtain ⟨_, s₁, hfresh⟩ := hgr.fresh
  have hcur : s'.leave.current = s.current := hfresh.current.trans hfresh.grew.current
  refine ⟨⟨hreach, hgr.vacates.firstSlot h.first, hset⟩, hcur, ?_⟩
  refine pageCounter_of_first h.reach.sound.1 h.reach.sound.2 hx hnone hs ?_
  refine hset.firstPage_ne.mpr ?_
  rw [hcur]
  show update ch s.current l s.current ≠ []
  rw [update_self]
  exact List.ne_nil_of_length_pos hgr.room.2.pos

/-- A thread that has no page gets one for frame 0.  What was there goes to the location
`page_counter`. -/
theorem exists_enter (h : Early B ch c s) {t : ℕ} (hnil : ch t = []) (hpc : s.pageCounter < 5692) :
    ∃ p s', Early B (update ch t [p]) c s' ∧ s'.current = t ∧
      s'.pageCounter = s.pageCounter + 1 ∧ s'.pageFrame p = 0 ∧
      (∀ q ∈ s.pages, s.pageFrame q = 0 → s'.pageFrame q = s.pageCounter) ∧
      (1597 ≤ s.pageCounter → ∀ q ∈ s.pages, s.pageFrame q = 0 →
        ∀ o < 4096, content B s' q o = content B s q o) := by
  have hsw := h.switch t
  have hnone : (Paging.switch t s).tcb.firstPage = none := hsw.settled.firstPage_none hnil
  obtain ⟨r, p, s₁, hs, hgr⟩ := hsw.settled.exists_first hsw.reach.sound.1 hsw.reach.sound.2 hnone
    hpc (x := 100) (by decide)
  obtain ⟨hearly, hcur, hpc'⟩ := hsw.grow (by decide) hnone hs hgr
  obtain ⟨last, s₂, hfresh⟩ := hgr.fresh
  have hlen : (ch (Paging.switch t s).enter.current).length = 0 := congrArg List.length hnil
  have hp : (update ch t [p] t)[0]? = some p := by
    rw [update_self]
    rfl
  have hp0 : s₁.leave.pageFrame p = 0 := by
    refine (congrFun hfresh.pageFrame p).trans ?_
    rw [hfresh.grew.place 0 p rfl, hlen]
  have hgone : ∀ q ∈ s.pages, s.pageFrame q = 0 → s₁.leave.pageFrame q = s.pageCounter := by
    intro q hq hq0
    obtain ⟨u, hu⟩ := h.settled.complete q hq
    have hmem : q ∈ s₁.leave.pages := by
      refine hearly.settled.table.chained u q ?_
      show q ∈ update ch t [p] u
      rwa [update_of_ne]
      rintro rfl
      rw [hnil] at hu
      cases hu
    have hlt := hearly.settled.table.placed.lt q hmem
    rw [hpc', show pagesFor 100 = 1 from rfl] at hlt
    change _ < s.pageCounter + 1 at hlt
    have hmoved : s₁.leave.pageFrame q = s.pageFrame q ∨ s.pageCounter ≤ s₁.leave.pageFrame q := by
      have hmoved := hfresh.grew.moved q hq
      rw [← hfresh.pageFrame] at hmoved
      exact hmoved
    rcases hmoved with heq | hge
    · have hqp := hearly.settled.table.placed.inj q hmem p (hearly.settled.mem_pages hp)
        (heq.trans (hq0.trans hp0.symm))
      rw [hqp] at hq
      exact absurd hq (hfresh.grew.fresh p (List.mem_singleton_self p))
    · omega
  refine ⟨p, s₁.leave, hearly, hcur, hpc', hp0, hgone, fun hfull q hq hq0 o ho ↦ ?_⟩
  have hloc := hgone q hq hq0
  have hloc' : s₂.pageFrame q = s.pageCounter := by
    rw [← hloc, ← hfresh.pageFrame]
    rfl
  rw [← show content B s₂ q o = content B s q o from hfresh.grew.contents q hq o ho, content,
    content, hloc, hloc', slot_of_ge hfull, slot_of_ge hfull, ← hfresh.swapFile]
  rfl

/-- A store in a page of the caller that is in its frame. -/
theorem exists_store (h : Early B ch c s) {k o : ℕ} (hp : (ch s.current)[k]? = some p)
    (hk : k < 1596) (hin : s.pageFrame p = k) (ho : o < 4096) (v : UInt8) :
    ∃ s', Early B ch c s' ∧ s'.pages = s.pages ∧ s'.pageFrame = s.pageFrame ∧
      s'.pageCounter = s.pageCounter ∧ s'.current = s.current ∧
      content B s' p o = v ∧ ∀ o' < 4096, o' ≠ o → content B s' p o' = content B s p o' := by
  obtain ⟨s₁, hs₁, -⟩ := h.settled.exists_access (B := B) hp hk ho
  have hset := ((access_works (Q := False) h.settled hs₁).settled h.settled).1
  rcases access_cases ((addr_le_frame B k).trans (Nat.le_add_right _ o)) hs₁ with
    ⟨hfetch, -⟩ | ⟨-, access, rfl⟩
  · rw [fetches, frameIndex, frame_div B k ho, h.settled.foreign_eq_false hp hin,
      Bool.and_false] at hfetch
    cases hfetch
  · have hs : (Call.store (B.frame k + o) v).exec B s = some (0, _) :=
      exec_store.mpr ⟨rfl, store_eq_some.mpr ⟨_, hs₁, rfl⟩⟩
    have hmem : ∀ o', content B { s with
        accessible := access, heap.mem := setByte s.heap.mem (B.frame k + o) v } p o' =
          setByte s.heap.mem (B.frame k + o) v (B.frame k + o') := by
      intro o'
      rw [content, hin, slot_of_lt (by omega)]
    refine ⟨_, ⟨.call (c := .store _ v) h.reach trivial hs, h.first, hset.store⟩,
      rfl, rfl, rfl, rfl, (hmem o).trans (setByte_self ..), fun o' ho' hne ↦ ?_⟩
    have hold : content B s p o' = s.heap.mem (B.frame k + o') := by
      rw [content, hin, slot_of_lt (by omega)]
    exact (hmem o').trans ((setByte_of_ne (by omega)).trans hold.symm)

/-- The frames but the last are full with a chunk of thread 0, and threads 1 and 2 get a page
each: the page of thread 1 goes to the first slot of the swap file. -/
theorem exists_slot : ∃ p q c s, ∃ ch : ℕ → List PageMetaPtr, Early lowBlock ch c s ∧
    s.current = 2 ∧ s.pageCounter = 1598 ∧ ch 1 = [p] ∧ ch 2 = [q] ∧ ch 3 = [] ∧
    s.pageFrame p = 1597 ∧ s.pageFrame q = 0 := by
  have hstart : Early lowBlock (fun _ ↦ []) (fun _ ↦ 0) (blank.start lowBlock) :=
    ⟨.start blank_zeroed, nofun, Settled.start blank_zeroed⟩
  obtain ⟨hsd, hc⟩ := hstart.reach.sound
  obtain ⟨r, l, s, hs, hgr, hlen⟩ := hstart.settled.exists_chunk hsd hc (x := 6537184) (n := 1596)
    rfl (by decide) (by decide) (by decide) (by decide) (by decide)
  obtain ⟨hearly, -, hpc⟩ := hstart.grow (by decide) rfl hs hgr
  have hpc : s.leave.pageCounter = 1596 := hpc
  obtain ⟨p, s₁, hearly₁, hcur₁, hpc₁, hp, -⟩ := hearly.exists_enter (t := 1) rfl (by omega)
  obtain ⟨q, s₂, hearly₂, hcur₂, hpc₂, hq, hgone, -⟩ :=
    hearly₁.exists_enter (t := 2) rfl (by omega)
  have hmem : p ∈ s₁.pages := hearly₁.settled.mem_pages (t := 1) (k := 0) rfl
  refine ⟨p, q, _, s₂, _, hearly₂, hcur₂, by omega, rfl, rfl, rfl, ?_, hq⟩
  rw [hgone p hmem hp]
  omega

/-- A load in a page of the caller that is in the first slot.  The page goes to its frame, and what
was there to the slot. -/
theorem exists_fetch (h : Early B ch c s) {k o : ℕ} (hp : (ch s.current)[k]? = some p)
    (hk : k < 1596) (hd : s.pageFrame p = 1597) (hclosed : s.accessible k = false) (ho : o < 4096) :
    ∃ s', Early B ch c s' ∧ (∃ e ∈ s'.trace, e.source = some 1597) ∧
      ∀ q ∈ s.pages, s.pageFrame q = k → s'.pageFrame q = 1597 := by
  have hne : s.pageFrame p ≠ k := by omega
  have haddr := addr_le_frame B k
  have hfetch : fetches B (B.frame k + o) s = true := by
    rw [fetches, frameIndex, frame_div B k ho, Bool.and_eq_true, decide_eq_true_eq,
      h.settled.foreign_iff hp]
    refine ⟨⟨by omega, ?_, hclosed⟩, hne⟩
    unfold Block.frame
    omega
  obtain ⟨s', hs', -⟩ := h.settled.exists_access (B := B) hp hk ho
  have hset := ((access_works (Q := False) h.settled hs').settled h.settled).1
  have hreach : Reachable B (Chained B) s' :=
    .call (c := .load _) h.reach trivial (exec_load.mpr ⟨hs', rfl⟩)
  rcases access_cases (haddr.trans (Nat.le_add_right _ o)) hs' with
    ⟨-, temp, s₁, hfollow, hswap, rfl⟩ | ⟨hno, -⟩
  · rw [frameIndex, frame_div B k ho] at hfollow hswap
    obtain rfl := Option.some.inj (hfollow.symm.trans ((h.settled.follow_eq k).trans hp))
    have hlt := Settled.lt_length hp
    have hspan := h.settled.span s.current
    obtain ⟨s₂, r, hs₂, hr, hrk, hsw, -⟩ := h.settled.table.swap (B := B) (k := k) (by omega)
      (by omega) (Set.notMem_empty k) (h.settled.mem_pages hp) (fun _ ↦ hp) hne
    obtain rfl := Option.some.inj (hs₂.symm.trans hswap)
    have hsource : ∃ e ∈ s₂.trace, e.source = some 1597 := by
      rw [(swapPages_keeps hswap).2.trace]
      exact ⟨_, List.mem_cons_self, congrArg some hd⟩
    refine ⟨_, ⟨hreach, ?_, hset⟩, hsource, fun q hq hqk ↦ ?_⟩
    · refine (firstSlot_swapPages hswap).mpr ⟨?_, h.first⟩
      rintro d ⟨⟩
      exact hd.le
    · -- there is one page in the frame
      have hqr : s.frameTable k = some q :=
        (h.settled.table.placed.table_iff k (by omega) (Set.notMem_empty k) q).mpr ⟨hq, hqk⟩
      obtain rfl := Option.some.inj (hqr.symm.trans hrk)
      show s₂.pageFrame q = 1597
      rw [hsw.pageFrame, update_of_ne, update_self, hd]
      rintro rfl
      exact hne hqk
  · rw [hfetch] at hno
    cases hno

end Early

/-- Thread 0 has all frames but one, and threads 1 and 2 have a page each.  The page of thread 1 is
fetched from the first slot, and that of thread 2 goes there and can be fetched in turn. -/
theorem restored_firstSlot : ∃ (s s' : Manager) (q : PageMetaPtr),
    Reachable lowBlock (Chained lowBlock) s ∧
    (∃ e ∈ s.trace, e.source = some 1597) ∧ AllKept lowBlock s ∧ s.pageFrame q = 1597 ∧
    swapPages lowBlock 0 (some 1597) s = some s' ∧ Restored lowBlock 0 q s s' := by
  obtain ⟨p, q, c, s, ch, hearly, -, -, hp, hq, -, hploc, hqloc⟩ := Early.exists_slot
  obtain ⟨s₁, hearly₁, hfetched, hgone⟩ := (hearly.switch 1).exists_fetch (k := 0) (o := 40)
    (by rw [show ch (switch 1 s).current = [p] from hp]; rfl) (by decide) hploc rfl (by decide)
  have hmem : q ∈ s.pages := hearly.settled.mem_pages (t := 2) (k := 0) (by rw [hq]; rfl)
  have hq' : s₁.pageFrame q = 1597 := hgone q hmem hqloc
  have hearly₂ := hearly₁.switch 2
  obtain ⟨hall, -, hfetch, -⟩ := restored hearly₂.reach hearly₂.first
  have hfollow : follow (switch 2 s₁).next 0 (switch 2 s₁).tcb.firstPage = some q := by
    rw [hearly₂.settled.follow_eq, show ch (switch 2 s₁).current = [q] from hq]
    rfl
  obtain ⟨s', hs', hback⟩ := hfetch 0 q hfollow hq'.ge
  rw [show (switch 2 s₁).pageFrame q = 1597 from hq'] at hs'
  exact ⟨switch 2 s₁, s', q, hearly₂.reach, hfetched, hall, hq', hs', hback hq'⟩

/-- Thread 0 has all frames but one, and threads 1, 2 and 3 have a page each: that of thread 2 is in
the second slot.  It is fetched from another offset. -/
theorem not_restored : ∃ (s s' : Manager) (q : PageMetaPtr),
    Reachable lowBlock (Chained lowBlock) s ∧
    follow s.next 0 s.tcb.firstPage = some q ∧ s.pageFrame q = 1598 ∧
    swapPages lowBlock 0 (some 1598) s = some s' ∧ ¬Restored lowBlock 0 q s s' := by
  obtain ⟨p, q, c, s, ch, hearly, hcur, hpc, hp, hq, hnil, hploc, hqloc⟩ := Early.exists_slot
  have hget : ∀ t, t = 2 → (ch t)[0]? = some q := by
    rintro t rfl
    rw [hq]
    rfl
  obtain ⟨s₁, hearly₁, hpages₁, hloc₁, hpc₁, hcur₁, hone, -⟩ :=
    hearly.exists_store (o := 40) (hget _ hcur) (by decide) hqloc (by decide) 1
  obtain ⟨s₂, hearly₂, hpages₂, hloc₂, hpc₂, hcur₂, hzero, hkeep⟩ :=
    hearly₁.exists_store (o := 850) (hget _ (hcur₁.trans hcur)) (by decide)
      ((congrFun hloc₁ q).trans hqloc) (by decide) 0
  obtain ⟨r, s₃, hearly₃, hcur₃, hpc₃, hr, hgone, hsame⟩ :=
    hearly₂.exists_enter (t := 3) hnil (by omega)
  have hmem : q ∈ s₂.pages := hearly₂.settled.mem_pages (hget _ rfl)
  have hqloc₂ : s₂.pageFrame q = 0 := (congrFun hloc₂ q).trans ((congrFun hloc₁ q).trans hqloc)
  have hqloc₃ : s₃.pageFrame q = 1598 := (hgone q hmem hqloc₂).trans (by omega)
  have hcontent := hsame (by omega) q hmem hqloc₂
  have hearly₄ := hearly₃.switch 2
  have hget₄ : (update ch 3 [r] 2)[0]? = some q := hget 2 rfl
  obtain ⟨s', p', hs', -, -, -, -, -, hfile⟩ := hearly₄.settled.table.swap (B := lowBlock) (k := 0)
    (p := q) (by decide) (hpc₃.symm ▸ Nat.succ_pos _) (Set.notMem_empty 0)
    (hearly₄.settled.mem_pages hget₄) (fun _ ↦ hget₄) (hqloc₃.trans_ne (by decide))
  have hloc₄ : (switch 2 s₃).pageFrame q = 1598 := hqloc₃
  refine ⟨switch 2 s₃, s', q, hearly₄.reach, (hearly₄.settled.follow_eq 0).trans hget₄, hqloc₃,
    hloc₄ ▸ hs', fun hback ↦ ?_⟩
  obtain ⟨v, hwent, hbytes⟩ := hback.bytes
  obtain ⟨v', hwent', hkept⟩ := (kept_iff (hloc₄ ▸ by decide)).mp
    (hearly₄.reach.allKept hearly₄.first q (hearly₄.settled.mem_pages hget₄) (hloc₄ ▸ by decide))
  obtain rfl := Option.some.inj (hwent.symm.trans hwent')
  have hstored : v 40 = 1 := by
    rw [← hkept 40 (by decide)]
    exact (hcontent 40 (by decide)).trans ((hkeep 40 (by decide) (by decide)).trans hone)
  have hread : s'.heap.mem (lowBlock.frame 0 + 40) = 0 := by
    calc s'.heap.mem (lowBlock.frame 0 + 40)
      _ = (switch 2 s₃).swapFile (1 * 4906 + 40) := by
        have hslot := hfile (hloc₄ ▸ by decide) 40 (by decide)
        rwa [slot_of_lt (by decide), hloc₄] at hslot
      _ = content lowBlock (switch 2 s₃) q 850 := by
        rw [content, hloc₄, slot_of_ge (by decide)]
      _ = 0 := (hcontent 850 (by decide)).trans hzero
  have hone' := hbytes 40 (by decide)
  rw [hread, hstored] at hone'
  cases hone'

end MyPthread.Paging
