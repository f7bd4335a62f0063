import MyPthread.Heap.Client

/-!
# The heap of a run, read off memory

What the runs of `Heap.Client` keep, stated on the bytes alone: the headers
reached from `head` through `next`, and the payloads of the live pointers.  The
layouts of `Heap.Layout` appear in the proofs only.
-/

namespace MyPthread.Heap

open MyPthread.Lib

/-- `ps` are the headers met from `p` through `next`, up to `NULL`. -/
def Follows (m : Mem) : ℕ → List ℕ → Prop
  | p, [] => p = 0
  | p, q :: ps => p = q ∧ q ≠ 0 ∧ Follows m (entryAt m q).next ps

/-- The headers from `head` are the distinct addresses `ps`: one list only. -/
theorem Follows.unique {m : Mem} {p : ℕ} {ps qs : List ℕ} (hp : Follows m p ps)
    (hq : Follows m p qs) : ps = qs := by
  induction ps generalizing p qs with
  | nil =>
    cases qs with
    | nil => rfl
    | cons q qs => exact absurd (hq.1.symm.trans hp) hq.2.1
  | cons r ps ih =>
    obtain ⟨rfl, hr, hps⟩ := hp
    cases qs with
    | nil => exact absurd hq hr
    | cons q qs =>
      obtain ⟨rfl, -, hqs⟩ := hq
      rw [ih hps hqs]

/-- The header list of a heap over `R`. -/
structure HeapList (R : Region) (s : HeapState) (ps : List ℕ) : Prop where
  /-- The blocks reached from `head` through `next`. -/
  follows : Follows s.mem s.head ps
  /-- They are in increasing address order. -/
  sorted : ps.Pairwise (· < ·)
  /-- They start at the base of the region. -/
  start : ps.head? = some R.base
  /-- Each block ends where the next one begins. -/
  tile : ps.IsChain fun (p q : ℕ) ↦ (p : ℤ) + sizeofMementry + (entryAt s.mem p).size = q
  /-- The last block ends with the region. -/
  stop : ∀ p ∈ ps.getLast?, (p : ℤ) + sizeofMementry + (entryAt s.mem p).size = R.base + R.bytes
  /-- The first block has no predecessor. -/
  prev_start : ∀ p ∈ ps.head?, (entryAt s.mem p).prev = 0
  /-- `prev` undoes `next`. -/
  prev_next : ps.IsChain fun p q ↦ (entryAt s.mem p).next = q ∧ (entryAt s.mem q).prev = p
  /-- Every header carries the magic code. -/
  code : ∀ p ∈ ps, (entryAt s.mem p).code = mycode
  /-- `middle` is a listed block. -/
  middle : s.middle ∈ ps
  /-- No two neighbours are both free. -/
  coalesced : ps.IsChain fun p q ↦ ¬((entryAt s.mem p).free ≠ 0 ∧ (entryAt s.mem q).free ≠ 0)

section Seg

variable {lo hi prev next : ℕ} {m : Mem} {bs : List Block}

theorem Seg.follows (h : Seg m prev bs 0) (hp : ∀ b ∈ bs, b.addr ≠ 0) :
    Follows m (headAddr bs 0) (bs.map Block.addr) := by
  induction bs generalizing prev with
  | nil => rfl
  | cons b bs ih =>
    refine ⟨rfl, hp b List.mem_cons_self, ?_⟩
    rw [h.1]
    exact ih h.2 fun c hc ↦ hp c (List.mem_cons_of_mem _ hc)

/-- Neighbours in a segment are linked both ways. -/
theorem Seg.isChain (h : Seg m prev bs next) :
    bs.IsChain fun b c ↦ (entryAt m b.addr).next = c.addr ∧ (entryAt m c.addr).prev = b.addr := by
  induction bs generalizing prev with
  | nil => exact List.isChain_nil
  | cons b bs ih =>
    cases bs with
    | nil => exact List.isChain_singleton _
    | cons c bs =>
      refine List.isChain_cons_cons.mpr ⟨⟨?_, ?_⟩, ih h.2⟩
      · rw [h.1]
        rfl
      · rw [h.2.1]
        rfl

theorem Seg.prev_head (h : Seg m prev bs next) :
    ∀ p ∈ (bs.map Block.addr).head?, (entryAt m p).prev = prev := by
  intro p hp
  cases bs with
  | nil => cases hp
  | cons b bs =>
    obtain rfl : b.addr = p := by simpa using hp
    rw [h.1]
    rfl

/-- A chain that follows from what the headers of a segment say. -/
theorem Seg.isChain_map {r : ℕ → ℕ → Prop} {t : Block → Block → Prop} (ht : bs.IsChain t)
    (hrt : ∀ b ∈ bs, ∀ c ∈ bs, t b c → r b.addr c.addr) : (bs.map Block.addr).IsChain r := by
  rw [List.isChain_map]
  exact ht.imp_of_mem_imp fun b c hb hc ↦ hrt b hb c hc

end Seg

section HeapList

variable {R : Region} {s : HeapState} {h : Layout}

/-- A layout in memory is a header list. -/
theorem Represents.heapList (hr : Represents R.base R.stop s h) :
    HeapList R s (h.blocks.map Block.addr) := by
  have ht := hr.wf.tiles
  have hentry := fun b hb ↦ hr.seg.entry_of_mem (b := b) hb
  have hstop : (R.stop : ℤ) = R.base + R.bytes := by
    unfold Region.stop
    omega
  have hne : h.blocks ≠ [] := by
    obtain ⟨b, hb, -⟩ := hr.wf.middle_mem
    exact List.ne_nil_of_mem hb
  obtain ⟨b, bs, hbs⟩ := List.exists_cons_of_ne_nil hne
  have hb : b.addr = R.base := by
    rw [hbs] at ht
    exact ht.1
  refine ⟨?_, ht.sorted (by omega), ?_, ?_, ?_, hr.seg.prev_head, ?_, ?_, ?_, ?_⟩
  · have hfollows := hr.seg.follows fun b hb ↦ (plain_of_tiles R.toFits ht hb).1
    rw [hr.head, ← hb]
    rw [hbs] at hfollows ⊢
    exact hfollows
  · rw [hbs, List.map_cons, List.head?_cons, hb]
  · refine Seg.isChain_map ht.isChain fun b hb c hc hbc ↦ ?_
    rw [(hentry b hb).1, hbc, Block.stop]
    push_cast
    ring
  · intro p hp
    obtain ⟨c, hc, rfl⟩ : ∃ c ∈ h.blocks.getLast?, c.addr = p := by simpa using hp
    have hlast := ht.stop_getLast? hc
    rw [(hentry c (List.mem_of_getLast? hc)).1, ← hstop, ← hlast, Block.stop]
    push_cast
    ring
  · exact Seg.isChain_map hr.seg.isChain fun _ _ _ _ hbc ↦ hbc
  · intro p hp
    obtain ⟨c, hc, rfl⟩ := List.mem_map.mp hp
    exact (hentry c hc).2.1
  · obtain ⟨c, hc, hcm⟩ := hr.wf.middle_mem
    rw [hr.middle, ← hcm]
    exact List.mem_map_of_mem hc
  · refine Seg.isChain_map hr.wf.coalesced fun b hb c hc hbc hfree ↦ hbc ?_
    rw [(hentry b hb).2.2, (hentry c hc).2.2] at hfree
    simpa using hfree

end HeapList

/-! ## Runs -/

section Runs

variable {R : Region} {c c' : Client} {h : Layout} {s : HeapState} {x : ℕ}

/-- A first `mymalloc` returns. -/
theorem Region.exists_start (hs : s.head = 0) (hx : x < 2 ^ 32) :
    ∃ c, Step R (.malloc x) ⟨s, []⟩ c := by
  have hsize : ((R.stop : ℤ) - R.base) = R.bytes := by
    unfold Region.stop
    omega
  obtain ⟨s', hm, -⟩ := mymalloc_fresh (x := x) R.toFits R.header_le R.stop_lt_fuel hs
  rw [hsize] at hm
  exact ⟨_, .malloc hx hm⟩

/-- Every later `mymalloc` returns. -/
theorem Client.Inv.exists_malloc (hi : c.Inv R h) (hx : x < 2 ^ 32) :
    ∃ c', Step R (.malloc x) c c' := by
  obtain ⟨s', hm, -⟩ :=
    mymalloc_spec (x := x) R.toFits hi.rep R.stop_lt_fuel R.base R.bytes
  exact ⟨_, .malloc hx hm⟩

/-- Over any run, the headers are one list that tiles the region, and every
`mymalloc` returns. -/
theorem reachable_heapList (R : Region) :
    (∀ s x, s.head = 0 → x < 2 ^ 32 → ∃ c, Step R (.malloc x) ⟨s, []⟩ c) ∧
      ∀ c, Reachable R c → (∃ ps, HeapList R c.heap ps) ∧
        ∀ x, x < 2 ^ 32 → ∃ c', Step R (.malloc x) c c' := by
  refine ⟨fun s x hs hx ↦ Region.exists_start hs hx, fun c hc ↦ ?_⟩
  obtain ⟨h, hi⟩ := hc.exists_inv
  exact ⟨⟨_, hi.rep.heapList⟩, fun x hx ↦ hi.exists_malloc hx⟩

/-- A region of one page at address 4096. -/
def onePage : Region := ⟨4096, 1, by decide, by decide, by decide, by decide⟩

/-- The process before its first `mymalloc`, on zeroed memory. -/
def untouched : HeapState := ⟨fun _ ↦ 0, 0, 0⟩

/-- A run over one page: 50 bytes from the front, then 200 bytes from the back of
the rest, on which `middle` is. -/
theorem exists_run_onePage :
    ∃ c, Reachable onePage c ∧ c.live = [(7992, 200), (4128, 50)] := by
  obtain ⟨s, hm, hr, -⟩ := mymalloc_fresh (x := 50) onePage.toFits onePage.header_le
    onePage.stop_lt_fuel (s := untouched) rfl
  have hp : ((Layout.fresh onePage.base onePage.stop).malloc 50).1 = 4128 := by decide
  obtain ⟨s', hm', -⟩ :=
    mymalloc_spec (x := 200) onePage.toFits hr onePage.stop_lt_fuel onePage.base onePage.bytes
  have hp' : (((Layout.fresh onePage.base onePage.stop).malloc 50).2.malloc 200).1 = 7992 := by
    decide
  rw [hp] at hm
  rw [hp'] at hm'
  have hstart : Step onePage (.malloc 50) ⟨untouched, []⟩ ⟨s, [(4128, 50)]⟩ :=
    Step.malloc (c := ⟨untouched, []⟩) (p := 4128) (by decide) hm
  have hstep : Step onePage (.malloc 200) ⟨s, [(4128, 50)]⟩ ⟨s', [(7992, 200), (4128, 50)]⟩ :=
    Step.malloc (c := ⟨s, [(4128, 50)]⟩) (p := 7992) (by decide) hm'
  exact ⟨_, .step (.start rfl hstart) hstep, rfl⟩

theorem reachable_heapList_onePage :
    (∃ c, Step onePage (.malloc 50) ⟨untouched, []⟩ c) ∧
      ∃ (c : Client) (ps : List ℕ), c.live = [(7992, 200), (4128, 50)] ∧
        HeapList onePage c.heap ps := by
  obtain ⟨c, hc, hlive⟩ := exists_run_onePage
  obtain ⟨ps, hps⟩ := ((reachable_heapList onePage).2 c hc).1
  exact ⟨(reachable_heapList onePage).1 untouched 50 rfl (by decide), c, ps, hlive, hps⟩

/-- A live payload is the payload of an allocated block that holds the request. -/
theorem Client.Inv.payload_of_mem (hi : c.Inv R h) {e : ℕ × ℕ} (he : e ∈ c.live) :
    ∃ b ∈ h.blocks, b.addr + 32 = e.1 ∧ e.2 ≤ b.size ∧
      payload c.heap.mem e.1 = Range (b.addr + 32) b.size := by
  obtain ⟨b, hb, hbe, hx⟩ := hi.alloc e he
  refine ⟨b, hb.1, hbe, hx, ?_⟩
  rw [← hbe]
  exact payload_eq hi.rep hb.1

/-- Two live payloads do not overlap. -/
theorem Client.Inv.disjoint (hi : c.Inv R h) {e f : ℕ × ℕ} (he : e ∈ c.live) (hf : f ∈ c.live)
    (hne : e.1 ≠ f.1) : Disjoint (payload c.heap.mem e.1) (payload c.heap.mem f.1) := by
  obtain ⟨b, hb, hbe, -, hpb⟩ := hi.payload_of_mem he
  obtain ⟨d, hd, hdf, -, hpd⟩ := hi.payload_of_mem hf
  have hbd : b ≠ d := by
    rintro rfl
    exact hne (hbe.symm.trans hdf)
  have hdisj := hi.rep.wf.tiles.disjoint hb hd hbd
  rw [hpb, hpd, Set.disjoint_left]
  intro a ha ha'
  rw [mem_Range] at ha ha'
  unfold Block.stop at hdisj
  omega

/-- A step that changes headers only, and only gives out or only takes back
blocks, leaves a payload live on both sides alone. -/
theorem Client.Inv.frame {h' : Layout} (hi : c.Inv R h) (hi' : c'.Inv R h')
    (hall : (∀ b, h.Allocated b → h'.Allocated b) ∨ ∀ b, h'.Allocated b → h.Allocated b)
    (hch : ChangesOnly (headers h.blocks ∪ headers h'.blocks) c.heap.mem c'.heap.mem)
    {e : ℕ × ℕ} (he : e ∈ c.live) (he' : e ∈ c'.live) :
    payload c'.heap.mem e.1 = payload c.heap.mem e.1 ∧
      ∀ a ∈ payload c.heap.mem e.1, c'.heap.mem a = c.heap.mem a := by
  obtain ⟨b, hb, hbe, -⟩ := hi.alloc e he
  obtain ⟨d, hd, hde, -⟩ := hi'.alloc e he'
  have haddr : b.addr = d.addr := by omega
  obtain rfl : b = d := by
    rcases hall with hall | hall
    · exact hi'.rep.wf.tiles.eq_of_addr (by omega) (hall b hb).1 hd.1 haddr
    · exact hi.rep.wf.tiles.eq_of_addr (by omega) hb.1 (hall d hd).1 haddr
  have hp : payload c.heap.mem e.1 = Range (b.addr + 32) b.size := by
    rw [← hbe]
    exact payload_eq hi.rep hb.1
  have hp' : payload c'.heap.mem e.1 = Range (b.addr + 32) b.size := by
    rw [← hbe]
    exact payload_eq hi'.rep hd.1
  refine ⟨hp'.trans hp.symm, fun a ha ↦ hch a ?_⟩
  rw [hp] at ha
  rintro (hold | hnew)
  · exact notMem_headers hi.rep.wf.tiles hb.1 ha hold
  · exact notMem_headers hi'.rep.wf.tiles hd.1 ha hnew

/-- `mymalloc` and `myfree` leave the payloads live before and after alone. -/
theorem Client.Inv.frame_call {op : Op} (hi : c.Inv R h) (hs : Step R op c c')
    (hop : (∃ x, op = .malloc x) ∨ ∃ p, op = .free p) {e : ℕ × ℕ} (he : e ∈ c.live)
    (he' : e ∈ c'.live) :
    payload c'.heap.mem e.1 = payload c.heap.mem e.1 ∧
      ∀ a ∈ payload c.heap.mem e.1, c'.heap.mem a = c.heap.mem a := by
  cases hs with
  | @malloc _ x _ _ hx hm =>
    obtain ⟨hi', hch⟩ := hi.malloc hm
    refine hi.frame hi' (.inl fun b hb ↦ ?_) hch he he'
    by_cases h₀ : (h.malloc x).1 = 0
    · rwa [Layout.malloc_eq_self h₀]
    · obtain ⟨d, -, -, halloc, -⟩ := hi.rep.wf.malloc_allocated h₀
      exact (halloc b).mpr (.inl hb)
  | free hp hm =>
    obtain ⟨h', hi', hall, hch, -⟩ := hi.free hp hm
    exact hi.frame hi' (.inr hall) (hch.mono Set.subset_union_left) he he'
  | write hp ha => rcases hop with ⟨x, hx⟩ | ⟨p, hp⟩ <;> contradiction
  | forget hp => rcases hop with ⟨x, hx⟩ | ⟨p, hp⟩ <;> contradiction

/-- Over any run, the live payloads hold what was asked for, inside the region,
without overlap and without headers, and the calls of the heap leave them alone. -/
theorem reachable_payloads (hc : Reachable R c) :
    (∀ e ∈ c.live, (e.2 : ℤ) ≤ (entryAt c.heap.mem (e.1 - sizeofMementry)).size ∧
        payload c.heap.mem e.1 ⊆ Range R.base R.bytes) ∧
      (c.live.Pairwise fun e f ↦
        e.1 ≠ f.1 ∧ Disjoint (payload c.heap.mem e.1) (payload c.heap.mem f.1)) ∧
      (∀ e ∈ c.live, ∀ ps, HeapList R c.heap ps → ∀ q ∈ ps,
        Disjoint (payload c.heap.mem e.1) (header q)) ∧
      ∀ op c', Step R op c c' → ((∃ x, op = .malloc x) ∨ ∃ p, op = .free p) →
        ∀ e ∈ c.live, e ∈ c'.live → payload c'.heap.mem e.1 = payload c.heap.mem e.1 ∧
          ∀ a ∈ payload c.heap.mem e.1, c'.heap.mem a = c.heap.mem a := by
  obtain ⟨h, hi⟩ := hc.exists_inv
  refine ⟨fun e he ↦ ⟨?_, ?_⟩, ?_, fun e he ps hps q hq ↦ ?_, fun op c' hs hop e he he' ↦
    hi.frame_call hs hop he he'⟩
  · obtain ⟨b, hb, hbe, hx⟩ := hi.alloc e he
    rw [← hbe, Nat.add_sub_cancel, (hi.rep.seg.entry_of_mem hb.1).1]
    exact_mod_cast hx
  · obtain ⟨b, hb, -, -, hp⟩ := hi.payload_of_mem he
    obtain ⟨hlo, hhi⟩ := hi.rep.wf.tiles.bounds hb
    rw [hp]
    intro a ha
    rw [mem_Range] at ha ⊢
    unfold Block.stop Region.stop at hhi
    omega
  · exact (List.pairwise_map.mp hi.nodup).imp_of_mem fun he hf hne ↦ ⟨hne, hi.disjoint he hf hne⟩
  · obtain ⟨b, hb, -, -, hp⟩ := hi.payload_of_mem he
    obtain rfl := hps.follows.unique hi.rep.heapList.follows
    obtain ⟨d, hd, rfl⟩ := List.mem_map.mp hq
    rw [hp, Set.disjoint_left]
    exact fun a ha ha' ↦ notMem_headers hi.rep.wf.tiles hb ha (header_subset_headers hd ha')

theorem reachable_payloads_onePage :
    ∃ c : Client, c.live = [(7992, 200), (4128, 50)] ∧
      Disjoint (payload c.heap.mem 7992) (payload c.heap.mem 4128) := by
  obtain ⟨c, hc, hlive⟩ := exists_run_onePage
  have hdisj := (reachable_payloads hc).2.1
  rw [hlive] at hdisj
  exact ⟨c, hlive, ((List.pairwise_cons.mp hdisj).1 (4128, 50) List.mem_cons_self).2⟩

end Runs

end MyPthread.Heap
