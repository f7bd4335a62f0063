import MyPthread.Heap.Release

/-!
# Runs over one heap region

A client of one region: it calls `mymalloc` and `myfree`, and writes into the
payloads it owns.  The first `mymalloc` finds `head == NULL` and sets the region
up.

The state remembers which pointers are live, with the size asked for.  A call
`myfree(p)` that is refused leaves `p` live; a client that considers it freed
all the same forgets it (`Step.forget`).
-/

namespace MyPthread.Heap

open MyPthread.Lib

/-- A region of `4096 * pages` bytes at `base`, of a size the manager creates. -/
structure Region where
  base : ℕ
  pages : ℕ
  base_pos : 0 < base
  one_le : 1 ≤ pages
  pages_le : pages ≤ 1596
  fits : base + 4096 * pages ≤ 2 ^ 64

namespace Region

variable (R : Region)

/-- The size of the region in bytes. -/
def bytes : ℕ := 4096 * R.pages

/-- The first address after the region. -/
def stop : ℕ := R.base + R.bytes

theorem toFits : Fits R.base R.stop where
  pos := R.base_pos
  addr := R.fits
  size := by
    have := R.pages_le
    unfold stop bytes
    omega

theorem header_le : R.base + 32 ≤ R.stop := by
  have := R.one_le
  unfold stop bytes
  omega

end Region

/-- Rounds enough for every list of a region of 1596 pages. -/
def heapFuel : ℕ := 262144

theorem Region.stop_lt_fuel (R : Region) : R.stop < R.base + 32 * heapFuel := by
  have := R.pages_le
  unfold Region.stop Region.bytes heapFuel
  omega

/-- The heap and the pointers its client owns, with the sizes it asked for. -/
structure Client where
  heap : HeapState
  live : List (ℕ × ℕ)

/-- The bytes from `p` to the end of its block. -/
def payload (m : Mem) (p : ℕ) : Set ℕ :=
  Range p (entryAt m (p - sizeofMementry)).size.toNat

/-- What a client does. -/
inductive Op where
  | malloc (x : ℕ)
  | free (p : ℕ)
  | write (a : ℕ) (v : UInt8)
  | forget (p : ℕ)
deriving DecidableEq, Repr

/-- One operation of a client of `R`. -/
inductive Step (R : Region) : Op → Client → Client → Prop where
  /-- `mymalloc(x)` for a 32-bit `x`. -/
  | malloc {c : Client} {x p : ℕ} {s : HeapState} : x < 2 ^ 32 →
      mymalloc heapFuel x R.base R.bytes c.heap = some (p, s) →
      Step R (.malloc x) c ⟨s, if p = 0 then c.live else (p, x) :: c.live⟩
  /-- `myfree(p)` of a live pointer. -/
  | free {c : Client} {p x : ℕ} {o : FreeOutcome} {s : HeapState} : (p, x) ∈ c.live →
      myfree p c.heap = (o, s) →
      Step R (.free p) c ⟨s, if o = .released then c.live.erase (p, x) else c.live⟩
  /-- A store into a live payload. -/
  | write {c : Client} {p x a : ℕ} {v : UInt8} : (p, x) ∈ c.live → a ∈ payload c.heap.mem p →
      Step R (.write a v) c ⟨{ c.heap with mem := setByte c.heap.mem a v }, c.live⟩
  /-- The client gives a pointer up without telling the heap. -/
  | forget {c : Client} {p x : ℕ} : (p, x) ∈ c.live →
      Step R (.forget p) c ⟨c.heap, c.live.erase (p, x)⟩

/-- The states of the runs over `R`: a first `mymalloc` on any memory, with
`head == NULL`, and then any operations. -/
inductive Reachable (R : Region) : Client → Prop where
  | start {s : HeapState} {x : ℕ} {c : Client} : s.head = 0 →
      Step R (.malloc x) ⟨s, []⟩ c → Reachable R c
  | step {op : Op} {c c' : Client} : Reachable R c → Step R op c c' → Reachable R c'

/-! ## The invariant of a run -/

/-- The heap is a layout, and the live pointers are distinct allocated blocks
that hold what was asked for. -/
structure Client.Inv (R : Region) (c : Client) (h : Layout) : Prop where
  rep : Represents R.base R.stop c.heap h
  alloc : ∀ e ∈ c.live, ∃ b, h.Allocated b ∧ b.addr + 32 = e.1 ∧ e.2 ≤ b.size
  nodup : (c.live.map Prod.fst).Nodup

section Payload

variable {lo hi : ℕ} {s : HeapState} {h : Layout} {b c : Block} {S : Set ℕ} {m : Mem}

theorem payload_eq (hr : Represents lo hi s h) (hb : b ∈ h.blocks) :
    payload s.mem (b.addr + 32) = Range (b.addr + 32) b.size := by
  rw [payload, Nat.add_sub_cancel, (hr.seg.entry_of_mem hb).1, Int.toNat_natCast]

/-- A payload of a tiling has no header byte in it. -/
theorem notMem_headers (ht : Tiles 32 lo h.blocks hi) (hb : b ∈ h.blocks) {x : ℕ}
    (hx : x ∈ Range (b.addr + 32) b.size) : x ∉ headers h.blocks := by
  rintro ⟨c, hc, hxc⟩
  rw [mem_Range] at hx
  rw [mem_header] at hxc
  by_cases hbc : b = c
  · subst hbc
    omega
  · have := ht.disjoint hb hc hbc
    unfold Block.stop at this
    omega

/-- Writing no header and no `middle` keeps the layout. -/
theorem Represents.congr (hr : Represents lo hi s h) (hch : ChangesOnly S s.mem m)
    (hS : ∀ x ∈ headers h.blocks, x ∉ S) : Represents lo hi { s with mem := m } h where
  wf := hr.wf
  head := hr.head
  middle := hr.middle
  seg := hr.seg.congr fun _ hb ↦
    entryAt_of_changesOnly hch fun x hx ↦ hS x (header_subset_headers hb hx)

/-- A list of blocks has its headers in its region. -/
theorem headers_subset {n : ℕ} (ht : Tiles 32 lo h.blocks hi) (hn : hi = lo + n) :
    headers h.blocks ⊆ Range lo n := by
  rintro y ⟨b, hb, hy⟩
  have hbounds := ht.bounds hb
  rw [mem_header] at hy
  rw [mem_Range]
  unfold Block.stop at hbounds
  omega

/-- A heap is the same in two memories that agree on its region. -/
theorem Represents.of_agree (hr : Represents lo hi s h)
    (hagree : ∀ a, lo ≤ a → a < hi → m a = s.mem a) : Represents lo hi { s with mem := m } h := by
  refine hr.congr (S := {a | ¬(lo ≤ a ∧ a < hi)}) ?_ ?_
  · intro a ha
    rw [Set.mem_ofPred_eq, not_not] at ha
    exact hagree a ha.1 ha.2
  · intro a ha hnot
    have hle := hr.wf.tiles.le
    have hmem := headers_subset hr.wf.tiles (show hi = lo + (hi - lo) by omega) ha
    rw [mem_Range] at hmem
    exact hnot ⟨hmem.1, by omega⟩

/-- A list of headers is one list of blocks. -/
theorem Seg.unique {prev prev' : ℕ} {bs cs : List Block} (hb : Seg m prev bs 0)
    (hc : Seg m prev' cs 0) (hhead : headAddr bs 0 = headAddr cs 0) (hbs : ∀ b ∈ bs, b.addr ≠ 0)
    (hcs : ∀ b ∈ cs, b.addr ≠ 0) : bs = cs := by
  induction bs generalizing prev prev' cs with
  | nil =>
    cases cs with
    | nil => rfl
    | cons c cs => exact absurd hhead.symm (hcs c List.mem_cons_self)
  | cons b bs ih =>
    cases cs with
    | nil => exact absurd hhead (hbs b List.mem_cons_self)
    | cons c cs =>
      have haddr : b.addr = c.addr := hhead
      obtain ⟨hentry, hb⟩ := hb
      obtain ⟨hentry', hc⟩ := hc
      rw [haddr] at hentry
      have heq := hentry.symm.trans hentry'
      simp only [entryOf, Mementry.mk.injEq, Nat.cast_inj] at heq
      obtain ⟨hsize, -, hfree, hnext, -⟩ := heq
      have hbc : b = c := by
        obtain ⟨addr, size, free⟩ := b
        obtain ⟨addr', size', free'⟩ := c
        cases free <;> cases free' <;> simp_all
      rw [hbc, ih hb hc hnext (fun d hd ↦ hbs d (List.mem_cons_of_mem b hd))
        fun d hd ↦ hcs d (List.mem_cons_of_mem c hd)]

/-- A heap has one layout. -/
theorem Represents.unique {h' : Layout} (hlo : 0 < lo) (hr : Represents lo hi s h)
    (hr' : Represents lo hi s h') : h = h' := by
  have hpos : ∀ {h}, Represents lo hi s h → ∀ b ∈ h.blocks, b.addr ≠ 0 := by
    intro h hr b hb
    have hle := (hr.wf.tiles.bounds hb).1
    omega
  have hhead : ∀ {h}, Represents lo hi s h → headAddr h.blocks 0 = lo := by
    intro h hr
    obtain ⟨d, hd, -⟩ := hr.wf.middle_mem
    have ht := hr.wf.tiles
    cases hbs : h.blocks with
    | nil =>
      rw [hbs] at hd
      cases hd
    | cons b bs =>
      rw [hbs] at ht
      exact ht.1
  refine Layout.ext ?_ (hr.middle.symm.trans hr'.middle)
  exact hr.seg.unique hr'.seg ((hhead hr).trans (hhead hr').symm) (hpos hr) (hpos hr')

end Payload

section Steps

variable {R : Region} {c c' : Client} {h : Layout} {x p : ℕ} {s : HeapState}

/-- What a `mymalloc` does to a run's state. -/
theorem Client.Inv.malloc (hi : c.Inv R h)
    (hm : mymalloc heapFuel x R.base R.bytes c.heap = some (p, s)) :
    Client.Inv R ⟨s, if p = 0 then c.live else (p, x) :: c.live⟩ (h.malloc x).2 ∧
      ChangesOnly (headers h.blocks ∪ headers (h.malloc x).2.blocks) c.heap.mem s.mem := by
  obtain ⟨s', hm', hr, hch⟩ := mymalloc_spec (x := x) R.toFits hi.rep R.stop_lt_fuel R.base R.bytes
  obtain ⟨rfl, rfl⟩ : p = (h.malloc x).1 ∧ s = s' := by
    rw [hm'] at hm
    simpa [eq_comm] using hm
  refine ⟨⟨hr, ?_, ?_⟩, hch⟩
  · intro e he
    by_cases h₀ : (h.malloc x).1 = 0
    · rw [if_pos h₀] at he
      rw [Layout.malloc_eq_self h₀]
      exact hi.alloc e he
    · obtain ⟨b, hb, hx, halloc, -⟩ := hi.rep.wf.malloc_allocated h₀
      rw [if_neg h₀, List.mem_cons] at he
      rcases he with rfl | he
      · exact ⟨b, (halloc b).mpr (.inr rfl), hb, hx⟩
      · obtain ⟨d, hd, hrest⟩ := hi.alloc e he
        exact ⟨d, (halloc d).mpr (.inl hd), hrest⟩
  · by_cases h₀ : (h.malloc x).1 = 0
    · rw [if_pos h₀]
      exact hi.nodup
    · rw [if_neg h₀, List.map_cons, List.nodup_cons]
      refine ⟨fun hmem ↦ ?_, hi.nodup⟩
      obtain ⟨b, hb, -, -, hfresh⟩ := hi.rep.wf.malloc_allocated h₀
      obtain ⟨e, he, hep⟩ := List.mem_map.mp hmem
      obtain ⟨d, hd, hda, -⟩ := hi.alloc e he
      have := hfresh d hd
      omega

/-- What a `myfree` of a live pointer does to a run's state. -/
theorem Client.Inv.free (hi : c.Inv R h) (hp : (p, x) ∈ c.live) {o : FreeOutcome}
    (hm : myfree p c.heap = (o, s)) :
    ∃ h', Client.Inv R ⟨s, if o = .released then c.live.erase (p, x) else c.live⟩ h' ∧
      (∀ b, h'.Allocated b → h.Allocated b) ∧
      ChangesOnly (headers h.blocks) c.heap.mem s.mem ∧
      ∀ b, h.Allocated b → h'.Allocated b ∨ o = .released ∧ b.addr + 32 = p := by
  obtain ⟨b, hb, hbp, -⟩ := hi.alloc _ hp
  have hbp' : b.addr + 32 = p := hbp
  subst hbp'
  by_cases hle : b.addr + 32 ≤ R.base + 4999
  · obtain ⟨s', hm', hr, hch⟩ := myfree_released R.toFits hi.rep hb hle
    obtain ⟨rfl, rfl⟩ : o = .released ∧ s = s' := by
      rw [hm'] at hm
      simpa [eq_comm] using hm
    rw [if_pos rfl]
    refine ⟨_, ⟨hr, fun e he ↦ ?_, ?_⟩, fun d hd ↦ (Layout.WF.allocated_release.mp hd).1, hch,
      fun d hd ↦ ?_⟩
    · obtain ⟨d, hd, hda, hdx⟩ := hi.alloc e (List.mem_of_mem_erase he)
      refine ⟨d, Layout.WF.allocated_release.mpr ⟨hd, fun hdb ↦ ?_⟩, hda, hdx⟩
      -- a second live entry for the pointer released would repeat it
      have hnd : c.live.Nodup := List.Nodup.of_map _ hi.nodup
      have hne : e ≠ (b.addr + 32, x) := fun heq ↦ by
        rw [heq] at he
        exact hnd.not_mem_erase he
      exact hne (List.inj_on_of_nodup_map hi.nodup (List.mem_of_mem_erase he) hp (by
        show e.1 = b.addr + 32
        omega))
    · exact hi.nodup.sublist ((List.erase_sublist).map _)
    · by_cases hdb : d.addr = b.addr
      · exact .inr ⟨rfl, by rw [hdb]⟩
      · exact .inl (Layout.WF.allocated_release.mpr ⟨hd, hdb⟩)
  · have hm' := myfree_outOfBounds (b := b) hi.rep (by omega)
    obtain ⟨rfl, rfl⟩ : o = .outOfBounds ∧ s = c.heap := by
      rw [hm'] at hm
      simpa [eq_comm] using hm
    rw [if_neg (by decide)]
    exact ⟨h, hi, fun _ hb ↦ hb, ChangesOnly.refl _ _, fun _ hb ↦ .inl hb⟩

/-- A store into a live payload changes no header. -/
theorem Client.Inv.write (hi : c.Inv R h) (hp : (p, x) ∈ c.live) {a : ℕ} {v : UInt8}
    (ha : a ∈ payload c.heap.mem p) :
    Client.Inv R ⟨{ c.heap with mem := setByte c.heap.mem a v }, c.live⟩ h := by
  obtain ⟨b, hb, hbp, -⟩ := hi.alloc _ hp
  have hbp' : b.addr + 32 = p := hbp
  subst hbp'
  rw [payload_eq hi.rep hb.1] at ha
  refine ⟨hi.rep.congr (S := {a}) (fun y hy ↦ setByte_of_ne hy) fun y hy hya ↦ ?_,
    hi.alloc, hi.nodup⟩
  exact notMem_headers hi.rep.wf.tiles hb.1 ha ((show y = a from hya) ▸ hy)

/-- Every operation keeps the invariant. -/
theorem Client.Inv.step {op : Op} (hi : c.Inv R h) (hs : Step R op c c') :
    ∃ h', c'.Inv R h' := by
  cases hs with
  | malloc hx hm => exact ⟨_, (hi.malloc hm).1⟩
  | free hp hm =>
    obtain ⟨h', hi', -⟩ := hi.free hp hm
    exact ⟨h', hi'⟩
  | write hp ha => exact ⟨h, hi.write hp ha⟩
  | forget hp =>
    exact ⟨h, hi.rep, fun e he ↦ hi.alloc e (List.mem_of_mem_erase he),
      hi.nodup.sublist ((List.erase_sublist).map _)⟩

/-- The first `mymalloc` begins with a heap that is set up. -/
theorem Region.exists_first (R : Region) (hs : s.head = 0) :
    ∃ s₁, Client.Inv R ⟨s₁, []⟩ (Layout.fresh R.base R.stop) ∧
      ChangesOnly (headers (Layout.fresh R.base R.stop).blocks) s.mem s₁.mem ∧
      ∀ x, mymalloc heapFuel x R.base R.bytes s = mymalloc heapFuel x R.base R.bytes s₁ := by
  obtain ⟨s₁, hinit, hr, hch⟩ := initHead_spec (s := s) R.toFits R.header_le
  have hsize : ((R.stop : ℤ) - R.base) = R.bytes := by
    unfold Region.stop
    omega
  have hhead : ¬s₁.head = 0 := by
    have := R.base_pos
    rw [hr.head]
    omega
  rw [hsize] at hinit
  refine ⟨s₁, ⟨hr, fun e he ↦ (List.not_mem_nil he).elim, List.nodup_nil⟩, hch, fun x ↦ ?_⟩
  rw [mymalloc, if_pos hs, hinit, mymalloc, if_neg hhead]

theorem Client.Inv.start (hs : s.head = 0) (hm : Step R (.malloc x) ⟨s, []⟩ c) :
    ∃ h, c.Inv R h := by
  cases hm with
  | @malloc _ _ p s' hx hm =>
    obtain ⟨s₁, hi, -, heq⟩ := R.exists_first hs
    rw [heq] at hm
    exact ⟨_, (hi.malloc hm).1⟩

/-- Every state of every run satisfies the invariant. -/
theorem Reachable.exists_inv (hc : Reachable R c) : ∃ h, c.Inv R h := by
  induction hc with
  | start hs hm => exact Client.Inv.start hs hm
  | step _ hs ih =>
    obtain ⟨h, hi⟩ := ih
    exact hi.step hs

end Steps

end MyPthread.Heap
