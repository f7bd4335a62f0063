import MyPthread.Heap.Frees
import MyPthread.Heap.Inner

/-!
# Stale pointers

`myfree` knows a pointer that it may release by the words `code` and `free` of the header before
it.  The header of a block that is merged is not erased: a second free of its pointer finds
`free` set.  Later headers are written at any distance from it.  One that begins more than seven
bytes before it or six behind it, and reaches these words, can change `free` and leave `code`.
-/

namespace MyPthread.Heap

open MyPthread.Lib

variable {lo hi a t x p : ℕ} {m m' : Mem} {s s' : HeapState} {h : Layout} {b c : Block}
  {bs bs' : List Block}

/-- `myfree` takes the bytes at `a` for the header of an allocated block. -/
def Accepts (m : Mem) (a : ℕ) : Prop := (entryAt m a).code = mycode ∧ (entryAt m a).free ≠ 1

/-- A pointer whose header is not accepted is refused. -/
theorem myfree_of_not_accepts (h : ¬Accepts s.mem (p - 32)) :
    ∃ o, o ≠ .released ∧ myfree p s = (o, s) := by
  by_cases hbounds : p < s.head + sizeofMementry ∨ s.head + 4999 < p
  · exact ⟨.outOfBounds, by rintro ⟨⟩, by rw [myfree, if_pos hbounds]⟩
  · rw [myfree, if_neg hbounds]
    by_cases hcode : (entryAt s.mem (p - sizeofMementry)).code = mycode
    · have hfree : (entryAt s.mem (p - sizeofMementry)).free = 1 := by
        by_contra hfree
        exact h ⟨hcode, hfree⟩
      exact ⟨.doubleFree, by rintro ⟨⟩, by simp only [if_pos hcode, if_pos hfree]⟩
    · exact ⟨.notAllocated, by rintro ⟨⟩, by simp only [if_neg hcode]⟩

/-! ## Words -/

/-- The bytes of the words `code` and `free` of the header at `a`. -/
def words (a : ℕ) : Set ℕ := Range (a + 4) 8

theorem accepts_congr (h : ∀ x ∈ words a, m' x = m x) : Accepts m' a ↔ Accepts m a := by
  have hread : ∀ o, 4 ≤ o → o ≤ 8 → readLE m' (a + o) 4 = readLE m (a + o) 4 := by
    intro o ho ho'
    refine readLE_congr fun i hi ↦ h _ (mem_Range.mpr ?_)
    omega
  simp only [Accepts, entryAt, hread 4 (le_refl 4) (by omega), hread 8 (by omega) (le_refl 8)]

theorem readLE_four (m : Mem) (a : ℕ) : readLE m a 4 = (m a).toNat + 256 * (m (a + 1)).toNat +
    65536 * (m (a + 2)).toNat + 16777216 * (m (a + 3)).toNat := by
  simp only [readLE, Nat.add_assoc, Nat.reduceAdd]
  omega

/-- The words of a header of a block of less than 4096 bytes. -/
structure HeaderAt (m : Mem) (t : ℕ) : Prop where
  size : readLE m t 4 < 4096
  code : readLE m (t + 4) 4 = 1234567890
  free : readLE m (t + 8) 4 ≤ 1

/-- Under a header that begins close to `a` the word `code` at `a` is not `mycode`. -/
theorem HeaderAt.not_accepts (h : HeaderAt m t) (hne : t ≠ a) (hbefore : a ≤ t + 7)
    (hbehind : t ≤ a + 6) : ¬Accepts m a := by
  rintro ⟨hcode, -⟩
  have hword : readLE m (a + 4) 4 = 1234567890 := by
    have hlt := readLE_lt m (a + 4) 4
    change toI32 (readLE m (a + 4) 4) = 1234567890 at hcode
    unfold toI32 at hcode
    omega
  obtain ⟨hsize, hcode', hfree⟩ := h
  rw [readLE_four] at hsize hcode' hfree hword
  have hbyte : ∀ x, (m x).toNat < 256 := fun x ↦ (m x).toNat_lt
  have ha := hbyte (a + 4)
  have ha₁ := hbyte (a + 5)
  have ha₂ := hbyte (a + 6)
  have ha₃ := hbyte (a + 7)
  have ht := hbyte (t + 4)
  have ht₁ := hbyte (t + 5)
  have ht₂ := hbyte (t + 6)
  have ht₃ := hbyte (t + 7)
  simp only [Nat.add_assoc, Nat.reduceAdd] at hsize hcode' hfree hword
  rcases Nat.lt_or_ge t a with hlt | hge
  · obtain ⟨d, rfl⟩ := Nat.exists_eq_add_of_lt hlt
    have hd : d < 7 := by omega
    interval_cases d <;> simp only [Nat.add_assoc, Nat.reduceAdd] at * <;> omega
  · obtain ⟨d, rfl⟩ := Nat.exists_eq_add_of_le hge
    have hd : d ≤ 6 := by omega
    have hd₀ : 0 < d := by omega
    interval_cases d <;> simp only [Nat.add_assoc, Nat.reduceAdd] at * <;> omega

/-- The header at `t` and the words of the one at `a` do not meet, or `t` is close to `a`. -/
def Clear (t a : ℕ) : Prop := a ≤ t + 7 ∧ t ≤ a + 6 ∨ a + 12 ≤ t ∨ t + 28 ≤ a

instance (t a : ℕ) : Decidable (Clear t a) := inferInstanceAs (Decidable (_ ∨ _))

theorem clear_of_apart (h : Apart t a) : Clear t a := by
  unfold Apart at h
  unfold Clear
  omega

/-- A header that is no longer in the list. -/
structure Dropped (m : Mem) (a : ℕ) : Prop extends HeaderAt m a where
  released : (entryAt m a).free = 1

theorem Dropped.not_accepts (h : Dropped m a) : ¬Accepts m a := fun hacc ↦ hacc.2 h.released

theorem Dropped.congr (h : Dropped m a) (heq : ∀ x ∈ header a, m' x = m x) : Dropped m' a := by
  have hread : ∀ o, o ≤ 8 → readLE m' (a + o) 4 = readLE m (a + o) 4 := fun o ho ↦
    readLE_congr fun i hi ↦ heq _ (mem_header.mpr (by omega))
  have hzero := hread 0 (Nat.zero_le 8)
  rw [Nat.add_zero] at hzero
  refine ⟨⟨?_, ?_, ?_⟩, ?_⟩
  · rw [hzero]
    exact h.size
  · rw [hread 4 (by omega)]
    exact h.code
  · rw [hread 8 (le_refl 8)]
    exact h.free
  · rw [entryAt_congr heq]
    exact h.released

/-! ## One old header -/

/-- A pointer that was returned for a header at `a` is refused, unless there is a block at `a`
again; and it stays so while the headers that there are do not change. -/
structure Guarded (m : Mem) (bs : List Block) (a : ℕ) : Prop where
  clear : ∀ b ∈ bs, Clear b.addr a
  refused : (∃ b ∈ bs, b.addr = a) ∨ ¬Accepts m a

theorem Guarded.of_mem (ht : Tiles 32 lo bs hi) (hb : b ∈ bs) : Guarded m bs b.addr := by
  refine ⟨fun c hc ↦ ?_, .inl ⟨b, hb, rfl⟩⟩
  by_cases hcb : c = b
  · subst hcb
    exact .inl ⟨Nat.le_add_right _ _, Nat.le_add_right _ _⟩
  · apply clear_of_apart
    rcases ht.disjoint hc hb hcb with hlt | hlt
    · exact .inl ((Nat.le_add_right _ _).trans hlt)
    · exact .inr ((Nat.le_add_right _ _).trans hlt)

/-- What is written to the headers of the list before or after a step guards the pointer if the
headers are clear of the old one, and those that leave the list were released. -/
theorem Guarded.step (hg : Guarded m bs a) (hclear : ∀ b ∈ bs', Clear b.addr a)
    (hin : ∀ b ∈ bs', HeaderAt m' b.addr)
    (hout : ∀ b ∈ bs, (∃ b' ∈ bs', b'.addr = b.addr) ∨ Dropped m' b.addr)
    (hch : ChangesOnly (headers bs ∪ headers bs') m m') : Guarded m' bs' a := by
  refine ⟨hclear, ?_⟩
  by_cases hreal : ∃ b ∈ bs', b.addr = a
  · exact .inl hreal
  · refine .inr ?_
    by_cases hmeet : ∃ x ∈ words a, x ∈ headers bs ∪ headers bs'
    · obtain ⟨x, hx, hxh⟩ := hmeet
      -- the header over the words of the old one is close to it
      obtain ⟨t, hxt, hcl, hheader⟩ : ∃ t, x ∈ header t ∧ Clear t a ∧
          (Dropped m' t ∨ t ≠ a ∧ HeaderAt m' t) := by
        rcases hxh with ⟨b, hb, hxb⟩ | ⟨b, hb, hxb⟩
        · refine ⟨b.addr, hxb, hg.clear b hb, ?_⟩
          rcases hout b hb with ⟨b', hb', haddr⟩ | hdrop
          · rw [← haddr]
            exact .inr ⟨fun heq ↦ hreal ⟨b', hb', heq⟩, hin b' hb'⟩
          · exact .inl hdrop
        · exact ⟨b.addr, hxb, hclear b hb, .inr ⟨fun heq ↦ hreal ⟨b, hb, heq⟩, hin b hb⟩⟩
      have hnear : a ≤ t + 7 ∧ t ≤ a + 6 := by
        rw [words, mem_Range] at hx
        rw [mem_header] at hxt
        unfold Clear at hcl
        omega
      rcases hheader with hdrop | ⟨hne, hheader⟩
      · by_cases hta : t = a
        · subst hta
          exact hdrop.not_accepts
        · exact hdrop.toHeaderAt.not_accepts hta hnear.1 hnear.2
      · exact hheader.not_accepts hne hnear.1 hnear.2
    · rw [accepts_congr fun x hx ↦ hch x fun hxh ↦ hmeet ⟨x, hx, hxh⟩]
      rcases hg.refused with ⟨b, hb, rfl⟩ | hacc
      · refine absurd ⟨b.addr + 4, ?_, .inl ⟨b, hb, ?_⟩⟩ hmeet
        · exact mem_Range.mpr ⟨le_refl _, Nat.lt_add_of_pos_right (by decide)⟩
        · exact mem_header.mpr ⟨Nat.le_add_right _ _, Nat.add_lt_add_left (by decide) _⟩
      · exact hacc

/-! ## The headers of a page -/

/-- The headers of the blocks of one page. -/
theorem Seg.headerAt {prev next : ℕ} (hs : Seg m prev bs next) (ht : Tiles 32 lo bs hi)
    (hpage : hi ≤ lo + 4096) (hb : b ∈ bs) : HeaderAt m b.addr := by
  obtain ⟨hsize, hcode, hfree⟩ := hs.entry_of_mem hb
  obtain ⟨hlo, hhi⟩ := ht.bounds hb
  rw [Block.stop] at hhi
  have h₀ := readLE_lt m b.addr 4
  have h₁ := readLE_lt m (b.addr + 4) 4
  have h₂ := readLE_lt m (b.addr + 8) 4
  change toI32 (readLE m b.addr 4) = b.size at hsize
  change toI32 (readLE m (b.addr + 4) 4) = 1234567890 at hcode
  change toI32 (readLE m (b.addr + 8) 4) = _ at hfree
  unfold toI32 at hsize hcode hfree
  refine ⟨by omega, by omega, ?_⟩
  cases hbf : b.free
  all_goals
    simp only [hbf, Bool.false_eq_true, if_true, if_false] at hfree
    omega

theorem Seg.dropped {prev next : ℕ} (hs : Seg m prev bs next) (ht : Tiles 32 lo bs hi)
    (hpage : hi ≤ lo + 4096) (hb : b ∈ bs) (hfree : b.free = true) : Dropped m b.addr := by
  refine ⟨hs.headerAt ht hpage hb, ?_⟩
  rw [(hs.entry_of_mem hb).2.2, hfree]
  rfl

/-- The headers of a list that are no longer in it. -/
def Leaves (bs₀ : List Block) (s : HeapState) (bs : List Block) : Prop :=
  (∀ b ∈ bs, ∃ b₀ ∈ bs₀, b₀.addr = b.addr) ∧
    ∀ b₀ ∈ bs₀, (∃ b ∈ bs, b.addr = b₀.addr) ∨ Dropped s.mem b₀.addr

/-- A header that is fused away stays as it is. -/
theorem fuseStable_leaves (hf : Fits lo hi) (hpage : hi ≤ lo + 4096) {bs₀ : List Block}
    (ht₀ : Tiles 32 lo bs₀ hi) : FuseStable lo hi x (Leaves bs₀) := by
  rintro s s' pre c d post hl hcf hdf hmem ⟨hsub, hdrop⟩
  have hch := (seg_fuse hf hl.tiles hl.seg hcf Set.subset_union_left
    (Set.subset_union_right (s := header c.addr) (t := linkHeader (headAddr post 0)))).2
  rw [← hmem] at hch
  -- the headers that are written belong to blocks that stay
  have hstay : ∀ b₀ ∈ bs₀, (¬∃ b ∈ pre ++ Lib.fuse 32 c d :: post, b.addr = b₀.addr) →
      ∀ y ∈ header b₀.addr, s'.mem y = s.mem y := by
    intro b₀ hb₀ hgone y hy
    have hapart : ∀ b ∈ pre ++ Lib.fuse 32 c d :: post, (∃ b₁ ∈ bs₀, b₁.addr = b.addr) →
        y ∉ header b.addr := by
      rintro b hb ⟨b₁, hb₁, haddr⟩ hyb
      have hne : b₁ ≠ b₀ := by
        rintro rfl
        exact hgone ⟨b, hb, haddr.symm⟩
      rw [← haddr, mem_header] at hyb
      rw [mem_header] at hy
      rcases ht₀.disjoint hb₁ hb₀ hne with hlt | hlt <;>
        · rw [Block.stop] at hlt
          omega
    refine hch y ?_
    rintro (hyc | ⟨hn, hyn⟩)
    · exact hapart (Lib.fuse 32 c d) (by simp) (hsub c (by simp)) hyc
    · cases post with
      | nil => exact hn rfl
      | cons e es => exact hapart e (by simp) (hsub e (by simp)) hyn
  refine ⟨fun b hb ↦ ?_, fun b₀ hb₀ ↦ ?_⟩
  · rw [List.mem_append, List.mem_cons] at hb
    rcases hb with hb | rfl | hb
    · exact hsub b (by simp [hb])
    · exact hsub c (by simp)
    · exact hsub b (by simp [hb])
  · by_cases hgone : ∃ b ∈ pre ++ Lib.fuse 32 c d :: post, b.addr = b₀.addr
    · exact .inl hgone
    · refine .inr (Dropped.congr ?_ (hstay b₀ hb₀ hgone))
      rcases hdrop b₀ hb₀ with ⟨b, hb, haddr⟩ | hd
      · rw [List.mem_append, List.mem_cons, List.mem_cons] at hb
        rcases hb with hb | rfl | rfl | hb
        · exact absurd ⟨b, by simp [hb], haddr⟩ hgone
        · exact absurd ⟨Lib.fuse 32 b d, by simp, haddr⟩ hgone
        · rw [← haddr]
          exact hl.seg.dropped hl.tiles hpage (by simp) hdf
        · exact absurd ⟨b, by simp [hb], haddr⟩ hgone
      · exact hd

/-- The headers that a release leaves behind. -/
theorem myfree_leaves (hf : Fits lo hi) (hpage : hi ≤ lo + 4096) (hr : Represents lo hi s h)
    (hb : h.Allocated b) : ∃ s', myfree (b.addr + 32) s = (.released, s') ∧
      Represents lo hi s' (h.release b.addr) ∧ ChangesOnly (headers h.blocks) s.mem s'.mem ∧
      Leaves h.blocks s' (h.release b.addr).blocks := by
  obtain ⟨hlo, hhi⟩ := hr.wf.tiles.bounds hb.1
  rw [Block.stop] at hhi
  have hle : b.addr + 32 ≤ lo + 4999 := by omega
  have hmark : ∀ c ∈ mark b.addr h.blocks, ∃ c₀ ∈ h.blocks, c₀.addr = c.addr := by
    rintro c hc
    obtain ⟨c₀, hc₀, rfl⟩ := List.mem_map.mp hc
    exact ⟨c₀, hc₀, by split <;> rfl⟩
  have hstart : Leaves h.blocks { s with mem := setFree s.mem b.addr 1 }
    (mark b.addr h.blocks) := by
    refine ⟨hmark, fun c hc ↦ .inl ⟨_, List.mem_map.mpr ⟨c, hc, rfl⟩, ?_⟩⟩
    split <;> rfl
  obtain ⟨s', hs, hr', hch⟩ := myfree_released hf hr hb hle
  obtain ⟨s₁, hs₁, -, hleaves⟩ := myfree_rule hf (fuseStable_leaves hf hpage hr.wf.tiles) hr hb hle
    hstart
  obtain ⟨-, rfl⟩ := Prod.mk.inj (hs.symm.trans hs₁)
  exact ⟨s', hs, hr', hch, hleaves⟩

/-! ## New headers -/

namespace Layout

/-- Where the header of a new block is written, if there is one: behind the bytes handed out, or
before them when they are the back of a block. -/
def placed (x : ℕ) (h : Layout) : Option ℕ :=
  (h.search x).bind fun (side, b) ↦
    if x + 32 < b.size then
      some (if side = .left then b.addr + 32 + (b.size - x - 32) else b.addr + 32 + x)
    else none

theorem addr_of_mem_carve {side : Side} (hc : c ∈ carve side x b) : c.addr = b.addr ∨
    x + 32 < b.size ∧
      c.addr = if side = .left then b.addr + 32 + (b.size - x - 32) else b.addr + 32 + x := by
  by_cases hx : x + 32 < b.size
  · by_cases hside : side = .left
    · subst hside
      rw [carve_back hx, List.mem_cons, List.mem_singleton] at hc
      rcases hc with rfl | rfl
      · exact .inl rfl
      · exact .inr ⟨hx, rfl⟩
    · rw [carve_front hside hx, List.mem_cons, List.mem_singleton] at hc
      rw [if_neg hside]
      rcases hc with rfl | rfl
      · exact .inl rfl
      · exact .inr ⟨hx, rfl⟩
  · rw [carve_whole hx, List.mem_singleton] at hc
    subst hc
    exact .inl rfl

theorem exists_mem_carve (side : Side) (x : ℕ) (b : Block) :
    ∃ c ∈ carve side x b, c.addr = b.addr := by
  have ht : Tiles 32 b.addr (carve side x b) (b.stop 32) := tiles_carve
  cases hcs : carve side x b with
  | nil =>
    have hmem : taken side x b ∈ carve side x b := taken_mem_carve
    rw [hcs] at hmem
    cases hmem
  | cons c cs =>
    rw [hcs] at ht
    exact ⟨c, List.mem_cons_self, ht.1⟩

/-- An allocation keeps the headers there are, and makes at most one. -/
theorem WF.malloc_addrs (hw : h.WF lo hi) (x : ℕ) :
    (∀ b ∈ h.blocks, ∃ c ∈ (h.malloc x).2.blocks, c.addr = b.addr) ∧
      ∀ c ∈ (h.malloc x).2.blocks,
        (∃ b ∈ h.blocks, b.addr = c.addr) ∨ h.placed x = some c.addr := by
  cases hs : h.search x with
  | none =>
    rw [malloc_of_search_none hs]
    exact ⟨fun b hb ↦ ⟨b, hb, rfl⟩, fun c hc ↦ .inl ⟨c, hc, rfl⟩⟩
  | some found =>
    obtain ⟨side, b⟩ := found
    obtain ⟨hb, -⟩ := search_some hs
    obtain ⟨pre, post, heq, hpre⟩ := hw.exists_split hb
    rw [malloc_of_search hs, Layout.take, heq, subst_append hpre]
    simp only [List.mem_append, List.mem_cons]
    constructor
    · rintro d (hd | rfl | hd)
      · exact ⟨d, .inl hd, rfl⟩
      · obtain ⟨c, hc, haddr⟩ := exists_mem_carve side x d
        exact ⟨c, .inr (.inl hc), haddr⟩
      · exact ⟨d, .inr (.inr hd), rfl⟩
    · rintro c (hc | hc | hc)
      · exact .inl ⟨c, .inl hc, rfl⟩
      · rcases addr_of_mem_carve hc with haddr | ⟨hx, haddr⟩
        · exact .inl ⟨b, .inr (.inl rfl), haddr.symm⟩
        · right
          rw [placed, hs, haddr]
          exact if_pos hx
      · exact .inl ⟨c, .inr (.inr hc), rfl⟩

end Layout

/-! ## Runs -/

/-- The runs of `mymalloc`, of which each call meets `Q`, and of `myfree` of pointers that it
returned, be they live or not; with the live pointers and all that were returned. -/
inductive History (R : Region) (Q : ℕ → HeapState → List ℕ → List ℕ → Prop) :
    HeapState → List ℕ → List ℕ → Prop where
  | start {s : HeapState} : s.head = 0 → History R Q s [] []
  | malloc {x p : ℕ} {s s' : HeapState} {live returned : List ℕ} : History R Q s live returned →
      x < 2 ^ 32 → Q x s live returned → mymalloc heapFuel x R.base R.bytes s = some (p, s') →
      History R Q s' (if p = 0 then live else p :: live) (if p = 0 then returned else p :: returned)
  | free {p : ℕ} {o : FreeOutcome} {s s' : HeapState} {live returned : List ℕ} :
      History R Q s live returned → p ∈ returned → myfree p s = (o, s') →
      History R Q s' (if o = .released then live.filter (· ≠ p) else live) returned

/-- The header that the call writes, if it does, is clear of those of the stale pointers. -/
def KeepsClear (R : Region) (x : ℕ) (s : HeapState) (live returned : List ℕ) : Prop :=
  ∀ h, Represents R.base R.stop s h → ∀ t, h.placed x = some t →
    ∀ p ∈ returned, p ∉ live → Clear t (p - 32)

/-- What holds along a run: the live pointers are those of the allocated blocks, and all that were
returned are guarded. -/
structure Tracked (R : Region) (s : HeapState) (live returned : List ℕ) (h : Layout) : Prop where
  rep : Represents R.base R.stop s h
  live : ∀ p, p ∈ live ↔ ∃ b, h.Allocated b ∧ b.addr + 32 = p
  guarded : ∀ p ∈ returned, ∃ a, a + 32 = p ∧ Guarded s.mem h.blocks a

section Runs

variable {R : Region} {live returned : List ℕ} {o : FreeOutcome}

theorem Region.stop_of_onePage (hone : R.pages = 1) : R.stop ≤ R.base + 4096 := by
  rw [Region.stop, Region.bytes, hone]

namespace Tracked

theorem malloc (ht : Tracked R s live returned h) (hone : R.pages = 1)
    (hclear : ∀ t, h.placed x = some t → ∀ p ∈ returned, p ∉ live → Clear t (p - 32))
    (hm : mymalloc heapFuel x R.base R.bytes s = some (p, s')) :
    ∃ h', Tracked R s' (if p = 0 then live else p :: live)
      (if p = 0 then returned else p :: returned) h' := by
  obtain ⟨s₁, hm', hr, hch⟩ := mymalloc_spec (x := x) R.toFits ht.rep R.stop_lt_fuel R.base R.bytes
  obtain ⟨rfl, rfl⟩ := Prod.mk.inj (Option.some.inj (hm'.symm.trans hm))
  obtain ⟨hold, hnew⟩ := ht.rep.wf.malloc_addrs x
  have hpage := Region.stop_of_onePage hone
  have hguard : ∀ q ∈ returned, ∃ a, a + 32 = q ∧ Guarded s₁.mem (h.malloc x).2.blocks a := by
    intro q hq
    obtain ⟨a, rfl, hg⟩ := ht.guarded q hq
    refine ⟨a, rfl, ?_⟩
    by_cases hlive : a + 32 ∈ live
    · -- its block is still there
      obtain ⟨b, hb, haddr⟩ := (ht.live _).mp hlive
      obtain ⟨c, hc, hcb⟩ := hold b hb.1
      obtain rfl : c.addr = a := hcb.trans (Nat.add_right_cancel haddr)
      exact Guarded.of_mem hr.wf.tiles hc
    · refine hg.step (fun c hc ↦ ?_) (fun c hc ↦ hr.seg.headerAt hr.wf.tiles hpage hc)
        (fun b hb ↦ .inl (hold b hb)) hch
      rcases hnew c hc with ⟨b, hb, haddr⟩ | hplaced
      · rw [← haddr]
        exact hg.clear b hb
      · exact hclear _ hplaced _ hq hlive
  by_cases h₀ : (h.malloc x).1 = 0
  · rw [if_pos h₀, if_pos h₀]
    refine ⟨_, hr, ?_, hguard⟩
    rw [Layout.malloc_eq_self h₀]
    exact ht.live
  · rw [if_neg h₀, if_neg h₀]
    obtain ⟨b, hb, -, halloc, -⟩ := ht.rep.wf.malloc_allocated h₀
    refine ⟨_, hr, fun q ↦ ?_, fun q hq ↦ ?_⟩
    · rw [List.mem_cons, ht.live]
      constructor
      · rintro (rfl | ⟨c, hc, rfl⟩)
        · exact ⟨b, (halloc b).mpr (.inr rfl), hb⟩
        · exact ⟨c, (halloc c).mpr (.inl hc), rfl⟩
      · rintro ⟨c, hc, rfl⟩
        rcases (halloc c).mp hc with hc | rfl
        · exact .inr ⟨c, hc, rfl⟩
        · exact .inl hb
    · rcases List.mem_cons.mp hq with rfl | hq
      · exact ⟨b.addr, hb, Guarded.of_mem hr.wf.tiles ((halloc b).mpr (.inr rfl)).1⟩
      · exact hguard q hq

theorem free (ht : Tracked R s live returned h) (hone : R.pages = 1) (hp : p ∈ live) :
    ∃ s' h', myfree p s = (.released, s') ∧ Tracked R s' (live.filter (· ≠ p)) returned h' := by
  obtain ⟨b, hb, rfl⟩ := (ht.live p).mp hp
  have hpage := Region.stop_of_onePage hone
  obtain ⟨s', hs, hr, hch, hsub, hleaves⟩ := myfree_leaves R.toFits hpage ht.rep hb
  refine ⟨s', _, hs, hr, fun q ↦ ?_, fun q hq ↦ ?_⟩
  · simp only [List.mem_filter, ht.live, Layout.WF.allocated_release, decide_eq_true_eq]
    constructor
    · rintro ⟨⟨c, hc, rfl⟩, hne⟩
      refine ⟨c, ⟨hc, fun heq ↦ hne ?_⟩, rfl⟩
      rw [heq]
    · rintro ⟨c, ⟨hc, hne⟩, rfl⟩
      exact ⟨⟨c, hc, rfl⟩, fun heq ↦ hne (Nat.add_right_cancel heq)⟩
  · obtain ⟨a, rfl, hg⟩ := ht.guarded q hq
    refine ⟨a, rfl, hg.step (fun c hc ↦ ?_) (fun c hc ↦ hr.seg.headerAt hr.wf.tiles hpage hc)
      hleaves (hch.mono Set.subset_union_left)⟩
    obtain ⟨d, hd, haddr⟩ := hsub c hc
    rw [← haddr]
    exact hg.clear d hd

/-- A pointer that is not live is refused. -/
theorem refused (ht : Tracked R s live returned h) (hone : R.pages = 1) (hp : p ∈ returned)
    (hstale : p ∉ live) : ∃ o, o ≠ .released ∧ myfree p s = (o, s) := by
  obtain ⟨a, rfl, hg⟩ := ht.guarded p hp
  apply myfree_of_not_accepts
  rw [Nat.add_sub_cancel]
  rcases hg.refused with ⟨b, hb, rfl⟩ | hacc
  · -- a block at the old place that is not live is free
    refine (ht.rep.seg.dropped ht.rep.wf.tiles (Region.stop_of_onePage hone) hb ?_).not_accepts
    by_contra hfree
    exact hstale ((ht.live _).mpr ⟨b, ⟨hb, by simpa using hfree⟩, rfl⟩)
  · exact hacc

end Tracked

/-- The induction over a run. -/
theorem History.tracked (hrun : History R (KeepsClear R) s live returned) (hone : R.pages = 1) :
    s.head = 0 ∧ live = [] ∧ returned = [] ∨ ∃ h, Tracked R s live returned h := by
  induction hrun with
  | start hs => exact .inl ⟨hs, rfl, rfl⟩
  | malloc _ _ hclear hm ih =>
    right
    rcases ih with ⟨hs, rfl, rfl⟩ | ⟨h, ht⟩
    · obtain ⟨s₁, hi, -, heq⟩ := R.exists_first hs
      rw [heq] at hm
      have ht : Tracked R s₁ [] [] (Layout.fresh R.base R.stop) := by
        refine ⟨hi.rep, fun q ↦ ?_, fun q hq ↦ ?_⟩
        · constructor
          · intro hq
            cases hq
          · rintro ⟨b, ⟨hb, hfree⟩, -⟩
            obtain rfl := List.mem_singleton.mp hb
            cases hfree
        · cases hq
      exact ht.malloc hone (fun _ _ q hq ↦ by cases hq) hm
    · exact ht.malloc hone (hclear h ht.rep) hm
  | @free p o s s' live returned _ hp hs ih =>
    rcases ih with ⟨-, -, rfl⟩ | ⟨h, ht⟩
    · cases hp
    · by_cases hlive : p ∈ live
      · obtain ⟨s₁, h', hs₁, ht'⟩ := ht.free hone hlive
        obtain ⟨rfl, rfl⟩ := Prod.mk.inj (hs₁.symm.trans hs)
        rw [if_pos rfl]
        exact .inr ⟨h', ht'⟩
      · obtain ⟨o', ho, hs'⟩ := ht.refused hone hp hlive
        obtain ⟨rfl, rfl⟩ := Prod.mk.inj (hs'.symm.trans hs)
        rw [if_neg ho]
        exact .inr ⟨h, ht⟩

/-- Two blocks are given back, the first one last: the header of the second is left behind. -/
theorem exists_merged {Q : ℕ → HeapState → List ℕ → List ℕ → Prop}
    (hQ : ∀ x s live returned, (∀ p ∈ returned, p ∈ live) → Q x s live returned) :
    ∃ s h, History onePage Q s [] [4168, 4128] ∧ Represents onePage.base onePage.stop s h ∧
      h.blocks = [⟨4096, 4064, true⟩] ∧ entryAt s.mem 4136 = ⟨4024, mycode, 1, 0, 4096⟩ ∧
      ∀ x < 4096, s.mem x = 0 := by
  obtain ⟨s₁, hm₁, hr₁, hch₁⟩ := mymalloc_fresh (x := 8) onePage.toFits onePage.header_le
    onePage.stop_lt_fuel (s := untouched) rfl
  obtain ⟨s₂, hm₂, hr₂, hch₂⟩ :=
    mymalloc_spec (x := 16) onePage.toFits hr₁ onePage.stop_lt_fuel onePage.base onePage.bytes
  have hp₁ : ((Layout.fresh onePage.base onePage.stop).malloc 8).1 = 4128 := by decide
  have hp₂ : (((Layout.fresh onePage.base onePage.stop).malloc 8).2.malloc 16).1 = 4168 := by decide
  rw [hp₁] at hm₁
  rw [hp₂] at hm₂
  generalize hh :
    (((Layout.fresh onePage.base onePage.stop).malloc 8).2.malloc 16).2 = h₂ at hr₂ hch₂
  have hb₂ : h₂.Allocated ⟨4136, 16, false⟩ := by
    rw [← hh]
    exact ⟨by decide, rfl⟩
  obtain ⟨s₃, hs₃, hr₃, hch₃⟩ := myfree_released onePage.toFits hr₂ hb₂ (by decide)
  have hblocks₃ : (h₂.release 4136).blocks = [⟨4096, 8, false⟩, ⟨4136, 4024, true⟩] := by
    rw [← hh]
    decide
  have hb₃ : (h₂.release 4136).Allocated ⟨4096, 8, false⟩ := by
    refine ⟨?_, rfl⟩
    rw [hblocks₃]
    exact List.mem_cons_self
  -- the last step, store by store
  have hs₄ := myfree_eq hr₃ hb₃ (by decide)
  have hsplit : (h₂.release 4136).blocks = [] ++ ⟨4096, 8, false⟩ :: [⟨4136, 4024, true⟩] :=
    hblocks₃
  have hl := listed_setFree hr₃ hsplit
  rw [mergePrev_of_not_free hl (by simp), mergeNext_of_free onePage.toFits hl rfl] at hs₄
  obtain ⟨s₄, hs₄', hr₄, hch₄⟩ := myfree_released onePage.toFits hr₃ hb₃ (by decide)
  have hmem := congrArg HeapState.mem (Prod.mk.inj (hs₄'.symm.trans hs₄)).2
  have hpage : ∀ {h : Layout}, h.WF onePage.base onePage.stop →
    headers h.blocks ⊆ Range 4096 4096 :=
    fun hw ↦ headers_subset hw.tiles rfl
  have hlow : ∀ {S : Set ℕ} {m m' : Mem}, ChangesOnly S m m' → S ⊆ Range 4096 4096 →
      ∀ x < 4096, m' x = m x := fun hch hS x hx ↦ hch x fun hxS ↦ by
    have := (mem_Range.mp (hS hxS)).1
    omega
  refine ⟨s₄, _, ?_, hr₄, ?_, ?_, fun x hx ↦ ?_⟩
  · have run₁ : History onePage Q s₁ [4128] [4128] :=
      (History.start rfl).malloc (by decide) (hQ _ _ _ _ (by simp)) hm₁
    have run₂ : History onePage Q s₂ [4168, 4128] [4168, 4128] :=
      run₁.malloc (by decide) (hQ _ _ _ _ (by simp)) hm₂
    have run₃ : History onePage Q s₃ [4128] [4168, 4128] := by
      simpa using run₂.free List.mem_cons_self hs₃
    simpa using run₃.free (List.mem_cons_of_mem _ List.mem_cons_self) hs₄'
  · show (coalesce 32 (mark 4096 (h₂.release 4136).blocks)) = _
    rw [hblocks₃]
    decide
  · have hapart : Apart 4136 4096 := .inr (by decide)
    have hseg := hr₃.seg
    rw [hblocks₃] at hseg
    rw [hmem]
    show entryAt (dropNext _ 4096 0 _) 4136 = _
    rw [dropNext, if_neg (by decide), entryAt_setSize_of_apart hapart,
      entryAt_setNext_of_apart hapart, entryAt_setFree_of_apart hapart]
    exact hseg.2.1
  · rw [hlow hch₄ (hpage hr₃.wf) x hx, hlow hch₃ (hpage hr₂.wf) x hx,
      hlow hch₂ (Set.union_subset (hpage hr₁.wf) (hpage (hh ▸ hr₂.wf))) x hx,
      hlow hch₁ (Set.union_subset (hpage (Layout.wf_fresh onePage.header_le)) (hpage hr₁.wf)) x hx]
    rfl

/-- In every run on one page in which no new header is written across the words of a stale one, a
free of a stale pointer is refused and changes nothing. -/
theorem stale_refused (hone : R.pages = 1) (hrun : History R (KeepsClear R) s live returned)
    (hp : p ∈ returned) (hstale : p ∉ live) : ∃ o, o ≠ .released ∧ myfree p s = (o, s) := by
  rcases hrun.tracked hone with ⟨-, -, rfl⟩ | ⟨h, ht⟩
  · cases hp
  · exact ht.refused hone hp hstale

/-- The header of the second pointer is one that was merged. -/
theorem stale_refused_merged : ∃ (s : HeapState) (o : FreeOutcome),
    entryAt s.mem 4136 = ⟨4024, mycode, 1, 0, 4096⟩ ∧ o ≠ .released ∧ myfree 4168 s = (o, s) := by
  obtain ⟨s, h, hrun, -, -, hentry, -⟩ := exists_merged (Q := KeepsClear onePage)
    fun x s live returned hlive h hr t ht p hp hstale ↦ absurd (hlive p hp) hstale
  obtain ⟨o, ho, hs⟩ := stale_refused rfl hrun List.mem_cons_self List.not_mem_nil
  exact ⟨s, o, hentry, ho, hs⟩

end Runs

/-! ## A header over the words of another -/

/-- What a split of the last block does not write. -/
theorem readLE_splitFront {w n : ℕ} (hnext : (entryAt m w).next = 0)
    (hw : a + n ≤ w ∨ w + 32 ≤ a)
    (ht : a + n ≤ w + 32 + x ∨ w + 32 + x + 12 ≤ a ∧ a + n ≤ w + 32 + x + 16 ∨
      w + 32 + x + 32 ≤ a) : readLE (splitFront m w x) a n = readLE m a n := by
  have hapart : Apart w (w + 32 + x) := .inl (Nat.le_add_right _ _)
  have hlink : ∀ z : ℤ, (entryAt (setPrev (setNext (setFree (setSize (setCode m (w + 32 + x) mycode)
      (w + 32 + x) z) (w + 32 + x) 1) (w + 32 + x) (entryAt (setFree (setSize
      (setCode m (w + 32 + x) mycode) (w + 32 + x) z) (w + 32 + x) 1) w).next) (w + 32 + x) w)
      w).next = 0 := by
    intro z
    rw [entryAt_setPrev_of_apart hapart, entryAt_setNext_of_apart hapart,
      entryAt_setFree_of_apart hapart, entryAt_setSize_of_apart hapart,
      entryAt_setCode_of_apart hapart]
    exact hnext
  unfold splitFront insertAfter
  dsimp only
  rw [if_neg (not_not.mpr (hlink _))]
  simp only [setNext, setFree, setSize, setPrev, setCode, sizeofMementry]
  simp (disch := omega) only [readLE_writeLE_of_disjoint]

/-- The header of the rest is laid over that of the second pointer, eight bytes behind its
beginning. -/
theorem exists_overlaid : ∃ s, History onePage (fun _ _ _ _ ↦ True) s [4128] [4128, 4168, 4128] ∧
    s.head = 4096 ∧ entryAt s.mem 4144 = ⟨4016, mycode, 1, 0, 4096⟩ ∧
    (entryAt s.mem 4136).code = mycode ∧ readLE s.mem 4156 4 = 0 ∧ ∀ x < 4096, s.mem x = 0 := by
  obtain ⟨s, h, hrun, hr, hblocks, hentry, hlow⟩ := exists_merged
    (Q := fun _ _ _ _ ↦ True) fun _ _ _ _ _ ↦ trivial
  have hsearch : h.search 16 = some (.fromHead, ⟨4096, 4064, true⟩) := by
    rw [Layout.search_small (by decide), hblocks]
    decide
  have htake : (h.take .fromHead 16 ⟨4096, 4064, true⟩).blocks =
      [⟨4096, 16, false⟩, ⟨4144, 4016, true⟩] := by
    show Layout.subst _ _ h.blocks = _
    rw [hblocks]
    decide
  have hhead : s.head ≠ 0 := by
    rw [hr.head]
    decide
  have hm : mymalloc heapFuel 16 onePage.base onePage.bytes s =
      some (takeFromHead 4096 16 s) := by
    rw [mymalloc, if_neg hhead]
    exact (mymallocFrom_eq onePage.toFits hr onePage.stop_lt_fuel).trans (by rw [hsearch])
  have hb : (⟨4096, 4064, true⟩ : Block) ∈ h.blocks := by
    rw [hblocks]
    exact List.mem_cons_self
  obtain ⟨s', hs', hr', hch⟩ := takeFromHead_spec (x := 16) onePage.toFits hr hb rfl
  have hrest : hasRest s.mem 4096 16 := (hasRest_iff onePage.toFits hr hb).mpr (by decide)
  have hmem : s'.mem = splitFront s.mem 4096 16 := by
    rw [takeFromHead, if_pos hrest] at hs'
    exact (congrArg HeapState.mem (Prod.mk.inj hs').2).symm
  rw [hs'] at hm
  have hseg := hr.seg
  rw [hblocks] at hseg
  have hnext : (entryAt s.mem 4096).next = 0 := by
    rw [hseg.1]
    rfl
  have hseg' := hr'.seg
  rw [htake] at hseg'
  have hpage : ∀ {h : Layout}, h.WF onePage.base onePage.stop →
    headers h.blocks ⊆ Range 4096 4096 :=
    fun hw ↦ headers_subset hw.tiles rfl
  refine ⟨s', hrun.malloc (by decide) trivial hm, hr'.head, hseg'.2.1, ?_, ?_, fun x hx ↦ ?_⟩
  · have hread := readLE_splitFront (x := 16) (a := 4136 + 4) (n := 4) hnext (by omega) (by omega)
    rw [← hmem] at hread
    have hcode : (entryAt s'.mem 4136).code = (entryAt s.mem 4136).code :=
      congrArg (fun n : ℕ ↦ toI32 n) hread
    rw [hcode, hentry]
  · have hread := readLE_splitFront (x := 16) (a := 4156) (n := 4) hnext (by omega) (by omega)
    rw [← hmem] at hread
    rw [hread]
    have hlink : readLE s.mem 4152 8 = 0 := congrArg Mementry.next hentry
    simp only [readLE, Nat.reduceAdd] at hlink ⊢
    omega
  · rw [hch x ?_]
    · exact hlow x hx
    · rintro (hxh | hxh)
      · exact absurd (mem_Range.mp (hpage hr.wf hxh)).1 (not_le.mpr hx)
      · exact absurd (mem_Range.mp (hpage hr'.wf hxh)).1 (not_le.mpr hx)

theorem readLE_eight (m : Mem) (a : ℕ) :
    readLE m a 8 = readLE m a 4 + 4294967296 * readLE m (a + 4) 4 := by
  simp only [readLE, Nat.add_assoc, Nat.reduceAdd]
  omega

/-- What is read eight bytes before the header of a free block. -/
theorem entryAt_before (hfree : (entryAt m (a + 8)).free = 1) (hpad : readLE m (a + 20) 4 = 0) :
    entryAt m a = ⟨(entryAt m a).size, (entryAt m a).code, (entryAt m (a + 8)).size, 1,
      (entryAt m (a + 8)).next⟩ := by
  have hflag : readLE m (a + 16) 4 = 1 := by
    have hlt := readLE_lt m (a + 16) 4
    change toI32 (readLE m (a + 16) 4) = 1 at hfree
    unfold toI32 at hfree
    omega
  have hnext : readLE m (a + 16) 8 = 1 := by
    rw [readLE_eight, hflag, Nat.add_assoc, hpad]
  rw [entryAt, hnext]
  rfl

/-- What is taken for the header of an allocated block without neighbours is marked free. -/
theorem myfree_of_accepts (hacc : Accepts s.mem a) (hlo : s.head ≤ a) (hhi : a + 32 ≤ s.head + 4999)
    (hprev : (entryAt s.mem a).prev = 0)
    (hnext : (entryAt (setFree s.mem a 1) (entryAt s.mem a).next).free ≠ 1) :
    myfree (a + 32) s = (.released, { s with mem := setFree s.mem a 1 }) := by
  have hbounds : ¬(a + 32 < s.head + sizeofMementry ∨ s.head + 4999 < a + 32) := by
    unfold sizeofMementry
    omega
  have hmergePrev : mergePrev a { s with mem := setFree s.mem a 1 } =
      (a, { s with mem := setFree s.mem a 1 }) := by
    rw [mergePrev]
    apply if_neg
    rintro ⟨hne, -⟩
    rw [entryAt_setFree_self] at hne
    exact hne hprev
  have hmergeNext : mergeNext a { s with mem := setFree s.mem a 1 } =
      { s with mem := setFree s.mem a 1 } := by
    rw [mergeNext]
    apply if_neg
    rintro ⟨-, hfree⟩
    dsimp only at hfree
    rw [entryAt_setFree_self] at hfree
    exact hnext hfree
  rw [myfree, if_neg hbounds]
  simp only [Nat.add_sub_cancel, if_pos hacc.1, if_neg hacc.2, hmergePrev, hmergeNext]

/-- A second free of the second pointer is accepted: what it takes for the flag is the size of the
rest, which becomes 1. -/
theorem not_stale_refused : ¬∀ (R : Region) (s : HeapState) (live returned : List ℕ) (p : ℕ),
    R.pages = 1 → History R (fun _ _ _ _ ↦ True) s live returned → p ∈ returned → p ∉ live →
      (myfree p s).2 = s := by
  intro hall
  obtain ⟨s, hrun, hhead, hrest, hcode, hpad, hlow⟩ := exists_overlaid
  have hstale : entryAt s.mem 4136 = ⟨(entryAt s.mem 4136).size, mycode, 4016, 1, 0⟩ := by
    have hbefore := entryAt_before (m := s.mem) (a := 4136)
    simp only [Nat.reduceAdd, hrest, hcode] at hbefore
    exact hbefore trivial hpad
  have hacc : Accepts s.mem 4136 := by
    rw [Accepts, hstale]
    exact ⟨rfl, show (4016 : ℤ) ≠ 1 by decide⟩
  have hlast : (entryAt (setFree s.mem 4136 1) 1).free ≠ 1 := by
    have hzero : readLE (setFree s.mem 4136 1) (1 + 8) 4 = 0 := by
      rw [setFree, readLE_writeLE_of_disjoint (by omega)]
      simp only [readLE, Nat.reduceAdd, hlow _ (show 9 < 4096 by decide),
        hlow _ (show 10 < 4096 by decide), hlow _ (show 11 < 4096 by decide),
        hlow _ (show 12 < 4096 by decide)]
      rfl
    show toI32 (readLE (setFree s.mem 4136 1) (1 + 8) 4) ≠ 1
    rw [hzero]
    decide
  have hs := myfree_of_accepts hacc (by omega) (by omega) (by rw [hstale]) (by rwa [hstale])
  have hsame := hall onePage s _ _ (4136 + 32) rfl hrun (by simp) (by simp)
  rw [hs] at hsame
  have hmem : setFree s.mem 4136 1 = s.mem := congrArg HeapState.mem hsame
  have hflag : (entryAt (setFree s.mem 4136 1) 4136).free = 4016 := by
    rw [hmem, hstale]
  rw [entryAt_setFree_self] at hflag
  exact absurd hflag (show toI32 1 ≠ 4016 by decide)

end MyPthread.Heap
