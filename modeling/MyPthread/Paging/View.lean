import MyPthread.Paging.First

/-!
# What a thread sees

A thread addresses its `k`-th page in frame `k`, wherever the page is.  The memory it sees is
made of the bytes of its pages, and the heaps of its pages are heaps in that memory.

`Good` says that they are well-formed, that the free bytes known of them are right, and that
what a thread has been handed out and not given back are allocated blocks.
-/

namespace MyPthread.Paging

open MyPthread.Lib MyPthread.Heap Function Relation

variable {B : Block} {Q : Prop} {s s' s₁ s₂ : Manager} {ch ch' : ℕ → List PageMetaPtr}
  {c c' : ℕ → ℕ}
  {i j k n o x r t u a lo hi : ℕ} {p q cur last front : PageMetaPtr} {l : List PageMetaPtr}
  {m : Mem} {h h' : Layout}

/-- The byte that the thread `t` has at the address `a`: that of its page for the frame. -/
def view (B : Block) (s : Manager) (t : ℕ) : Mem := fun a ↦
  if a < B.addr then 0
  else match follow s.next ((a - B.addr) / 4096) (s.tcbs t).firstPage with
    | none => 0
    | some p => content B s p ((a - B.addr) % 4096)

/-- The heap that is stored on the page `p`, in the memory of the thread of `p`. -/
def heapOf (B : Block) (s : Manager) (p : PageMetaPtr) : HeapState :=
  ⟨view B s (s.metas p).tid, (s.metas p).head, (s.metas p).middle⟩

/-! ## Addresses -/

theorem frame_div (B : Block) (i : ℕ) (ho : o < 4096) : (B.frame i + o - B.addr) / 4096 = i := by
  unfold Block.frame
  omega

theorem frame_mod (B : Block) (i : ℕ) (ho : o < 4096) : (B.frame i + o - B.addr) % 4096 = o := by
  unfold Block.frame
  omega

/-- An address of the block is in a frame. -/
theorem exists_frame (h : B.addr ≤ a) : ∃ i o, o < 4096 ∧ a = B.frame i + o := by
  refine ⟨(a - B.addr) / 4096, (a - B.addr) % 4096, Nat.mod_lt _ (by omega), ?_⟩
  unfold Block.frame
  omega

theorem addr_le_frame (B : Block) (i : ℕ) : B.addr ≤ B.frame i := Nat.le_add_right _ _

theorem frame_mono (B : Block) (hij : i ≤ j) : B.frame i ≤ B.frame j :=
  Nat.add_le_add_left (Nat.mul_le_mul_right 4096 hij) B.addr

theorem mem_frames (ho : o < 4096) : B.frame i + o ∈ B.frames j n ↔ j ≤ i ∧ i < j + n := by
  rw [Block.frames, mem_Range]
  unfold Block.frame
  omega

/-! ## The view and the pages -/

theorem view_eq (hs : Settled s ch c) (hp : (ch t)[i]? = some p) (ho : o < 4096) :
    view B s t (B.frame i + o) = content B s p o := by
  have hle := addr_le_frame B i
  rw [view, if_neg (by omega), frame_div B i ho, frame_mod B i ho,
    Paging.follow_eq (hs.table.path t), hp]

/-- A page in its frame is seen where it is. -/
theorem view_here (hs : Settled s ch c) (hp : (ch t)[i]? = some p) (hin : s.pageFrame p = i)
    (ho : o < 4096) : view B s t (B.frame i + o) = s.heap.mem (B.frame i + o) := by
  have hsmall := hs.small t
  have hlt := Settled.lt_length hp
  rw [view_eq hs hp ho, content, hin, slot_of_lt (by omega)]

theorem view_none (hs : Settled s ch c) (hp : (ch t)[i]? = none) (ho : o < 4096) :
    view B s t (B.frame i + o) = 0 := by
  have hle := addr_le_frame B i
  rw [view, if_neg (by omega), frame_div B i ho, Paging.follow_eq (hs.table.path t), hp]

/-- A byte that a thread sees changes only when its page gets another byte. -/
theorem view_congr (hs : Settled s ch c) (hs' : Settled s' ch' c')
    (hsame : ∀ i o, o < 4096 → a = B.frame i + o → (ch' t)[i]? = (ch t)[i]? ∧
      ∀ p, (ch t)[i]? = some p → content B s' p o = content B s p o) :
    view B s' t a = view B s t a := by
  by_cases ha : a < B.addr
  · rw [view, view, if_pos ha, if_pos ha]
  · obtain ⟨i, o, ho, rfl⟩ := exists_frame (not_lt.mp ha)
    obtain ⟨hplace, hcontent⟩ := hsame i o ho rfl
    cases hp : (ch t)[i]? with
    | none => rw [view_none hs hp ho, view_none hs' (hplace.trans hp) ho]
    | some p => rw [view_eq hs hp ho, view_eq hs' (hplace.trans hp) ho, hcontent p hp]

/-- A thread sees the same when its pages have the same bytes. -/
theorem view_of_contents (hs : Settled s ch c) (hs' : Settled s' ch c')
    (hsame : SameContents B s s') (t : ℕ) : view B s' t = view B s t := by
  funext a
  refine view_congr hs hs' fun i o ho _ ↦ ⟨rfl, fun p hp ↦ ?_⟩
  exact hsame p (hs.mem_pages hp) o ho

/-! ## Heaps in the view -/

/-- The frames of the heap of the `k`-th page. -/
def heapFrames (B : Block) (c k : ℕ) : Set ℕ := B.frames (base c k) (k + 1 - base c k)

theorem mem_heapFrames (ho : o < 4096) :
    B.frame i + o ∈ heapFrames B n k ↔ base n k ≤ i ∧ i ≤ k := by
  have hle := base_le n k
  rw [heapFrames, mem_frames ho]
  omega

theorem mem_heapFrames_iff :
    a ∈ heapFrames B n k ↔ B.frame (base n k) ≤ a ∧ a < B.frame (k + 1) := by
  have hle := base_le n k
  have hadd := frame_add B (base n k) (k + 1 - base n k)
  rw [show base n k + (k + 1 - base n k) = k + 1 by omega] at hadd
  rw [heapFrames, Block.frames, mem_Range, hadd]

theorem fits_heap (hk : k < 1597) : Fits (B.frame (base n k)) (B.frame (k + 1)) := by
  have hle := base_le n k
  have hf := fits_frames (B := B) (i := base n k) (n := k + 1 - base n k) (by omega)
  rwa [show base n k + (k + 1 - base n k) = k + 1 by omega] at hf

theorem heap_lt_fuel (hk : k < 1597) : B.frame (k + 1) < B.frame (base n k) + 32 * heapFuel := by
  have hle := base_le n k
  have hlt := frames_lt_fuel (B := B) (i := base n k) (n := k + 1 - base n k) (by omega)
  rwa [show base n k + (k + 1 - base n k) = k + 1 by omega] at hlt

/-- Heaps of a thread have no frame in common. -/
theorem disjoint_heapFrames (hj : n ≤ j + 1) (hk : n ≤ k + 1) (hjk : j ≠ k)
    (ha : a ∈ heapFrames B n j) :
    a ∉ heapFrames B n k := by
  intro hmem
  obtain ⟨i, o, ho, rfl⟩ := exists_frame (le_trans (addr_le_frame B _) (mem_heapFrames_iff.mp ha).1)
  rw [mem_heapFrames ho] at ha hmem
  unfold base at ha hmem
  split_ifs at ha hmem <;> omega

/-- The machine's memory is the view on a heap all of whose pages are in their frames. -/
theorem HeapHere.view (hhere : HeapHere s ch c k) (hs : Settled s ch c)
    (hk : k < (ch s.current).length)
    (ha : a ∈ heapFrames B (c s.current) k) : view B s s.current a = s.heap.mem a := by
  obtain ⟨i, o, ho, rfl⟩ := exists_frame (le_trans (addr_le_frame B _) (mem_heapFrames_iff.mp ha).1)
  rw [mem_heapFrames ho] at ha
  obtain ⟨q, hq⟩ : ∃ q, (ch s.current)[i]? = some q := ⟨_, List.getElem?_eq_getElem (by omega)⟩
  exact view_here hs hq (hhere i q ha.1 ha.2 hq) ho

/-- A change in the frames of a heap that is in place is seen by its thread, and there. -/
theorem HeapHere.content {S : Set ℕ} (hhere : HeapHere s ch c k) (hs : Settled s ch c)
    (hk : k < (ch s.current).length) (hloc : s'.pageFrame = s.pageFrame)
    (hfile : s'.swapFile = s.swapFile) (hS : S ⊆ heapFrames B (c s.current) k)
    (hmem : ChangesOnly S s.heap.mem s'.heap.mem) (hq : (ch t)[i]? = some q)
    (hout : t = s.current → B.frame i + o ∉ S) (ho : o < 4096) :
    content B s' q o = content B s q o := by
  simp only [Paging.content, slot, hloc, hfile]
  split_ifs with hlt
  · refine hmem _ fun hin ↦ ?_
    have hframe := hS hin
    rw [mem_heapFrames ho] at hframe
    -- the frames of the heap hold its own pages
    obtain ⟨p, hp⟩ : ∃ p, (ch s.current)[s.pageFrame q]? = some p :=
      ⟨_, List.getElem?_eq_getElem (by omega)⟩
    have hpin := hhere _ p hframe.1 hframe.2 hp
    have hpq := hs.table.placed.inj p (hs.mem_pages hp) q (hs.mem_pages hq) hpin
    subst hpq
    obtain ⟨htc, hi⟩ := hs.table.index_unique hp hq
    rw [hi] at hin
    exact hout htc.symm hin
  · rfl

theorem HeapHere.view_changes {S : Set ℕ} (hhere : HeapHere s ch c k) (hs : Settled s ch c)
    (hs' : Settled s' ch c) (hk : k < (ch s.current).length) (hloc : s'.pageFrame = s.pageFrame)
    (hfile : s'.swapFile = s.swapFile) (hS : S ⊆ heapFrames B (c s.current) k)
    (hmem : ChangesOnly S s.heap.mem s'.heap.mem) :
    (∀ u, u ≠ s.current → Paging.view B s' u = Paging.view B s u) ∧
      ChangesOnly S (Paging.view B s s.current) (Paging.view B s' s.current) := by
  constructor
  · intro u hu
    funext a
    refine view_congr hs hs' fun i o ho _ ↦ ⟨rfl, fun q hq ↦ ?_⟩
    exact hhere.content hs hk hloc hfile hS hmem hq (fun htu ↦ absurd htu hu) ho
  · intro a ha
    refine view_congr hs hs' fun i o ho hao ↦ ⟨rfl, fun q hq ↦ ?_⟩
    exact hhere.content hs hk hloc hfile hS hmem hq (fun _ ↦ hao ▸ ha) ho

end MyPthread.Paging
