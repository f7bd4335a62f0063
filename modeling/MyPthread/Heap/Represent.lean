import MyPthread.Heap.Layout
import MyPthread.Heap.Mymalloc

/-!
# Layouts in memory

`Represents lo hi s h` says that the header list the globals `head` and
`middle` point into is the layout `h` of the region `[lo, hi)`: each block has
its header at its address, with the magic code, its size and flag, and links to
its neighbours.

The list part is `Seg m prev bs next`, a segment of the doubly linked list
entered from `prev` and left to `next`.  It splits at `++`, and depends only on
the headers of its blocks; these two facts carry all the relinking proofs.
-/

namespace MyPthread.Heap

open MyPthread.Lib

/-- The header of block `b` between the headers at `prev` and `next`. -/
def entryOf (prev : ℕ) (b : Block) (next : ℕ) : Mementry where
  size := b.size
  code := mycode
  free := if b.free then 1 else 0
  next := next
  prev := prev

/-- The address of the first block, or `next` if there is none. -/
def headAddr (bs : List Block) (next : ℕ) : ℕ :=
  match bs with
  | [] => next
  | b :: _ => b.addr

/-- The address of the last block, or `prev` if there is none. -/
def lastAddr (prev : ℕ) : List Block → ℕ
  | [] => prev
  | b :: bs => lastAddr b.addr bs

/-- The blocks `bs` form a segment of the header list in `m`. -/
def Seg (m : Mem) : ℕ → List Block → ℕ → Prop
  | _, [], _ => True
  | prev, b :: bs, next =>
    entryAt m b.addr = entryOf prev b (headAddr bs next) ∧ Seg m b.addr bs next

@[simp] theorem headAddr_append_cons (pre post : List Block) (b : Block) (next : ℕ) :
    headAddr (pre ++ b :: post) next = headAddr pre b.addr := by
  cases pre <;> rfl

theorem headAddr_append (pre post : List Block) (next : ℕ) :
    headAddr (pre ++ post) next = headAddr pre (headAddr post next) := by
  cases pre <;> rfl

theorem lastAddr_append (prev : ℕ) (pre post : List Block) :
    lastAddr prev (pre ++ post) = lastAddr (lastAddr prev pre) post := by
  induction pre generalizing prev with
  | nil => rfl
  | cons b pre ih => exact ih b.addr

namespace Seg

variable {m m' : Mem} {prev next q : ℕ} {bs pre post : List Block} {b : Block}

theorem append_iff : Seg m prev (pre ++ post) next ↔
    Seg m prev pre (headAddr post next) ∧ Seg m (lastAddr prev pre) post next := by
  induction pre generalizing prev with
  | nil => simp [Seg, lastAddr]
  | cons b pre ih =>
    simp only [List.cons_append, Seg, ih, headAddr_append, lastAddr, and_assoc]

/-- A segment around one of its blocks. -/
theorem split_iff : Seg m prev (pre ++ b :: post) next ↔
    Seg m prev pre b.addr ∧ entryAt m b.addr = entryOf (lastAddr prev pre) b (headAddr post next) ∧
      Seg m b.addr post next :=
  append_iff

/-- A segment depends only on the headers of its blocks. -/
theorem congr (h : Seg m prev bs next) (heq : ∀ b ∈ bs, entryAt m' b.addr = entryAt m b.addr) :
    Seg m' prev bs next := by
  induction bs generalizing prev with
  | nil => trivial
  | cons b bs ih =>
    refine ⟨(heq b List.mem_cons_self).trans h.1, ih h.2 fun c hc ↦ ?_⟩
    exact heq c (List.mem_cons_of_mem _ hc)

/-- A segment entered from another header: only the `prev` of its first block
changes. -/
theorem relink (h : Seg m prev bs next)
    (hhead : ∀ b ∈ bs.head?, entryAt m' b.addr = { entryAt m b.addr with prev := q })
    (htail : ∀ b ∈ bs.tail, entryAt m' b.addr = entryAt m b.addr) : Seg m' q bs next := by
  cases bs with
  | nil => trivial
  | cons b bs =>
    refine ⟨?_, h.2.congr htail⟩
    rw [hhead b rfl, h.1]
    rfl

/-- The header of a listed block. -/
theorem entry (h : Seg m prev (pre ++ b :: post) next) :
    entryAt m b.addr = entryOf (lastAddr prev pre) b (headAddr post next) :=
  (split_iff.mp h).2.1

/-- The size, code and flag of a listed block. -/
theorem entry_of_mem (h : Seg m prev bs next) (hb : b ∈ bs) :
    (entryAt m b.addr).size = b.size ∧ (entryAt m b.addr).code = mycode ∧
      (entryAt m b.addr).free = if b.free then 1 else 0 := by
  obtain ⟨pre, post, rfl⟩ := List.append_of_mem hb
  rw [h.entry]
  exact ⟨rfl, rfl, rfl⟩

end Seg

/-- The state `s` of a heap on the region `[lo, hi)` is the layout `h`. -/
structure Represents (lo hi : ℕ) (s : HeapState) (h : Layout) : Prop where
  wf : h.WF lo hi
  head : s.head = lo
  middle : s.middle = h.middle
  seg : Seg s.mem 0 h.blocks 0

/-! ## The search loops -/

/-- A block whose header can be reached and whose size is a positive `int`. -/
def Plain (b : Block) : Prop := b.addr ≠ 0 ∧ b.size < 2147483648

section Walk

variable {m : Mem} {x prev next : ℕ} {bs : List Block}

theorem nonnegI32_size {b : Block} (hb : Plain b) : NonnegI32 (b.size : ℤ) := by
  unfold Plain at hb
  unfold NonnegI32
  omega

theorem toU32_size {b : Block} (hb : Plain b) : toU32 (b.size : ℤ) = b.size := by
  rw [toU32_of_nonneg (nonnegI32_size hb), Int.toNat_natCast]

/-- One round of a search loop at a listed block. -/
theorem walk_succ {dir : Mementry → ℕ} {b : Block} {fuel p n : ℕ} (hb : Plain b)
    (he : entryAt m b.addr = entryOf p b n) :
    walk dir m x (fuel + 1) b.addr =
      if b.fits x then some b.addr else walk dir m x fuel (dir (entryOf p b n)) := by
  rw [walk, if_neg hb.1, he]
  simp only [entryOf, toU32_size hb, Block.fits]
  by_cases hf : b.free = true <;> by_cases hx : x ≤ b.size <;> simp [hf, hx]

/-- The forward loops find the first block that fits. -/
theorem walk_next {fuel : ℕ} (h : Seg m prev bs 0) (hp : ∀ b ∈ bs, Plain b)
    (hfuel : bs.length < fuel) : walk Mementry.next m x fuel (headAddr bs 0) =
      some (((bs.find? (Block.fits x)).map Block.addr).getD 0) := by
  induction bs generalizing prev fuel with
  | nil =>
    cases fuel with
    | zero => cases hfuel
    | succ fuel => rfl
  | cons b bs ih =>
    obtain ⟨fuel, rfl⟩ : ∃ k, fuel = k + 1 := ⟨fuel - 1, by omega⟩
    rw [headAddr, walk_succ (hp b List.mem_cons_self) h.1]
    by_cases hf : b.fits x
    · simp [hf]
    · rw [if_neg hf, List.find?_cons_of_neg hf]
      exact ih h.2 (fun c hc ↦ hp c (List.mem_cons_of_mem _ hc)) (by simpa using hfuel)

/-- The backward loop finds the last block that fits. -/
theorem walk_prev {fuel : ℕ} (h : Seg m 0 bs next) (hp : ∀ b ∈ bs, Plain b)
    (hfuel : bs.length < fuel) : walk Mementry.prev m x fuel (lastAddr 0 bs) =
      some (((bs.reverse.find? (Block.fits x)).map Block.addr).getD 0) := by
  induction bs using List.reverseRecOn generalizing next fuel with
  | nil =>
    cases fuel with
    | zero => cases hfuel
    | succ fuel => rfl
  | append_singleton bs b ih =>
    obtain ⟨fuel, rfl⟩ : ∃ k, fuel = k + 1 := ⟨fuel - 1, by omega⟩
    obtain ⟨hbs, hb, -⟩ := Seg.split_iff.mp h
    have hpb : Plain b := hp b (by simp)
    rw [lastAddr_append, lastAddr, lastAddr, walk_succ hpb hb, List.reverse_append]
    by_cases hf : b.fits x
    · simp [hf]
    · rw [if_neg hf, List.reverse_singleton, List.singleton_append, List.find?_cons_of_neg hf]
      exact ih hbs (fun c hc ↦ hp c (by simp [hc])) (by simpa using hfuel)

end Walk

end MyPthread.Heap
