import MyPthread.Heap.Header

/-!
# `mymalloc` and `myfree`

The in-place heap of `my_pthread.c` on byte memory: the globals `head` and
`middle`, and the two functions that walk and relink the header list.

Pointer arithmetic is on unbounded addresses; the conversions of the `int`
sizes to `unsigned int` and `size_t` are the ones the compiler makes.
-/

namespace MyPthread.Heap

open MyPthread.Lib

/-- The memory together with the globals `head` and `middle`. -/
structure HeapState where
  mem : Mem
  head : ℕ
  middle : ℕ

/-! ## `mymalloc` -/

/-- The first header of a fresh region: `mymalloc` with `head == NULL`.  Writing
it through a `NULL` `memptr` is a fault. -/
def initHead (memptr : ℕ) (size : ℤ) (s : HeapState) : Option HeapState :=
  if memptr = 0 then none
  else
    let m := setSize s.mem memptr (toU64 (size - sizeofMementry))
    let m := setCode m memptr mycode
    let m := setFree m memptr 1
    let m := setNext m memptr 0
    let m := setPrev m memptr 0
    some { mem := m, head := memptr, middle := memptr }

/-- The search loops of `mymalloc`: from `walker`, follow `dir` (`next` or
`prev`) to the first free block that holds `x` bytes, or to `NULL`.  The
comparison `walker->size >= x` is unsigned. -/
def walk (dir : Mementry → ℕ) (m : Mem) (x : ℕ) : ℕ → ℕ → Option ℕ
  | 0, _ => none
  | fuel + 1, walker =>
    if walker = 0 then some 0
    else
      let e := entryAt m walker
      if e.free = 1 then
        if x ≤ toU32 e.size then some walker else walk dir m x fuel (dir e)
      else walk dir m x fuel (dir e)

/-- `walker->size > x + sizeof(struct mementry)`, compared as `size_t`. -/
def hasRest (m : Mem) (walker : ℕ) (x : ℕ) : Prop :=
  x + sizeofMementry < toU64 (entryAt m walker).size

instance (m : Mem) (walker : ℕ) (x : ℕ) : Decidable (hasRest m walker x) :=
  inferInstanceAs (Decidable (_ < _))

/-- The part the three splits share: write the header `temp` of a new block
after `walker`, and hang the old successor of `walker` behind it. -/
def insertAfter (m : Mem) (walker temp : ℕ) (size free : ℤ) : Mem :=
  let m := setCode m temp mycode
  let m := setSize m temp size
  let m := setFree m temp free
  let m := setNext m temp (entryAt m walker).next
  let m := setPrev m temp walker
  if (entryAt m walker).next ≠ 0 then setPrev m (entryAt m walker).next temp else m

/-- Split `walker` and allocate its front: the new free header goes right after
the `x` bytes handed out. -/
def splitFront (m : Mem) (walker x : ℕ) : Mem :=
  let temp := walker + sizeofMementry + x
  let m := insertAfter m walker temp (toU64 ((entryAt m walker).size - sizeofMementry - x)) 1
  let m := setSize m walker x
  let m := setFree m walker 0
  setNext m walker temp

/-- What is left of `walker` when `x` bytes are taken from its back.
`walker->size - x` is an `unsigned int`, the rest of the expression a
`size_t`. -/
def backRest (m : Mem) (walker x : ℕ) : ℕ :=
  toU64 (toU32 ((entryAt m walker).size - x) - sizeofMementry)

/-- Split `walker` and allocate its back: the new header, of an allocated block
of `x` bytes, goes at the end of the block. -/
def splitBack (m : Mem) (walker x : ℕ) : Mem :=
  let temp := walker + sizeofMementry + backRest m walker x
  let m := insertAfter m walker temp x 0
  let m := setSize m walker (backRest m walker x)
  let m := setFree m walker 1
  setNext m walker temp

/-- Allocate at the block found by the walk from `head`; `middle` moves to the
rest when it was the block split. -/
def takeFromHead (walker : ℕ) (x : ℕ) (s : HeapState) : ℕ × HeapState :=
  if hasRest s.mem walker x then
    (walker + sizeofMementry,
      { s with
        mem := splitFront s.mem walker x
        middle := if walker = s.middle then walker + sizeofMementry + x else s.middle })
  else (walker + sizeofMementry, { s with mem := setFree s.mem walker 0 })

/-- Allocate at the block found to the right of `middle`. -/
def takeRight (walker : ℕ) (x : ℕ) (s : HeapState) : ℕ × HeapState :=
  if hasRest s.mem walker x then
    (walker + sizeofMementry, { s with mem := splitFront s.mem walker x })
  else (walker + sizeofMementry, { s with mem := setFree s.mem walker 0 })

/-- Allocate at the block found by the walk left from `middle`. -/
def takeLeft (walker : ℕ) (x : ℕ) (s : HeapState) : ℕ × HeapState :=
  if hasRest s.mem walker x then
    (walker + sizeofMementry + backRest s.mem walker x + sizeofMementry,
      { s with mem := splitBack s.mem walker x })
  else (walker + sizeofMementry, { s with mem := setFree s.mem walker 0 })

/-- The searches of `mymalloc` once `head` is set, in the order of the code:
from `head` for requests below 100 bytes, else right of `middle` and then left
from it.  Reading `middle->next` through `NULL` is a fault. -/
def mymallocFrom (fuel x : ℕ) (s : HeapState) : Option (ℕ × HeapState) := do
  if x < 100 then
    let walker ← walk Mementry.next s.mem x fuel s.head
    if walker ≠ 0 then return takeFromHead walker x s
    return (0, s)
  else if s.middle = 0 then none
  else
    let walker ← walk Mementry.next s.mem x fuel (entryAt s.mem s.middle).next
    if walker ≠ 0 then return takeRight walker x s
    let walker ← walk Mementry.prev s.mem x fuel s.middle
    if walker ≠ 0 then return takeLeft walker x s
    return (0, s)

/-- `mymalloc(x, file, line, memptr, size)`.  `none` is a fault, or a walk that
is not over after `fuel` blocks. -/
def mymalloc (fuel x : ℕ) (memptr : ℕ) (size : ℤ) (s : HeapState) :
    Option (ℕ × HeapState) := do
  let s ← if s.head = 0 then initHead memptr size s else some s
  mymallocFrom fuel x s

/-! ## `myfree` -/

/-- How `myfree` ended: the block was released, or one of the three messages was
printed and nothing changed. -/
inductive FreeOutcome where
  | released
  | outOfBounds
  | doubleFree
  | notAllocated
deriving DecidableEq, Repr

/-- "If the previous mementry struct was free, the two are combined."  Returns
the header `freeer` stands for afterwards. -/
def mergePrev (freeer : ℕ) (s : HeapState) : ℕ × HeapState :=
  if (entryAt s.mem freeer).prev ≠ 0 ∧ (entryAt s.mem (entryAt s.mem freeer).prev).free = 1 then
    let m := if (entryAt s.mem freeer).next ≠ 0 then
      setPrev s.mem (entryAt s.mem freeer).next (entryAt s.mem freeer).prev else s.mem
    let m := if (entryAt m freeer).prev ≠ 0 then
      setNext m (entryAt m freeer).prev (entryAt m freeer).next else m
    let m := setSize m (entryAt m freeer).prev
      (toU64 ((entryAt m (entryAt m freeer).prev).size +
        (sizeofMementry + (entryAt m freeer).size)))
    let prev := (entryAt m freeer).prev
    (prev, { s with mem := m, middle := if freeer = s.middle then prev else s.middle })
  else (freeer, s)

/-- "If the next mementry struct was free, the two are combined." -/
def mergeNext (freeer : ℕ) (s : HeapState) : HeapState :=
  let temp := (entryAt s.mem freeer).next
  if temp ≠ 0 ∧ (entryAt s.mem temp).free = 1 then
    let m := if (entryAt s.mem temp).next ≠ 0 then
      setPrev s.mem (entryAt s.mem temp).next (entryAt s.mem temp).prev else s.mem
    let m := if (entryAt m temp).prev ≠ 0 then
      setNext m (entryAt m temp).prev (entryAt m temp).next else m
    let m := setSize m freeer
      (toU64 ((entryAt m freeer).size + (sizeofMementry + (entryAt m temp).size)))
    { s with mem := m, middle := if temp = s.middle then freeer else s.middle }
  else s

/-- `myfree(x, file, line)`. -/
def myfree (x : ℕ) (s : HeapState) : FreeOutcome × HeapState :=
  if x < s.head + sizeofMementry ∨ s.head + 4999 < x then (.outOfBounds, s)
  else
    let freeer := x - sizeofMementry
    let e := entryAt s.mem freeer
    if e.code = mycode then
      if e.free = 1 then (.doubleFree, s)
      else
        let (freeer, s) := mergePrev freeer { s with mem := setFree s.mem freeer 1 }
        (.released, mergeNext freeer s)
    else (.notAllocated, s)

/-- `free_mem_count()`: the sum of the sizes of the free blocks listed from
`walker`, as an `int`. -/
def freeMemCount (m : Mem) : ℕ → ℤ → ℕ → Option ℤ
  | 0, _, _ => none
  | fuel + 1, rtn, walker =>
    if walker = 0 then some rtn
    else
      let e := entryAt m walker
      freeMemCount m fuel (if e.free ≠ 0 then toI32 (rtn + e.size) else rtn) e.next

end MyPthread.Heap
