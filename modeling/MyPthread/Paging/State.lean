import MyPthread.Lib.Links
import MyPthread.Heap.Client

/-!
# The page table and `swap_pages`

The globals of `mymemorymanager.c` and the function that moves pages.  The
memory manager gives every thread the same addresses: frame `i` of the block at
`myblock_ptr` is where a thread sees its page `i`, whoever's page is in it now.
A page is at a *location*: below 1597 that is a frame of the block, from 1597
on a slot of the swap file.

A page is named by the address of its `page_meta`.  The fields `page_frame` and
`next`, which the page table lives in, are maps of their own; the others are
together in `PageMeta`.  `NULL` is `none` for a `page_meta_ptr`.  A function
returns `none` where the process ends, by a fault or by `exit`, or a loop is not
over after as many rounds as there are pages.

Two fields are history and are read by no function: `made` lists the pages with the
frame each was made for, and `trace` is what `swap_pages` and the heap operations did
so far.
-/

namespace MyPthread.Paging

open MyPthread.Lib MyPthread.Heap Function

/-- The block that `myblock_ptr` points at. -/
structure Block where
  addr : ℕ
  pos : 0 < addr
  fits : addr + 8388608 ≤ 2 ^ 64

namespace Block

/-- `myblock_ptr + i * 4096`. -/
def frame (B : Block) (i : ℕ) : ℕ := B.addr + i * 4096

/-- `swap_temp`. -/
def swapTemp (B : Block) : ℕ := B.frame 1600

end Block

/-- A `page_meta_ptr` that is not `NULL`. -/
abbrev PageMetaPtr := ℕ

/-- The fields of `page_meta` besides `page_frame` and `next`. -/
structure PageMeta where
  tid : ℕ
  numPages : ℤ
  freePageMem : ℤ
  frontMeta : Option PageMetaPtr
  head : ℕ
  middle : ℕ
deriving DecidableEq, Repr

/-- The fields of `tcb` that the memory manager uses. -/
structure Tcb where
  mallocFrame : ℕ
  firstPage : Option PageMetaPtr
deriving DecidableEq, Repr

/-- What the manager does with the globals `head` and `middle`. -/
inductive HeapOp where
  /-- They are loaded from a page. -/
  | load
  /-- They are set to `NULL`. -/
  | reset
  | mymalloc
  | myfree
  /-- They are stored on a page. -/
  | store
deriving DecidableEq, Repr

/-- An entry of the history. -/
inductive Event where
  /-- `swap_pages(src, dest)`, with the page in frame `src`, the location `loc` that it moves
  to, and the memory before and after. -/
  | swap (page : Option PageMetaPtr) (src : ℕ) (dest : Option ℕ) (loc : ℕ) (before after : Mem)
  /-- A heap operation of the thread `tid`, with `head` and `mem_flag` at that moment.  The
  heap is that of a page made for frame `last`, which begins in frame `first`; `held`
  is the thread of the page in each frame, and the frame it was made for. -/
  | heap (op : HeapOp) (tid head : ℕ) (memFlag : ℤ) (first last : ℕ) (held : ℕ → Option (ℕ × ℕ))

/-- The globals of the memory manager.  `heap` is the memory with `head` and
`middle`; `tcbs` are the thread control blocks by `tid`, `current` the `tid` that
executes; `accessible` says which frames `mprotect` lets it read and write.
`current_page_meta` is set by every call before it is read, and is passed on as a
value. -/
structure Manager where
  heap : HeapState
  swapFile : Mem
  frameTable : ℕ → Option PageMetaPtr
  pageFrame : PageMetaPtr → ℕ
  next : PageMetaPtr → Option PageMetaPtr
  metas : PageMetaPtr → PageMeta
  osMemPtr : ℕ
  pageCounter : ℕ
  memFlag : ℤ
  accessible : ℕ → Bool
  tcbs : ℕ → Tcb
  current : ℕ
  made : List PageMetaPtr
  home : PageMetaPtr → ℕ
  trace : List Event

namespace Manager

/-- `current->thread_block`. -/
abbrev tcb (s : Manager) : Tcb := s.tcbs s.current

/-- `mprotect` of the region with `PROT_READ | PROT_WRITE`. -/
def unprotect (s : Manager) : Manager := { s with accessible := fun _ ↦ true }

/-- `mprotect` of the region with `PROT_NONE`; `lock_mem()`. -/
def protect (s : Manager) : Manager := { s with accessible := fun _ ↦ false }

/-- `mem_flag = 1`, and the region is opened. -/
def enter (s : Manager) : Manager := { s.unprotect with memFlag := 1 }

/-- The region is closed, and `mem_flag = 0`. -/
def leave (s : Manager) : Manager := { s.protect with memFlag := 0 }

/-- `mprotect` of frame `i` with `PROT_READ | PROT_WRITE`. -/
def unprotectFrame (i : ℕ) (s : Manager) : Manager :=
  { s with accessible := update s.accessible i true }

/-- `current->thread_block->malloc_frame = i`. -/
def setMallocFrame (i : ℕ) (s : Manager) : Manager :=
  { s with tcbs := update s.tcbs s.current { s.tcb with mallocFrame := i } }

/-- `current->thread_block->first_page = p`. -/
def setFirstPage (p : PageMetaPtr) (s : Manager) : Manager :=
  { s with tcbs := update s.tcbs s.current { s.tcb with firstPage := some p } }

@[simp] theorem tcb_setMallocFrame (i : ℕ) (s : Manager) :
    (s.setMallocFrame i).tcb = { s.tcb with mallocFrame := i } := update_self ..

@[simp] theorem tcb_setFirstPage (p : PageMetaPtr) (s : Manager) :
    (s.setFirstPage p).tcb = { s.tcb with firstPage := some p } := update_self ..

theorem tcbs_setMallocFrame_of_ne {i t : ℕ} {s : Manager} (h : t ≠ s.current) :
    (s.setMallocFrame i).tcbs t = s.tcbs t := update_of_ne h ..

theorem tcbs_setFirstPage_of_ne {p : PageMetaPtr} {t : ℕ} {s : Manager} (h : t ≠ s.current) :
    (s.setFirstPage p).tcbs t = s.tcbs t := update_of_ne h ..

/-- `p->next = q`. -/
def setNext (p q : PageMetaPtr) (s : Manager) : Manager :=
  { s with next := update s.next p (some q) }

/-- `frame_table[i] = p`. -/
def setFrame (i : ℕ) (p : PageMetaPtr) (s : Manager) : Manager :=
  { s with frameTable := update s.frameTable i (some p) }

/-- The pages. -/
def pages (s : Manager) : Set PageMetaPtr := {p | p ∈ s.made}

/-- Where the heap of the page `p` begins: the front of its chunk, if it is of one. -/
def frontOf (s : Manager) (p : PageMetaPtr) : PageMetaPtr := ((s.metas p).frontMeta).getD p

/-- The thread of the page in frame `i`, and the frame that page was made for. -/
def held (s : Manager) (i : ℕ) : Option (ℕ × ℕ) :=
  (s.frameTable i).map fun q ↦ ((s.metas q).tid, s.home q)

/-- A heap operation on the page `p` goes into the history. -/
def note (op : HeapOp) (p : PageMetaPtr) (s : Manager) : Manager :=
  { s with
    trace := .heap op s.current s.heap.head s.memFlag (s.home (s.frontOf p)) (s.home p) s.held ::
      s.trace }

end Manager

/-! ## `swap_pages` -/

/-- The `n` bytes at `soff` of `src`, moved to `doff` of `dst`: `read` and `write`
at the offset of the last `lseek`. -/
def moveBytes (dst : Mem) (doff : ℕ) (src : Mem) (soff n : ℕ) : Mem := fun x ↦
  if doff ≤ x ∧ x < doff + n then src (soff + (x - doff)) else dst x

/-- The loop `for (i = 0; i < n; i++) p = p->next`, from `p`. -/
def follow (next : PageMetaPtr → Option PageMetaPtr) : ℕ → Option PageMetaPtr → Option PageMetaPtr
  | 0, p => p
  | n + 1, p => do follow next n (next (← p))

variable (B : Block)

/-- `swap_pages(src, -1)`: the page in frame `src` moves to the first location
never used. -/
def evict (src : ℕ) (s : Manager) : Option Manager :=
  if s.pageCounter < 1597 then
    let mem := copyBytes s.heap.mem (B.frame s.pageCounter) (B.frame src) 4096
    match s.frameTable src with
    | some p => some
      { s with
        heap.mem := mem
        pageFrame := update s.pageFrame p s.pageCounter
        frameTable := update (update s.frameTable s.pageCounter (some p)) src none
        pageCounter := s.pageCounter + 1 }
    | none => some
      { s with
        heap.mem := mem
        pageCounter := s.pageCounter + 1 }
  else do
    let p ← s.frameTable src
    some
      { s with
        pageFrame := update s.pageFrame p s.pageCounter
        swapFile :=
          moveBytes s.swapFile ((s.pageCounter - 1597) * 4096) s.heap.mem (B.frame src) 4096
        pageCounter := s.pageCounter + 1 }

/-- `swap_pages(src, dest)` for a frame `dest`: the two pages change places. -/
def exchange (src dest : ℕ) (s : Manager) : Option Manager := do
  let mem := copyBytes s.heap.mem B.swapTemp (B.frame src) 4096
  let mem := copyBytes mem (B.frame src) (B.frame dest) 4096
  let mem := copyBytes mem (B.frame dest) B.swapTemp 4096
  let p ← s.frameTable src
  let q ← s.frameTable dest
  some
    { s with
      heap.mem := mem
      frameTable := update (update s.frameTable src (some q)) dest (some p)
      pageFrame := update (update s.pageFrame q src) p dest }

/-- `swap_pages(src, dest)` for a slot `dest` of the swap file: the page `src` of
the current thread is read from the slot and the one it displaces written to it.
The offset is a multiple of 4906. -/
def swapIn (src dest : ℕ) (s : Manager) : Option Manager := do
  let q ← s.frameTable src
  let p ← follow s.next src s.tcb.firstPage
  let temp := copyBytes s.heap.mem B.swapTemp (B.frame src) 4096
  let offset := (dest - 1597) * 4906
  some
    { s with
      heap.mem := moveBytes temp (B.frame src) s.swapFile offset 4096
      swapFile := moveBytes s.swapFile offset temp B.swapTemp 4096
      frameTable := update s.frameTable src (some p)
      pageFrame := update (update s.pageFrame q dest) p src }

/-- What `swap_pages` moves. -/
def movePages (src : ℕ) (dest : Option ℕ) (s : Manager) : Option Manager :=
  match dest with
  | none => evict B src s
  | some dest => if dest < 1597 then exchange B src dest s else swapIn B src dest s

/-- `swap_pages(src, dest)`; `none` is the `-1` that asks for a new location. -/
def swapPages (src : ℕ) (dest : Option ℕ) (s : Manager) : Option Manager := do
  let s' ← movePages B src dest s.enter
  some
    { s' with
      memFlag := 0
      trace :=
        .swap (s.frameTable src) src dest (dest.getD s.pageCounter) s.heap.mem s'.heap.mem ::
          s'.trace }

end MyPthread.Paging
