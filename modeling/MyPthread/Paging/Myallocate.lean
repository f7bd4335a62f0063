import MyPthread.Paging.State

/-!
# `myallocate`, `mydeallocate` and `swap_handler`

The calls of `mymemorymanager.c` for `THREADREQ`s, and the accesses of a thread
to its memory with the faults they cause.  The functions follow the code block by
block; the pages of a thread are chained from `first_page` through `next`.
-/

namespace MyPthread.Paging

open MyPthread.Lib MyPthread.Heap Function

variable (B : Block)

/-- `myallocate(x, .., LIBRARYREQ)`: the next `x` bytes of the memory after the
frames. -/
def libraryReq (x : ℕ) (s : Manager) : ℕ × Manager :=
  (s.osMemPtr, { s.enter with osMemPtr := s.osMemPtr + x }.protect)

/-- A request of the thread library, and the `mem_flag = 0` that follows it. -/
def library (x : ℕ) (s : Manager) : Manager := { (libraryReq x s).2 with memFlag := 0 }

/-- A new `page_meta`, of 48 bytes, for frame `i`.  `init` sets the fields that
the caller sets. -/
def newMeta (i : ℕ) (init : PageMetaPtr → PageMeta → PageMeta) (s : Manager) :
    PageMetaPtr × Manager :=
  let p := (libraryReq 48 s).1
  let s := (libraryReq 48 s).2
  (p,
    { s.enter with
      pageFrame := update s.pageFrame p i
      next := update s.next p none
      metas := update s.metas p (init p (s.metas p))
      made := p :: s.made
      home := update s.home p i })

theorem newMeta_eq (i : ℕ) (init : PageMetaPtr → PageMeta → PageMeta) (s : Manager) :
    newMeta i init s = (s.osMemPtr,
      { s with
        pageFrame := update s.pageFrame s.osMemPtr i
        next := update s.next s.osMemPtr none
        metas := update s.metas s.osMemPtr (init s.osMemPtr (s.metas s.osMemPtr))
        osMemPtr := s.osMemPtr + 48
        memFlag := 1
        accessible := fun _ ↦ true
        made := s.osMemPtr :: s.made
        home := update s.home s.osMemPtr i }) := rfl

/-! ## The heap of a page -/

/-- `head` and `middle` of the page `p` become the globals. -/
def loadHeap (p : PageMetaPtr) (s : Manager) : Manager :=
  { s with heap.head := (s.metas p).head, heap.middle := (s.metas p).middle }.note .load p

/-- `head = NULL; middle = NULL`, for the page `p`. -/
def resetHeap (p : PageMetaPtr) (s : Manager) : Manager :=
  { s with heap.head := 0, heap.middle := 0 }.note .reset p

/-- The globals are stored on the page `p`, with the bytes that are free. -/
def storeHeap (p : PageMetaPtr) (s : Manager) : Option Manager := do
  let free ← freeMemCount s.heap.mem heapFuel 0 s.heap.head
  let s := s.note .store p
  some
    { s with
      metas := update s.metas p
        { s.metas p with freePageMem := free, head := s.heap.head, middle := s.heap.middle } }

/-- `mymalloc(x, .., memptr, size)` with the globals of the page `p`. -/
def request (p : PageMetaPtr) (x memptr : ℕ) (size : ℤ) (s : Manager) :
    Option (ℕ × Manager) := do
  let (r, heap) ← mymalloc heapFuel x memptr size s.heap
  some (r, { s.note .mymalloc p with heap })

/-- `myfree(x)` with the globals of the page `p`. -/
def release (p : PageMetaPtr) (x : ℕ) (s : Manager) : Manager :=
  { s.note .myfree p with heap := (myfree x s.heap).2 }

/-! ## Requests of several pages -/

/-- The loop that evicts the frames `i`, .., `i + n - 1`. -/
def evictRange : ℕ → ℕ → Manager → Option Manager
  | _, 0, s => some s
  | i, n + 1, s => do evictRange (i + 1) n (← swapPages B i none s)

/-- What every page of a chunk of `n` pages with front `front` is set to. -/
def chunkMeta (tid n : ℕ) (front : PageMetaPtr) (_ : PageMeta) : PageMeta :=
  ⟨tid, n, -1, some front, 0, 0⟩

/-- The loop that makes the pages of a chunk from frame `i` on, `k` of them; returns
`new_page_meta`. -/
def chunkRest (front : PageMetaPtr) (n : ℕ) :
    ℕ → ℕ → Option PageMetaPtr → Manager → Option (Option PageMetaPtr × Manager)
  | _, 0, p, s => some (p, s)
  | i, k + 1, _, s => do
    let (p, s) := newMeta i (fun _ ↦ chunkMeta s.current n front) s
    let prev ← s.frameTable (i - 1)
    chunkRest front n (i + 1) k (some p) ((s.setNext prev p).setFrame i p)

/-- A chunk of `n` pages for a thread that has no page.  Returns
`current_page_meta`. -/
def chunkFirst (n : ℕ) (s : Manager) : Option (Option PageMetaPtr × Manager) := do
  let s ← evictRange B 0 n s
  let (front, s) := newMeta 0 (chunkMeta s.current n) s
  let s := (s.setFirstPage front).setFrame 0 front
  let (last, s) ← chunkRest front n 1 (n - 1) none s
  some (last, s.setMallocFrame (n - 1))

/-- A chunk of `n` pages after the pages a thread has.  It makes the front of the
chunk the `first_page`. -/
def chunkLater (n : ℕ) (s : Manager) : Option (Option PageMetaPtr × Manager) := do
  let i := s.tcb.mallocFrame + 1
  let s ← evictRange B i n (s.setMallocFrame i)
  let (front, s) := newMeta i (chunkMeta s.current n) s
  let prev ← s.frameTable (i - 1)
  let s := ((s.setNext prev front).setFirstPage front).setFrame i front
  let (last, s) ← chunkRest front n (i + 1) (n - 1) none s
  some (last, s.setMallocFrame (i + (n - 1)))

/-- `num_of_pages`, computed on `unsigned int`s. -/
def numOfPages (x : ℕ) : ℕ :=
  let y := (x + 32) % 2 ^ 32
  if 0 < y % 4096 then y / 4096 + 1 else y / 4096

/-- The bound on the pages of a thread that a chunk of `n` pages is checked
against. -/
def Manager.TooMany (s : Manager) (n : ℕ) : Prop :=
  if s.tcb.firstPage = none then 1596 < n else 1595 < s.tcb.mallocFrame + n

instance (s : Manager) (n : ℕ) : Decidable (s.TooMany n) :=
  inferInstanceAs (Decidable (ite _ _ _))

/-- `myallocate(x)` for more than 4064 bytes. -/
def allocateChunk (x : ℕ) (s : Manager) : Option (ℕ × Manager) := do
  let n := numOfPages x
  if s.TooMany n then return (0, s)
  let (last, s) ← if s.tcb.firstPage = none then chunkFirst B n s else chunkLater B n s
  let last ← last
  let front ← (s.metas last).frontMeta
  let (r, s) ← request last x (B.frame (s.pageFrame front)) (4096 * n) (resetHeap last s)
  let s ← storeHeap last s
  return (r, s.leave)

/-! ## Requests of up to a page -/

/-- The loop that brings the pages of a chunk before `cur` into their frames, from
frame `i` and the page `swap_ptr` on. -/
def bringChunk (cur : PageMetaPtr) :
    ℕ → ℕ → Option PageMetaPtr → Manager → Option Manager
  | 0, _, _, _ => none
  | fuel + 1, i, swapPtr, s =>
    if i < s.pageFrame cur then do
      let s ← if s.frameTable i = swapPtr then some s
        else swapPages B (s.pageFrame (← s.frameTable i)) (some (s.pageFrame (← swapPtr))) s
      bringChunk cur fuel (i + 1) (s.next (← swapPtr)) s
    else some s

/-- "If the page is a part of a big chunk" its pages are brought in. -/
def bringFront (cur : PageMetaPtr) (s : Manager) : Option Manager :=
  match (s.metas cur).frontMeta with
  | none => some s
  | some front => bringChunk B cur (s.pageCounter + 1) (s.pageFrame front) (some front) s

/-- The end of a chain. -/
def lastPage (next : PageMetaPtr → Option PageMetaPtr) : ℕ → PageMetaPtr → Option PageMetaPtr
  | 0, _ => none
  | fuel + 1, p => match next p with
    | none => some p
    | some q => lastPage next fuel q

/-- "If the page is not in frame, swap it in": the newest page of the thread. -/
def bringLast (s : Manager) : Option (PageMetaPtr × Manager) := do
  let temp ← s.frameTable s.tcb.mallocFrame
  if (s.metas temp).tid = s.current then return (temp, s)
  let last ← lastPage s.next (s.pageCounter + 1) (← s.tcb.firstPage)
  return (last, ← swapPages B s.tcb.mallocFrame (some (s.pageFrame last)) s)

/-- The first page of a thread. -/
def newFirst (s : Manager) : Option (PageMetaPtr × Manager) := do
  let s ← swapPages B 0 none s
  let (p, s) := newMeta 0
    (fun _ m ↦ { m with
      tid := s.current, numPages := 1, frontMeta := none, head := 0, middle := 0 }) s
  return (p, (s.setFirstPage p).setFrame 0 p)

/-- A page after those a thread has.  `front_meta` is not set. -/
def newPage (s : Manager) : Option (PageMetaPtr × Manager) := do
  let i := s.tcb.mallocFrame + 1
  let s ← swapPages B i none (s.setMallocFrame i)
  let (p, s) := newMeta i
    (fun _ m ↦ { m with tid := s.current, numPages := 1, head := 0, middle := 0 }) s
  let s := s.setFrame i p
  let prev ← s.frameTable (i - 1)
  return (p, s.setNext prev p)

/-- The page a request is first tried on, with its heap loaded; `none` inside when
the pages are used up. -/
def currentPage (s : Manager) : Option (Option PageMetaPtr × Manager) := do
  match s.tcb.firstPage with
  | some _ =>
    let (cur, s) ← bringLast B s
    let s ← bringFront B cur s
    return (some cur, loadHeap cur s)
  | none =>
    if s.pageCounter < 5692 then
      let (cur, s) ← newFirst B s
      return (some cur, resetHeap cur s)
    else return (none, s)

/-- "Is the current page in physical memory? If not swap it in." -/
def bringPage (counter : ℕ) (temp : PageMetaPtr) (s : Manager) : Option Manager :=
  if s.pageFrame temp = counter then some s
  else swapPages B counter (some (s.pageFrame temp)) s

/-- The request on the heap of the page `temp`, which is in its frame. -/
def tryHeap (x : ℕ) (temp : PageMetaPtr) (s : Manager) : Option (ℕ × Manager) := do
  let s ← bringFront B temp s
  request temp x 0 0 (loadHeap temp s)

/-- The loop over the pages of the thread, from `temp` at frame `counter` on, for
one whose heap has room for the request.  `0` is returned when there is none. -/
def searchPages (x : ℕ) : ℕ → ℕ → Option PageMetaPtr → Manager → Option (ℕ × Manager)
  | 0, _, _, _ => none
  | _ + 1, _, none, s => some (0, s)
  | fuel + 1, counter, some temp, s =>
    if toI32 x ≤ (s.metas temp).freePageMem then do
      let s ← bringPage B counter temp s
      let (r, s) ← tryHeap B x temp s
      if r ≠ 0 then return (r, (← storeHeap temp s).leave)
      searchPages x fuel (counter + 1) (s.next temp) s
    else searchPages x fuel (counter + 1) (s.next temp) s

/-- "None of the thread's pages could fit the request, so we need to allocate a new
page." -/
def allocateNew (x : ℕ) (s : Manager) : Option (ℕ × Manager) := do
  if ¬(s.pageCounter < 5692 ∧ s.tcb.mallocFrame < 1596) then return (0, s)
  let (cur, s) ← newPage B s
  let (r, s) ← request cur x (B.frame s.tcb.mallocFrame) 4096 (resetHeap cur s)
  return (r, (← storeHeap cur s).leave)

/-- The request on the heap of the page `cur`, which is loaded, and then on those of the
other pages.  `0` is returned when none has room. -/
def tryPages (x : ℕ) (cur : PageMetaPtr) (s : Manager) : Option (ℕ × Manager) := do
  let (r, s) ← request cur x (B.frame s.tcb.mallocFrame) 4096 s
  let s ← storeHeap cur s
  if r ≠ 0 then return (r, s.leave)
  searchPages B x (s.pageCounter + 1) 0 s.tcb.firstPage s

/-- `myallocate(x)` for up to 4064 bytes. -/
def allocatePage (x : ℕ) (s : Manager) : Option (ℕ × Manager) := do
  let (cur, s) ← currentPage B s
  match cur with
  | none => return (0, s)
  | some cur =>
    let (r, s) ← tryPages B x cur s
    if r ≠ 0 then return (r, s)
    allocateNew B x s

/-- `myallocate(x, .., THREADREQ)`. -/
def myallocate (x : ℕ) (s : Manager) : Option (ℕ × Manager) :=
  if 4064 < x then allocateChunk B x s.enter else allocatePage B x s.enter

/-! ## `mydeallocate` and `swap_handler` -/

/-- The page `mydeallocate` looks for when it is not in frame `index`. -/
def findPage (index : ℕ) (s : Manager) : Option PageMetaPtr :=
  if index ≠ 0 then do
    let before ← s.frameTable (index - 1)
    if (s.metas before).tid = s.current then s.next before
    else follow s.next index s.tcb.firstPage
  else follow s.next index s.tcb.firstPage

/-- `(int)(a - myblock_ptr) / 4096`. -/
def frameOf (a : ℕ) : ℤ := (toI32 ((a : ℤ) - B.addr)).tdiv 4096

/-- `mydeallocate(x, .., THREADREQ)`.  An index before the table is a fault. -/
def mydeallocate (x : ℕ) (s : Manager) : Option Manager := do
  let s := s.enter
  if frameOf B x < 0 then none
  else
    let index := (frameOf B x).toNat
    let resident ← s.frameTable index
    if (s.metas resident).tid = s.current then
      return (← storeHeap resident (release resident x (loadHeap resident s))).leave
    let temp ← findPage index s
    let s ← swapPages B index (some (s.pageFrame temp)) (loadHeap temp s)
    return (← storeHeap temp (release temp x s)).leave

/-- `swap_handler` at the address `a`; `exit` for an address that is not the
thread's. -/
def swapHandler (a : ℕ) (s : Manager) : Option Manager := do
  let difference := toI32 ((a : ℤ) - B.addr)
  if difference < 0 ∨ 1596 * 4096 < difference then none
  else
    let frame := (frameOf B a).toNat
    if s.tcb.mallocFrame < frame then none
    else
      let resident ← s.frameTable frame
      if (s.metas resident).tid = s.current then return s.unprotectFrame frame
      let temp ← follow s.next frame s.tcb.firstPage
      let s ← swapPages B frame (some (s.pageFrame temp)) s
      return (s.protect).unprotectFrame frame

/-- An access to the address `a`: in a frame that is protected it faults, and is
retried once `swap_handler` is back. -/
def access (a : ℕ) (s : Manager) : Option Manager :=
  if B.addr ≤ a ∧ a < B.frame 1596 ∧ s.accessible ((a - B.addr) / 4096) = false then
    swapHandler B a s
  else some s

/-- A load of the byte at `a`. -/
def load (a : ℕ) (s : Manager) : Option (UInt8 × Manager) := do
  let s ← access B a s
  return (s.heap.mem a, s)

/-- A store of the byte `v` at `a`. -/
def store (a : ℕ) (v : UInt8) (s : Manager) : Option Manager := do
  let s ← access B a s
  return { s with heap.mem := setByte s.heap.mem a v }

/-- The scheduler gives the processor to `tid`. -/
def switch (tid : ℕ) (s : Manager) : Manager := { s.protect with current := tid }

/-! ## The start -/

/-- What is in the memory and in the swap file before the first call. -/
structure Boot where
  mem : Mem
  swapFile : Mem
  frameTable : ℕ → Option PageMetaPtr
  pageFrame : PageMetaPtr → ℕ
  next : PageMetaPtr → Option PageMetaPtr
  metas : PageMetaPtr → PageMeta

/-- The part of the block after the frames, where `frame_table` and the `page_meta`s
will be, is zero: the block is fresh memory. -/
structure Boot.Zeroed (b : Boot) : Prop where
  frameTable : ∀ i, b.frameTable i = none
  metas : ∀ p, b.metas p = ⟨0, 0, 0, none, 0, 0⟩

/-- The manager after its first call, when `frame_table` has been allocated.  The
initial thread, of `tid` 0, executes. -/
def Boot.start (b : Boot) : Manager where
  heap := ⟨b.mem, 0, 0⟩
  swapFile := b.swapFile
  frameTable := b.frameTable
  pageFrame := b.pageFrame
  next := b.next
  metas := b.metas
  osMemPtr := B.frame 1601 + 8 * 1596
  pageCounter := 0
  memFlag := 0
  accessible := fun _ ↦ false
  tcbs := fun _ ↦ ⟨0, none⟩
  current := 0
  made := []
  home := fun _ ↦ 0
  trace := []

theorem lowBlock_pos : 0 < 4096 := by decide

theorem lowBlock_fits : 4096 + 8388608 ≤ 2 ^ 64 := by decide

/-- The block at 4096. -/
def lowBlock : Block := ⟨4096, lowBlock_pos, lowBlock_fits⟩

/-- Memory and a swap file that are zero. -/
def blank : Boot :=
  ⟨fun _ ↦ 0, fun _ ↦ 0, fun _ ↦ none, fun _ ↦ 0, fun _ ↦ none, fun _ ↦ ⟨0, 0, 0, none, 0, 0⟩⟩

theorem blank_zeroed : blank.Zeroed := ⟨fun _ ↦ rfl, fun _ ↦ rfl⟩

/-! ## Runs -/

/-- What the threads do, one at a time. -/
inductive Call where
  /-- `malloc(x)`. -/
  | malloc (x : ℕ)
  /-- `free(p)`. -/
  | free (p : ℕ)
  | load (a : ℕ)
  | store (a : ℕ) (v : UInt8)
  /-- The scheduler gives the processor to the thread `tid`. -/
  | switch (tid : ℕ)
  /-- The thread library allocates `x` bytes. -/
  | library (x : ℕ)
deriving DecidableEq, Repr

/-- A call, with the pointer or the byte it returns. -/
def Call.exec : Call → Manager → Option (ℕ × Manager)
  | malloc x, s => myallocate B x s
  | free p, s => do return (0, ← mydeallocate B p s)
  | load a, s => do
    let (v, s) ← Paging.load B a s
    return (v.toNat, s)
  | store a v, s => do return (0, ← Paging.store B a v s)
  | switch tid, s => some (0, Paging.switch tid s)
  | library x, s => some (0, Paging.library x s)

/-- The states of the runs all of whose calls meet `P`. -/
inductive Reachable (P : Call → Manager → Prop) : Manager → Prop where
  | start {b : Boot} : b.Zeroed → Reachable P (b.start B)
  | call {c : Call} {r : ℕ} {s s' : Manager} : Reachable P s → P c s → c.exec B s = some (r, s') →
      Reachable P s'

end MyPthread.Paging
