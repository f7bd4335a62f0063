import MyPthread.Paging.Myallocate

/-!
# The OS region

The part of the block after the frames and the scratch page, out of which all
`LIBRARYREQ`s are served: one pointer, that every request moves by its size.  The
requests are those of `my_pthread_create` with its contexts and their stacks, of
`my_pthread_exit`, of a thread's `myallocate` for its new `page_meta`s, and direct
ones.

A request may come with a stack: the range `[ss_sp, ss_sp + ss_size)` that a context is
told to use, with `ss_sp` what the request returned.
-/

namespace MyPthread.Os

open MyPthread.Lib

/-- `MEM`. -/
abbrev mem : ℕ := 4096 * 10

/-- A `LIBRARYREQ` of `size` bytes, and the `ss_size` of the stack in it, if it is one. -/
structure Request where
  size : ℕ
  ssSize : Option ℕ
deriving DecidableEq, Repr

/-- The calls that lead to requests.  `threadReq k` is a `myallocate` of a thread that makes
`k` new pages. -/
inductive Call where
  | create
  | exit
  | threadReq (k : ℕ)
  | libraryReq (x : ℕ)
deriving DecidableEq, Repr

/-- A request for an object that is no stack. -/
def object (size : ℕ) : Request := ⟨size, none⟩

/-- The requests of `createScheduler`: `pLevels` and twelve queues. -/
def schedulerRequests : List Request := object 80 :: List.replicate 12 (object 16)

variable (ucontext : ℕ)

/-- The requests of `my_pthread_create`.  The size of a `ucontext_t` is the C library's. -/
def createRequests (firstThread : Bool) : List Request :=
  [object ucontext, ⟨2080, some mem⟩, object ucontext, object 72, object 16] ++
    (if firstThread then schedulerRequests ++ [object ucontext, object 16, object 72] else []) ++
      [⟨mem, some mem⟩]

/-- The requests of a call.  `my_pthread_exit` and the `myallocate` of a thread dereference
`current`, which the first `my_pthread_create` sets. -/
def callRequests (firstThread : Bool) : Call → Option (List Request)
  | .create => some (createRequests ucontext firstThread)
  | .exit => if firstThread then none else some [object 24]
  | .threadReq k => if firstThread then none else some (List.replicate k (object 48))
  | .libraryReq x => some [object x]

/-- The requests of a run of calls. -/
def runRequests : Bool → List Call → Option (List Request)
  | _, [] => some []
  | firstThread, c :: cs => do
    let rs ← callRequests ucontext firstThread c
    let rest ← runRequests (firstThread && c != .create) cs
    return rs ++ rest

/-- The requests of a run from the start: `frame_table` comes first. -/
def requests (cs : List Call) : Option (List Request) := do
  let rs ← runRequests ucontext true cs
  return if cs = [] then rs else object (8 * 1596) :: rs

/-! ## Serving requests -/

/-- What a request returned. -/
structure Served where
  ptr : ℤ
  request : Request

namespace Served

/-- The addresses of the object. -/
def range (v : Served) : Set ℤ := {a | v.ptr ≤ a ∧ a < v.ptr + v.request.size}

/-- The addresses of the stack, if there is one. -/
def stack (v : Served) : Set ℤ :=
  {a | ∃ n ∈ v.request.ssSize, v.ptr ≤ a ∧ a < v.ptr + n}

end Served

/-- The requests served from `osMemPtr` on: each returns the pointer, and moves it by
`(int)x`. -/
def serve : ℤ → List Request → List Served
  | _, [] => []
  | osMemPtr, r :: rs => ⟨osMemPtr, r⟩ :: serve (osMemPtr + toI32 r.size) rs

variable (B : Paging.Block)

/-- The region: from frame 1601 to the end of the block. -/
def region : Set ℤ := {a | (B.frame 1601 : ℤ) ≤ a ∧ a < B.addr + 8388608}

/-- The bytes of the region. -/
abbrev regionSize : ℕ := 8388608 - 1601 * 4096

/-- Every request got a range in the region, away from all others, and every stack is in
the range that was requested for it. -/
structure Sound (vs : List Served) : Prop where
  inside : ∀ v ∈ vs, v.range ⊆ region B
  disjoint : vs.Pairwise fun v w ↦ Disjoint v.range w.range
  stack : ∀ v ∈ vs, v.stack ⊆ v.range

/-- The bytes requested. -/
def total (rs : List Request) : ℕ := (rs.map Request.size).sum

section Serve

variable {B} {p : ℤ} {k : ℕ} {rs : List Request} {v : Served} {r : Request} {ucontext}

theorem mem_serve_request (h : v ∈ serve p rs) : v.request ∈ rs := by
  induction rs generalizing p with
  | nil => cases h
  | cons r rs ih =>
    rcases List.mem_cons.mp h with rfl | h
    · exact List.mem_cons_self
    · exact List.mem_cons_of_mem _ (ih h)

theorem exists_mem_serve (h : r ∈ rs) : ∃ v ∈ serve p rs, v.request = r := by
  induction rs generalizing p with
  | nil => cases h
  | cons s rs ih =>
    rcases List.mem_cons.mp h with rfl | h
    · exact ⟨_, List.mem_cons_self, rfl⟩
    · obtain ⟨v, hv, hvr⟩ := ih h
      exact ⟨v, List.mem_cons_of_mem _ hv, hvr⟩

@[simp] theorem total_cons : total (r :: rs) = r.size + total rs := by
  simp [total]

/-- A size that fits in the region is not negative as an `int`. -/
theorem toI32_size (h : r.size ≤ regionSize) : toI32 r.size = r.size := by
  apply toI32_of_nonneg
  unfold NonnegI32
  unfold regionSize at h
  omega

/-- Requests that fit are served one after the other. -/
theorem bounds_of_total (hfit : total rs ≤ regionSize) (h : v ∈ serve p rs) :
    p ≤ v.ptr ∧ v.ptr + v.request.size ≤ p + total rs := by
  induction rs generalizing p with
  | nil => cases h
  | cons r rs ih =>
    rw [total_cons] at hfit
    rw [serve, toI32_size (by omega)] at h
    rw [total_cons]
    push_cast
    rcases List.mem_cons.mp h with rfl | h
    · dsimp only
      omega
    · have := ih (by omega) h
      omega

theorem pairwise_of_total (hfit : total rs ≤ regionSize) :
    (serve p rs).Pairwise fun v w ↦ Disjoint v.range w.range := by
  induction rs generalizing p with
  | nil => exact .nil
  | cons r rs ih =>
    rw [total_cons] at hfit
    rw [serve, toI32_size (by omega)]
    refine List.pairwise_cons.mpr ⟨?_, ih (by omega)⟩
    intro w hw
    have := (bounds_of_total (by omega) hw).1
    rw [Set.disjoint_left]
    rintro a ⟨-, ha⟩ ⟨ha', -⟩
    dsimp only at ha
    omega

/-- The address right after the region. -/
theorem region_stop : ((B.frame 1601 + regionSize : ℕ) : ℤ) = B.addr + 8388608 := by
  unfold Paging.Block.frame regionSize
  push_cast
  omega

/-- If all requests from `k` bytes into the region on get ranges in it, they fit in what is
left of it: the first that does not would reach over its end. -/
theorem total_of_inside (hk : k ≤ regionSize)
    (h : ∀ v ∈ serve (B.frame 1601 + k : ℕ) rs, v.range ⊆ region B) :
    k + total rs ≤ regionSize := by
  induction rs generalizing k with
  | nil => simpa [total] using hk
  | cons r rs ih =>
    have hstop := region_stop (B := B)
    have hr : k + r.size ≤ regionSize := by
      by_contra hgt
      have hmem : ((B.frame 1601 + regionSize : ℕ) : ℤ) ∈
          (⟨(B.frame 1601 + k : ℕ), r⟩ : Served).range := by
        constructor
        · dsimp only
          omega
        · dsimp only
          omega
      have hlt := (h _ List.mem_cons_self hmem).2
      omega
    have hrest := @ih (k + r.size) hr fun v hv ↦ h v (by
      rw [serve, toI32_size (by omega)]
      refine List.mem_cons_of_mem _ ?_
      rwa [show ((B.frame 1601 + k : ℕ) : ℤ) + r.size = (B.frame 1601 + (k + r.size) : ℕ) by
        push_cast
        ring])
    rw [total_cons]
    omega

/-- The ranges are in the region and apart exactly when all requests fit in it. -/
theorem ranges_iff : ((∀ v ∈ serve (B.frame 1601) rs, v.range ⊆ region B) ∧
    (serve (B.frame 1601) rs).Pairwise fun v w ↦ Disjoint v.range w.range) ↔
      total rs ≤ regionSize := by
  constructor
  · rintro ⟨h, -⟩
    simpa using total_of_inside (k := 0) (Nat.zero_le _) (by simpa using h)
  · intro hfit
    refine ⟨?_, pairwise_of_total hfit⟩
    rintro v hv a ⟨ha, ha'⟩
    have := bounds_of_total hfit hv
    have hstop := region_stop (B := B)
    constructor
    · omega
    · omega

/-- A stack is in its range exactly when its size is not declared larger. -/
theorem stack_subset_iff : v.stack ⊆ v.range ↔ ∀ n ∈ v.request.ssSize, n ≤ v.request.size := by
  constructor
  · intro h n hn
    by_contra hgt
    have hmem : v.ptr + v.request.size ∈ v.stack := ⟨n, hn, by omega, by omega⟩
    have := (h hmem).2
    omega
  · rintro h a ⟨n, hn, ha, ha'⟩
    have := h n hn
    exact ⟨ha, by omega⟩

theorem stacks_iff : (∀ v ∈ serve p rs, v.stack ⊆ v.range) ↔
    ∀ r ∈ rs, ∀ n ∈ r.ssSize, n ≤ r.size := by
  constructor
  · intro h r hr
    obtain ⟨v, hv, rfl⟩ := exists_mem_serve (p := p) hr
    exact stack_subset_iff.mp (h v hv)
  · intro h v hv
    exact stack_subset_iff.mpr (h _ (mem_serve_request hv))

end Serve

/-! ## Runs -/

section Runs

variable {B} {ucontext} {c : Call} {cs : List Call} {rs : List Request} {b : Bool}

/-- The stack of the context a thread exits to is declared larger than it is. -/
theorem exists_stack_create (ucontext : ℕ) (b : Bool) :
    ∃ r ∈ createRequests ucontext b, ∃ n ∈ r.ssSize, r.size < n :=
  ⟨⟨2080, some mem⟩, by simp [createRequests], mem, rfl, by decide⟩

/-- Only `my_pthread_create` asks for stacks. -/
theorem ssSize_of_ne_create (h : callRequests ucontext b c = some rs) (hc : c ≠ .create) :
    ∀ r ∈ rs, r.ssSize = none := by
  cases c with
  | create => exact absurd rfl hc
  | exit =>
    rw [callRequests] at h
    split at h
    · cases h
    · cases h
      simp [object]
  | threadReq k =>
    rw [callRequests] at h
    split at h
    · cases h
    · cases h
      intro r hr
      rw [List.eq_of_mem_replicate hr]
      rfl
  | libraryReq x =>
    cases h
    simp [object]

theorem runRequests_stacks_iff (h : runRequests ucontext b cs = some rs) :
    (∀ r ∈ rs, ∀ n ∈ r.ssSize, n ≤ r.size) ↔ Call.create ∉ cs := by
  induction cs generalizing b rs with
  | nil =>
    cases h
    simp
  | cons c cs ih =>
    simp only [runRequests, Option.bind_eq_bind, Option.bind_eq_some_iff, Option.pure_def,
      Option.some.injEq] at h
    obtain ⟨rs₁, h₁, rs₂, h₂, rfl⟩ := h
    rw [List.forall_mem_append, ih h₂, List.mem_cons, not_or]
    refine and_congr_left fun _ ↦ ?_
    constructor
    · rintro hall rfl
      cases h₁
      obtain ⟨r, hr, n, hn, hlt⟩ := exists_stack_create ucontext b
      have := hall r hr n hn
      omega
    · intro hne r hr n hn
      rw [ssSize_of_ne_create h₁ (Ne.symm hne) r hr] at hn
      cases hn

theorem requests_stacks_iff (h : requests ucontext cs = some rs) :
    (∀ r ∈ rs, ∀ n ∈ r.ssSize, n ≤ r.size) ↔ Call.create ∉ cs := by
  simp only [requests, Option.bind_eq_bind, Option.bind_eq_some_iff, Option.pure_def,
    Option.some.injEq] at h
  obtain ⟨rs', h', rfl⟩ := h
  rw [← runRequests_stacks_iff h']
  split_ifs
  · rfl
  · rw [List.forall_mem_cons, and_iff_right]
    intro n hn
    cases hn

/-- The requests of a run are served from ranges of the region that are apart, with every
stack in its own, exactly when no thread is created and all requests fit in the region. -/
theorem sound_iff (B : Paging.Block) (h : requests ucontext cs = some rs) :
    Sound B (serve (B.frame 1601) rs) ↔ Call.create ∉ cs ∧ total rs ≤ regionSize := by
  rw [← requests_stacks_iff h, ← ranges_iff (B := B), ← stacks_iff (p := (B.frame 1601 : ℤ))]
  constructor
  · rintro ⟨hinside, hdisjoint, hstack⟩
    exact ⟨hstack, hinside, hdisjoint⟩
  · rintro ⟨hstack, hinside, hdisjoint⟩
    exact ⟨hinside, hdisjoint, hstack⟩

/-- A single direct request of 100 bytes. -/
theorem sound_iff_libraryReq :
    Sound Paging.lowBlock (serve (Paging.lowBlock.frame 1601) [object 12768, object 100]) ↔
      Call.create ∉ [Call.libraryReq 100] ∧ total [object 12768, object 100] ≤ regionSize :=
  sound_iff Paging.lowBlock (show requests 936 [.libraryReq 100] = _ from rfl)

/-- The first `my_pthread_create` tells a context to use 40960 bytes of which 2080 are its
own. -/
theorem not_sound : ¬∀ (B : Paging.Block) (ucontext : ℕ) (cs : List Call) (rs : List Request),
    requests ucontext cs = some rs → Sound B (serve (B.frame 1601) rs) := by
  intro h
  have hsound := h Paging.lowBlock 936 [.create] _ rfl
  have hstacks := stacks_iff.mp hsound.stack
  have := hstacks ⟨2080, some mem⟩ (by decide) mem rfl
  exact absurd this (by decide)

end Runs

end MyPthread.Os
