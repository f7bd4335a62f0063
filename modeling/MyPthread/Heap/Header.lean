import MyPthread.Lib.Memory

/-!
# List headers

The `struct mementry` headers of `my_pthread.c` on byte memory.  A header is 32
bytes: the `int`s `size`, `code` and `free` at offsets 0, 4 and 8, four bytes of
padding, and the pointers `next` and `prev` at offsets 16 and 24.  `NULL` is
address `0`.

A store to one field of a header changes that field of that header and leaves
alone every header that does not overlap it; both facts are simp lemmas here,
so that later proofs never look at single bytes.
-/

namespace MyPthread.Heap

open MyPthread.Lib

/-- `mycode`, the number every header carries. -/
def mycode : ℤ := 1234567890

/-- `sizeof(struct mementry)`. -/
abbrev sizeofMementry : ℕ := 32

/-- `struct mementry`. -/
@[ext]
structure Mementry where
  size : ℤ
  code : ℤ
  free : ℤ
  next : ℕ
  prev : ℕ
deriving DecidableEq, Repr

/-- The header at address `p`. -/
def entryAt (m : Mem) (p : ℕ) : Mementry where
  size := toI32 (readLE m p 4)
  code := toI32 (readLE m (p + 4) 4)
  free := toI32 (readLE m (p + 8) 4)
  next := readLE m (p + 16) 8
  prev := readLE m (p + 24) 8

/-- `p->size = v`. -/
def setSize (m : Mem) (p : ℕ) (v : ℤ) : Mem := writeLE m p 4 (toU32 v)

/-- `p->code = v`. -/
def setCode (m : Mem) (p : ℕ) (v : ℤ) : Mem := writeLE m (p + 4) 4 (toU32 v)

/-- `p->free = v`. -/
def setFree (m : Mem) (p : ℕ) (v : ℤ) : Mem := writeLE m (p + 8) 4 (toU32 v)

/-- `p->next = v`. -/
def setNext (m : Mem) (p : ℕ) (v : ℕ) : Mem := writeLE m (p + 16) 8 v

/-- `p->prev = v`. -/
def setPrev (m : Mem) (p : ℕ) (v : ℕ) : Mem := writeLE m (p + 24) 8 v

/-! ## Field stores and header reads -/

/-- The bytes of the header at `p`. -/
def header (p : ℕ) : Set ℕ := Range p sizeofMementry

theorem mem_header {p x : ℕ} : x ∈ header p ↔ p ≤ x ∧ x < p + 32 := Iff.rfl

/-- Two headers that do not overlap. -/
def Apart (p q : ℕ) : Prop := p + 32 ≤ q ∨ q + 32 ≤ p

theorem Apart.symm {p q : ℕ} (h : Apart p q) : Apart q p := Or.symm h

/-- A header depends only on its own bytes. -/
theorem entryAt_congr {m m' : Mem} {p : ℕ} (h : ∀ x ∈ header p, m' x = m x) :
    entryAt m' p = entryAt m p := by
  have hread : ∀ o n, o + n ≤ 32 → readLE m' (p + o) n = readLE m (p + o) n := fun o n hon ↦
    readLE_congr fun i hi ↦ h _ (mem_header.mpr (by omega))
  have hsize := hread 0 4 (by omega)
  rw [Nat.add_zero] at hsize
  simp only [entryAt, hsize, hread 4 4, hread 8 4, hread 16 8, hread 24 8, Nat.reduceAdd,
    Nat.reduceLeDiff]

theorem entryAt_of_changesOnly {S : Set ℕ} {m m' : Mem} {p : ℕ} (h : ChangesOnly S m m')
    (hp : ∀ x ∈ header p, x ∉ S) : entryAt m' p = entryAt m p :=
  entryAt_congr fun x hx ↦ h x (hp x hx)

/-- A store inside one header leaves a header apart from it alone. -/
theorem entryAt_writeLE_of_apart {m : Mem} {p q a n v : ℕ} (h : Apart p q) (hq : q ≤ a)
    (hn : a + n ≤ q + 32) : entryAt (writeLE m a n v) p = entryAt m p :=
  entryAt_congr fun x hx ↦ writeLE_of_notMem (by
    rw [mem_header] at hx
    unfold Apart at h
    omega)

section Stores

variable {m : Mem} {p q : ℕ}

@[simp] theorem entryAt_setSize_self (v : ℤ) :
    entryAt (setSize m p v) p = { entryAt m p with size := toI32 v } := by
  ext
  case size =>
    simp only [entryAt, setSize, readLE_writeLE]
    rw [Nat.mod_eq_of_lt (by simpa using toU32_lt v), toI32_toU32]
  all_goals
    simp only [entryAt, setSize]
    rw [readLE_writeLE_of_disjoint (by omega)]

@[simp] theorem entryAt_setCode_self (v : ℤ) :
    entryAt (setCode m p v) p = { entryAt m p with code := toI32 v } := by
  ext
  case code =>
    simp only [entryAt, setCode, readLE_writeLE]
    rw [Nat.mod_eq_of_lt (by simpa using toU32_lt v), toI32_toU32]
  all_goals
    simp only [entryAt, setCode]
    rw [readLE_writeLE_of_disjoint (by omega)]

@[simp] theorem entryAt_setFree_self (v : ℤ) :
    entryAt (setFree m p v) p = { entryAt m p with free := toI32 v } := by
  ext
  case free =>
    simp only [entryAt, setFree, readLE_writeLE]
    rw [Nat.mod_eq_of_lt (by simpa using toU32_lt v), toI32_toU32]
  all_goals
    simp only [entryAt, setFree]
    rw [readLE_writeLE_of_disjoint (by omega)]

/-- A stored pointer is read back when it fits in its eight bytes. -/
theorem entryAt_setNext_self {v : ℕ} (hv : v < 2 ^ 64) :
    entryAt (setNext m p v) p = { entryAt m p with next := v } := by
  ext
  case next =>
    simp only [entryAt, setNext, readLE_writeLE]
    exact Nat.mod_eq_of_lt (by simpa using hv)
  all_goals
    simp only [entryAt, setNext]
    rw [readLE_writeLE_of_disjoint (by omega)]

theorem entryAt_setPrev_self {v : ℕ} (hv : v < 2 ^ 64) :
    entryAt (setPrev m p v) p = { entryAt m p with prev := v } := by
  ext
  case prev =>
    simp only [entryAt, setPrev, readLE_writeLE]
    exact Nat.mod_eq_of_lt (by simpa using hv)
  all_goals
    simp only [entryAt, setPrev]
    rw [readLE_writeLE_of_disjoint (by omega)]

variable (h : Apart p q)
include h

theorem entryAt_setSize_of_apart (v : ℤ) : entryAt (setSize m q v) p = entryAt m p :=
  entryAt_writeLE_of_apart h (by omega) (by omega)

theorem entryAt_setCode_of_apart (v : ℤ) : entryAt (setCode m q v) p = entryAt m p :=
  entryAt_writeLE_of_apart h (by omega) (by omega)

theorem entryAt_setFree_of_apart (v : ℤ) : entryAt (setFree m q v) p = entryAt m p :=
  entryAt_writeLE_of_apart h (by omega) (by omega)

theorem entryAt_setNext_of_apart (v : ℕ) : entryAt (setNext m q v) p = entryAt m p :=
  entryAt_writeLE_of_apart h (by omega) (by omega)

theorem entryAt_setPrev_of_apart (v : ℕ) : entryAt (setPrev m q v) p = entryAt m p :=
  entryAt_writeLE_of_apart h (by omega) (by omega)

end Stores

/-! ## Field stores change their header only -/

section Changes

variable {S : Set ℕ} {m m' : Mem} {p : ℕ}

theorem range_subset_header {a n : ℕ} (hp : p ≤ a) (hn : a + n ≤ p + 32) :
    Range a n ⊆ header p := fun x hx ↦ by
  rw [mem_Range] at hx
  exact mem_header.mpr (by omega)

variable (hp : header p ⊆ S) (h : ChangesOnly S m m')
include hp h

theorem changesOnly_setSize (v : ℤ) : ChangesOnly S m (setSize m' p v) :=
  h.writeLE ((range_subset_header (by omega) (by omega)).trans hp)

theorem changesOnly_setCode (v : ℤ) : ChangesOnly S m (setCode m' p v) :=
  h.writeLE ((range_subset_header (by omega) (by omega)).trans hp)

theorem changesOnly_setFree (v : ℤ) : ChangesOnly S m (setFree m' p v) :=
  h.writeLE ((range_subset_header (by omega) (by omega)).trans hp)

theorem changesOnly_setNext (v : ℕ) : ChangesOnly S m (setNext m' p v) :=
  h.writeLE ((range_subset_header (by omega) (by omega)).trans hp)

theorem changesOnly_setPrev (v : ℕ) : ChangesOnly S m (setPrev m' p v) :=
  h.writeLE ((range_subset_header (by omega) (by omega)).trans hp)

end Changes

end MyPthread.Heap
