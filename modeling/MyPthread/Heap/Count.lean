import MyPthread.Heap.Release
import MyPthread.Heap.Search
import MyPthread.Heap.Inner

/-!
# The free bytes of a heap

`free_mem_count` adds the sizes of the free blocks up.  On a well-formed heap the sum is an
`int`, so a request that a free block has room for is never more than it.
-/

namespace MyPthread.Heap

open MyPthread.Lib

namespace Layout

/-- The bytes in free blocks. -/
def room (h : Layout) : ℕ := (h.blocks.map fun b ↦ if b.free then b.size else 0).sum

variable {lo hi x : ℕ} {h : Layout} {b : Block}

theorem size_le_room (hb : b ∈ h.blocks) (hf : b.free = true) : b.size ≤ h.room := by
  have hmem : (if b.free then b.size else 0) ∈ h.blocks.map fun b ↦ if b.free then b.size else 0 :=
    List.mem_map.mpr ⟨b, hb, rfl⟩
  rw [if_pos hf] at hmem
  exact List.single_le_sum (fun _ _ ↦ Nat.zero_le _) _ hmem

/-- A request is served when its size is that of a free block at most. -/
theorem malloc_ne_zero (hb : b ∈ h.blocks) (hf : b.free = true) (hx : x ≤ b.size) :
    (h.malloc x).1 ≠ 0 := by
  rw [ne_eq, malloc_eq_zero_iff]
  intro hall
  exact hall b hb (Block.fits_iff.mpr ⟨hf, hx⟩)

/-- A request that is served is not larger than the room there is. -/
theorem le_room (h₀ : (h.malloc x).1 ≠ 0) : x ≤ h.room := by
  rw [ne_eq, malloc_eq_zero_iff] at h₀
  push Not at h₀
  obtain ⟨b, hb, hfits⟩ := h₀
  obtain ⟨hf, hx⟩ := Block.fits_iff.mp hfits
  exact hx.trans (size_le_room hb hf)

end Layout

section Count

variable {lo hi fuel prev : ℕ} {m : Mem} {s : HeapState} {h : Layout} {bs : List Block}

theorem sum_free_le (ht : Tiles 32 lo bs hi) :
    lo + (bs.map fun b ↦ if b.free then b.size else 0).sum ≤ hi := by
  induction bs generalizing lo with
  | nil => exact (show lo = hi from ht).le
  | cons b bs ih =>
    obtain ⟨haddr, htail⟩ := ht
    have hle := ih htail
    rw [List.map_cons, List.sum_cons]
    unfold Block.stop at hle
    split_ifs <;> omega

/-- Counting on from a block of the list. -/
theorem freeMemCount_seg (acc : ℕ) (hseg : Seg m prev bs 0) (hp : ∀ b ∈ bs, Plain b)
    (hfuel : bs.length < fuel)
    (hacc : acc + (bs.map fun b ↦ if b.free then b.size else 0).sum < 2147483648) :
    freeMemCount m fuel acc (headAddr bs 0) =
      some ((acc + (bs.map fun b ↦ if b.free then b.size else 0).sum : ℕ) : ℤ) := by
  induction bs generalizing prev fuel acc with
  | nil =>
    cases fuel with
    | zero => cases hfuel
    | succ fuel => rfl
  | cons b bs ih =>
    obtain ⟨fuel, rfl⟩ : ∃ k, fuel = k + 1 := ⟨fuel - 1, by omega⟩
    obtain ⟨hentry, htail⟩ := hseg
    rw [List.map_cons, List.sum_cons, ← Nat.add_assoc] at hacc ⊢
    have hstep : freeMemCount m (fuel + 1) acc (headAddr (b :: bs) 0) =
        freeMemCount m fuel ((acc + if b.free then b.size else 0 : ℕ) : ℤ) (headAddr bs 0) := by
      rw [headAddr, freeMemCount, if_neg (hp b List.mem_cons_self).1, hentry]
      have hnext : (entryOf prev b (headAddr bs 0)).next = headAddr bs 0 := rfl
      have hsize : (entryOf prev b (headAddr bs 0)).size = b.size := rfl
      have hfree : (entryOf prev b (headAddr bs 0)).free = if b.free then 1 else 0 := rfl
      dsimp only
      rw [hnext, hsize, hfree]
      cases hf : b.free with
      | true =>
        rw [hf, if_pos rfl] at hacc
        rw [if_pos rfl, if_pos one_ne_zero, if_pos rfl, ← Nat.cast_add, toI32_natCast (by omega)]
      | false => simp
    rw [hstep]
    exact ih _ htail (fun c hc ↦ hp c (List.mem_cons_of_mem _ hc))
      (Nat.lt_of_succ_lt_succ hfuel) hacc

/-- `free_mem_count` of a well-formed heap. -/
theorem freeMemCount_spec (hf : Fits lo hi) (hr : Represents lo hi s h)
    (hfuel : hi < lo + 32 * fuel) : freeMemCount s.mem fuel 0 s.head = some (h.room : ℤ) := by
  have hsum := sum_free_le hr.wf.tiles
  have hsize := hf.size
  have hhead : s.head = headAddr h.blocks 0 := by
    obtain ⟨b, hb, -⟩ := hr.wf.middle_mem
    have ht := hr.wf.tiles
    rw [hr.head]
    cases hblocks : h.blocks with
    | nil =>
      rw [hblocks] at hb
      cases hb
    | cons d ds =>
      rw [hblocks] at ht
      exact ht.1.symm
  have hcount := freeMemCount_seg 0 hr.seg (fun b hb ↦ plain_of_tiles hf hr.wf.tiles hb)
    (length_lt_fuel hr.wf.tiles hfuel) (by rw [Nat.zero_add]; omega)
  rw [Nat.zero_add, Nat.cast_zero, ← hhead] at hcount
  exact hcount

end Count

end MyPthread.Heap
