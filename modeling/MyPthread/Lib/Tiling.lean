import Mathlib.Tactic
import Mathlib.Data.List.Chain

/-!
# Tilings of an interval by headed blocks

A region of memory cut into consecutive blocks, each of `o` bytes of header
followed by its payload: the list of blocks of a first-fit heap with in-place
headers.  `Tiles o a bs e` says that `bs` covers `[a, e)` without gap or
overlap, `Coalesced bs` that no two neighbours are both free, and `coalesce o`
is the merge of all neighbouring free blocks.
-/

namespace MyPthread.Lib

/-- A block: the address of its header, the size of its payload, and whether it
is free. -/
@[ext]
structure Block where
  addr : ℕ
  size : ℕ
  free : Bool
deriving DecidableEq, Repr

namespace Block

/-- The first address after the block. -/
def stop (o : ℕ) (b : Block) : ℕ := b.addr + o + b.size

/-- A free block that holds `x` bytes. -/
def fits (x : ℕ) (b : Block) : Bool := b.free && decide (x ≤ b.size)

theorem fits_iff {x : ℕ} {b : Block} : b.fits x = true ↔ b.free = true ∧ x ≤ b.size := by
  simp [fits]

end Block

/-- The blocks `bs`, in order, cover `[a, e)`. -/
def Tiles (o : ℕ) : ℕ → List Block → ℕ → Prop
  | a, [], e => a = e
  | a, b :: bs, e => b.addr = a ∧ Tiles o (b.stop o) bs e

/-- No two neighbouring blocks are both free. -/
def Coalesced (bs : List Block) : Prop :=
  bs.IsChain fun b c ↦ ¬(b.free = true ∧ c.free = true)

variable {o : ℕ}

namespace Tiles

variable {a e : ℕ} {bs pre post : List Block} {b c : Block}

theorem append_iff : Tiles o a (pre ++ post) e ↔ ∃ d, Tiles o a pre d ∧ Tiles o d post e := by
  induction pre generalizing a with
  | nil => simp [Tiles]
  | cons b pre ih =>
    simp only [List.cons_append, Tiles, ih]
    constructor
    · rintro ⟨hb, d, hpre, hpost⟩
      exact ⟨d, ⟨hb, hpre⟩, hpost⟩
    · rintro ⟨d, ⟨hb, hpre⟩, hpost⟩
      exact ⟨hb, d, hpre, hpost⟩

/-- The tiling around one of its blocks. -/
theorem split_iff : Tiles o a (pre ++ b :: post) e ↔
    Tiles o a pre b.addr ∧ Tiles o (b.stop o) post e := by
  rw [append_iff]
  constructor
  · rintro ⟨d, hpre, rfl, hpost⟩
    exact ⟨hpre, hpost⟩
  · rintro ⟨hpre, hpost⟩
    exact ⟨b.addr, hpre, rfl, hpost⟩

theorem length_le (h : Tiles o a bs e) : a + o * bs.length ≤ e := by
  induction bs generalizing a with
  | nil => simpa using Nat.le_of_eq h
  | cons b bs ih =>
    have := ih h.2
    rw [List.length_cons, Nat.mul_succ, ← h.1]
    unfold Block.stop at this
    omega

theorem le (h : Tiles o a bs e) : a ≤ e := le_trans (Nat.le_add_right _ _) h.length_le

/-- Every block lies inside the tiled interval. -/
theorem bounds (h : Tiles o a bs e) (hb : b ∈ bs) : a ≤ b.addr ∧ b.stop o ≤ e := by
  obtain ⟨pre, post, rfl⟩ := List.append_of_mem hb
  obtain ⟨hpre, hpost⟩ := split_iff.mp h
  exact ⟨hpre.le, hpost.le⟩

/-- Earlier blocks end where, or before, later ones start. -/
theorem pairwise (h : Tiles o a bs e) : bs.Pairwise fun b c ↦ b.stop o ≤ c.addr := by
  induction bs generalizing a with
  | nil => exact List.Pairwise.nil
  | cons b bs ih => exact List.pairwise_cons.mpr ⟨fun c hc ↦ (h.2.bounds hc).1, ih h.2⟩

/-- Two different blocks of a tiling do not overlap. -/
theorem disjoint (h : Tiles o a bs e) (hb : b ∈ bs) (hc : c ∈ bs) (hne : b ≠ c) :
    b.stop o ≤ c.addr ∨ c.stop o ≤ b.addr := by
  obtain ⟨pre, post, rfl⟩ := List.append_of_mem hb
  obtain ⟨hpre, hpost⟩ := split_iff.mp h
  rcases List.mem_append.mp hc with hc | hc
  · exact .inr (hpre.bounds hc).2
  · rcases List.mem_cons.mp hc with rfl | hc
    · exact absurd rfl hne
    · exact .inl (hpost.bounds hc).1

/-- With headers of positive length, a block is determined by its address. -/
theorem eq_of_addr (ho : 0 < o) (h : Tiles o a bs e) (hb : b ∈ bs) (hc : c ∈ bs)
    (heq : b.addr = c.addr) : b = c := by
  by_contra hne
  have := h.disjoint hb hc hne
  unfold Block.stop at this
  omega

/-- Each block ends where the next one begins. -/
theorem isChain (h : Tiles o a bs e) : bs.IsChain fun b c ↦ c.addr = b.stop o := by
  induction bs generalizing a with
  | nil => exact List.isChain_nil
  | cons b bs ih =>
    cases bs with
    | nil => exact List.isChain_singleton _
    | cons c bs => exact List.isChain_cons_cons.mpr ⟨h.2.1, ih h.2⟩

/-- The last block ends with the interval. -/
theorem stop_getLast? (h : Tiles o a bs e) (hc : c ∈ bs.getLast?) : c.stop o = e := by
  obtain ⟨pre, rfl⟩ := List.getLast?_eq_some_iff.mp hc
  exact (split_iff.mp h).2

theorem addr_lt_stop (ho : 0 < o) (b : Block) : b.addr < b.stop o := by
  unfold Block.stop
  omega

/-- In a tiling the addresses are strictly increasing. -/
theorem sorted (ho : 0 < o) (h : Tiles o a bs e) : (bs.map Block.addr).Pairwise (· < ·) := by
  rw [List.pairwise_map]
  exact h.pairwise.imp fun hbc ↦ lt_of_lt_of_le (addr_lt_stop ho _) hbc

/-- Replacing a block by a tiling of its extent. -/
theorem replace (h : Tiles o a (pre ++ b :: post) e) {new : List Block}
    (hnew : Tiles o b.addr new (b.stop o)) : Tiles o a (pre ++ (new ++ post)) e := by
  obtain ⟨hpre, hpost⟩ := split_iff.mp h
  exact append_iff.mpr ⟨b.addr, hpre, append_iff.mpr ⟨b.stop o, hnew, hpost⟩⟩

end Tiles

namespace Coalesced

variable {pre post new : List Block} {b : Block}

theorem append_iff : Coalesced (pre ++ post) ↔ Coalesced pre ∧ Coalesced post ∧
    ∀ x ∈ pre.getLast?, ∀ y ∈ post.head?, ¬(x.free = true ∧ y.free = true) :=
  List.isChain_append

theorem cons_iff : Coalesced (b :: post) ↔
    (∀ y ∈ post.head?, ¬(b.free = true ∧ y.free = true)) ∧ Coalesced post :=
  List.isChain_cons

/-- A free block has allocated neighbours, so it may be replaced by any
coalesced list. -/
theorem replace (h : Coalesced (pre ++ b :: post)) (hb : b.free = true)
    (hnew : Coalesced new) : Coalesced (pre ++ (new ++ post)) := by
  obtain ⟨hpre, hpost, hlast⟩ := append_iff.mp h
  obtain ⟨hhead, htail⟩ := cons_iff.mp hpost
  refine append_iff.mpr ⟨hpre, append_iff.mpr ⟨hnew, htail, ?_⟩, ?_⟩
  · rintro x - y hy ⟨-, hyf⟩
    exact hhead y hy ⟨hb, hyf⟩
  · rintro x hx y hy ⟨hxf, -⟩
    exact hlast x hx b rfl ⟨hxf, hb⟩

end Coalesced

/-! ## Merging -/

/-- Two neighbouring free blocks as one: the second header becomes payload. -/
def fuse (o : ℕ) (b c : Block) : Block := ⟨b.addr, b.size + o + c.size, true⟩

/-- Put `b` in front of a list, merging it with a free head when it is free. -/
def glue (o : ℕ) (b : Block) : List Block → List Block
  | [] => [b]
  | c :: cs => if b.free = true ∧ c.free = true then fuse o b c :: cs else b :: c :: cs

/-- Merge all neighbouring free blocks. -/
def coalesce (o : ℕ) : List Block → List Block
  | [] => []
  | b :: bs => glue o b (coalesce o bs)

section Glue

variable {a e : ℕ} {bs cs pre : List Block} {b c p : Block}

theorem glue_cons : glue o b (c :: cs) =
    if b.free = true ∧ c.free = true then fuse o b c :: cs else b :: c :: cs := rfl

theorem stop_fuse (h : c.addr = b.stop o) : (fuse o b c).stop o = c.stop o := by
  simp only [Block.stop, fuse] at h ⊢
  omega

/-- Merging to the right and then to the left is merging to the left first. -/
theorem glue_glue (hp : p.free = true) (hb : b.free = true) :
    glue o p (glue o b bs) = glue o (fuse o p b) bs := by
  cases bs with
  | nil => simp [glue, hp, hb]
  | cons c cs =>
    by_cases hc : c.free = true
    · rw [glue_cons, if_pos ⟨hb, hc⟩, glue_cons, if_pos ⟨hp, rfl⟩, glue_cons, if_pos ⟨rfl, hc⟩]
      simp only [fuse, List.cons.injEq, Block.mk.injEq, true_and, and_true]
      omega
    · rw [glue_cons, if_neg fun h ↦ hc h.2, glue_cons, if_pos ⟨hp, hb⟩, glue_cons,
        if_neg fun h ↦ hc h.2]

theorem tiles_glue (hb : b.addr = a) (h : Tiles o (b.stop o) bs e) :
    Tiles o a (glue o b bs) e := by
  cases bs with
  | nil => exact ⟨hb, h⟩
  | cons c cs =>
    rw [glue_cons]
    split
    · refine ⟨hb, ?_⟩
      rw [stop_fuse h.1]
      exact h.2
    · exact ⟨hb, h⟩

theorem tiles_coalesce (h : Tiles o a bs e) : Tiles o a (coalesce o bs) e := by
  induction bs generalizing a with
  | nil => exact h
  | cons b bs ih => exact tiles_glue h.1 (ih h.2)

/-- The head of `glue o b bs` starts where `b` does and is free when `b` is. -/
theorem head?_glue (o : ℕ) (b : Block) (bs : List Block) :
    ∃ c cs, glue o b bs = c :: cs ∧ c.addr = b.addr ∧ c.free = b.free := by
  cases bs with
  | nil => exact ⟨b, [], rfl, rfl, rfl⟩
  | cons c cs =>
    rw [glue_cons]
    split
    case isTrue h => exact ⟨_, _, rfl, rfl, h.1.symm⟩
    case isFalse => exact ⟨_, _, rfl, rfl, rfl⟩

theorem coalesced_glue (h : Coalesced bs) : Coalesced (glue o b bs) := by
  cases bs with
  | nil => exact List.isChain_singleton b
  | cons c cs =>
    rw [glue_cons]
    split
    case isTrue hf =>
      refine Coalesced.cons_iff.mpr ⟨fun y hy ↦ ?_, (Coalesced.cons_iff.mp h).2⟩
      rintro ⟨-, hyf⟩
      exact (Coalesced.cons_iff.mp h).1 y hy ⟨hf.2, hyf⟩
    case isFalse hf =>
      refine Coalesced.cons_iff.mpr ⟨fun y hy ↦ ?_, h⟩
      rw [List.head?_cons, Option.mem_some_iff] at hy
      exact hy ▸ hf

/-- No free block becomes smaller. -/
theorem exists_mem_glue (hc : c ∈ b :: bs) (hf : c.free = true) :
    ∃ d ∈ glue o b bs, d.free = true ∧ c.size ≤ d.size := by
  cases bs with
  | nil => exact ⟨c, hc, hf, le_refl _⟩
  | cons e es =>
    rw [glue_cons]
    split_ifs with hfree
    · rcases List.mem_cons.mp hc with rfl | hc
      · exact ⟨_, List.mem_cons_self, rfl, (Nat.le_add_right _ _).trans (Nat.le_add_right _ _)⟩
      · rcases List.mem_cons.mp hc with rfl | hc
        · exact ⟨_, List.mem_cons_self, rfl, Nat.le_add_left _ _⟩
        · exact ⟨c, List.mem_cons_of_mem _ hc, hf, le_refl _⟩
    · exact ⟨c, hc, hf, le_refl _⟩

theorem exists_mem_coalesce (hc : c ∈ bs) (hf : c.free = true) :
    ∃ d ∈ coalesce o bs, d.free = true ∧ c.size ≤ d.size := by
  induction bs with
  | nil => cases hc
  | cons b bs ih =>
    rcases List.mem_cons.mp hc with rfl | hc
    · exact exists_mem_glue List.mem_cons_self hf
    · obtain ⟨d, hd, hdf, hle⟩ := ih hc
      obtain ⟨e, he, hef, hle'⟩ := exists_mem_glue (o := o) (List.mem_cons_of_mem b hd) hdf
      exact ⟨e, he, hef, hle.trans hle'⟩

theorem coalesced_coalesce (bs : List Block) : Coalesced (coalesce o bs) := by
  induction bs with
  | nil => exact List.isChain_nil
  | cons b bs ih => exact coalesced_glue ih

/-- A block that may not be merged with the head is just put in front. -/
theorem glue_of_not_free (h : ∀ c ∈ bs.head?, ¬(b.free = true ∧ c.free = true)) :
    glue o b bs = b :: bs := by
  cases bs with
  | nil => rfl
  | cons c cs =>
    rw [glue_cons]
    rw [if_neg (h c rfl)]

theorem coalesce_of_coalesced (h : Coalesced bs) : coalesce o bs = bs := by
  induction bs with
  | nil => rfl
  | cons b bs ih =>
    obtain ⟨hhead, htail⟩ := Coalesced.cons_iff.mp h
    rw [coalesce, ih htail, glue_of_not_free hhead]

/-- Coalescing behind a coalesced prefix only touches the last block of the
prefix. -/
theorem coalesce_append (h : Coalesced (pre ++ [p])) :
    coalesce o (pre ++ p :: bs) = pre ++ glue o p (coalesce o bs) := by
  induction pre with
  | nil => rfl
  | cons q pre ih =>
    rw [List.cons_append] at h
    obtain ⟨hhead, htail⟩ := Coalesced.cons_iff.mp h
    rw [List.cons_append, coalesce, ih htail, List.cons_append]
    apply glue_of_not_free
    intro c hc
    cases pre with
    | nil =>
      obtain ⟨d, ds, hd, -, hdf⟩ := head?_glue o p (coalesce o bs)
      rw [List.nil_append, hd, List.head?_cons, Option.mem_some_iff] at hc
      rw [← hc, hdf]
      exact hhead p rfl
    | cons r pre => exact hhead c hc

/-- Merging neither adds nor removes an allocated block. -/
theorem mem_glue_of_not_free {d : Block} (hd : d.free = false) :
    d ∈ glue o b bs ↔ d = b ∨ d ∈ bs := by
  cases bs with
  | nil => simp [glue]
  | cons c cs =>
    rw [glue_cons]
    split
    case isTrue h =>
      have hb : d ≠ b := fun hdb ↦ by simp [hdb, h.1] at hd
      have hc : d ≠ c := fun hdc ↦ by simp [hdc, h.2] at hd
      have hm : d ≠ fuse o b c := fun hdm ↦ by simp [hdm, fuse] at hd
      simp [hb, hc, hm]
    case isFalse => simp

theorem mem_coalesce_of_not_free {d : Block} (hd : d.free = false) :
    d ∈ coalesce o bs ↔ d ∈ bs := by
  induction bs with
  | nil => rfl
  | cons b bs ih => rw [coalesce, mem_glue_of_not_free hd, ih, List.mem_cons]

end Glue

/-! ## Marking a block free -/

/-- Mark the block with header at `a` free. -/
def mark (a : ℕ) (bs : List Block) : List Block :=
  bs.map fun b ↦ if b.addr = a then { b with free := true } else b

section Mark

variable {a e lo : ℕ} {bs pre post : List Block} {b : Block}

theorem tiles_mark (h : Tiles o lo bs e) : Tiles o lo (mark a bs) e := by
  induction bs generalizing lo with
  | nil => exact h
  | cons b bs ih =>
    rw [mark, List.map_cons]
    split
    all_goals exact ⟨h.1, ih h.2⟩

/-- Marking leaves lists without a header at `a` alone. -/
theorem mark_of_forall_ne (h : ∀ b ∈ bs, b.addr ≠ a) : mark a bs = bs := by
  rw [mark, List.map_congr_left (g := id), List.map_id]
  intro b hb
  rw [if_neg (h b hb), id]

/-- In a tiling, marking touches exactly the block at the marked address. -/
theorem mark_append (ho : 0 < o) (h : Tiles o lo (pre ++ b :: post) e) :
    mark b.addr (pre ++ b :: post) = pre ++ { b with free := true } :: post := by
  obtain ⟨hpre, hpost⟩ := Tiles.split_iff.mp h
  have h₁ : mark b.addr pre = pre := mark_of_forall_ne fun c hc ↦ by
    have := (hpre.bounds hc).2
    unfold Block.stop at this
    omega
  have h₂ : mark b.addr post = post := mark_of_forall_ne fun c hc ↦ by
    have := (hpost.bounds hc).1
    unfold Block.stop at this
    omega
  calc mark b.addr (pre ++ b :: post)
      = mark b.addr pre ++ { b with free := true } :: mark b.addr post := by simp [mark]
    _ = _ := by rw [h₁, h₂]

theorem mem_mark_of_not_free {d : Block} (hd : d.free = false) :
    d ∈ mark a bs ↔ d ∈ bs ∧ d.addr ≠ a := by
  rw [mark, List.mem_map]
  constructor
  · rintro ⟨b, hb, hbd⟩
    by_cases hba : b.addr = a
    · rw [if_pos hba] at hbd
      simp [← hbd] at hd
    · rw [if_neg hba] at hbd
      exact hbd ▸ ⟨hb, hba⟩
  · rintro ⟨hd', hne⟩
    exact ⟨d, hd', if_neg hne⟩

end Mark

/-- The address of the block that covers address `x`: the first one that ends
after it. -/
def cover (o : ℕ) (bs : List Block) (x : ℕ) : Option ℕ :=
  (bs.find? fun b ↦ x < b.stop o).map Block.addr

/-- Blocks that end at or before `x` do not cover it. -/
theorem cover_append_of_le {pre bs : List Block} {x : ℕ} (h : ∀ b ∈ pre, b.stop o ≤ x) :
    cover o (pre ++ bs) x = cover o bs x := by
  have hnone : pre.find? (fun b ↦ decide (x < b.stop o)) = none := by
    rw [List.find?_eq_none]
    intro b hb
    simpa using h b hb
  rw [cover, List.find?_append, hnone, Option.none_or, cover]

theorem cover_cons_of_lt {b : Block} {bs : List Block} {x : ℕ} (h : x < b.stop o) :
    cover o (b :: bs) x = some b.addr := by
  simp [cover, h]

theorem cover_cons_of_le {b : Block} {bs : List Block} {x : ℕ} (h : b.stop o ≤ x) :
    cover o (b :: bs) x = cover o bs x :=
  by
  rw [← List.singleton_append, cover_append_of_le]
  simpa using h

/-- A header is covered by its own block. -/
theorem cover_addr {a e : ℕ} {pre post : List Block} {b : Block} (ho : 0 < o)
    (h : Tiles o a (pre ++ b :: post) e) : cover o (pre ++ b :: post) b.addr = some b.addr := by
  rw [cover_append_of_le fun c hc ↦ ((Tiles.split_iff.mp h).1.bounds hc).2]
  exact cover_cons_of_lt (Tiles.addr_lt_stop ho b)

/-- Merging two neighbours moves the addresses the second one covered to the
first, and no others. -/
theorem cover_fuse {a e x y : ℕ} {pre post : List Block} {b c : Block} (ho : 0 < o)
    (h : Tiles o a (pre ++ b :: c :: post) e) (hxy : cover o (pre ++ b :: c :: post) x = some y) :
    cover o (pre ++ fuse o b c :: post) x = some (if c.addr = y then b.addr else y) := by
  obtain ⟨hpre, hc, hpost⟩ := Tiles.split_iff.mp h
  have hbc := stop_fuse hc
  have hb := Tiles.addr_lt_stop ho b
  have hclt := Tiles.addr_lt_stop ho c
  by_cases hx : ∃ d ∈ pre, x < d.stop o
  · -- covered before the two
    have hfind : ∀ bs : List Block, cover o (pre ++ bs) x = cover o pre x := fun bs ↦ by
      have hsome : (pre.find? fun d ↦ decide (x < d.stop o)).isSome := by
        rw [List.find?_isSome]
        simpa using hx
      rw [cover, List.find?_append, Option.or_of_isSome hsome, cover]
    rw [hfind] at hxy ⊢
    rw [hxy, if_neg]
    obtain ⟨d, hd, rfl⟩ := Option.map_eq_some_iff.mp hxy
    have := (hpre.bounds (List.mem_of_find?_eq_some hd)).2
    have := Tiles.addr_lt_stop ho d
    omega
  · have hle : ∀ d ∈ pre, d.stop o ≤ x := fun d hd ↦ by
      by_contra hlt
      exact hx ⟨d, hd, by omega⟩
    rw [cover_append_of_le hle] at hxy ⊢
    by_cases hxb : x < b.stop o
    · rw [cover_cons_of_lt hxb, Option.some_inj] at hxy
      rw [cover_cons_of_lt (by omega), if_neg (by omega), ← hxy]
      rfl
    · rw [cover_cons_of_le (by omega)] at hxy
      by_cases hxc : x < c.stop o
      · rw [cover_cons_of_lt hxc, Option.some_inj] at hxy
        rw [cover_cons_of_lt (by omega), if_pos hxy]
        rfl
      · rw [cover_cons_of_le (by omega)] at hxy
        rw [cover_cons_of_le (by omega), hxy, if_neg]
        obtain ⟨d, hd, rfl⟩ := Option.map_eq_some_iff.mp hxy
        have := (hpost.bounds (List.mem_of_find?_eq_some hd)).1
        omega

/-- Every address of the tiled interval is covered. -/
theorem exists_cover {a e x : ℕ} {bs : List Block} (h : Tiles o a bs e) (ha : a ≤ x)
    (hx : x < e) : ∃ b ∈ bs, cover o bs x = some b.addr := by
  induction bs generalizing a with
  | nil =>
    have hae : a = e := h
    omega
  | cons b bs ih =>
    by_cases hb : x < b.stop o
    · exact ⟨b, List.mem_cons_self, cover_cons_of_lt hb⟩
    · obtain ⟨c, hc, hcov⟩ := ih h.2 (by omega)
      exact ⟨c, List.mem_cons_of_mem _ hc, (cover_cons_of_le (by omega)).trans hcov⟩

/-! ## Orders of marking -/

section Order

variable {a b e x y : ℕ} {bs cs : List Block} {c : Block}

theorem mark_comm (a b : ℕ) (bs : List Block) : mark a (mark b bs) = mark b (mark a bs) := by
  simp only [mark, List.map_map]
  apply List.map_congr_left
  intro c _
  rw [Function.comp_apply, Function.comp_apply]
  split_ifs <;> simp_all

theorem mark_cons (a : ℕ) (c : Block) (bs : List Block) :
    mark a (c :: bs) = (if c.addr = a then { c with free := true } else c) :: mark a bs := rfl

/-- A free block is not changed by marking it. -/
theorem mark_cons_of_free (hc : c.free = true) : mark a (c :: bs) = c :: mark a bs := by
  rw [mark_cons]
  split_ifs
  · rw [← hc]
  · rfl

theorem coalesce_mark_glue : coalesce o (mark a (glue o c cs)) = coalesce o (mark a (c :: cs)) := by
  cases cs with
  | nil => rfl
  | cons d ds =>
    rw [glue_cons]
    split_ifs with hf
    · rw [mark_cons_of_free rfl, mark_cons_of_free hf.1, mark_cons_of_free hf.2]
      exact (glue_glue hf.1 hf.2).symm
    · rfl

/-- Merging before a block is marked makes no difference after the next merging. -/
theorem coalesce_mark_coalesce : coalesce o (mark a (coalesce o bs)) = coalesce o (mark a bs) := by
  induction bs with
  | nil => rfl
  | cons c cs ih => rw [coalesce, coalesce_mark_glue, mark_cons, mark_cons, coalesce, coalesce, ih]

theorem cover_cons (o : ℕ) (c : Block) (cs : List Block) (x : ℕ) :
    cover o (c :: cs) x = if x < c.stop o then some c.addr else cover o cs x := by
  split_ifs with hx
  · exact cover_cons_of_lt hx
  · exact cover_cons_of_le (not_lt.mp hx)

theorem cover_mark (a : ℕ) (bs : List Block) (x : ℕ) : cover o (mark a bs) x = cover o bs x := by
  induction bs with
  | nil => rfl
  | cons c cs ih =>
    rw [mark_cons, cover_cons, cover_cons, ih]
    by_cases hc : c.addr = a
    · rw [if_pos hc]
      rfl
    · rw [if_neg hc]

theorem Tiles.le_of_cover (h : Tiles o a bs e) (hx : cover o bs x = some y) : a ≤ y := by
  obtain ⟨d, hd, rfl⟩ := Option.map_eq_some_iff.mp hx
  exact (h.bounds (List.mem_of_find?_eq_some hd)).1

theorem cover_glue (ho : 0 < o) (h : Tiles o a (c :: cs) e) (hx : c.stop o ≤ x) (hy : c.stop o ≤ y)
    (hxy : cover o cs x = cover o cs y) : cover o (glue o c cs) x = cover o (glue o c cs) y := by
  cases cs with
  | nil =>
    rw [glue, cover_cons_of_le hx, cover_cons_of_le hy]
    exact hxy
  | cons d ds =>
    rw [glue_cons]
    split_ifs with hf
    · have hd := h.2.2
      have hlt := Tiles.addr_lt_stop ho d
      -- `d` covers both or neither
      rw [cover_cons, cover_cons] at hxy
      rw [cover_cons, cover_cons, stop_fuse h.2.1]
      split_ifs at hxy ⊢ with h₁ h₂ h₂
      · rfl
      · have := hd.le_of_cover hxy.symm
        omega
      · have := hd.le_of_cover hxy
        omega
      · exact hxy
    · rwa [cover_cons_of_le hx, cover_cons_of_le hy]

/-- After merging, an address and the start of the block that covered it are covered by the same
block. -/
theorem cover_coalesce (ho : 0 < o) (h : Tiles o a bs e) (hxy : cover o bs x = some y) :
    cover o (coalesce o bs) x = cover o (coalesce o bs) y := by
  induction bs generalizing a with
  | nil => cases hxy
  | cons c cs ih =>
    have hc := Tiles.addr_lt_stop ho c
    by_cases hx : x < c.stop o
    · rw [cover_cons_of_lt hx, Option.some_inj] at hxy
      subst hxy
      -- the first block only grows
      have hgrow : ∀ z < c.stop o, cover o (coalesce o (c :: cs)) z = some c.addr := by
        intro z hz
        rw [coalesce]
        cases hcs : coalesce o cs with
        | nil => exact cover_cons_of_lt hz
        | cons d ds =>
          rw [glue_cons]
          split_ifs
          · have hstop : (fuse o c d).stop o = c.stop o + o + d.size := by
              simp only [Block.stop, fuse]
              omega
            exact cover_cons_of_lt (by omega)
          · exact cover_cons_of_lt hz
      rw [hgrow x hx, hgrow _ hc]
    · rw [cover_cons_of_le (not_lt.mp hx)] at hxy
      have hy := h.2.le_of_cover hxy
      exact cover_glue ho ⟨h.1, tiles_coalesce h.2⟩ (not_lt.mp hx) hy (ih h.2 hxy)

end Order

end MyPthread.Lib
