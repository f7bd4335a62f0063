import MyPthread.Paging.Spared

/-!
# `shalloc`

The four shared pages are one heap, the `head` and `middle` of which `shalloc` keeps in globals of
its own.  The size of a request is a `size_t`, which `mymalloc` takes as an `unsigned int`: what it
serves is the size modulo `2 ^ 32`.
-/

namespace MyPthread.Paging

open MyPthread.Lib MyPthread.Heap Function

variable {B : Block} {m m' : Manager} {ch : ℕ → List PageMetaPtr} {c : ℕ → ℕ}
  {lay : ℕ → ℕ → Layout} {live : ℕ → List (ℕ × ℕ)} {x r a size : ℕ} {h : Layout} {log : List Entry}
  {got : List (ℕ × ℕ)} {e d : ℕ × ℕ} {v : UInt8}

/-- The memory manager with `shalloc_head` and `shalloc_middle`. -/
structure Shared where
  manager : Manager
  head : ℕ
  middle : ℕ

/-- The shared heap: the memory with the globals of `shalloc`. -/
def Shared.heap (s : Shared) : HeapState := ⟨s.manager.heap.mem, s.head, s.middle⟩

variable {s s' : Shared}

/-- `shalloc(size)`. -/
def shalloc (B : Block) (size : ℕ) (s : Shared) : Option (ℕ × Shared) := do
  let (r, heap) ← mymalloc heapFuel (size % 2 ^ 32) (B.frame 1596) (4 * 4096) s.heap
  return (r, ⟨{ s.manager with heap }, heap.head, heap.middle⟩)

/-- The runs of calls of the manager, of which each meets `P`, of `shalloc`, of which each meets
`Q`, and of stores to what `shalloc` returned; with the log of the former and with the pointers that
`shalloc` returned and the sizes that they were requested with. -/
inductive Shares (B : Block) (P : Call → Manager → List Entry → Prop) (Q : ℕ → Shared → Prop) :
    Shared → List Entry → List (ℕ × ℕ) → Prop where
  | start {b : Boot} : b.Zeroed → Shares B P Q ⟨b.start B, 0, 0⟩ [] []
  | call {call : Call} {r : ℕ} {s : Shared} {m : Manager} {log : List Entry} {got : List (ℕ × ℕ)} :
      Shares B P Q s log got → P call s.manager log → call.exec B s.manager = some (r, m) →
      Shares B P Q ⟨m, s.head, s.middle⟩ (⟨s.manager.current, call, r⟩ :: log) got
  | shalloc {size r : ℕ} {s s' : Shared} {log : List Entry} {got : List (ℕ × ℕ)} :
      Shares B P Q s log got → size < 2 ^ 64 → Q size s → shalloc B size s = some (r, s') →
      Shares B P Q s' log (if r = 0 then got else (r, size) :: got)
  | store {a : ℕ} {v : UInt8} {s : Shared} {log : List Entry} {got : List (ℕ × ℕ)} {e : ℕ × ℕ} :
      Shares B P Q s log got → e ∈ got → a ∈ bytesOf e →
      Shares B P Q ⟨setMem a v s.manager, s.head, s.middle⟩ log got

/-- The blocks of the shared heap, which is one free block before the first request. -/
def SharedHeap (B : Block) (s : Shared) (h : Layout) : Prop :=
  if s.head = 0 then h = Layout.fresh (B.frame 1596) (B.frame 1600)
  else Represents (B.frame 1596) (B.frame 1600) s.heap h

/-- The size is one of an `unsigned int`, or no free block of the shared heap holds what is left of
it as one. -/
def Uncut (B : Block) (size : ℕ) (s : Shared) : Prop :=
  size < 2 ^ 32 ∨ ∀ h, SharedHeap B s h → ∀ b ∈ h.blocks, ¬b.fits (size % 2 ^ 32) = true

/-- The request is refused, or it gets as many bytes as it asks for, in the shared pages and in no
range that an earlier one got. -/
def Honoured (B : Block) (size r : ℕ) (got : List (ℕ × ℕ)) : Prop :=
  r = 0 ∨ Range r size ⊆ B.frames 1596 4 ∧ ∀ e ∈ got, Disjoint (Range r size) (bytesOf e)

/-! ## The shared heap -/

/-- The shared pages. -/
def Block.shared (B : Block) : Region where
  base := B.frame 1596
  pages := 4
  base_pos := frame_pos B 1596
  one_le := by decide
  pages_le := by decide
  fits := by
    rw [frame_add]
    exact frame_le (by decide)

theorem Block.shared_stop (B : Block) : B.shared.stop = B.frame 1600 := frame_add B 1596 4

theorem shalloc_eq_some : shalloc B size s = some (r, s') ↔
    ∃ heap, mymalloc heapFuel (size % 2 ^ 32) B.shared.base B.shared.bytes s.heap = some (r, heap) ∧
      ⟨{ s.manager with heap }, heap.head, heap.middle⟩ = s' := by
  have hsize : ((B.shared.bytes : ℕ) : ℤ) = 4 * 4096 := rfl
  rw [hsize]
  simp only [shalloc, Option.bind_eq_bind, Option.bind_eq_some_iff, Prod.exists, Option.pure_def,
    Option.some_inj, Prod.mk.injEq]
  constructor
  · rintro ⟨r', heap, hm, rfl, hs⟩
    exact ⟨heap, hm, hs⟩
  · rintro ⟨heap, hm, hs⟩
    exact ⟨r, heap, hm, rfl, hs⟩

/-- The shared heap and the pointers into it. -/
inductive Shared.Inv (B : Block) (s : Shared) : List (ℕ × ℕ) → Layout → Prop where
  /-- There was no request yet. -/
  | unused : s.head = 0 → Inv B s [] (Layout.fresh (B.frame 1596) (B.frame 1600))
  | used {got : List (ℕ × ℕ)} {h : Layout} : Client.Inv B.shared ⟨s.heap, got⟩ h → Inv B s got h

theorem headers_subset_shared (ht : Tiles 32 B.shared.base h.blocks B.shared.stop) :
    headers h.blocks ⊆ B.frames 1596 4 := headers_subset (n := 4096 * 4) ht rfl

namespace Shared.Inv

theorem sharedHeap_iff (hi : Shared.Inv B s got h) {h' : Layout} : SharedHeap B s h' ↔ h' = h := by
  cases hi with
  | unused hhead => rw [SharedHeap, if_pos hhead]
  | used hi =>
    have hrep := hi.rep
    rw [Block.shared_stop] at hrep
    have hhead : s.head ≠ 0 := hrep.head.trans_ne (frame_pos B 1596).ne'
    rw [SharedHeap, if_neg hhead]
    constructor
    · intro hr
      exact Represents.unique (frame_pos B 1596) hr hrep
    · rintro rfl
      exact hrep

/-- Every request is on a heap that is set up. -/
theorem exists_client (hi : Shared.Inv B s got h) :
    ∃ s₁, Client.Inv B.shared ⟨s₁, got⟩ h ∧
      ChangesOnly (B.frames 1596 4) s.manager.heap.mem s₁.mem ∧
      ∀ x, mymalloc heapFuel x B.shared.base B.shared.bytes s.heap =
        mymalloc heapFuel x B.shared.base B.shared.bytes s₁ := by
  cases hi with
  | unused hhead =>
    obtain ⟨s₁, hi, hch, heq⟩ := B.shared.exists_first (s := s.heap) hhead
    have hfresh := headers_subset_shared (Layout.wf_fresh B.shared.header_le).tiles
    rw [Block.shared_stop] at hi
    exact ⟨s₁, hi, hch.mono hfresh, heq⟩
  | used hi => exact ⟨s.heap, hi, ChangesOnly.refl _ _, fun _ ↦ rfl⟩

/-- A request is served as by `Layout.malloc` with its size cut. -/
theorem shalloc (hi : Shared.Inv B s got h) (size : ℕ) :
    ∃ s', Paging.shalloc B size s = some ((h.malloc (size % 2 ^ 32)).1, s') ∧
      s'.manager = { s.manager with heap := s'.manager.heap } ∧
      ChangesOnly (B.frames 1596 4) s.manager.heap.mem s'.manager.heap.mem ∧
      Shared.Inv B s' (if (h.malloc (size % 2 ^ 32)).1 = 0 then got
        else ((h.malloc (size % 2 ^ 32)).1, size % 2 ^ 32) :: got)
          (h.malloc (size % 2 ^ 32)).2 := by
  obtain ⟨s₁, hi₁, hch₁, heq⟩ := hi.exists_client
  obtain ⟨heap, hm, -⟩ := mymalloc_spec (x := size % 2 ^ 32) B.shared.toFits hi₁.rep
    B.shared.stop_lt_fuel B.shared.base B.shared.bytes
  obtain ⟨hi₂, hch⟩ := hi₁.malloc hm
  refine ⟨_, shalloc_eq_some.mpr ⟨heap, (heq _).trans hm, rfl⟩, rfl, hch₁.trans ?_, .used hi₂⟩
  refine hch.mono (Set.union_subset ?_ ?_)
  · exact headers_subset_shared hi₁.rep.wf.tiles
  · exact headers_subset_shared hi₂.rep.wf.tiles

/-- What happens elsewhere does not matter. -/
theorem of_agree (hi : Shared.Inv B s got h)
    (hagree : ∀ a, B.frame 1596 ≤ a → a < B.frame 1600 → m.heap.mem a = s.manager.heap.mem a) :
    Shared.Inv B ⟨m, s.head, s.middle⟩ got h := by
  cases hi with
  | unused hhead => exact .unused hhead
  | used hi =>
    refine .used ⟨hi.rep.of_agree ?_, hi.alloc, hi.nodup⟩
    rw [Block.shared_stop]
    exact hagree

/-- A pointer is to the payload of a block. -/
theorem exists_block (hi : Shared.Inv B s got h) (he : e ∈ got) :
    ∃ b, h.Allocated b ∧ b.addr + 32 = e.1 ∧ e.2 ≤ b.size ∧ bytesOf e ⊆ B.frames 1596 4 := by
  cases hi with
  | unused => cases he
  | used hi =>
    obtain ⟨b, hb, haddr, hsize⟩ := hi.alloc e he
    obtain ⟨hlo, hhi⟩ := hi.rep.wf.tiles.bounds hb.1
    refine ⟨b, hb, haddr, hsize, fun a ha ↦ ?_⟩
    rw [mem_bytesOf] at ha
    refine mem_Range.mpr ?_
    change B.frame 1596 ≤ b.addr at hlo
    change b.addr + 32 + b.size ≤ B.frame 1596 + 4096 * 4 at hhi
    omega

theorem disjoint (hi : Shared.Inv B s got h) (he : e ∈ got) (hd : d ∈ got) (hne : e.1 ≠ d.1) :
    Disjoint (bytesOf e) (bytesOf d) := by
  cases hi with
  | unused => cases he
  | used hi =>
    obtain ⟨b, hb, haddr, hsize⟩ := hi.alloc e he
    obtain ⟨b', hb', haddr', hsize'⟩ := hi.alloc d hd
    have hbb : b ≠ b' := by
      rintro rfl
      exact hne (haddr.symm.trans haddr')
    rw [Set.disjoint_left]
    intro a ha ha'
    rw [mem_bytesOf] at ha ha'
    rcases hi.rep.wf.tiles.disjoint hb.1 hb'.1 hbb with hlt | hlt <;>
      · rw [Block.stop] at hlt
        omega

theorem nodup (hi : Shared.Inv B s got h) : (got.map Prod.fst).Nodup := by
  cases hi with
  | unused => exact List.nodup_nil
  | used hi => exact hi.nodup

/-- The bytes of a pointer are in the payload of its block. -/
theorem store (hi : Shared.Inv B s got h) (he : e ∈ got) (ha : a ∈ bytesOf e) :
    Shared.Inv B ⟨setMem a v s.manager, s.head, s.middle⟩ got h := by
  cases hi with
  | unused => cases he
  | used hi =>
    obtain ⟨b, hb, haddr, hsize⟩ := hi.alloc e he
    rw [mem_bytesOf] at ha
    refine .used (hi.write he ?_)
    rw [← haddr, payload_eq hi.rep hb.1, mem_Range]
    omega

end Shared.Inv

/-! ## The private pages -/

/-- A change of the shared pages is none of the pages of the threads. -/
theorem Good.aside (hg : Good B m ch c lay live) (hsd : Sound B m) (hpc : m.pageCounter ≤ 1596)
    {heap : HeapState} (hch : ChangesOnly (B.frames 1596 4) m.heap.mem heap.mem) :
    Good B { m with heap } ch c lay live := by
  have hst : Steady m { m with heap } :=
    ⟨rfl, fun _ ↦ rfl, fun _ ↦ rfl, rfl, rfl, rfl, rfl, rfl, rfl⟩
  refine hg.of_contents (hg.settled.of_steady hst rfl rfl rfl) rfl fun p hp o ho ↦ ?_
  have hlt : m.pageFrame p < 1596 := (hsd.placed p hp).trans_le hpc
  show slot B { m with heap } (m.pageFrame p) o = slot B m (m.pageFrame p) o
  rw [slot_of_lt (by omega), slot_of_lt (by omega)]
  refine hch _ fun hin ↦ ?_
  have hle := (mem_frames ho).mp hin
  omega

theorem Sound.aside (hsd : Sound B m) (heap : HeapState) : Sound B { m with heap } :=
  hsd.of_steady ⟨rfl, fun _ ↦ rfl, fun _ ↦ rfl, rfl, rfl, rfl, rfl, rfl, rfl⟩ rfl rfl
    fun _ he ↦ .inl he

theorem Counted.aside (hc : Counted m) (heap : HeapState) : Counted { m with heap } :=
  hc.steady ⟨rfl, fun _ ↦ rfl, fun _ ↦ rfl, rfl, rfl, rfl, rfl, rfl, rfl⟩

/-! ## Runs -/

/-- What holds in every state of a run with at most 1596 pages. -/
structure Orderly (B : Block) (s : Shared) (log : List Entry) (got : List (ℕ × ℕ)) (h : Layout) :
    Prop where
  sound : Sound B s.manager
  counted : Counted s.manager
  good : ∃ ch c lay, Good B s.manager ch c lay (pointers log)
  inv : Shared.Inv B s got h

theorem Shared.Inv.uncut_iff (hi : Shared.Inv B s got h) :
    Uncut B size s ↔ size < 2 ^ 32 ∨ (h.malloc (size % 2 ^ 32)).1 = 0 := by
  rw [Uncut, Layout.malloc_eq_zero_iff]
  refine or_congr_right ⟨fun hall ↦ hall h (hi.sharedHeap_iff.mpr rfl), ?_⟩
  rintro hnone h' hh'
  rw [hi.sharedHeap_iff.mp hh']
  exact hnone

/-- A range in the shared pages has less bytes than an `unsigned int` can tell. -/
theorem lt_of_subset_shared (hsub : Range r size ⊆ B.frames 1596 4) : size < 2 ^ 32 := by
  by_contra hlarge
  have hmem : ∀ i, i < size → B.frame 1596 ≤ r + i ∧ r + i < B.frame 1596 + 4096 * 4 := fun i hi ↦
    mem_Range.mp (hsub (mem_Range.mpr ⟨Nat.le_add_right r i, Nat.add_lt_add_left hi r⟩))
  have hfirst := hmem 0 (by omega)
  have hlast := hmem (4096 * 4) (by omega)
  omega

namespace Orderly

/-- A request is honoured exactly if its size is not cut. -/
theorem shalloc (ho : Orderly B s log got h) (hpc : s.manager.pageCounter ≤ 1596) (size : ℕ) :
    ∃ r s', Paging.shalloc B size s = some (r, s') ∧
      (Honoured B size r got ↔ Uncut B size s) ∧
      (Uncut B size s → ∃ h', Orderly B s' log (if r = 0 then got else (r, size) :: got) h') := by
  obtain ⟨s', hs, hman, hch, hinv⟩ := ho.inv.shalloc size
  generalize hr : (h.malloc (size % 2 ^ 32)).1 = r at hs hinv
  have huncut : Uncut B size s ↔ size < 2 ^ 32 ∨ r = 0 := by
    rw [ho.inv.uncut_iff, hr]
  have hinv' : Uncut B size s →
      Shared.Inv B s' (if r = 0 then got else (r, size) :: got) (h.malloc (size % 2 ^ 32)).2 := by
    rintro hu
    rcases huncut.mp hu with hlt | h₀
    · rwa [Nat.mod_eq_of_lt hlt] at hinv ⊢
    · rw [if_pos h₀] at hinv ⊢
      exact hinv
  refine ⟨r, s', hs, ⟨?_, fun hu ↦ ?_⟩, fun hu ↦ ⟨_, ?_, ?_, ?_, hinv' hu⟩⟩
  · rintro (h₀ | ⟨hsub, -⟩)
    · exact huncut.mpr (.inr h₀)
    · exact huncut.mpr (.inl (lt_of_subset_shared hsub))
  · by_cases h₀ : r = 0
    · exact .inl h₀
    · have hi := hinv' hu
      rw [if_neg h₀] at hi
      obtain ⟨b, -, -, -, hsub⟩ := hi.exists_block List.mem_cons_self
      refine .inr ⟨hsub, fun e he ↦ ?_⟩
      have hnodup := hi.nodup
      rw [List.map_cons, List.nodup_cons] at hnodup
      refine hi.disjoint List.mem_cons_self (List.mem_cons_of_mem _ he) ?_
      intro heq
      rw [heq] at hnodup
      exact hnodup.1 (List.mem_map_of_mem he)
  · rw [hman]
    exact ho.sound.aside _
  · rw [hman]
    exact ho.counted.aside _
  · obtain ⟨ch, c, lay, hg⟩ := ho.good
    rw [hman]
    exact ⟨ch, c, lay, hg.aside ho.sound hpc hch⟩

/-- A call of the manager leaves the shared heap alone. -/
theorem call (ho : Orderly B s log got h) {call : Call} (hcall : Tame B call s.manager log)
    (hpc : m.pageCounter ≤ 1596) (hs : call.exec B s.manager = some (r, m)) :
    Orderly B ⟨m, s.head, s.middle⟩ (⟨s.manager.current, call, r⟩ :: log) got h := by
  obtain ⟨ch, c, lay, hg⟩ := ho.good
  have hsd := (ho.sound.exec ho.counted hs).1
  have hspares := hg.exec_spares ho.sound ho.counted hcall hpc hs
  refine ⟨hsd, (ho.sound.exec ho.counted hs).2, hg.tame ho.sound ho.counted hcall hs, ?_⟩
  exact ho.inv.of_agree fun a ↦ hspares.shared hsd hpc

/-- A store to what a request got. -/
theorem store (ho : Orderly B s log got h) (hpc : s.manager.pageCounter ≤ 1596) (he : e ∈ got)
    (ha : a ∈ bytesOf e) : Orderly B ⟨setMem a v s.manager, s.head, s.middle⟩ log got h := by
  obtain ⟨ch, c, lay, hg⟩ := ho.good
  obtain ⟨b, -, -, -, hsub⟩ := ho.inv.exists_block he
  refine ⟨ho.sound.aside _, ho.counted.aside _, ⟨ch, c, lay, hg.aside ho.sound hpc ?_⟩,
    ho.inv.store he ha⟩
  intro d hd
  refine setByte_of_ne ?_
  rintro rfl
  exact hd (hsub ha)

end Orderly

theorem Shares.sound {P : Call → Manager → List Entry → Prop} {Q : ℕ → Shared → Prop}
    (hrun : Shares B P Q s log got) : Sound B s.manager ∧ Counted s.manager := by
  induction hrun with
  | start hb =>
    have hstart : Session B P _ [] := .start hb
    exact hstart.reachable.sound
  | call _ _ hs ih => exact ih.1.exec ih.2 hs
  | shalloc _ _ _ hs ih =>
    obtain ⟨heap, -, rfl⟩ := shalloc_eq_some.mp hs
    exact ⟨ih.1.aside heap, ih.2.aside heap⟩
  | store _ _ _ ih => exact ⟨ih.1.aside _, ih.2.aside _⟩

/-- The induction over a run: pages are made and not taken back. -/
theorem Shares.exists_orderly (hrun : Shares B (Tame B) (Uncut B) s log got)
    (hpc : s.manager.pageCounter ≤ 1596) : ∃ h, Orderly B s log got h := by
  induction hrun with
  | start hb =>
    have hstart : Session B (Tame B) _ [] := .start hb
    obtain ⟨hsd, hc⟩ := hstart.reachable.sound
    exact ⟨_, hsd, hc, hstart.tame fun _ _ _ h ↦ h, .unused rfl⟩
  | call hrun hcall hs ih =>
    obtain ⟨hsd, hc⟩ := hrun.sound
    obtain ⟨h, ho⟩ := ih ((hsd.pageCounter_le hc hs).trans hpc)
    exact ⟨h, ho.call hcall hpc hs⟩
  | @shalloc size _ _ _ _ _ _ _ hu hs ih =>
    obtain ⟨heap, -, rfl⟩ := shalloc_eq_some.mp hs
    obtain ⟨h, ho⟩ := ih hpc
    obtain ⟨r, s', hs', -, hkeep⟩ := ho.shalloc hpc size
    obtain ⟨rfl, rfl⟩ := Prod.mk.inj (Option.some.inj (hs.symm.trans hs'))
    exact hkeep hu
  | store _ he ha ih =>
    obtain ⟨h, ho⟩ := ih hpc
    exact ⟨h, ho.store hpc he ha⟩

/-- In every run of tame calls that makes at most 1596 pages, and of requests for shared memory the
sizes of which are not cut, the pointers are to disjoint ranges of the shared pages, as many bytes
as were asked for; and a further request returns, and is refused or honoured exactly if its size is
not cut. -/
theorem shalloc_honoured (hrun : Shares B (Tame B) (Uncut B) s log got)
    (hpc : s.manager.pageCounter ≤ 1596) :
    (∀ e ∈ got, bytesOf e ⊆ B.frames 1596 4) ∧
      got.Pairwise (fun e d ↦ Disjoint (bytesOf e) (bytesOf d)) ∧
      ∀ size, ∃ r s', shalloc B size s = some (r, s') ∧
        (Honoured B size r got ↔ Uncut B size s) := by
  obtain ⟨h, ho⟩ := hrun.exists_orderly hpc
  refine ⟨fun e he ↦ ?_, ?_, fun size ↦ ?_⟩
  · obtain ⟨b, -, -, -, hsub⟩ := ho.inv.exists_block he
    exact hsub
  · have hne : got.Pairwise fun e d ↦ e.1 ≠ d.1 := List.pairwise_map.mp ho.inv.nodup
    exact hne.imp_of_mem fun he hd hne ↦ ho.inv.disjoint he hd hne
  · obtain ⟨r, s', hs, hiff, -⟩ := ho.shalloc hpc size
    exact ⟨r, s', hs, hiff⟩

/-- A session without requests for shared memory. -/
theorem Session.shares {P : Call → Manager → List Entry → Prop} {Q : ℕ → Shared → Prop}
    (h : Session B P m log) : Shares B P Q ⟨m, 0, 0⟩ log [] := by
  induction h with
  | start hb => exact .start hb
  | call _ hcall hs ih => exact .call ih hcall hs

/-- Two threads store to their pages and load from them.  Then each of them gets shared memory, and
the first stores to its part. -/
theorem shalloc_honoured_first : ∃ (s s' : Shared) (r r₁ r₂ : ℕ), r ≠ 0 ∧ r₁ ≠ 0 ∧
    bytesOf (r, 100) ⊆ lowBlock.frames 1596 4 ∧ bytesOf (r₁, 200) ⊆ lowBlock.frames 1596 4 ∧
    Disjoint (bytesOf (r₁, 200)) (bytesOf (r, 100)) ∧
    shalloc lowBlock 300 s = some (r₂, s') ∧ Honoured lowBlock 300 r₂ [(r₁, 200), (r, 100)] := by
  obtain ⟨m, p, q, n, hs, hpc, -⟩ := exists_session
  have htame : Session lowBlock (Tame lowBlock) m _ :=
    hs.imp hpc (by decide) fun _ _ _ _ _ _ hshows hsd _ hle hcall ↦
      hshows.tame hsd (by omega) hcall
  have hshares : Shares lowBlock (Tame lowBlock) (Uncut lowBlock) ⟨m, 0, 0⟩ _ [] := htame.shares
  have hi : Shared.Inv lowBlock ⟨m, 0, 0⟩ [] _ := .unused rfl
  obtain ⟨s₁, hs₁, hman₁, -, hi₁⟩ := hi.shalloc 100
  have hr : ((Layout.fresh (lowBlock.frame 1596) (lowBlock.frame 1600)).malloc (100 % 2 ^ 32)).1 ≠
      0 := by
    decide
  have h₁ := hshares.shalloc (by decide) (.inl (by decide)) hs₁
  rw [if_neg hr] at h₁ hi₁
  generalize ((Layout.fresh (lowBlock.frame 1596) (lowBlock.frame 1600)).malloc
    (100 % 2 ^ 32)).1 = r at hr h₁ hi₁
  have hmem : r ∈ bytesOf (r, 100) := mem_bytesOf.mpr ⟨le_refl r, show r < r + 100 by omega⟩
  have h₂ := h₁.store (v := 5) List.mem_cons_self hmem
  have hi₂ := hi₁.store (v := 5) List.mem_cons_self hmem
  have h₃ := h₂.call (show Tame lowBlock (.switch 1) _ _ from trivial) rfl
  have hi₃ : Shared.Inv lowBlock ⟨switch 1 (setMem _ 5 s₁.manager), s₁.head, s₁.middle⟩ _ _ :=
    hi₂.of_agree fun _ _ _ ↦ rfl
  obtain ⟨s₄, hs₄, hman₄, -, hi₄⟩ := hi₃.shalloc 200
  have hr₁ : (((Layout.fresh (lowBlock.frame 1596) (lowBlock.frame 1600)).malloc
      (100 % 2 ^ 32)).2.malloc (200 % 2 ^ 32)).1 ≠ 0 := by
    decide
  have h₄ := h₃.shalloc (by decide) (.inl (by decide)) hs₄
  rw [if_neg hr₁] at h₄
  have hpc₄ : s₄.manager.pageCounter ≤ 1596 := by
    rw [hman₄]
    show s₁.manager.pageCounter ≤ 1596
    rw [hman₁]
    exact hpc.trans (by decide)
  obtain ⟨hin, hapart, hnext⟩ := shalloc_honoured h₄ hpc₄
  obtain ⟨r₂, s', hs', hiff⟩ := hnext 300
  exact ⟨s₄, s', _, _, r₂, hr, hr₁, hin _ (List.mem_cons_of_mem _ List.mem_cons_self),
    hin _ List.mem_cons_self, (List.pairwise_cons.mp hapart).1 _ List.mem_cons_self, hs',
    hiff.mpr (.inl (by decide))⟩

/-- A request for `2 ^ 32 + 10` bytes gets 10. -/
theorem not_shalloc_honoured : ¬∀ (B : Block) (s s' : Shared) (log : List Entry)
    (got : List (ℕ × ℕ)) (size r : ℕ), Shares B (fun _ _ _ ↦ True) (fun _ _ ↦ True) s log got →
      size < 2 ^ 64 → shalloc B size s = some (r, s') → Honoured B size r got := by
  intro hall
  have hi : Shared.Inv lowBlock ⟨blank.start lowBlock, 0, 0⟩ [] _ := .unused rfl
  obtain ⟨s, hs, -⟩ := hi.shalloc (2 ^ 32 + 10)
  have hr : ((Layout.fresh (lowBlock.frame 1596) (lowBlock.frame 1600)).malloc
      ((2 ^ 32 + 10) % 2 ^ 32)).1 ≠ 0 := by
    decide
  rcases hall lowBlock _ s [] [] _ _ (.start blank_zeroed) (by decide) hs with h₀ | ⟨hsub, -⟩
  · exact hr h₀
  · exact absurd (lt_of_subset_shared hsub) (by decide)

end MyPthread.Paging
