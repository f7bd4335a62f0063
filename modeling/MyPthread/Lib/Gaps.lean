import MyPthread.Lib.Tiling

/-!
# Gaps

In a tiling without two free neighbours the free blocks are the gaps that the allocated
ones leave: an interval that meets no allocated block lies in one free block.  So of two
such tilings the one with fewer allocated blocks has the larger free blocks, and the
allocated blocks alone determine a tiling.
-/

namespace MyPthread.Lib

variable {o a e u v : ℕ} {bs bs' : List Block} {b d : Block}

/-- The allocated blocks of `bs` are blocks of `bs'`. -/
def Within (bs bs' : List Block) : Prop := ∀ b ∈ bs, b.free = false → b ∈ bs'

namespace Tiles

/-- An interval that no allocated block meets lies in one free block. -/
theorem exists_gap (ho : 0 < o) (h : Tiles o a bs e) (hc : Coalesced bs) (hu : a ≤ u)
    (huv : u < v) (hv : v ≤ e)
    (hmiss : ∀ b ∈ bs, b.free = false → b.stop o ≤ u ∨ v ≤ b.addr) :
    ∃ b ∈ bs, b.free = true ∧ b.addr ≤ u ∧ v ≤ b.stop o := by
  induction bs generalizing a with
  | nil =>
    obtain rfl : a = e := h
    omega
  | cons b bs ih =>
    obtain ⟨rfl, h⟩ := h
    obtain ⟨hnext, hc⟩ := Coalesced.cons_iff.mp hc
    by_cases hub : u < b.stop o
    · have hf : b.free = true := by
        by_contra hf
        have hb := hmiss b List.mem_cons_self (Bool.not_eq_true _ ▸ hf)
        omega
      refine ⟨b, List.mem_cons_self, hf, hu, ?_⟩
      by_contra hvb
      -- the block behind is allocated, and the interval goes into it
      cases bs with
      | nil =>
        obtain rfl : b.stop o = e := h
        exact hvb hv
      | cons c cs =>
        have hcf : c.free = false := Bool.eq_false_iff.mpr fun hcf ↦ hnext c rfl ⟨hf, hcf⟩
        have haddr : c.addr = b.stop o := h.1
        have hlt := addr_lt_stop ho c
        have hb := hmiss c (List.mem_cons_of_mem _ List.mem_cons_self) hcf
        omega
    · obtain ⟨c, hmem, hrest⟩ := ih h hc (not_lt.mp hub)
        fun c hmem ↦ hmiss c (List.mem_cons_of_mem _ hmem)
      exact ⟨c, List.mem_cons_of_mem _ hmem, hrest⟩

/-- Where fewer blocks are allocated, a free block lies in a free block. -/
theorem exists_free (ho : 0 < o) (h : Tiles o a bs e) (hc : Coalesced bs)
    (h' : Tiles o a bs' e) (hw : Within bs bs') (hd : d ∈ bs') (hf : d.free = true) :
    ∃ b ∈ bs, b.free = true ∧ b.addr ≤ d.addr ∧ d.stop o ≤ b.stop o := by
  obtain ⟨hle, hstop⟩ := h'.bounds hd
  refine h.exists_gap ho hc hle (addr_lt_stop ho d) hstop fun b hb hbf ↦ ?_
  refine h'.disjoint (hw b hb hbf) hd ?_
  rintro rfl
  rw [hf] at hbf
  cases hbf

/-- Two tilings in which the same blocks are allocated have the same blocks. -/
theorem subset_of_within (ho : 0 < o) (h : Tiles o a bs e) (hc : Coalesced bs)
    (h' : Tiles o a bs' e) (hc' : Coalesced bs') (hw : Within bs bs') (hw' : Within bs' bs) :
    bs' ⊆ bs := by
  intro d hd
  cases hf : d.free with
  | false => exact hw' d hd hf
  | true =>
    obtain ⟨b, hb, hbf, hbd, hdb⟩ := h.exists_free ho hc h' hw hd hf
    obtain ⟨d', hd', -, hdb', hbd'⟩ := h'.exists_free ho hc' h hw' hb hbf
    obtain rfl : d' = d := by
      by_contra hne
      have hlt := addr_lt_stop ho d
      have hdis := h'.disjoint hd' hd hne
      omega
    have haddr : b.addr = d'.addr := le_antisymm hbd hdb'
    have hstop : b.stop o = d'.stop o := le_antisymm hbd' hdb
    unfold Block.stop at hstop
    have hbd : b = d' := Block.ext haddr (by omega) (hbf.trans hf.symm)
    exact hbd ▸ hb

/-- The allocated blocks determine a tiling. -/
theorem eq_of_within (ho : 0 < o) (h : Tiles o a bs e) (hc : Coalesced bs)
    (h' : Tiles o a bs' e) (hc' : Coalesced bs') (hw : Within bs bs') (hw' : Within bs' bs) :
    bs = bs' := by
  have hnodup : ∀ {cs}, Tiles o a cs e → cs.Nodup := fun h ↦
    List.Nodup.of_map Block.addr ((h.sorted ho).imp ne_of_lt)
  refine List.Perm.eq_of_pairwise (fun b c _ _ hbc hcb ↦ ?_) h.pairwise h'.pairwise ?_
  · have hb := addr_lt_stop ho b
    have hc := addr_lt_stop ho c
    omega
  · rw [List.perm_ext_iff_of_nodup (hnodup h) (hnodup h')]
    intro b
    exact ⟨fun hb ↦ h'.subset_of_within ho hc' h hc hw' hw hb,
      fun hb ↦ h.subset_of_within ho hc h' hc' hw hw' hb⟩

end Tiles

end MyPthread.Lib
