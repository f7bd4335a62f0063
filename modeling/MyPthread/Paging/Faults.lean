import MyPthread.Paging.Supply

/-!
# Faults

`swap_handler` cuts the distance of the fault address from the block to an `int` before it checks
it.  An address outside the block whose distance agrees with one in the caller's pages in the low
32 bits is taken for an address of the caller.
-/

namespace MyPthread.Paging

open MyPthread.Lib MyPthread.Heap Function

variable {B : Block} {s s' : Manager} {ch : ℕ → List PageMetaPtr} {c : ℕ → ℕ} {a i k t : ℕ}
  {p q : PageMetaPtr}

/-- The address is one of the caller's, and its frame is open and holds a page of the caller. -/
structure Accepted (B : Block) (a : ℕ) (s s' : Manager) : Prop where
  lower : B.addr ≤ a
  upper : a < B.frame 1596
  frame : (a - B.addr) / 4096 ≤ s.tcb.mallocFrame
  opened : s'.accessible ((a - B.addr) / 4096) = true
  own : ∃ p, s'.frameTable ((a - B.addr) / 4096) = some p ∧ (s'.metas p).tid = s.current

/-- An address outside the private frames whose distance from them, as an `int`, is in the pages of
the caller. -/
def Aliased (B : Block) (a : ℕ) (s : Manager) : Prop :=
  ¬(B.addr ≤ a ∧ a < B.frame 1596) ∧ s.tcb.firstPage ≠ none ∧ 0 ≤ toI32 ((a : ℤ) - B.addr) ∧
    toI32 ((a : ℤ) - B.addr) < 4096 * (s.tcb.mallocFrame + 1)

/-! ## What `swap_handler` does -/

/-- The handler opens the frame it computes, with a page of the caller in it. -/
theorem Settled.swapHandler_own (h : Settled s ch c) (hsd : Sound B s)
    (hs : swapHandler B a s = some s') :
    s'.accessible (frameOf B a).toNat = true ∧ s.tcb.firstPage ≠ none ∧
      ∃ p, s'.frameTable (frameOf B a).toNat = some p ∧ (s'.metas p).tid = s.current := by
  obtain ⟨-, hle, resident, hres, ⟨htid, rfl⟩ | ⟨htid, temp, s₁, htemp, hswap, rfl⟩⟩ :=
    swapHandler_eq_some.mp hs
  · refine ⟨update_self .., fun hnone ↦ ?_, resident, hres, htid⟩
    obtain ⟨t, k, hk⟩ := h.exists_place (hsd.table _ _ hres).1
    obtain rfl := (h.tid hk).symm.trans htid
    refine h.firstPage_ne.mpr (fun hnil ↦ ?_) hnone
    rw [hnil] at hk
    cases hk
  · have hp : (ch s.current)[(frameOf B a).toNat]? = some temp := (h.follow_eq _).symm.trans htemp
    have haway : s.pageFrame temp ≠ (frameOf B a).toNat := by
      intro hin
      obtain rfl := Option.some.inj (((h.pageFrame_iff hp).mp hin).symm.trans hres)
      exact htid (h.tid hp)
    obtain ⟨hset, -⟩ := h.bring hp haway hswap
    obtain ⟨-, hin⟩ := h.bring_stays hp haway hswap
    have hp' : (ch s.current)[(frameOf B a).toNat]? = some temp := hp
    refine ⟨update_self .., h.firstPage_ne.mpr fun hnil ↦ ?_, temp, (hset.pageFrame_iff hp').mp hin,
      hset.tid hp'⟩
    rw [hnil] at hp
    cases hp

/-- For a frame of the caller the handler returns. -/
theorem Settled.exists_swapHandler (h : Settled s ch c) (hfirst : s.tcb.firstPage ≠ none)
    (hlo : 0 ≤ toI32 ((a : ℤ) - B.addr))
    (hhi : toI32 ((a : ℤ) - B.addr) < 4096 * (s.tcb.mallocFrame + 1))
    (hmf : s.tcb.mallocFrame < 1596) :
    ∃ s', swapHandler B a s = some s' := by
  have hlen : (ch s.current).length = s.tcb.mallocFrame + 1 := h.length _ (h.firstPage_ne.mp hfirst)
  have hframe : (frameOf B a).toNat ≤ s.tcb.mallocFrame := by
    rw [frameOf, Int.tdiv_eq_ediv_of_nonneg hlo]
    omega
  have hrange : ¬(toI32 ((a : ℤ) - B.addr) < 0 ∨ 1596 * 4096 < toI32 ((a : ℤ) - B.addr)) := by
    omega
  have hlt : (frameOf B a).toNat < (ch s.current).length := by omega
  obtain ⟨p, hp⟩ : ∃ p, (ch s.current)[(frameOf B a).toNat]? = some p :=
    ⟨_, List.getElem?_eq_getElem hlt⟩
  obtain ⟨resident, hres, -⟩ := h.exists_resident hlt
  by_cases htid : (s.metas resident).tid = s.current
  · exact ⟨_, swapHandler_eq_some.mpr ⟨hrange, hframe, resident, hres, .inl ⟨htid, rfl⟩⟩⟩
  · have haway : s.pageFrame p ≠ (frameOf B a).toNat := by
      intro hin
      obtain rfl := Option.some.inj (((h.pageFrame_iff hp).mp hin).symm.trans hres)
      exact htid (h.tid hp)
    obtain ⟨s₁, hs₁⟩ := h.exists_bring (B := B) hp haway
    exact ⟨_, swapHandler_eq_some.mpr ⟨hrange, hframe, resident, hres,
      .inr ⟨htid, p, s₁, (h.follow_eq _).trans hp, hs₁, rfl⟩⟩⟩

/-- In the private frames the distance is not cut. -/
theorem frameOf_of_mem (hlo : B.addr ≤ a) (hhi : a < B.frame 1596) :
    toI32 ((a : ℤ) - B.addr) = ((a - B.addr : ℕ) : ℤ) ∧
      (frameOf B a).toNat = (a - B.addr) / 4096 := by
  unfold Block.frame at hhi
  have hdiff : toI32 ((a : ℤ) - B.addr) = ((a - B.addr : ℕ) : ℤ) := by
    rw [toI32_of_nonneg ⟨by omega, by omega⟩]
    omega
  refine ⟨hdiff, ?_⟩
  rw [frameOf, hdiff, Int.tdiv_eq_ediv_of_nonneg (by omega)]
  omega

/-! ## Runs -/

/-- In every run in which the chains stay complete, with at most 1596 pages, `swap_handler` accepts
only addresses of the caller, unless the address is taken for one of them. -/
theorem accepted_iff (h : Reachable B (Chained B) s) (hpc : s.pageCounter ≤ 1596) (a : ℕ) :
    (∀ s', swapHandler B a s = some s' → Accepted B a s s') ↔ ¬Aliased B a s := by
  obtain ⟨ch, c, hset⟩ := h.settled fun _ _ hp ↦ hp
  obtain ⟨hsd, hc⟩ := h.sound
  constructor
  · rintro hall ⟨hout, hfirst, hlo, hhi⟩
    have hmf : s.tcb.mallocFrame < s.pageCounter := hc.lt_pageCounter hfirst
    obtain ⟨s', hs'⟩ := hset.exists_swapHandler hfirst hlo hhi (by omega)
    exact hout ⟨(hall s' hs').lower, (hall s' hs').upper⟩
  · intro hnot s' hs'
    obtain ⟨hopen, hfirst, hown⟩ := hset.swapHandler_own hsd hs'
    obtain ⟨hrange, hframe, -⟩ := swapHandler_eq_some.mp hs'
    obtain ⟨hlo, hhi⟩ : B.addr ≤ a ∧ a < B.frame 1596 := by
      by_contra hout
      refine hnot ⟨hout, hfirst, by omega, ?_⟩
      rw [frameOf, Int.tdiv_eq_ediv_of_nonneg (by omega)] at hframe
      omega
    rw [(frameOf_of_mem hlo hhi).2] at hopen hframe hown
    exact ⟨hlo, hhi, hframe, hopen, hown⟩

/-- Threads 0 and 1 have a page each, for the same frame, and that of thread 1 is there.  Thread 0
faults in the frame, and its page is brought in. -/
theorem accepted_iff_first : ∃ (s s' : Manager) (q : PageMetaPtr), s.frameTable 0 = some q ∧
    (s.metas q).tid ≠ s.current ∧ swapHandler lowBlock (lowBlock.frame 0 + 40) s = some s' ∧
    Accepted lowBlock (lowBlock.frame 0 + 40) s s' := by
  obtain ⟨s, p, q, r, r₁, lay, live, hs, hg, -, hcur, hpc, hq, -⟩ := exists_pair
  have hle : s.pageCounter ≤ 1596 := hpc.trans_le (by decide)
  have hreach := hs.chained hle
  have hfirst : s.tcb.firstPage ≠ none := by
    refine hg.settled.firstPage_ne.mpr ?_
    rw [hcur]
    exact List.cons_ne_nil p []
  have hmf : s.tcb.mallocFrame < s.pageCounter := hreach.sound.2.lt_pageCounter hfirst
  have hdist : toI32 (((lowBlock.frame 0 + 40 : ℕ) : ℤ) - lowBlock.addr) = 40 := by decide
  obtain ⟨s', hs'⟩ := hg.settled.exists_swapHandler (B := lowBlock) (a := lowBlock.frame 0 + 40)
    hfirst (by omega) (by omega) (by omega)
  refine ⟨s, s', q, hq, ?_, hs', (accepted_iff hreach hle _).mpr ?_ s' hs'⟩
  · rw [hcur, hg.settled.tid (t := 1) (k := 0) rfl]
    exact Nat.one_ne_zero
  · rintro ⟨hout, -⟩
    exact hout ⟨by decide, by decide⟩

/-- The first thread has a page, and faults 4 GiB behind its first byte. -/
theorem not_accepted : ¬∀ (B : Block) (s s' : Manager) (a : ℕ),
    Reachable B (fun _ _ ↦ True) s → s.pageCounter ≤ 1596 → a < 2 ^ 64 →
      swapHandler B a s = some s' → Accepted B a s s' := by
  intro hall
  have hg := Good.start (B := lowBlock) blank_zeroed fun _ _ ↦ Layout.fresh 0 0
  have hstart : Reachable lowBlock (fun _ _ ↦ True) (blank.start lowBlock) := .start blank_zeroed
  obtain ⟨hsd, hc⟩ := hstart.sound
  obtain ⟨r, p, s, hs, hf⟩ := hg.exists_first hsd hc (x := 100) rfl (by decide) (by decide)
  have hreach := Reachable.call (c := .malloc 100) hstart trivial hs
  have hpc : s.pageCounter = 1 := hf.pageCounter
  have hcur : s.current = 0 := hf.current
  have hfirst : s.tcb.firstPage ≠ none := by
    refine hf.good.settled.firstPage_ne.mpr ?_
    rw [hcur]
    exact List.cons_ne_nil p []
  have hmf : s.tcb.mallocFrame < s.pageCounter := hreach.sound.2.lt_pageCounter hfirst
  have hdiff : toI32 (((4096 + 2 ^ 32 : ℕ) : ℤ) - lowBlock.addr) = 0 := by decide
  obtain ⟨s', hs'⟩ := hf.good.settled.exists_swapHandler (a := 4096 + 2 ^ 32) hfirst hdiff.ge
    (by omega) (by omega)
  have hacc := hall lowBlock s s' _ hreach (by omega) (by decide) hs'
  exact absurd hacc.upper (by decide)

end MyPthread.Paging
