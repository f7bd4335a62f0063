import MyPthread.Paging.Chains
import MyPthread.Paging.Supply

/-!
# Time slices

From one switch to the next, `swap_handler` puts pages of other threads aside only, and these
go where no thread has a page of its own.  So however often and in whatever order a thread
accesses its memory, each page that it accesses is swapped in once if it was elsewhere at the
switch, and never if it was in its frame.
-/

namespace MyPthread.Paging

open MyPthread.Lib MyPthread.Heap Function

variable {B : Block} {s s' : Manager} {ch : ℕ → List PageMetaPtr} {c : ℕ → ℕ} {a i k o r : ℕ}
  {p : PageMetaPtr} {call : Call} {cs : List Call}

/-- The frame of an address of the block. -/
def frameIndex (B : Block) (a : ℕ) : ℕ := (a - B.addr) / 4096

/-- The page in a frame is of another thread. -/
def Manager.foreign (s : Manager) (k : ℕ) : Bool :=
  (s.frameTable k).any fun p ↦ decide ((s.metas p).tid ≠ s.current)

/-- Whether an access to the address `a` makes `swap_handler` bring a page in. -/
def fetches (B : Block) (a : ℕ) (s : Manager) : Bool :=
  decide (B.addr ≤ a ∧ a < B.frame 1596 ∧ s.accessible (frameIndex B a) = false) &&
    s.foreign (frameIndex B a)

/-- The address of a load or a store. -/
def Call.address : Call → Option ℕ
  | .load a | .store a _ => some a
  | _ => none

/-- Calls one after the other, with the number of pages that their accesses bring in. -/
def accesses (B : Block) : List Call → Manager → Option (ℕ × Manager)
  | [], s => some (0, s)
  | c :: cs, s => do
    let fetched := c.address.any (fetches B · s)
    let (_, s) ← c.exec B s
    let (n, s) ← accesses B cs s
    return (if fetched then n + 1 else n, s)

/-- The frames that loads and stores touch. -/
def touched (B : Block) (cs : List Call) : Finset ℕ :=
  (cs.filterMap fun c ↦ c.address.map (frameIndex B)).toFinset

/-- A load or a store in a frame of the caller. -/
def OwnAccess (B : Block) (s : Manager) (c : Call) : Prop :=
  ∃ a, c.address = some a ∧ B.addr ≤ a ∧ a < B.frame 1596 ∧ frameIndex B a ≤ s.tcb.mallocFrame

/-- An access swaps the page of the caller in or changes no more than the protection. -/
theorem access_cases (hle : B.addr ≤ a) (hs : access B a s = some s') :
    (fetches B a s = true ∧ ∃ temp s₁,
      follow s.next (frameIndex B a) s.tcb.firstPage = some temp ∧
      swapPages B (frameIndex B a) (some (s.pageFrame temp)) s = some s₁ ∧
      s₁.protect.unprotectFrame (frameIndex B a) = s') ∨
    fetches B a s = false ∧ ∃ open', { s with accessible := open' } = s' := by
  obtain ⟨i, o, ho, rfl⟩ := exists_frame hle
  have hindex : frameIndex B (B.frame i + o) = i := frame_div B i ho
  rw [access, frame_div B i ho] at hs
  rw [fetches, hindex]
  split_ifs at hs with hclosed
  · have hi : i < 2048 := by
      have hlt := hclosed.2.1
      unfold Block.frame at hlt
      omega
    have hframe : (frameOf B (B.frame i + o)).toNat = i := by
      rw [frameOf_eq hi ho]
      exact Int.toNat_natCast i
    obtain ⟨-, -, resident, hres, hend⟩ := swapHandler_eq_some.mp hs
    rw [hframe] at hres hend
    rw [decide_eq_true hclosed, Bool.true_and, Manager.foreign, hres, Option.any_some]
    rcases hend with ⟨htid, rfl⟩ | ⟨htid, temp, s₁, hfollow, hswap, rfl⟩
    · exact .inr ⟨decide_eq_false (not_not.mpr htid), _, rfl⟩
    · exact .inl ⟨decide_eq_true htid, temp, s₁, hfollow, hswap, rfl⟩
  · cases hs
    rw [decide_eq_false hclosed, Bool.false_and]
    exact .inr ⟨rfl, _, rfl⟩

/-! ## Which frames hold pages of others -/

/-- A page of the caller is in its frame, or else one of another thread is there. -/
theorem Settled.foreign_iff (h : Settled s ch c) (hp : (ch s.current)[k]? = some p) :
    s.foreign k = true ↔ s.pageFrame p ≠ k := by
  obtain ⟨q, hq, -⟩ := h.exists_resident (lt_length hp)
  rw [Manager.foreign, hq, Option.any_some, decide_eq_true_eq, not_iff_not, h.pageFrame_iff hp, hq]
  constructor
  · intro htid
    exact (h.resident_own (lt_length hp) hq htid).symm.trans hp
  · intro heq
    rw [Option.some.inj heq]
    exact h.tid hp

theorem Settled.foreign_eq_false (h : Settled s ch c) (hp : (ch s.current)[k]? = some p)
    (hin : s.pageFrame p = k) : s.foreign k = false :=
  Bool.eq_false_iff.mpr fun hf ↦ (h.foreign_iff hp).mp hf hin

/-- Bringing the page of frame `k` in, the code moves no other page of the caller. -/
theorem Settled.bring_foreign (h : Settled s ch c) (hp : (ch s.current)[k]? = some p)
    (hne : s.pageFrame p ≠ k) (hs : swapPages B k (some (s.pageFrame p)) s = some s')
    (hi : i < (ch s.current).length) (hik : i ≠ k) : s'.foreign i = s.foreign i := by
  obtain ⟨hset, ⟨q, hqp, hqk, hsw⟩, -⟩ := h.bring hp hne hs
  have hcur := (swapPages_keeps hs).1.current
  have hr := List.getElem?_eq_getElem hi
  have hrp : (ch s.current)[i] ≠ p := by
    intro heq
    rw [heq] at hr
    exact hik (h.table.index_unique hr hp).2
  -- the page put aside is at `k`, and no page of the caller but `p` belongs there
  have hrq : (ch s.current)[i] ≠ q := by
    intro heq
    have haway := h.away _ i _ hr (by rw [heq, hqk]; exact hik.symm) s.current
    rw [heq, hqk] at haway
    exact absurd (lt_length hp) (not_lt.mpr haway)
  have hloc : s'.pageFrame (ch s.current)[i] = s.pageFrame (ch s.current)[i] := by
    rw [hsw.pageFrame, update_of_ne hrp, update_of_ne hrq]
  rw [Bool.eq_iff_iff, h.foreign_iff hr, hset.foreign_iff (by rw [hcur]; exact hr), hloc]

/-! ## One access -/

/-- The result of an access in frame `i`: the page of the caller is there, and the other frames
hold pages of others if they did before. -/
structure Opened (ch : ℕ → List PageMetaPtr) (c : ℕ → ℕ) (i : ℕ) (s s' : Manager) : Prop where
  settled : Settled s' ch c
  mine : Mine s' ch
  current : s'.current = s.current
  tcbs : s'.tcbs = s.tcbs
  here : s'.foreign i = false
  others : ∀ k < (ch s.current).length, k ≠ i → s'.foreign k = s.foreign k

/-- An access in a frame of the caller returns, and swaps if a page of another thread is
there. -/
theorem Settled.exists_opened (h : Settled s ch c) (hmine : Mine s ch)
    (hi : i < (ch s.current).length) (hle : i < 1596) (ho : o < 4096) :
    ∃ s', access B (B.frame i + o) s = some s' ∧ Opened ch c i s s' ∧
      fetches B (B.frame i + o) s = s.foreign i := by
  have hp := List.getElem?_eq_getElem hi
  have haddr := addr_le_frame B i
  have hlt : B.frame i + o < B.frame 1596 := by
    unfold Block.frame
    omega
  obtain ⟨s', hs', hmine', hin⟩ := h.exists_access (B := B) hp hle ho
  obtain ⟨hset, hcur, htcbs, -⟩ := (access_works (Q := False) h hs').settled h
  have hp' : (ch s'.current)[i]? = some (ch s.current)[i] := by rw [hcur, hp]
  have hhere : s.accessible i = false ∨ s.pageFrame (ch s.current)[i] = i := by
    cases hacc : s.accessible i with
    | false => exact .inl rfl
    | true => exact .inr (hmine i _ hacc hp)
  refine ⟨s', hs', ⟨hset, hmine' hmine, hcur, htcbs, hset.foreign_eq_false hp' (hin hhere), ?_⟩, ?_⟩
  · intro k hk hki
    have hindex : frameIndex B (B.frame i + o) = i := frame_div B i ho
    rcases access_cases (haddr.trans (Nat.le_add_right _ o)) hs' with
      ⟨hfetch, temp, s₁, hfollow, hswap, rfl⟩ | ⟨-, _, rfl⟩
    · rw [hindex] at hfollow hswap
      rw [h.follow_eq] at hfollow
      rw [fetches, hindex, Bool.and_eq_true, h.foreign_iff hfollow] at hfetch
      show s₁.foreign k = s.foreign k
      exact h.bring_foreign hfollow hfetch.2 hswap hk hki
    · rfl
  · rw [fetches, frameIndex, frame_div B i ho]
    cases hf : s.foreign i with
    | false => exact Bool.and_false _
    | true =>
      have hclosed := hhere.resolve_right ((h.foreign_iff hp).mp hf)
      rw [Bool.and_true, decide_eq_true_eq]
      exact ⟨by omega, hlt, hclosed⟩

theorem Opened.store {v : UInt8} (h : Opened ch c i s s') :
    Opened ch c i s { s' with heap.mem := setByte s'.heap.mem a v } :=
  ⟨h.settled.store, h.mine, h.current, h.tcbs, h.here, h.others⟩

/-- A load or a store in a frame of the caller returns. -/
theorem Settled.exists_exec (h : Settled s ch c) (hmine : Mine s ch) (hne : ch s.current ≠ [])
    (hcall : OwnAccess B s call) : ∃ i r s', i < (ch s.current).length ∧
      call.address.map (frameIndex B) = some i ∧ call.exec B s = some (r, s') ∧
      Opened ch c i s s' ∧ call.address.any (fetches B · s) = s.foreign i := by
  obtain ⟨a, ha, hlow, hhigh, hle⟩ := hcall
  obtain ⟨i, o, ho, rfl⟩ := exists_frame hlow
  have hframe : frameIndex B (B.frame i + o) = i := frame_div B i ho
  have hlen : (ch s.current).length = s.tcb.mallocFrame + 1 := h.length _ hne
  rw [hframe] at hle
  have hi : i < 1596 := by
    unfold Block.frame at hhigh
    omega
  obtain ⟨s', hs', hopened, hfetch⟩ := h.exists_opened (B := B) hmine (show i < _ by omega) hi ho
  rw [ha, Option.map_some, Option.any_some, hframe]
  cases call with
  | load b =>
    cases ha
    exact ⟨i, _, s', by omega, rfl, exec_load.mpr ⟨hs', rfl⟩, hopened, hfetch⟩
  | store b v =>
    cases ha
    exact ⟨i, 0, _, by omega, rfl, exec_store.mpr ⟨rfl, store_eq_some.mpr ⟨s', hs', rfl⟩⟩,
      hopened.store, hfetch⟩
  | _ => cases ha

/-! ## A slice -/

theorem touched_cons (h : call.address.map (frameIndex B) = some i) :
    touched B (call :: cs) = insert i (touched B cs) := by
  rw [touched, List.filterMap_cons, h, List.toFinset_cons, touched]

theorem mem_touched : k ∈ touched B cs ↔ ∃ call ∈ cs, call.address.map (frameIndex B) = some k := by
  rw [touched, List.mem_toFinset, List.mem_filterMap]

/-- The frames of `F` that hold pages of others, with frame `i` first. -/
theorem card_foreign_insert {F : Finset ℕ} {f g : ℕ → Bool} (hi : g i = false)
    (hg : ∀ k ∈ F, k ≠ i → g k = f k) :
    ((insert i F).filter (f · = true)).card =
      if f i = true then (F.filter (g · = true)).card + 1 else (F.filter (g · = true)).card := by
  have heq : F.filter (g · = true) = (F.filter (f · = true)).erase i := by
    ext k
    rw [Finset.mem_erase, Finset.mem_filter, Finset.mem_filter]
    by_cases hk : k = i
    · subst hk
      simp [hi]
    · constructor
      · rintro ⟨hF, htrue⟩
        exact ⟨hk, hF, by rwa [← hg k hF hk]⟩
      · rintro ⟨-, hF, htrue⟩
        exact ⟨hF, by rwa [hg k hF hk]⟩
  rw [heq, Finset.filter_insert]
  split_ifs with hf
  · rw [← Finset.erase_insert_eq_erase, Finset.card_erase_add_one (Finset.mem_insert_self i _)]
  · congr 1
    refine (Finset.erase_eq_of_notMem ?_).symm
    rintro hmem
    exact hf (Finset.mem_filter.mp hmem).2

theorem OwnAccess.of_tcb (h : OwnAccess B s call) (htcb : s'.tcb = s.tcb) :
    OwnAccess B s' call := by
  obtain ⟨a, ha, hlow, hhigh, hle⟩ := h
  exact ⟨a, ha, hlow, hhigh, by rwa [htcb]⟩

theorem Settled.exists_accesses (h : Settled s ch c) (hmine : Mine s ch) (hne : ch s.current ≠ [])
    (hcs : ∀ call ∈ cs, OwnAccess B s call) :
    ∃ s', accesses B cs s = some (((touched B cs).filter (s.foreign · = true)).card, s') := by
  induction cs generalizing s with
  | nil => exact ⟨s, rfl⟩
  | cons call cs ih =>
    obtain ⟨i, r, s₁, hi, hframe, hexec, hopened, hfetch⟩ :=
      h.exists_exec hmine hne (hcs call List.mem_cons_self)
    have htcb : s₁.tcb = s.tcb := by rw [Manager.tcb, Manager.tcb, hopened.tcbs, hopened.current]
    obtain ⟨s', hs'⟩ := ih hopened.settled hopened.mine (by rwa [hopened.current]) fun call' hmem ↦
      (hcs call' (List.mem_cons_of_mem _ hmem)).of_tcb htcb
    refine ⟨s', ?_⟩
    have hothers : ∀ k ∈ touched B cs, k ≠ i → s₁.foreign k = s.foreign k := by
      intro k hk hki
      obtain ⟨call', hmem, hk'⟩ := mem_touched.mp hk
      obtain ⟨a, ha, -, -, hle⟩ := hcs call' (List.mem_cons_of_mem _ hmem)
      rw [ha, Option.map_some, Option.some_inj] at hk'
      have hlen : (ch s.current).length = s.tcb.mallocFrame + 1 := h.length _ hne
      exact hopened.others k (by omega) hki
    rw [accesses, hexec, touched_cons hframe, card_foreign_insert hopened.here hothers, hfetch]
    simp only [Option.bind_eq_bind, Option.bind_some, hs', Option.pure_def]

/-- In the slice of a thread, in every run in which no thread that has pages gets a chunk, as
many pages are swapped in as the thread accesses that were not in their frames at the switch. -/
theorem accesses_switch {t : ℕ} (h : Reachable B (Chained B) s)
    (hfirst : (s.tcbs t).firstPage ≠ none)
    (hcs : ∀ call ∈ cs, OwnAccess B (switch t s) call) :
    ∃ s', accesses B cs (switch t s) =
      some (((touched B cs).filter ((switch t s).foreign · = true)).card, s') := by
  obtain ⟨ch, c, hset⟩ := h.settled fun _ _ hp ↦ hp
  refine (hset.exec_other (B := B) (.inl ⟨t, rfl⟩) rfl).exists_accesses ?_ ?_ hcs
  · intro k p hk
    cases hk
  · exact hset.firstPage_ne.mp hfirst

/-- Threads 0 and 1 have a page each.  Thread 0 then accesses three bytes of its page, and the
page is swapped in once. -/
theorem accesses_switch_once : ∃ s s' : Manager, Reachable lowBlock (Chained lowBlock) s ∧
    accesses lowBlock [.load (lowBlock.frame 0 + 40), .store (lowBlock.frame 0 + 50) 7,
      .load (lowBlock.frame 0 + 50)] (switch 0 s) = some (1, s') := by
  obtain ⟨s, p, q, r, r₁, lay, live, hs, hg, -, -, hpc, -, haway⟩ := exists_pair
  have hreach := hs.chained (hpc.trans_le (by decide))
  have hforeign : (switch 0 s).foreign 0 = true :=
    ((hg.switch 0).settled.foreign_iff (p := p) rfl).mpr haway
  have hfirst : (s.tcbs 0).firstPage ≠ none :=
    hg.settled.firstPage_ne.mpr (List.cons_ne_nil p [])
  have hindex : ∀ o < 4096,
      frameIndex lowBlock (lowBlock.frame 0 + o) ≤ (switch 0 s).tcb.mallocFrame :=
    fun o ho ↦ (frame_div lowBlock 0 ho).le.trans (Nat.zero_le _)
  have hcs : ∀ call ∈ [Call.load (lowBlock.frame 0 + 40), .store (lowBlock.frame 0 + 50) 7,
      .load (lowBlock.frame 0 + 50)], OwnAccess lowBlock (switch 0 s) call := by
    intro call hcall
    simp only [List.mem_cons, List.not_mem_nil, or_false] at hcall
    rcases hcall with rfl | rfl | rfl
    · exact ⟨_, rfl, by decide, by decide, hindex 40 (by decide)⟩
    · exact ⟨_, rfl, by decide, by decide, hindex 50 (by decide)⟩
    · exact ⟨_, rfl, by decide, by decide, hindex 50 (by decide)⟩
  obtain ⟨s', hs'⟩ := accesses_switch (t := 0) hreach hfirst hcs
  refine ⟨s, s', hreach, ?_⟩
  rw [hs', show touched lowBlock _ = {0} from by decide, Finset.filter_singleton, if_pos hforeign,
    Finset.card_singleton]

end MyPthread.Paging
