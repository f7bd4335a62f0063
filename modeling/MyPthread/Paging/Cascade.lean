import MyPthread.Paging.Table

/-!
# The eviction cascade

Before a chunk is made, the pages in its frames are evicted one after the other to the first
location that no page is at.  When the chunk is longer than the occupied frames behind it, the
loop comes to pages that it has moved itself, and moves them again.
-/

namespace MyPthread.Paging

open MyPthread.Lib Function

variable {B : Block} {s s' s₀ : Manager} {a i j n o : ℕ} {m : PageMetaPtr}

/-- Just the first `page_counter` frames are occupied, and the table and the pages agree. -/
structure Packed (s : Manager) : Prop where
  occupied : ∀ i < 1596, s.frameTable i ≠ none ↔ i < s.pageCounter
  page : ∀ m ∈ s.made, s.pageFrame m < s.pageCounter ∧ s.frameTable (s.pageFrame m) = some m
  table : ∀ i < 1596, ∀ m, s.frameTable i = some m → m ∈ s.made ∧ s.pageFrame m = i

/-- The loop has come from frame `a` to frame `a + j`. -/
structure Cascaded (B : Block) (a j : ℕ) (s s' : Manager) : Prop where
  made : s'.made = s.made
  pageCounter : s'.pageCounter = s.pageCounter + j
  below : ∀ i < a, s'.frameTable i = s.frameTable i
  given_up : ∀ i, a ≤ i → i < a + j → s'.frameTable i = none
  occupied : ∀ i, a + j ≤ i → i < 1596 → (s'.frameTable i ≠ none ↔ i < s.pageCounter + j)
  page : ∀ m ∈ s.made, s'.pageFrame m < s.pageCounter + j ∧
    s'.frameTable (s'.pageFrame m) = some m
  table : ∀ i < 1596, ∀ m, s'.frameTable i = some m → m ∈ s.made ∧ s'.pageFrame m = i
  stays : ∀ m ∈ s.made, s.pageFrame m < a → s'.pageFrame m = s.pageFrame m
  moves : ∀ m ∈ s.made, a ≤ s.pageFrame m → a + j ≤ s'.pageFrame m
  bytes : ∀ m ∈ s.made, ∀ o < 4096,
    s'.heap.mem (B.frame (s'.pageFrame m) + o) = s.heap.mem (B.frame (s.pageFrame m) + o)

theorem Packed.cascaded (h : Packed s) (a : ℕ) : Cascaded B a 0 s s where
  made := rfl
  pageCounter := rfl
  below _ _ := rfl
  given_up i hai hia := by omega
  occupied i _ hi := h.occupied i hi
  page := h.page
  table := h.table
  stays _ _ _ := rfl
  moves _ _ hm := hm
  bytes _ _ _ _ := rfl

/-- One eviction to a frame. -/
theorem exists_evict (hn : s.pageCounter < 1597) (hi : i < 1597)
    (hnone : s.frameTable i = none → i = s.pageCounter) :
    ∃ s', swapPages B i none s = some s' ∧ Evicted B i s s' ∧ s'.frameTable i = none ∧
      Keeps s s' := by
  obtain ⟨s₁, hs₁, he⟩ := evict_frame (B := B) (s := s.enter) hn hi hnone
  have hmove : movePages B i none s.enter = some s₁ := hs₁
  have hs := swapPages_eq_some.mpr ⟨s₁, hmove, rfl⟩
  refine ⟨_, hs, ⟨he.pageCounter, he.pageFrame, he.frameTable, he.slot_new, he.slot_of_ne⟩, ?_,
    (swapPages_keeps hs).1⟩
  have hn' : s.enter.pageCounter < 1597 := hn
  rw [evict, if_pos hn'] at hs₁
  show s₁.frameTable i = none
  cases htable : s.frameTable i with
  | none =>
    rw [show s.enter.frameTable i = none from htable] at hs₁
    obtain rfl := Option.some.inj hs₁
    exact htable
  | some p =>
    rw [show s.enter.frameTable i = some p from htable] at hs₁
    obtain rfl := Option.some.inj hs₁
    exact update_self ..

/-- The loop takes the page out of the next frame, if there is one, to the frame after the last
occupied one. -/
theorem Cascaded.step (h : Cascaded B a j s₀ s) (ha : a ≤ s₀.pageCounter)
    (hj : s₀.pageCounter + j < 1596) :
    ∃ s', swapPages B (a + j) none s = some s' ∧ Cascaded B a (j + 1) s₀ s' := by
  have hpc := h.pageCounter
  obtain ⟨s', hs', he, hnone, hk⟩ := exists_evict (B := B) (s := s) (i := a + j) (by omega)
    (by omega) (fun hnone ↦ by
      by_contra hne
      exact (h.occupied (a + j) (le_refl _) (by omega)).mpr (by omega) hnone)
  -- where a page is after the eviction
  have hmoved : ∀ m ∈ s₀.made, s'.pageFrame m =
      if s.pageFrame m = a + j then s₀.pageCounter + j else s.pageFrame m := by
    intro m hm
    rw [he.pageFrame, hpc]
    by_cases hin : s.pageFrame m = a + j
    · rw [if_pos hin, if_pos (hin ▸ (h.page m hm).2)]
    · rw [if_neg hin, if_neg fun ht ↦ hin (h.table (a + j) (by omega) m ht).2]
  have htable : ∀ i < 1597, i ≠ a + j →
      s'.frameTable i =
        if i = s₀.pageCounter + j then s.frameTable (a + j) else s.frameTable i := by
    intro i hi hne
    rw [he.frameTable i hi hne, hpc]
  refine ⟨s', hs', hk.made.trans h.made, by rw [he.pageCounter, hpc, Nat.add_assoc],
    fun i hi ↦ ?_, fun i hai hi ↦ ?_, fun i hai hi ↦ ?_, fun m hm ↦ ?_, fun i hi m hm ↦ ?_,
    fun m hm hlt ↦ ?_, fun m hm hle ↦ ?_, fun m hm o ho ↦ ?_⟩
  · rw [htable i (by omega) (by omega), if_neg (by omega), h.below i hi]
  · by_cases hia : i = a + j
    · rw [hia, hnone]
    · rw [htable i (by omega) hia, if_neg (by omega), h.given_up i hai (by omega)]
  · rw [htable i (by omega) (by omega)]
    split_ifs with hnew
    · rw [h.occupied (a + j) (le_refl _) (by omega)]
      omega
    · rw [h.occupied i (by omega) hi]
      omega
  · obtain ⟨hlt, hin⟩ := h.page m hm
    rw [hmoved m hm]
    split_ifs with hmj
    · refine ⟨by omega, ?_⟩
      rw [hmj] at hin
      by_cases hself : s₀.pageCounter + j = a + j
      · exact absurd hmj (by omega)
      · rw [htable _ (by omega) hself, if_pos rfl, hin]
    · refine ⟨by omega, ?_⟩
      rw [htable _ (by omega) hmj, if_neg (by omega), hin]
  · by_cases hia : i = a + j
    · rw [hia, hnone] at hm
      cases hm
    · rw [htable i (by omega) hia] at hm
      split_ifs at hm with hnew
      · obtain ⟨hmade, hin⟩ := h.table (a + j) (by omega) m hm
        refine ⟨hmade, ?_⟩
        rw [hmoved m hmade, if_pos hin, hnew]
      · obtain ⟨hmade, hin⟩ := h.table i hi m hm
        refine ⟨hmade, ?_⟩
        rw [hmoved m hmade, if_neg (by omega), hin]
  · have hstay := h.stays m hm hlt
    rw [hmoved m hm, if_neg (by omega), hstay]
  · have hmove := h.moves m hm hle
    have hlt := (h.page m hm).1
    rw [hmoved m hm]
    split_ifs <;> omega
  · have hlt := (h.page m hm).1
    rw [← h.bytes m hm o ho, hmoved m hm]
    split_ifs with hmj
    · have hnew := he.slot_new o ho
      rw [hpc, slot_of_lt (by omega), slot_of_lt (by omega)] at hnew
      rw [hnew, hmj]
    · have hold := he.slot_of_ne (s.pageFrame m) (by omega) o ho
      rwa [slot_of_lt (by omega), slot_of_lt (by omega)] at hold

theorem Cascaded.run (h : Cascaded B a j s₀ s) (ha : a ≤ s₀.pageCounter)
    (hn : s₀.pageCounter + (j + n) ≤ 1596) :
    ∃ s', evictRange B (a + j) n s = some s' ∧ Cascaded B a (j + n) s₀ s' := by
  induction n generalizing j s with
  | zero => exact ⟨s, rfl, h⟩
  | succ n ih =>
    obtain ⟨s₁, hs₁, h₁⟩ := h.step ha (by omega)
    obtain ⟨s', hs', h'⟩ := ih h₁ (by omega)
    refine ⟨s', ?_, ?_⟩
    · rw [evictRange, hs₁]
      exact hs'
    · rwa [show j + (n + 1) = j + 1 + n by omega]

/-- The loop loses nothing: the frames it is to empty are empty, the pages below are as they were,
and every other page is in one frame behind with the bytes that it had. -/
theorem evictRange_cascade (h : Packed s) (ha : a ≤ s.pageCounter) (hn : s.pageCounter + n ≤ 1596) :
    ∃ s', evictRange B a n s = some s' ∧
      (∀ i, a ≤ i → i < a + n → s'.frameTable i = none) ∧
      (∀ m ∈ s.made, s.pageFrame m < a → s'.pageFrame m = s.pageFrame m ∧
        ∀ o < 4096, s'.heap.mem (B.frame (s.pageFrame m) + o) =
          s.heap.mem (B.frame (s.pageFrame m) + o)) ∧
      (∀ m ∈ s.made, a ≤ s.pageFrame m →
        (a + n ≤ s'.pageFrame m ∧ s'.pageFrame m < s.pageCounter + n) ∧
        (∀ i < 1596, s'.frameTable i = some m ↔ i = s'.pageFrame m) ∧
        ∀ o < 4096, s'.heap.mem (B.frame (s'.pageFrame m) + o) =
          s.heap.mem (B.frame (s.pageFrame m) + o)) ∧
      (∀ m ∈ s'.made, s'.frameTable (s'.pageFrame m) = some m) ∧
      s'.pageCounter = s.pageCounter + n ∧ s'.made = s.made := by
  obtain ⟨s', hs', hc⟩ := (h.cascaded (B := B) a).run (n := n) ha (by omega)
  rw [Nat.zero_add] at hc
  refine ⟨s', hs', hc.given_up, fun m hm hlt ↦ ?_, fun m hm hle ↦ ?_, fun m hm ↦ ?_,
    hc.pageCounter, hc.made⟩
  · have hstay := hc.stays m hm hlt
    refine ⟨hstay, fun o ho ↦ ?_⟩
    rw [← hc.bytes m hm o ho, hstay]
  · refine ⟨⟨hc.moves m hm hle, (hc.page m hm).1⟩, fun i hi ↦ ?_, hc.bytes m hm⟩
    constructor
    · intro hi'
      exact (hc.table i hi m hi').2.symm
    · rintro rfl
      exact (hc.page m hm).2
  · rw [hc.made] at hm
    exact (hc.page m hm).2

/-- Two pages, with metas at 1 and 2, in the first two frames. -/
def twoResident : Manager :=
  { blank.start lowBlock with
    frameTable := fun i ↦ if i < 2 then some (i + 1) else none
    pageFrame := fun m ↦ m - 1
    pageCounter := 2
    made := [1, 2] }

theorem packed_twoResident : Packed twoResident where
  occupied i _ := by
    show (if i < 2 then some (i + 1) else none) ≠ none ↔ i < 2
    split_ifs with hi
    · exact ⟨fun _ ↦ hi, fun _ ↦ Option.some_ne_none _⟩
    · exact ⟨fun hne ↦ absurd rfl hne, fun hlt ↦ absurd hlt hi⟩
  page m hm := by
    rcases List.mem_pair.mp hm with rfl | rfl
    · exact ⟨Nat.zero_lt_two, rfl⟩
    · exact ⟨Nat.one_lt_two, rfl⟩
  table i _ m hm := by
    change (if i < 2 then some (i + 1) else none) = some m at hm
    split_ifs at hm with hi
    obtain rfl := Option.some.inj hm
    refine ⟨?_, Nat.add_sub_cancel i 1⟩
    rcases Nat.le_one_iff_eq_zero_or_eq_one.mp (Nat.le_of_lt_succ hi) with rfl | rfl
    · exact List.mem_cons_self
    · exact List.mem_cons_of_mem _ List.mem_cons_self

/-- The page in frame 1 is moved three times, to frame 4. -/
theorem evictRange_cascade_twoResident : ∃ s', evictRange lowBlock 1 3 twoResident = some s' ∧
    s'.pageCounter = 5 ∧ s'.pageFrame 2 = 4 := by
  obtain ⟨s', hs', -, -, hmoved, -, hpc, -⟩ := evictRange_cascade (B := lowBlock) (a := 1) (n := 3)
    packed_twoResident (show 1 ≤ 2 by omega) (show 2 + 3 ≤ 1596 by omega)
  obtain ⟨⟨hlo, hhi⟩, -⟩ := hmoved 2 (List.mem_cons_of_mem _ List.mem_cons_self) (le_refl 1)
  change s'.pageFrame 2 < 5 at hhi
  exact ⟨s', hs', hpc, by omega⟩

end MyPthread.Paging
