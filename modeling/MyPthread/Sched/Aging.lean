import MyPthread.Sched.Mlfq

/-!
# How long a thread waits

A thread that does not run keeps its place: others of its level may leave in front
of it, and those of better levels fall towards it, a level for each quantum they
use up.  `delay n i q` adds up what they still have to fall, what stands in front
of `n` in its level `i`, and what the splice may bring back from the lowest level.
No request makes it larger, and one of the timer makes it smaller.
-/

namespace MyPthread.Sched.Mlfq

open Function

variable {q : Mlfq} {Q R : QueueId} {c d i j n p t : ℕ} {f : FlagCalled}

/-- The levels the threads above level `i` still have to fall to reach it. -/
def ahead (i : ℕ) (q : Mlfq) : ℕ := ∑ j ∈ Finset.range i, (q (.rqs j)).length * (i - j)

/-- The most ticks the thread `n` of level `i` waits; a thread in front of it has
nine levels to fall at most. -/
def delay (n i : ℕ) (q : Mlfq) : ℕ :=
  ahead i q + 9 * (q (.rqs i)).idxOf n + i * (q (.rqs (numPriorities - 1))).length

/-! ## What is ahead -/

theorem ahead_update_of_lt (l : List ℕ) (hj : j < i) :
    ahead i (update q (.rqs j) l) + (q (.rqs j)).length * (i - j) =
      ahead i q + l.length * (i - j) := by
  have hmem : j ∈ Finset.range i := Finset.mem_range.mpr hj
  have hrest : ∑ t ∈ (Finset.range i).erase j, (update q (.rqs j) l (.rqs t)).length * (i - t) =
      ∑ t ∈ (Finset.range i).erase j, (q (.rqs t)).length * (i - t) := by
    refine Finset.sum_congr rfl fun t ht ↦ ?_
    rw [update_of_ne fun h ↦ (Finset.mem_erase.mp ht).1 (QueueId.rqs.inj h)]
  unfold ahead
  rw [← Finset.add_sum_erase _ _ hmem, ← Finset.add_sum_erase _ _ hmem, hrest, update_self]
  omega

theorem ahead_update_of_notMem (l : List ℕ) (hQ : ∀ j < i, Q ≠ .rqs j) :
    ahead i (update q Q l) = ahead i q := by
  refine Finset.sum_congr rfl fun t ht ↦ ?_
  rw [update_of_ne (hQ t (Finset.mem_range.mp ht)).symm]

theorem ahead_take (hc : c ∈ q (.rqs p)) : ahead i (q.take (.rqs p) c) + (i - p) = ahead i q := by
  rcases lt_or_ge p i with hp | hp
  · have h := ahead_update_of_lt (q := q) ((q (.rqs p)).erase c) hp
    have hpos := List.length_pos_of_mem hc
    rw [List.length_erase_of_mem hc, Nat.sub_mul, one_mul] at h
    have hle : i - p ≤ (q (.rqs p)).length * (i - p) := Nat.le_mul_of_pos_left _ hpos
    unfold take
    omega
  · rw [take, ahead_update_of_notMem _ fun j hj h ↦ by cases h; omega]
    omega

theorem ahead_put : ahead i (q.put (.rqs p) c) = ahead i q + (i - p) := by
  rcases lt_or_ge p i with hp | hp
  · have h := ahead_update_of_lt (q := q) (q (.rqs p) ++ [c]) hp
    rw [List.length_append, List.length_singleton, add_mul, one_mul] at h
    unfold put
    omega
  · rw [put, ahead_update_of_notMem _ fun j hj h ↦ by cases h; omega]
    omega

/-- The queues below level `i` are not ahead. -/
theorem ahead_congr {q' : Mlfq} (h : ∀ j < i, (q' (.rqs j)).length = (q (.rqs j)).length) :
    ahead i q' = ahead i q :=
  Finset.sum_congr rfl fun j hj ↦ by rw [h j (Finset.mem_range.mp hj)]

/-! ## A place in a level -/

/-- The current thread leaves the front of its level: `n` moves up, if it is in it. -/
theorem idxOf_take (hc : (q (.rqs p)).head? = some c) (hn : n ≠ c) :
    (q.take (.rqs p) c (.rqs i)).idxOf n + (if i = p ∧ n ∈ q (.rqs i) then 1 else 0) ≤
      (q (.rqs i)).idxOf n := by
  unfold take
  by_cases hi : i = p
  · subst hi
    obtain ⟨l, hl⟩ := List.head?_eq_some_iff.mp hc
    rw [update_self, hl, List.erase_cons_head, List.idxOf_cons_ne _ hn.symm]
    split <;> omega
  · rw [update_of_ne fun h ↦ hi (QueueId.rqs.inj h), if_neg fun h ↦ hi h.1]
    rfl

theorem idxOf_put (hn : n ∈ q R) : (q.put Q c R).idxOf n = (q R).idxOf n := by
  unfold put
  by_cases hR : R = Q
  · subst hR
    rw [update_self, List.idxOf_append_of_mem hn]
  · rw [update_of_ne hR]

theorem length_take_le : (q.take Q c R).length ≤ (q R).length := by
  unfold take
  by_cases hR : R = Q
  · subst hR
    rw [update_self]
    exact List.length_erase_le
  · rw [update_of_ne hR]

theorem length_put : (q.put Q c R).length = (q R).length + if R = Q then 1 else 0 := by
  unfold put
  by_cases hR : R = Q
  · subst hR
    rw [update_self, if_pos rfl, List.length_append, List.length_singleton]
  · rw [update_of_ne hR, if_neg hR]
    rfl

/-! ## The delay over a call of `scheduler` -/

theorem mem_take_of_ne (hc : n ≠ c) (hn : n ∈ q R) : n ∈ q.take Q c R := by
  unfold take
  by_cases hR : R = Q
  · subst hR
    rw [update_self]
    exact (List.mem_erase_of_ne hc).mpr hn
  · rwa [update_of_ne hR]

theorem mem_request_of_ne (hn : n ≠ c) (hi : n ∈ q R) : n ∈ q.request f c p R := by
  cases f with
  | none | first => exact hi
  | pexit => exact mem_take_of_ne hn hi
  | timer | yield | join | blocked => exact mem_put.mpr (.inl (mem_take_of_ne hn hi))

theorem delay_congr {q' : Mlfq} (h : ∀ j, q' (.rqs j) = q (.rqs j)) :
    delay n i q' = delay n i q := by
  rw [delay, delay, ahead_congr fun j _ ↦ by rw [h j], h i, h]

/-- The delay when the current thread leaves the run queues. -/
theorem delay_take (hc : (q (.rqs p)).head? = some c) (hn : n ≠ c) (hi : n ∈ q (.rqs i)) :
    delay n i (q.take (.rqs p) c) + (i - p) +
      (if i = p then 9 else 0) ≤ delay n i q := by
  have ha := ahead_take (i := i) (List.mem_of_head? hc)
  have hx := idxOf_take (i := i) hc hn
  have hl := Nat.mul_le_mul_left i
    (length_take_le (q := q) (Q := .rqs p) (c := c) (R := .rqs (numPriorities - 1)))
  unfold delay
  split <;> rename_i hip
  · rw [if_pos ⟨hip, hi⟩] at hx
    omega
  · rw [if_neg fun h ↦ hip h.1] at hx
    omega

/-- No request makes the delay larger, and one of the timer makes it smaller. -/
theorem delay_request (hc : (q (.rqs p)).head? = some c) (hn : n ≠ c) (hi : n ∈ q (.rqs i))
    (hi₉ : i < numPriorities - 1) (hp : p ≤ i) :
    delay n i (q.request f c p) + (if f = .timer then 1 else 0) ≤ delay n i q := by
  have h₉ : numPriorities - 1 = 9 := rfl
  have htake := delay_take hc hn hi
  have hmem : n ∈ q.take (.rqs p) c (.rqs i) := mem_take_of_ne hn hi
  have hput : ∀ r, delay n i ((q.take (.rqs p) c).put (.rqs r) c) =
      delay n i (q.take (.rqs p) c) + (i - r) + if r = numPriorities - 1 then i else 0 := by
    intro r
    rw [delay, ahead_put, idxOf_put hmem, length_put, delay]
    by_cases hr : r = numPriorities - 1
    · subst hr
      rw [if_pos rfl, if_pos rfl, mul_add, mul_one]
      omega
    · rw [if_neg hr, if_neg fun h ↦ hr (QueueId.rqs.inj h).symm, add_zero]
      omega
  have hout : ∀ Q, (∀ j, Q ≠ .rqs j) →
      delay n i ((q.take (.rqs p) c).put Q c) = delay n i (q.take (.rqs p) c) := by
    intro Q hQ
    refine delay_congr fun j ↦ ?_
    rw [put, update_of_ne (hQ j).symm]
  cases f with
  | none | first => exact le_refl _
  | pexit =>
    show delay n i (q.take (.rqs p) c) + 0 ≤ _
    omega
  | join =>
    show delay n i ((q.take (.rqs p) c).put .joinQueue c) + 0 ≤ _
    rw [hout _ fun j h ↦ by cases h]
    omega
  | blocked =>
    show delay n i ((q.take (.rqs p) c).put .waitingQueue c) + 0 ≤ _
    rw [hout _ fun j h ↦ by cases h]
    omega
  | yield =>
    show delay n i ((q.take (.rqs p) c).put (.rqs p) c) + 0 ≤ _
    rw [hput, if_neg (by omega)]
    omega
  | timer =>
    show delay n i ((q.take (.rqs p) c).put (.rqs (min (p + 1) (numPriorities - 1))) c) + 1 ≤ _
    rw [hput]
    -- a thread of the level of `n` falls below it, one of a better level towards it
    rcases hp.eq_or_lt with rfl | hlt
    · rw [if_pos rfl] at htake
      split <;> omega
    · rw [if_neg (by omega)] at htake
      rw [if_neg (by omega)]
      omega

/-- What the splice brings back has been counted. -/
theorem delay_age (hi : n ∈ q (.rqs i)) (hi₉ : i < numPriorities - 1) :
    delay n i q.age = delay n i q := by
  have hne : QueueId.rqs 0 ≠ .rqs (numPriorities - 1) := by rintro ⟨⟩
  have hlow : q.age (.rqs (numPriorities - 1)) = [] := by rw [age, update_self]
  have hidx : (q.age (.rqs i)).idxOf n = (q (.rqs i)).idxOf n := by
    rw [age, update_of_ne fun h ↦ by cases h; omega]
    by_cases h₀ : i = 0
    · subst h₀
      rw [update_self, List.idxOf_append_of_mem hi]
    · rw [update_of_ne fun h ↦ h₀ (QueueId.rqs.inj h)]
  have hahead : ahead i q.age = ahead i q + i * (q (.rqs (numPriorities - 1))).length := by
    rw [age, ahead_update_of_notMem _ fun j hj h ↦ by cases h; omega]
    rcases Nat.eq_zero_or_pos i with rfl | h₀
    · rw [zero_mul]
      rfl
    · have h := ahead_update_of_lt (q := q)
        (q (.rqs 0) ++ q (.rqs (numPriorities - 1))) h₀
      rw [List.length_append, add_mul, Nat.sub_zero] at h
      rw [Nat.mul_comm i]
      omega
  rw [delay, delay, hahead, hidx, hlow, List.length_nil]
  omega

theorem length_rotate : (q.rotate c Q).length = (q Q).length := by
  unfold rotate
  split <;> rename_i h
  · obtain ⟨l, hl⟩ := List.head?_eq_some_iff.mp h.2
    rw [hl]
    simp
  · rfl

/-- The rotation makes no thread but the current one wait longer. -/
theorem delay_rotate (hn : n ≠ c) (hi : n ∈ q (.rqs i)) :
    delay n i (q.rotate c) ≤ delay n i q := by
  have hidx : (q.rotate c (.rqs i)).idxOf n ≤ (q (.rqs i)).idxOf n := by
    unfold rotate
    split <;> rename_i h
    · obtain ⟨l, hl⟩ := List.head?_eq_some_iff.mp h.2
      rw [hl] at hi ⊢
      have hmem : n ∈ l := (List.mem_cons.mp hi).resolve_left hn
      rw [List.tail_cons, List.idxOf_append_of_mem hmem, List.idxOf_cons_ne _ hn.symm]
      exact Nat.le_succ _
    · rfl
  unfold delay
  rw [ahead_congr fun _ _ ↦ length_rotate, length_rotate]
  omega

/-! ## Bounds -/

theorem length_runnable :
    q.runnable.length = ∑ j ∈ Finset.range numPriorities, (q (.rqs j)).length := by
  rw [runnable, List.length_flatMap, ← List.sum_toFinset _ List.nodup_range, List.toFinset_range]

/-- A thread waits at most nine ticks for each thread that can run. -/
theorem delay_le (hi₉ : i < numPriorities - 1) :
    delay n i q ≤ 9 * q.runnable.length := by
  have h₉ : numPriorities - 1 = 9 := rfl
  have hidx : (q (.rqs i)).idxOf n ≤ (q (.rqs i)).length := List.idxOf_le_length
  have hahead : ahead i q ≤ ∑ j ∈ Finset.range i, 9 * (q (.rqs j)).length := by
    refine Finset.sum_le_sum fun j _ ↦ ?_
    rw [mul_comm]
    exact Nat.mul_le_mul_right _ (by omega)
  have hsum : ∑ j ∈ Finset.range i, (q (.rqs j)).length + (q (.rqs i)).length +
      (q (.rqs (numPriorities - 1))).length ≤ q.runnable.length := by
    rw [length_runnable, show numPriorities = numPriorities - 1 + 1 from rfl,
      Finset.sum_range_succ, ← Finset.sum_range_succ]
    refine Nat.add_le_add_right (Finset.sum_le_sum_of_subset ?_) _
    exact Finset.range_subset_range.mpr hi₉
  rw [← Finset.mul_sum] at hahead
  have hlast : i * (q (.rqs (numPriorities - 1))).length ≤
      9 * (q (.rqs (numPriorities - 1))).length :=
    Nat.mul_le_mul_right _ hi₉.le
  unfold delay
  omega

/-! ## The choice -/

/-- While another thread waits in level `i`, the one chosen is of level `i` or better. -/
theorem exists_choose (hn : n ≠ c) (hi : n ∈ q (.rqs i)) (hi₁₀ : i < numPriorities) :
    ∃ d t, q.choose c = some d ∧ d ≠ c ∧ t ≤ i ∧ d ∈ q (.rqs t) := by
  have hsplit : q.runnable = (List.range (i + 1)).flatMap (fun j ↦ q (.rqs j)) ++
      below (i + 1) q := by
    have h := List.range'_append_1 (s := 0) (m := i + 1) (n := numPriorities - (i + 1))
    rw [zero_add, Nat.add_sub_cancel' hi₁₀] at h
    rw [runnable, below, ← List.flatMap_append, List.range_eq_range', List.range_eq_range', h]
  have hmem : n ∈ (List.range (i + 1)).flatMap fun j ↦ q (.rqs j) :=
    List.mem_flatMap.mpr ⟨i, List.mem_range.mpr (Nat.lt_succ_self i), hi⟩
  obtain ⟨d, hd⟩ := Option.isSome_iff_exists.mp
    (List.find?_isSome (p := fun m ↦ decide (m ≠ c)).mpr ⟨n, hmem, decide_eq_true hn⟩)
  obtain ⟨t, ht, hdt⟩ := List.mem_flatMap.mp (List.mem_of_find?_eq_some hd)
  have hne : decide (d ≠ c) = true := List.find?_some (p := fun m ↦ decide (m ≠ c)) hd
  refine ⟨d, t, ?_, of_decide_eq_true hne, ?_, hdt⟩
  · rw [choose, hsplit, List.find?_append, hd]
    rfl
  · have := List.mem_range.mp ht
    omega

end MyPthread.Sched.Mlfq
