import Mathlib.Tactic
import Mathlib.Data.Set.Insert
import Mathlib.Logic.Function.Basic

/-!
# Items placed in numbered slots

A set of items, each in a slot of its own; the slots below `n` are all taken but
for the holes `H`.  The slots below `N` have an index, which says what is in them,
a slot above has none.  This is a page table, with `N` frames and a backing store,
or any other cache with an unindexed overflow.

An item may move to the slot `n`, which leaves a hole; two items may change places;
a new item may fill a hole.
-/

namespace MyPthread.Lib

open Function

variable {P : Type} {N n : ℕ} {H : Set ℕ} {table table' : ℕ → Option P} {loc loc' : P → ℕ}
  {S : Set P} {p q : P} {i d : ℕ}

/-- The items `S` are in the slots below `n` that are not in `H`, one in each, and
`table` is the index of the slots below `N`. -/
structure Placed (N n : ℕ) (H : Set ℕ) (table : ℕ → Option P) (loc : P → ℕ) (S : Set P) :
    Prop where
  lt : ∀ p ∈ S, loc p < n
  notMem : ∀ p ∈ S, loc p ∉ H
  inj : ∀ p ∈ S, ∀ q ∈ S, loc p = loc q → p = q
  surj : ∀ d < n, d ∉ H → ∃ p ∈ S, loc p = d
  table_iff : ∀ i < N, i ∉ H → ∀ p, table i = some p ↔ p ∈ S ∧ loc p = i

namespace Placed

theorem empty (htable : ∀ i, table i = none) : Placed N 0 ∅ table loc ∅ := by
  refine ⟨?_, ?_, ?_, ?_, ?_⟩
  · intro p hp
    cases hp
  · intro p hp
    cases hp
  · intro p hp
    cases hp
  · intro d hd
    omega
  · intro i _ _ p
    simp [htable i]

variable (h : Placed N n H table loc S)
include h

/-- The index of an indexed slot that is taken. -/
theorem exists_table (hi : i < N) (hn : i < n) (hH : i ∉ H) :
    ∃ p ∈ S, loc p = i ∧ table i = some p := by
  obtain ⟨p, hp, hpi⟩ := h.surj i hn hH
  exact ⟨p, hp, hpi, (h.table_iff i hi hH p).mpr ⟨hp, hpi⟩⟩

/-- An item in an indexed slot is found there. -/
theorem table_loc (hp : p ∈ S) (hN : loc p < N) : table (loc p) = some p :=
  (h.table_iff _ hN (h.notMem p hp) p).mpr ⟨hp, rfl⟩

variable [DecidableEq P]

/-- The item in slot `i`, if there is one, moves to slot `n`. -/
theorem evict (hi : i < N) (hin : i ≤ n) (hH : i ∉ H) (hn : n ∉ H)
    (htable : ∀ j < N, j ≠ i → table' j = if j = n then table i else table j)
    (hloc : ∀ p, loc' p = if table i = some p then n else loc p) :
    Placed N (n + 1) (insert i H) table' loc' S := by
  have hiff := h.table_iff i hi hH
  -- an item stays unless it is the one in slot `i`
  have hstay : ∀ p ∈ S, loc p ≠ i → loc' p = loc p := by
    intro p hp hpi
    rw [hloc, if_neg]
    intro hti
    exact hpi ((hiff p).mp hti).2
  have hmove : ∀ p ∈ S, loc p = i → loc' p = n := by
    intro p hp hpi
    rw [hloc, if_pos ((hiff p).mpr ⟨hp, hpi⟩)]
  refine ⟨?_, ?_, ?_, ?_, ?_⟩
  · intro p hp
    have := h.lt p hp
    by_cases hpi : loc p = i
    · rw [hmove p hp hpi]
      omega
    · rw [hstay p hp hpi]
      omega
  · intro p hp
    rw [Set.mem_insert_iff, not_or]
    by_cases hpi : loc p = i
    · have := h.lt p hp
      rw [hmove p hp hpi]
      exact ⟨by omega, hn⟩
    · rw [hstay p hp hpi]
      exact ⟨hpi, h.notMem p hp⟩
  · intro p hp q hq hpq
    have hlp := h.lt p hp
    have hlq := h.lt q hq
    apply h.inj p hp q hq
    by_cases hpi : loc p = i <;> by_cases hqi : loc q = i
    · rw [hpi, hqi]
    · rw [hmove p hp hpi, hstay q hq hqi] at hpq
      omega
    · rw [hstay p hp hpi, hmove q hq hqi] at hpq
      omega
    · rwa [hstay p hp hpi, hstay q hq hqi] at hpq
  · intro d hd hdH
    rw [Set.mem_insert_iff, not_or] at hdH
    rcases Nat.lt_or_ge d n with hdn | hdn
    · obtain ⟨p, hp, hpd⟩ := h.surj d hdn hdH.2
      exact ⟨p, hp, by rw [hstay p hp (by omega), hpd]⟩
    · obtain rfl : d = n := by omega
      obtain ⟨p, hp, hpi⟩ := h.surj i (by omega) hH
      exact ⟨p, hp, hmove p hp hpi⟩
  · intro j hj hjH p
    rw [Set.mem_insert_iff, not_or] at hjH
    rw [htable j hj hjH.1]
    by_cases hjn : j = n
    · subst hjn
      rw [if_pos rfl, hiff p]
      constructor
      · rintro ⟨hp, hpi⟩
        exact ⟨hp, hmove p hp hpi⟩
      · rintro ⟨hp, hpj⟩
        refine ⟨hp, ?_⟩
        by_contra hpi
        have := h.lt p hp
        rw [hstay p hp hpi] at hpj
        omega
    · rw [if_neg hjn, h.table_iff j hj hjH.2 p]
      refine and_congr_right fun hp ↦ ?_
      by_cases hpi : loc p = i
      · rw [hmove p hp hpi, hpi]
        exact ⟨fun hij ↦ absurd hij.symm hjH.1, fun hnj ↦ absurd hnj.symm hjn⟩
      · rw [hstay p hp hpi]

/-- The items in two slots change places; the first of the slots is indexed. -/
theorem swap (hi : i < N) (hH : i ∉ H) (hq : table i = some q) (hp : p ∈ S) (hpq : p ≠ q)
    (htable : ∀ j < N, table' j = if j = i then some p else if j = loc p then some q else table j) :
    Placed N n H table' (update (update loc q (loc p)) p i) S := by
  obtain ⟨hqS, hqi⟩ := (h.table_iff i hi hH q).mp hq
  have hloc : ∀ r, update (update loc q (loc p)) p i r =
      if r = p then i else if r = q then loc p else loc r := by
    intro r
    simp only [update_apply]
  have hpi : loc p ≠ i := fun hpi ↦ hpq (h.inj p hp q hqS (hpi.trans hqi.symm))
  refine ⟨?_, ?_, ?_, ?_, ?_⟩
  · intro r hr
    have hlr := h.lt r hr
    have hlp := h.lt p hp
    have hlq := h.lt q hqS
    rw [hloc]
    split_ifs <;> omega
  · intro r hr
    rw [hloc]
    split_ifs
    · exact hH
    · exact h.notMem p hp
    · exact h.notMem r hr
  · intro r hr t ht hrt
    rw [hloc, hloc] at hrt
    have hinj := h.inj
    grind
  · intro d hd hdH
    obtain ⟨r, hr, hrd⟩ := h.surj d hd hdH
    by_cases hdi : d = i
    · exact ⟨p, hp, by rw [hloc, if_pos rfl, hdi]⟩
    · by_cases hdp : d = loc p
      · exact ⟨q, hqS, by rw [hloc, if_neg (Ne.symm hpq), if_pos rfl, hdp]⟩
      · refine ⟨r, hr, ?_⟩
        rw [hloc, if_neg, if_neg, hrd]
        · rintro rfl
          omega
        · rintro rfl
          omega
  · intro j hj hjH r
    rw [htable j hj, hloc]
    have hiff := h.table_iff j hj hjH r
    have hinj := h.inj
    grind

/-- A new item fills a hole. -/
theorem fill (hi : i < n) (hH : i ∈ H) (hp : p ∉ S)
    (htable : ∀ j < N, table' j = if j = i then some p else table j) :
    Placed N n (H \ {i}) table' (update loc p i) (insert p S) := by
  have hstay : ∀ q ∈ S, update loc p i q = loc q := by
    intro q hq
    apply update_of_ne
    rintro rfl
    exact hp hq
  have hne : ∀ q ∈ S, loc q ≠ i := by
    rintro q hq rfl
    exact h.notMem q hq hH
  refine ⟨?_, ?_, ?_, ?_, ?_⟩
  · rintro q (rfl | hq)
    · rwa [update_self]
    · rw [hstay q hq]
      exact h.lt q hq
  · rintro q (rfl | hq)
    · rw [update_self]
      exact fun hmem ↦ hmem.2 rfl
    · rw [hstay q hq]
      exact fun hmem ↦ h.notMem q hq hmem.1
  · rintro q (rfl | hq) r (rfl | hr) hqr
    · rfl
    · rw [update_self, hstay r hr] at hqr
      exact absurd hqr.symm (hne r hr)
    · rw [update_self, hstay q hq] at hqr
      exact absurd hqr (hne q hq)
    · rw [hstay q hq, hstay r hr] at hqr
      exact h.inj q hq r hr hqr
  · intro d hd hdH
    by_cases hdi : d = i
    · exact ⟨p, Set.mem_insert _ _, by rw [update_self, hdi]⟩
    · obtain ⟨q, hq, hqd⟩ := h.surj d hd fun hmem ↦ hdH ⟨hmem, hdi⟩
      exact ⟨q, Set.mem_insert_of_mem _ hq, by rw [hstay q hq, hqd]⟩
  · intro j hj hjH q
    rw [htable j hj]
    by_cases hji : j = i
    · subst hji
      rw [if_pos rfl, Option.some_inj]
      constructor
      · rintro rfl
        exact ⟨Set.mem_insert _ _, update_self ..⟩
      · rintro ⟨rfl | hq, hqj⟩
        · rfl
        · rw [hstay q hq] at hqj
          exact absurd hqj (hne q hq)
    · rw [if_neg hji, h.table_iff j hj fun hmem ↦ hjH ⟨hmem, hji⟩]
      constructor
      · rintro ⟨hq, hqj⟩
        exact ⟨Set.mem_insert_of_mem _ hq, by rw [hstay q hq, hqj]⟩
      · rintro ⟨rfl | hq, hqj⟩
        · rw [update_self] at hqj
          exact absurd hqj.symm hji
        · rw [hstay q hq] at hqj
          exact ⟨hq, hqj⟩

end Placed

end MyPthread.Lib
