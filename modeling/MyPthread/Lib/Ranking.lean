import Mathlib.Tactic

/-!
# Runs that must reach a goal

A machine takes labelled steps, some of which count.  States carry ranks; a step
never makes the rank larger, a step that counts makes it smaller, and either may
reach the goal instead.  Then a run in which more steps count than the rank of its
first state passes through the goal.

The rule says nothing of runs that stop, so it serves for waiting, where what
counts is the tick of a clock, and for termination, where every step counts.
-/

namespace MyPthread.Lib

variable {α β : Type*} {step : α → β → Option α}

theorem foldlM_cons {a c : α} {b : β} {bs : List β} :
    (b :: bs).foldlM step a = some c ↔ ∃ a', step a b = some a' ∧ bs.foldlM step a' = some c := by
  rw [List.foldlM_cons]
  exact Option.bind_eq_some_iff

/-- `P k a`: the state `a` has rank at most `k`.  A step reaches the goal, or keeps
the rank, or lowers it when it counts. -/
def Ranks (step : α → β → Option α) (counts : β → Bool) (P : ℕ → α → Prop) (Goal : α → Prop) :
    Prop :=
  ∀ k a b a', P k a → step a b = some a' →
    Goal a' ∨ ∃ j, P j a' ∧ j + (if counts b then 1 else 0) ≤ k

namespace Ranks

variable {counts : β → Bool} {P : ℕ → α → Prop} {Goal : α → Prop}

/-- A run either passes through the goal, or ends with a rank lower by the steps
that counted. -/
theorem run (h : Ranks step counts P Goal) {k : ℕ} {a c : α} {bs : List β} (ha : P k a)
    (hr : bs.foldlM step a = some c) :
    (∃ bs₁ bs₂ a₁, bs = bs₁ ++ bs₂ ∧ bs₁.foldlM step a = some a₁ ∧ Goal a₁) ∨
      ∃ j, P j c ∧ j + bs.countP counts ≤ k := by
  induction bs generalizing a k with
  | nil =>
    cases hr
    exact .inr ⟨k, ha, le_refl k⟩
  | cons b bs ih =>
    obtain ⟨a', hs, hr⟩ := foldlM_cons.mp hr
    rcases h k a b a' ha hs with hg | ⟨j, hj, hjk⟩
    · exact .inl ⟨[b], bs, a', rfl, foldlM_cons.mpr ⟨a', hs, rfl⟩, hg⟩
    · rcases ih hj hr with ⟨bs₁, bs₂, a₁, rfl, hr₁, hg⟩ | ⟨i, hi, hij⟩
      · exact .inl ⟨b :: bs₁, bs₂, a₁, rfl, foldlM_cons.mpr ⟨a', hs, hr₁⟩, hg⟩
      · refine .inr ⟨i, hi, ?_⟩
        rw [List.countP_cons]
        omega

/-- When more steps count than the rank allows, the run passes through the goal. -/
theorem exists_goal (h : Ranks step counts P Goal) {k : ℕ} {a c : α} {bs : List β} (ha : P k a)
    (hr : bs.foldlM step a = some c) (hk : k < bs.countP counts) :
    ∃ bs₁ bs₂ a₁, bs = bs₁ ++ bs₂ ∧ bs₁.foldlM step a = some a₁ ∧ Goal a₁ := by
  rcases h.run ha hr with hg | ⟨j, -, hj⟩
  · exact hg
  · omega

/-- When every step counts, and there is one before the goal, the goal is reached in
one step more than the rank. -/
theorem exists_run (h : Ranks step (fun _ ↦ true) P Goal) {k : ℕ} {a : α} (b : β)
    (hgo : ∀ k a, P k a → ¬Goal a → ∃ a', step a b = some a') (ha : P k a) :
    ∃ j ≤ k + 1, ∃ c, (List.replicate j b).foldlM step a = some c ∧ Goal c := by
  induction k using Nat.strong_induction_on generalizing a with
  | _ k ih =>
    by_cases hg : Goal a
    · exact ⟨0, Nat.zero_le _, a, rfl, hg⟩
    obtain ⟨a', hs⟩ := hgo k a ha hg
    rcases h k a b a' ha hs with hg' | ⟨j, hj, hjk⟩
    · exact ⟨1, Nat.le_add_left 1 k, a', foldlM_cons.mpr ⟨a', hs, rfl⟩, hg'⟩
    · obtain ⟨i, hij, c, hr, hc⟩ := ih j hjk hj
      exact ⟨i + 1, Nat.succ_le_succ (hij.trans hjk), c, foldlM_cons.mpr ⟨a', hs, hr⟩, hc⟩

end Ranks

end MyPthread.Lib
