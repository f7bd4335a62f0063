import Mathlib.Data.Set.Finite.Basic
import Mathlib.Order.WellFounded

/-!
# Chains that do not end

In a finite set a chain that always goes on comes back to where it has been.
-/

namespace MyPthread.Lib

open Relation

variable {α : Type*} {r : α → α → Prop} {P : α → Prop} {S : Set α} {a : α}

/-- If every member of a finite set is related to another member, some member is so to itself. -/
theorem exists_transGen_self (hS : S.Finite) (ha : a ∈ S) (h : ∀ b ∈ S, ∃ c ∈ S, r b c) :
    ∃ b ∈ S, TransGen r b b := by
  by_contra hno
  have hfin : Finite S := hS
  let up : S → S → Prop := fun b c ↦ TransGen r c.1 b.1
  have htrans : IsTrans S up := ⟨fun _ _ _ hbc hcd ↦ hcd.trans hbc⟩
  have hirrefl : Std.Irrefl up := ⟨fun b hb ↦ hno ⟨b.1, b.2, hb⟩⟩
  obtain ⟨b, -, hmin⟩ := (Finite.wellFounded_of_trans_of_irrefl up).has_min Set.univ
    ⟨⟨a, ha⟩, Set.mem_univ _⟩
  obtain ⟨c, hc, hbc⟩ := h b.1 b.2
  exact hmin ⟨c, hc⟩ (Set.mem_univ _) (.single hbc)

/-- If every member of a finite set has the property `P` or is related to another member, then
every chain leads to a member with the property or to one on a cycle. -/
theorem exists_end_or_cycle (hS : S.Finite) (ha : a ∈ S)
    (h : ∀ b ∈ S, P b ∨ ∃ c ∈ S, r b c) :
    ∃ b, ReflTransGen r a b ∧ (P b ∨ TransGen r b b) := by
  by_contra hno
  have hgo : ∀ b, ReflTransGen r a b → ¬(P b ∨ TransGen r b b) := by
    intro b hab hb
    exact hno ⟨b, hab, hb⟩
  obtain ⟨b, hb, hcycle⟩ := exists_transGen_self (r := r) (S := {b ∈ S | ReflTransGen r a b})
    (hS.subset (Set.sep_subset _ _)) ⟨ha, .refl⟩ (by
    rintro b ⟨hb, hab⟩
    obtain ⟨c, hc, hbc⟩ := (h b hb).resolve_left fun hP ↦ hgo b hab (.inl hP)
    exact ⟨c, ⟨hc, hab.tail hbc⟩, hbc⟩)
  exact hgo b hb.2 (.inr hcycle)

end MyPthread.Lib
