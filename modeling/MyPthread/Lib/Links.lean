import Mathlib.Tactic
import Mathlib.Logic.Function.Basic
import Mathlib.Data.List.Nodup

/-!
# Singly linked queues

Queues whose links live in their nodes: a front, a back and a partial map
`next`.  `Path next p l` says that `l` are the nodes met from `p`;
`Queued next f b l` that `f` and `b` are the ends of such a queue.  The back of
an empty queue and the link of a node in no queue may be anything, so that
taking a node out may leave both as they are.
-/

namespace MyPthread.Lib

open Function

variable {N : Type} {next next' : N → Option N} {f b p : Option N} {l k : List N} {n m : N}

/-- The nodes met from `p` along `next`, up to `none`. -/
def Path (next : N → Option N) : Option N → List N → Prop
  | p, [] => p = none
  | p, n :: l => p = some n ∧ Path next (next n) l

namespace Path

theorem head (h : Path next p l) : p = l.head? := by
  cases l with
  | nil => exact h
  | cons n l => exact h.1

theorem eq_nil (h : Path next none l) : l = [] := by
  cases l with
  | nil => rfl
  | cons n l => cases h.1

/-- The link of a node on the path is to the next one. -/
theorem head_next (h : Path next p (l ++ n :: k)) : next n = k.head? := by
  induction l generalizing p with
  | nil => exact h.2.head
  | cons m l ih => exact ih h.2

/-- A path depends only on the links of its nodes. -/
theorem congr (h : Path next p l) (heq : ∀ n ∈ l, next' n = next n) : Path next' p l := by
  induction l generalizing p with
  | nil => exact h
  | cons n l ih =>
    refine ⟨h.1, ?_⟩
    rw [heq n List.mem_cons_self]
    exact ih h.2 fun m hm ↦ heq m (List.mem_cons_of_mem _ hm)

/-- The part of a path behind a node. -/
theorem of_append (h : Path next p (l ++ n :: k)) : Path next (next n) k := by
  induction l generalizing p with
  | nil => exact h.2
  | cons m l ih => exact ih h.2

/-- There is one path from each node. -/
theorem unique (h : Path next p l) (h' : Path next p k) : l = k := by
  induction l generalizing p k with
  | nil =>
    cases k with
    | nil => rfl
    | cons m k => cases (show p = none from h).symm.trans h'.1
  | cons n l ih =>
    cases k with
    | nil => cases h.1.symm.trans (show p = none from h')
    | cons m k =>
      obtain rfl : n = m := Option.some.inj (h.1.symm.trans h'.1)
      rw [ih h.2 h'.2]

variable [DecidableEq N]

/-- Changing the link of another node. -/
theorem update (h : Path next p l) (hn : n ∉ l) (q : Option N) :
    Path (update next n q) p l :=
  h.congr fun _ hm ↦ update_of_ne (ne_of_mem_of_not_mem hm hn) _ _

/-- Hanging a path behind the last node of another. -/
theorem splice {q : Option N} (h : Path next p (l ++ [n])) (hk : Path next q k)
    (hl : (l ++ [n]).Nodup) (hnk : n ∉ k) :
    Path (Function.update next n q) p (l ++ n :: k) := by
  induction l generalizing p with
  | nil =>
    refine ⟨h.1, ?_⟩
    rw [update_self]
    exact hk.update hnk q
  | cons m l ih =>
    rw [List.cons_append, List.nodup_cons] at hl
    have hmn : m ≠ n := by
      rintro rfl
      exact hl.1 (by simp)
    refine ⟨h.1, ?_⟩
    rw [update_of_ne hmn]
    exact ih h.2 hl.2

end Path

/-- `f` and `b` are the front and the back of the queue `l`. -/
structure Queued (next : N → Option N) (f b : Option N) (l : List N) : Prop where
  path : Path next f l
  back : ∀ n ∈ l.getLast?, b = some n

namespace Queued

theorem empty (b : Option N) : Queued next none b [] := ⟨rfl, fun _ hn ↦ by cases hn⟩

theorem front (h : Queued next f b l) : f = l.head? := h.path.head

theorem eq_nil (h : Queued next none b l) : l = [] := h.path.eq_nil

/-- Taking the front out: its own link is the new front. -/
theorem tail (h : Queued next f b (n :: l)) : Queued next (next n) b l := by
  refine ⟨h.path.2, fun m hm ↦ h.back m ?_⟩
  cases l with
  | nil => cases hm
  | cons k l => exact hm

/-- The back of a queue that is not empty. -/
theorem exists_back (h : Queued next (some m) b l) :
    ∃ init n, l = init ++ [n] ∧ b = some n := by
  rcases List.eq_nil_or_concat' l with rfl | ⟨init, n, rfl⟩
  · cases h.path
  · exact ⟨init, n, rfl, h.back n (by simp)⟩

variable [DecidableEq N]

/-- Changing the link of another node. -/
theorem update (h : Queued next f b l) (hn : n ∉ l) (q : Option N) :
    Queued (Function.update next n q) f b l :=
  ⟨h.path.update hn q, h.back⟩

/-- A queue of one node. -/
theorem singleton (next : N → Option N) (n : N) :
    Queued (Function.update next n none) (some n) (some n) [n] :=
  ⟨⟨rfl, by rw [update_self]; rfl⟩, fun m hm ↦ by simpa using hm⟩

/-- Hanging a queue behind another. -/
theorem splice {g c : Option N} (h : Queued next f b (l ++ [n])) (hk : Queued next g c (m :: k))
    (hl : (l ++ [n]).Nodup) (hnk : n ∉ m :: k) :
    Queued (Function.update next n g) f c (l ++ n :: m :: k) := by
  refine ⟨h.path.splice hk.path hl hnk, fun x hx ↦ hk.back x ?_⟩
  simpa [List.getLast?_append, List.getLast?_cons] using hx

/-- Entering a node at the back. -/
theorem concat (h : Queued next f b (l ++ [n])) (hl : (l ++ [n]).Nodup) (hm : m ∉ l ++ [n]) :
    Queued (Function.update (Function.update next n (some m)) m none) f (some m)
      (l ++ [n] ++ [m]) := by
  have hnm : n ≠ m := by
    rintro rfl
    exact hm (by simp)
  have h' : Queued (Function.update next m none) f b (l ++ [n]) := h.update hm none
  rw [update_comm hnm, List.append_assoc]
  exact h'.splice (singleton next m) hl (by simpa using hnm)

end Queued

end MyPthread.Lib
