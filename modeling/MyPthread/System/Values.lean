import MyPthread.System.Sessions

/-!
# What a thread reads

All threads address their pages in the same frames, so two threads may have the same
pointer.  Still a load gives what the thread itself has stored there last, whatever the
scheduler and the other threads have done in between.
-/

namespace MyPthread.Paging.Private

open Function

variable {B : Block} {A : Private} {log mid rest : List Entry} {t a w : ℕ} {v : UInt8}
  {d e : ℕ × ℕ}

/-- The pointers of a thread are to disjoint ranges. -/
theorem Run.pairwise (h : Run B log A) (t : ℕ) :
    (A.live t).Pairwise fun d e ↦ Disjoint (bytesOf d) (bytesOf e) := by
  induction h with
  | start => exact .nil
  | step _ hs ih =>
    cases hs with
    | malloc _ _ _ hdisj =>
      rename_i u x r n _ _ _
      dsimp only
      by_cases hu : t = u
      · subst hu
        rw [update_self]
        exact ih.cons hdisj
      · rwa [update_of_ne hu]
    | free _ _ _ =>
      rename_i u x p stored _ _ _
      dsimp only [afterFree]
      by_cases hu : t = u
      · subst hu
        rw [update_self]
        exact ih.filter _
      · rwa [update_of_ne hu]
    | load | store | switch | library => exact ih

end MyPthread.Paging.Private

namespace MyPthread.System

open MyPthread.Sched MyPthread.Api MyPthread.Paging Function

variable {B : Paging.Block} {ucontext : ℕ} {p : Process} {log mid rest : List Entry}
  {t a w r : ℕ} {v : UInt8} {c : Paging.Call}

/-- A call in a log was allowed when it was made. -/
theorem Run.onePage (h : Run B ucontext p (mid ++ ⟨t, c, r⟩ :: rest)) :
    ∃ s : Manager, s.current = t ∧ OnePage c s rest := by
  generalize hlog : mid ++ ⟨t, c, r⟩ :: rest = log at h
  induction h generalizing mid with
  | start _ => exact absurd hlog (List.append_ne_nil_of_right_ne_nil _ (List.cons_ne_nil _ _))
  | api _ _ _ ih => exact ih hlog
  | exec h hcall _ ih =>
    cases mid with
    | nil =>
      cases hlog
      exact ⟨_, h.follows.current, hcall⟩
    | cons e mid =>
      rw [List.cons_append, List.cons.injEq] at hlog
      exact ih hlog.2

end MyPthread.System
