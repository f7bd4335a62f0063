import MyPthread.Paging.Progress

/-!
# Sessions

A session is a run with the log of its calls, from which follow the pointers that each thread
has been handed out and has not given back.  What the threads see stays good over a session in
which the heaps of chunks are worked on when they are in place.
-/

namespace MyPthread.Paging

open MyPthread.Lib MyPthread.Heap Function Relation

variable {B : Block} {s s' s₁ s₂ : Manager} {ch ch' : ℕ → List PageMetaPtr} {c c' : ℕ → ℕ}
  {lay lay' : ℕ → ℕ → Layout} {live : ℕ → List (ℕ × ℕ)} {i j k n o x r t u a : ℕ}
  {p q : PageMetaPtr} {call : Call} {v : UInt8}

/-! ## Calls -/

namespace Good

theorem leave (hg : Good B s ch c lay live) : Good B s.leave ch c lay live :=
  hg.of_contents hg.settled.leave rfl (SameContents.refl s)

theorem switch (hg : Good B s ch c lay live) (t : ℕ) : Good B (switch t s) ch c lay live :=
  hg.of_contents (hg.settled.exec_other (B := B) (.inl ⟨t, rfl⟩) rfl) rfl (SameContents.refl s)

theorem library (hg : Good B s ch c lay live) (n : ℕ) : Good B (library n s) ch c lay live :=
  hg.of_contents (hg.settled.exec_other (B := B) (.inr ⟨n, rfl⟩) rfl) rfl (SameContents.refl s)

/-- A request that is allowed. -/
theorem served (hg : Good B s ch c lay live) (hsd : Sound B s) (hc : Counted s) (hn : Near s)
    (hx : x < 2 ^ 32) (hlater : ¬LaterChunk x s) (hfront : x ≤ 4064 → FrontHere B x s.enter ch c)
    (hs : myallocate B x s = some (r, s')) :
    ∃ ch' c' lay', Good B s' ch' c' lay' (afterMalloc live s.current x r) ∧
      (x ≤ 4064 → c' = c) ∧ (ch' = ch ∨ ∃ l, ch' = extend ch s.current l) ∧
      ∀ t, ∀ e ∈ live t, Kept B t e s s' := by
  cases myallocate_ending (Q := True) hg.settled hsd hc hx hlater (fun _ ↦ hfront) hs with
  | found hf =>
    cases hf with
    | nothing hr hw =>
      rw [afterMalloc, if_pos hr]
      exact ⟨ch, c, lay, hg.works hn hw, fun _ ↦ rfl, .inl rfl,
        fun _ _ he ↦ hg.kept_works hn hw he⟩
    | page hr hw ha hleave =>
      obtain ⟨-, hcur, -⟩ := hw.settled hg.settled
      have hg₁ := hg.works hn hw
      obtain ⟨k, -, -, -, hg₂⟩ := hg₁.attempt ha
      rw [hcur] at hg₂
      rw [← hleave]
      refine ⟨ch, c, _, hg₂.leave, fun _ ↦ rfl, .inl rfl, fun t e he a hlo hhi ↦ ?_⟩
      have hmem : e ∈ afterMalloc live s.current x r t := by
        rw [afterMalloc, if_neg hr]
        by_cases ht : t = s.current
        · subst ht
          rw [Function.update_self]
          exact List.mem_cons_of_mem _ he
        · rwa [Function.update_of_ne ht]
      calc
        _ = view B _ t a := by
          rw [view_of_contents hg₂.settled hg₂.settled.leave (SameContents.refl _)]
        _ = view B _ t a := hg₁.kept_attempt ha he a hlo hhi
        _ = view B s t a := hg.kept_works hn hw he a hlo hhi
  | grown hr hw hgr hone hleave =>
    obtain ⟨-, hcur, -⟩ := hw.settled hg.settled
    have hg₁ := hg.works hn hw
    have hg₂ := hg₁.grow hgr
    rw [hcur] at hg₂
    rw [← hleave]
    refine ⟨_, _, _, hg₂.leave, fun hx ↦ (hone hx).2, .inr ⟨_, rfl⟩,
      fun t e he a hlo hhi ↦ ?_⟩
    calc
      _ = view B _ t a := by
        rw [view_of_contents hg₂.settled hg₂.settled.leave (SameContents.refl _)]
      _ = view B _ t a := hg₁.kept_grow hgr he a hlo hhi
      _ = view B s t a := hg.kept_works hn hw he a hlo hhi

/-- A block of the caller is released. -/
theorem freed (hg : Good B s ch c lay live) (hsd : Sound B s) (hn : Near s) {e : ℕ × ℕ}
    (he : e ∈ live s.current) (hf : Freeable B e.1 s) (hhome : ChunkFreeHere B e.1 s ch c)
    (hs : mydeallocate B e.1 s = some s') :
    ∃ k p b, (ch s.current)[k]? = some p ∧ c s.current ≤ k + 1 ∧ (lay s.current k).Allocated b ∧
      b.addr + 32 = e.1 ∧ e.2 ≤ b.size ∧
      Good B s' ch c (Function.update lay s.current
        (Function.update (lay s.current) k ((lay s.current k).release b.addr)))
        (afterFree live s.current e.1) ∧
      ∀ t, ∀ d ∈ afterFree live s.current e.1 t, Kept B t d s s' := by
  obtain ⟨hx, p, b, hp, hk, hb, haddr, hsize, hle⟩ := hg.exists_freeable he hf
  have hmf : (frameOf B e.1).toNat ≤ s.tcb.mallocFrame := by
    have hlt := Settled.lt_length hp
    have hlen : (ch s.current).length = s.tcb.mallocFrame + 1 := by
      apply hg.settled.length
      intro hnil
      rw [hnil] at hp
      cases hp
    omega
  obtain ⟨s₁, s₂, hw, hrel, hleave⟩ := mydeallocate_works (Q := True) hg.settled hsd (.inr hmf)
    (fun _ ↦ ⟨hmf, hhome⟩) hs
  obtain ⟨-, hcur, -⟩ := hw.settled hg.settled
  have hg₁ := hg.works hn hw
  rw [← hcur] at hp hk hb hle
  have hg₂ := hg₁.release hrel hk hb haddr hle
  rw [← hcur, ← hleave]
  refine ⟨_, p, b, hp, hk, hb, haddr, hsize, hg₂.leave, fun t d hd a hlo hhi ↦ ?_⟩
  calc
    _ = view B s₂ t a := by
      rw [view_of_contents hg₂.settled hg₂.settled.leave (SameContents.refl _)]
    _ = view B s₁ t a := hg₁.kept_release hrel hk hb haddr hle hd a hlo hhi
    _ = view B s t a := hg.kept_works hn hw (mem_afterFree.mp hd).1 a hlo hhi

end Good

/-! ## Logs -/

/-- A call of the thread `tid`, and what it returned. -/
structure Entry where
  tid : ℕ
  call : Call
  result : ℕ
deriving DecidableEq, Repr

/-- The pointers of each thread after the calls of a log, the last of which is its head. -/
def pointers : List Entry → ℕ → List (ℕ × ℕ)
  | [] => fun _ ↦ []
  | ⟨t, .malloc x, r⟩ :: log => afterMalloc (pointers log) t x r
  | ⟨t, .free p, _⟩ :: log => afterFree (pointers log) t p
  | _ :: log => pointers log

/-- The runs all of whose calls meet `P`, with their logs. -/
inductive Session (B : Block) (P : Call → Manager → List Entry → Prop) :
    Manager → List Entry → Prop where
  | start {b : Boot} : b.Zeroed → Session B P (b.start B) []
  | call {call : Call} {r : ℕ} {s s' : Manager} {log : List Entry} : Session B P s log →
      P call s log → call.exec B s = some (r, s') → Session B P s' (⟨s.current, call, r⟩ :: log)

theorem Session.switch {P : Call → Manager → List Entry → Prop} {log : List Entry}
    (h : Session B P s log) (hcur : s.current = t) (u : ℕ) (hP : P (.switch u) s log) :
    Session B P (Paging.switch u s) (⟨t, .switch u, 0⟩ :: log) := by
  rw [← hcur]
  exact .call h hP rfl

theorem Session.reachable_of {P : Call → Manager → List Entry → Prop} {Q : Call → Manager → Prop}
    {log : List Entry} (h : Session B P s log) (hPQ : ∀ call s log, P call s log → Q call s) :
    Reachable B Q s := by
  induction h with
  | start hb => exact .start hb
  | call _ hcall hs ih => exact .call ih (hPQ _ _ _ hcall) hs

theorem Session.reachable {P : Call → Manager → List Entry → Prop} {log : List Entry}
    (h : Session B P s log) : Reachable B (fun _ _ ↦ True) s :=
  h.reachable_of fun _ _ _ _ ↦ trivial

end MyPthread.Paging
