import MyPthread.Paging.Service

/-!
# Chains over runs

The chains stay complete over a run in which no thread that has pages gets a chunk: the code
makes the front of such a chunk the `first_page` of the thread.
-/

namespace MyPthread.Paging

open MyPthread.Lib MyPthread.Heap Function Relation

variable {B : Block} {Q : Prop} {s s' s₁ s₂ : Manager} {ch : ℕ → List PageMetaPtr} {c c' : ℕ → ℕ}
  {i j k n x r t : ℕ} {p q cur last front : PageMetaPtr} {l : List PageMetaPtr}
  {P : Call → Manager → Prop} {call : Call}

/-! ## Chains -/

/-- The pages `l` are all pages of the thread `t`, chained in the order of the frames in which
the thread sees them. -/
structure ChainOf (s : Manager) (t : ℕ) (l : List PageMetaPtr) : Prop where
  path : Path s.next (s.tcbs t).firstPage l
  length : l.length = (s.tcbs t).mallocFrame + 1
  tid : ∀ p ∈ l, (s.metas p).tid = t
  all : ∀ p ∈ s.made, (s.metas p).tid = t → p ∈ l
  home : ∀ k p, l[k]? = some p → s.home p = k
  resident : ∀ k p q, l[k]? = some p → s.frameTable k = some q → (s.metas q).tid = t → q = p

theorem Settled.chainOf (h : Settled s ch c) (ht : (s.tcbs t).firstPage ≠ none) :
    ChainOf s t (ch t) := by
  have hne := h.firstPage_ne.mp ht
  refine ⟨h.table.path t, h.length t hne, h.table.tid t, ?_, h.home t, ?_⟩
  · intro p hp htid
    obtain ⟨u, hu⟩ := h.complete p hp
    obtain rfl := (h.table.tid u p hu).symm.trans htid
    exact hu
  · intro k p q hp hq htid
    have hown := h.resident_own (Settled.lt_length hp) hq htid
    exact Option.some.inj (hown.symm.trans hp)

/-- A thread that has pages gets no chunk, and `mydeallocate` is called for a frame of the
caller, or for one where a page of the caller is. -/
def Chained (B : Block) : Call → Manager → Prop
  | .malloc x, s => x < 2 ^ 32 ∧ ¬LaterChunk x s
  | .free p, s => OwnFrame B p s
  | _, _ => True

theorem Grow.settled (h : Grow B ch c x r s s' c' l) : Settled s' (extend ch s.current l) c' := by
  obtain ⟨-, hgrew, -, -, -, -, -, -, -, hreq, hstore⟩ := h
  have hst := (resetHeap_steady _ _).trans ((request_steady hreq).trans (storeHeap_steady hstore))
  obtain ⟨heap, -, rfl⟩ := request_eq_some.mp hreq
  obtain ⟨free, -, rfl⟩ := storeHeap_eq_some.mp hstore
  exact hgrew.settled.of_steady hst rfl rfl rfl

theorem Settled.leave (h : Settled s ch c) : Settled s.leave ch c :=
  h.of_steady (leave_steady s) rfl rfl rfl

theorem Ending.settled (he : Ending B Q ch c x r s s') (h : Settled s ch c) :
    ∃ ch' c', Settled s' ch' c' := by
  cases he with
  | found hf =>
    cases hf with
    | nothing _ hw => exact ⟨ch, c, (hw.settled h).1⟩
    | page _ _ ha hs =>
      rw [← hs]
      exact ⟨ch, c, ha.settled.leave⟩
  | grown _ hw hg _ hs =>
    rw [← hs]
    exact ⟨_, _, hg.settled.leave⟩

/-- What neither the memory manager nor the page table takes part in. -/
theorem Settled.exec_other (h : Settled s ch c)
    (hcall : (∃ t, call = .switch t) ∨ ∃ n, call = .library n)
    (hs : call.exec B s = some (r, s')) : Settled s' ch c := by
  rcases hcall with ⟨t, rfl⟩ | ⟨n, rfl⟩
  · obtain ⟨-, rfl⟩ := Prod.mk.inj (Option.some.inj hs)
    exact ⟨h.table.switch t, h.complete, h.length, h.span, h.small, h.home, h.away,
      h.front, h.chunk⟩
  · obtain ⟨-, rfl⟩ := Prod.mk.inj (Option.some.inj hs)
    refine ⟨h.table.touch ?_, h.complete, h.length, h.span, h.small, h.home, h.away, h.front,
      h.chunk⟩
    exact ⟨rfl, rfl, rfl, rfl, Nat.le_add_right _ _, rfl, rfl, fun _ ↦ rfl, fun _ ↦ rfl, rfl⟩

theorem Settled.store {a : ℕ} {v : UInt8} (h : Settled s ch c) :
    Settled { s with heap.mem := setByte s.heap.mem a v } ch c :=
  h.of_steady ⟨rfl, fun _ ↦ rfl, fun _ ↦ rfl, rfl, rfl, rfl, rfl, rfl, rfl⟩ rfl rfl rfl

theorem Settled.exec (h : Settled s ch c) (hsd : Sound B s) (hc : Counted s)
    (hP : Chained B call s) (hs : call.exec B s = some (r, s')) : ∃ ch' c', Settled s' ch' c' := by
  cases call with
  | malloc x =>
    obtain ⟨hx, hlater⟩ := hP
    exact (myallocate_ending (Q := False) h hsd hc hx hlater nofun hs).settled h
  | free p =>
    obtain ⟨-, hs⟩ := exec_free.mp hs
    obtain ⟨s₁, s₂, -, hrel, rfl⟩ := mydeallocate_works (Q := False) h hsd hP nofun hs
    exact ⟨ch, c, hrel.settled.leave⟩
  | load a =>
    obtain ⟨hs, -⟩ := exec_load.mp hs
    exact ⟨ch, c, ((access_works (Q := False) h hs).settled h).1⟩
  | store a v =>
    obtain ⟨-, hs⟩ := exec_store.mp hs
    obtain ⟨s₁, hs₁, rfl⟩ := store_eq_some.mp hs
    exact ⟨ch, c, ((access_works (Q := False) h hs₁).settled h).1.store⟩
  | switch t => exact ⟨ch, c, h.exec_other (.inl ⟨t, rfl⟩) hs⟩
  | library n => exact ⟨ch, c, h.exec_other (.inr ⟨n, rfl⟩) hs⟩

theorem Reachable.settled (h : Reachable B P s) (hP : ∀ call s, P call s → Chained B call s) :
    ∃ ch c, Settled s ch c := by
  induction h with
  | start hb => exact ⟨_, _, .start hb⟩
  | call hr hp hs ih =>
    obtain ⟨ch, c, hset⟩ := ih
    exact hset.exec hr.sound.1 hr.sound.2 (hP _ _ hp) hs

end MyPthread.Paging
