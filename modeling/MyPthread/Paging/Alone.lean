import MyPthread.Paging.Private

/-!
# A thread is served as if it were alone

Which pointers a thread gets depends on its own requests and releases only, as long as requests
are for up to a page and `page_counter` stays within the frames: what the other threads do, when
the processor is switched and where the pages are has no part in it.  The heaps of the pages of
a thread follow from its own calls, and a request is served by the last page, else by the first
that has room, else by a new one.
-/

namespace MyPthread.Paging

open MyPthread.Lib MyPthread.Heap Function Relation

variable {B : Block} {s s' s₁ s₂ : Manager} {ch ch' : ℕ → List PageMetaPtr} {c c' : ℕ → ℕ}
  {lay lay' : ℕ → ℕ → Layout} {live live' : ℕ → List (ℕ × ℕ)} {fuel i j k n r t u x a : ℕ}
  {p cur : PageMetaPtr} {call : Call} {log : List Entry} {h : Layout} {hs : List Layout}

/-! ## A thread by itself -/

namespace Alone

/-- The heap has room for the request. -/
def fits (x : ℕ) (h : Layout) : Bool := (h.malloc x).1 ≠ 0

/-- The page that serves a request, of a thread with these heaps: the last one, or else the
first that has room, or else a new one. -/
def place (x : ℕ) (hs : List Layout) : ℕ :=
  if hs.getLast?.any (fits x) then hs.length - 1 else hs.findIdx (fits x)

/-- A request: the pointer, and the heaps afterwards. -/
def malloc (B : Block) (x : ℕ) (hs : List Layout) : ℕ × List Layout :=
  match hs[place x hs]? with
  | some h => ((h.malloc x).1, hs.set (place x hs) (h.malloc x).2)
  | none => ((firstLayout B hs.length 1 x).1, hs ++ [(firstLayout B hs.length 1 x).2])

/-- The block at `p` is given back. -/
def free (B : Block) (p : ℕ) (hs : List Layout) : List Layout :=
  match hs[(frameOf B p).toNat]? with
  | some h => hs.set (frameOf B p).toNat (h.release (p - 32))
  | none => hs

/-- The heaps of a thread that has made these calls, the last of which is the head. -/
def heaps (B : Block) : List Call → List Layout
  | .malloc x :: calls => (malloc B x (heaps B calls)).2
  | .free p :: calls => free B p (heaps B calls)
  | _ :: calls => heaps B calls
  | [] => []

/-- What the call returns after these. -/
def result (B : Block) (calls : List Call) : Call → ℕ
  | .malloc x => (malloc B x (heaps B calls)).1
  | _ => 0

/-- The log of a thread that makes these calls. -/
def entries (B : Block) (t : ℕ) : List Call → List Entry
  | [] => []
  | call :: calls => ⟨t, call, result B calls call⟩ :: entries B t calls

theorem fits_iff : fits x h = true ↔ (h.malloc x).1 ≠ 0 := by
  rw [fits, decide_eq_true_iff]

end Alone

/-! ## The heaps of a thread -/

namespace Good

end Good

/-! ## Releases -/

/-- The calls that the heaps of a thread depend on. -/
def Call.ofHeap : Call → Bool
  | .malloc _ | .free _ => true
  | .load _ | .store _ _ | .switch _ | .library _ => false

/-- The requests and releases of the thread `t` in a log. -/
def heapEntries (t : ℕ) (log : List Entry) : List Entry :=
  log.filter fun e ↦ e.tid = t ∧ e.call.ofHeap

theorem heapEntries_cons {e : Entry} (he : e.call.ofHeap = true) :
    heapEntries t (e :: log) = if e.tid = t then e :: heapEntries t log else heapEntries t log := by
  by_cases ht : e.tid = t <;> simp [heapEntries, ht, he]

/-- Every thread has the heaps, and has got the results, that it would have by itself. -/
structure AllAlone (B : Block) (log : List Entry) (hs : ℕ → List Layout) : Prop where
  heaps : ∀ t, hs t = Alone.heaps B ((heapEntries t log).map Entry.call)
  entries : ∀ t, heapEntries t log = Alone.entries B t ((heapEntries t log).map Entry.call)

namespace AllAlone

variable {hs hs' : ℕ → List Layout} {e : Entry}

theorem start : AllAlone B [] fun _ ↦ [] := ⟨fun _ ↦ rfl, fun _ ↦ rfl⟩

/-- A request or a release changes the heaps of its thread as if that were alone. -/
theorem step {f : List Layout → List Layout} (h : AllAlone B log hs) (he : e.call.ofHeap = true)
    (hf : ∀ calls, Alone.heaps B (e.call :: calls) = f (Alone.heaps B calls))
    (hresult : e.result = Alone.result B ((heapEntries e.tid log).map Entry.call) e.call)
    (hnew : ∀ u, hs' u = if u = e.tid then f (hs e.tid) else hs u) : AllAlone B (e :: log) hs' := by
  constructor
  · intro t
    rw [hnew t, heapEntries_cons he]
    by_cases ht : t = e.tid
    · subst ht
      rw [if_pos rfl, if_pos rfl, List.map_cons, hf, h.heaps]
    · rw [if_neg ht, if_neg (Ne.symm ht)]
      exact h.heaps t
  · intro t
    rw [heapEntries_cons he]
    split <;> rename_i ht
    · subst ht
      rw [List.map_cons, Alone.entries, ← hresult, ← h.entries]
    · exact h.entries t

end AllAlone

end MyPthread.Paging
