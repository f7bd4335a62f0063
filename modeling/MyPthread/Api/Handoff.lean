import MyPthread.Api.Turns
import MyPthread.Api.Waiters

/-!
# Waiters are woken in turn

The waiting queue is first come, first served, for all mutexes together: a thread that comes
to wait goes behind the others, and each unlock that wakes a thread wakes the first.  So a
thread with `i` threads before it is woken by the `i + 1`st such unlock, no sooner and no
later (`woken_in_turn`).
-/

namespace MyPthread.Api

open MyPthread.Lib MyPthread.Sched Function

variable {m m' : Machine} {q : Mlfq} {a : Action} {c i n : ℕ}

/-- The step at which an unlock moves a waiter to the run queues. -/
def Machine.wakes (m : Machine) (a : Action) : Bool :=
  match a, m.here with
  | .next, .unlock _ .move => true
  | _, _ => false

/-- The number of waiters that are woken along a run. -/
def Machine.wakings (m : Machine) : List Action → ℕ
  | [] => 0
  | a :: as => (m.wakes a).toNat + (m.step a).elim 0 fun m' ↦ m'.wakings as

theorem exists_of_wakes (h : m.wakes a = true) : a = .next ∧ ∃ k, m.here = .unlock k .move := by
  unfold Machine.wakes at h
  split at h
  · rename_i k hh
    exact ⟨rfl, k, hh⟩
  · cases h

theorem wakes_move {k : ℕ} (hh : m.here = .unlock k .move) : m.wakes .next = true := by
  unfold Machine.wakes
  rw [hh]

/-- What a step does to the waiting queue. -/
inductive WaitStep (m : Machine) (q q' : Mlfq) (a : Action) : Prop where
  | same : m.wakes a = false → q' .waitingQueue = q .waitingQueue → WaitStep m q q' a
  | blocks (k : ℕ) : a = .next → m.here = .lock k .call →
      q' .waitingQueue = q .waitingQueue ++ [m.running] → WaitStep m q q' a
  | wakes (d : ℕ) (l : List ℕ) : m.wakes a = true → q .waitingQueue = d :: l →
      q' .waitingQueue = l → q' (.rqs 0) = q (.rqs 0) ++ [d] → WaitStep m q q' a

/-- The rotation is of a run queue. -/
theorem rotate_waitingQueue (hq : q.WF) : q.rotate c .waitingQueue = q .waitingQueue := by
  refine if_neg fun hh ↦ ?_
  obtain ⟨i, hi⟩ := (Mlfq.mem_runnable hq).mp (List.mem_of_head? hh.1)
  cases hq.disjoint hi (List.mem_of_head? hh.2)

theorem Inv.wakeStep (hi : Inv m q) (hw : m.wakes a = true) : WaitStep m q (m.advance q a) a := by
  obtain ⟨rfl, k, hh⟩ := exists_of_wakes hw
  have hpend := hi.pending
  rw [hh] at hpend
  obtain ⟨d, hd, -⟩ := hpend
  obtain ⟨l, hl⟩ := List.head?_eq_some_iff.mp hd
  have hq : m.advance q .next = q.move .waitingQueue (.rqs 0) d := by
    rw [Machine.advance, hh, hl]
  have hne : QueueId.waitingQueue ≠ .rqs 0 := by
    rintro ⟨⟩
  refine .wakes d l hw hl ?_ ?_
  · rw [hq, Mlfq.move, Mlfq.put, update_of_ne hne, Mlfq.take, update_self, hl,
      List.erase_cons_head]
  · rw [hq, Mlfq.move, Mlfq.put, update_self, Mlfq.take, update_of_ne hne.symm]

/-- Every step does one of three things to the waiting queue. -/
theorem Inv.waitStep (hi : Inv m q) (hs : m.step a = some m') :
    WaitStep m q (m.advance q a) a := by
  by_cases hw : m.wakes a = true
  · exact hi.wakeStep hw
  have hw := Bool.eq_false_iff.mpr hw
  cases hi.turn hs with
  | stays ha hst hq =>
    refine .same hw ?_
    rcases hq with hc | hq
    · have hm := moved m q a
      generalize m.advance q a = q' at hm ⊢
      cases hm with
      | still => rfl
      | tick ht => exact absurd ht ha
      | call _ hh => cases hc.symm.trans hh
      | first => rw [put_rqs, put_rqs]
      | created n => exact put_rqs
      | joined e x d l => exact move_of_ne (by rintro ⟨⟩) (by rintro ⟨⟩)
      | kept e x d l => exact move_of_ne (by rintro ⟨⟩) (by rintro ⟨⟩)
      | woken k d l ha hh =>
        rw [ha, wakes_move hh] at hw
        cases hw
    · rw [hq]
  | serves f r hserves hq hreq =>
    have hsched : m.advance q a .waitingQueue =
        if f = .blocked then q .waitingQueue ++ [m.running] else q .waitingQueue := by
      rw [hq, Mlfq.schedule, rotate_waitingQueue (hi.wf.requested f _ hserves.mem)]
      exact waitingQueue_requested m.sched.maintenanceCount
    split at hsched <;> rename_i hf
    · subst hf
      cases hreq with
      | stored hst hcall =>
        rcases Pc.stored_of_isCall hcall hst with ⟨-, hf⟩ | ⟨-, hf⟩ | ⟨t, -, hf⟩ | ⟨k, hh, -⟩
        · cases hf
        · cases hf
        · cases hf
        · exact .blocks k rfl hh hsched
    · exact .same hw hsched

/-- A waiter keeps its place, or comes one place forward when another is woken, or is the one
that is woken. -/
theorem Inv.place_step (hi : Inv m q) (hs : m.step a = some m')
    (hn : (q .waitingQueue)[i]? = some n) :
    m.wakes a = false ∧ (m.advance q a .waitingQueue)[i]? = some n ∨
      m.wakes a = true ∧ (i = 0 ∧ m.advance q a (.rqs 0) = q (.rqs 0) ++ [n] ∨
        ∃ j, i = j + 1 ∧ (m.advance q a .waitingQueue)[j]? = some n) := by
  cases hi.waitStep hs with
  | same hw hq =>
    rw [hq]
    exact .inl ⟨hw, hn⟩
  | blocks k ha hh hq =>
    refine .inl ⟨?_, ?_⟩
    · subst ha
      unfold Machine.wakes
      rw [hh]
    · obtain ⟨hlt, -⟩ := List.getElem?_eq_some_iff.mp hn
      rw [hq, List.getElem?_append_left hlt]
      exact hn
  | wakes d l hw hl hq hrqs =>
    refine .inr ⟨hw, ?_⟩
    rw [hl] at hn
    cases i with
    | zero =>
      cases hn
      exact .inl ⟨rfl, hrqs⟩
    | succ j =>
      rw [hq]
      exact .inr ⟨j, rfl, hn⟩

/-- Along a run a waiter comes forward by as many places as threads are woken. -/
theorem Inv.place_run {as : List Action} (hi : Inv m q) (hr : m.run Careful as = some m')
    (hn : (q .waitingQueue)[i]? = some n) (hle : m.wakings as ≤ i) :
    ∃ q', Inv m' q' ∧ (q' .waitingQueue)[i - m.wakings as]? = some n := by
  induction as generalizing m q i with
  | nil =>
    cases hr
    exact ⟨q, hi, hn⟩
  | cons a as ih =>
    rw [Machine.run] at hr
    split at hr <;> rename_i hok
    · obtain ⟨m₁, hs, hr⟩ := Option.bind_eq_some_iff.mp hr
      have hi₁ := hi.step hok hs
      have hcount : m.wakings (a :: as) = m₁.wakings as + (m.wakes a).toNat := by
        rw [Machine.wakings, hs, Nat.add_comm]
        rfl
      rw [hcount] at hle ⊢
      rcases hi.place_step hs hn with ⟨hw, hn₁⟩ | ⟨hw, ⟨rfl, -⟩ | ⟨j, rfl, hn₁⟩⟩
      · rw [hw, Bool.toNat_false, Nat.add_zero] at hle ⊢
        exact ih hi₁ hr hn₁ hle
      · rw [hw] at hle
        cases hle
      · rw [hw, Bool.toNat_true] at hle ⊢
        rw [Nat.add_sub_add_right]
        exact ih hi₁ hr hn₁ (Nat.le_of_succ_le_succ hle)
    · cases hr

/-- A thread with `i` threads before it in the waiting queue stays there, `i - w` threads
before it, while `w ≤ i` threads are woken, and the next to be woken after `i` is this one. -/
theorem woken_in_turn {as : List Action} {l : List ℕ} (h : Reachable Careful m)
    (hl : Path m.sched.next (m.sched.queues .waitingQueue).front l) (hn : l[i]? = some n)
    (hr : m.run Careful as = some m') (hle : m.wakings as ≤ i) :
    (∃ l', Path m'.sched.next (m'.sched.queues .waitingQueue).front l' ∧
      l'[i - m.wakings as]? = some n) ∧
    (m.wakings as = i → ∀ m'', m'.wakes .next = true → m'.step .next = some m'' →
      ∃ l', Path m''.sched.next (m''.sched.queues (.rqs 0)).front l' ∧ l'.getLast? = some n) := by
  obtain ⟨q, hi⟩ := exists_inv h
  rw [hl.unique (hi.linked .waitingQueue).path] at hn
  obtain ⟨q', hi', hn'⟩ := hi.place_run hr hn hle
  refine ⟨⟨_, (hi'.linked .waitingQueue).path, hn'⟩, fun hcount m'' hw hs ↦ ?_⟩
  rw [hcount, Nat.sub_self] at hn'
  have hcareful : Careful m' .next := by
    obtain ⟨-, k, hh⟩ := exists_of_wakes hw
    unfold Careful
    rw [hh]
    trivial
  have hi'' := hi'.step hcareful hs
  rcases hi'.place_step hs hn' with ⟨hw', -⟩ | ⟨-, ⟨-, hrqs⟩ | ⟨j, hj, -⟩⟩
  · cases hw.symm.trans hw'
  · refine ⟨_, (hi''.linked (.rqs 0)).path, ?_⟩
    rw [hrqs]
    exact List.getLast?_concat
  · cases hj

/-- Two threads wait, and the thread that they wait for unlocks the mutex. -/
theorem woken_in_turn_second : ∃ m m' : Machine, ∃ as : List Action, ∃ l : List ℕ,
    Path m.sched.next (m.sched.queues .waitingQueue).front l ∧ l[1]? = some 2 ∧
    m.run Careful as = some m' ∧ m.wakings as = 1 ∧
    (∃ l', Path m'.sched.next (m'.sched.queues .waitingQueue).front l' ∧
      l'[1 - m.wakings as]? = some 2) ∧
    (m.wakings as = 1 → ∀ m'', m'.wakes .next = true → m'.step .next = some m'' →
      ∃ l', Path m''.sched.next (m''.sched.queues (.rqs 0)).front l' ∧ l'.getLast? = some 2) := by
  let as : List Action := [.call (.unlock 0), .next, .next, .next, .next, .next, .next, .next,
    .next, .next, .next, .next]
  obtain ⟨m, hm, hx⟩ := Reachable.exists_of_run Careful
    [.init, .call .create, .next, .next, .next, .call (.lock 0), .next, .next, .next, .next,
      .next, .tick, .call (.lock 0), .next, .next, .next, .next,
      .call .create, .next, .next, .next, .next, .tick, .call (.lock 0), .next, .next, .next, .next]
    (fun m ↦ decide ((m.sched.queues .waitingQueue).front = some 0 ∧ m.sched.next 0 = some 2 ∧
      m.sched.next 2 = none ∧ (m.run Careful as).isSome = true ∧ m.wakings as = 1))
    (show _ = some true by decide)
  obtain ⟨hfront, h₀, h₂, hsome, hcount⟩ := of_decide_eq_true hx
  obtain ⟨m', hr⟩ := Option.isSome_iff_exists.mp hsome
  have hpath : Path m.sched.next (m.sched.queues .waitingQueue).front [0, 2] := by
    rw [hfront]
    exact ⟨rfl, h₀, h₂⟩
  exact ⟨m, m', as, [0, 2], hpath, rfl, hr, hcount, woken_in_turn hm hpath rfl hr hcount.le⟩

end MyPthread.Api
