import MyPthread.Sched.State

/-!
# A multi-level feedback queue

What the scheduler is for, with no links and no priorities stored anywhere: a
list of threads for each queue.  A request moves the current thread, `age` moves
the lowest level behind the highest, and the thread that runs next is the first
one in level and queue order that is not the current one.
-/

namespace MyPthread.Sched

open Function

/-- The threads in each queue. -/
abbrev Mlfq := QueueId → List ℕ

namespace Mlfq

/-- A thread in some queue. -/
def Mem (n : ℕ) (q : Mlfq) : Prop := ∃ Q, n ∈ q Q

/-- Every thread is in one queue, once, and there are ten levels. -/
structure WF (q : Mlfq) : Prop where
  nodup : ∀ Q, (q Q).Nodup
  disjoint : ∀ {Q R n}, n ∈ q Q → n ∈ q R → Q = R
  bound : ∀ i, numPriorities ≤ i → q (.rqs i) = []

/-- Take a thread out of a queue. -/
def take (Q : QueueId) (n : ℕ) (q : Mlfq) : Mlfq := update q Q ((q Q).erase n)

/-- Put a thread at the tail of a queue. -/
def put (Q : QueueId) (n : ℕ) (q : Mlfq) : Mlfq := update q Q (q Q ++ [n])

/-- Move a thread to the tail of a queue. -/
def move (src dst : QueueId) (n : ℕ) (q : Mlfq) : Mlfq := put dst n (take src n q)

/-- What a request of the thread `c`, of priority `p`, does to the queues. -/
def request (fc : FlagCalled) (c p : ℕ) (q : Mlfq) : Mlfq :=
  match fc with
  | .timer => move (.rqs p) (.rqs (min (p + 1) (numPriorities - 1))) c q
  | .yield => move (.rqs p) (.rqs p) c q
  | .pexit => take (.rqs p) c q
  | .join => move (.rqs p) .joinQueue c q
  | .blocked => move (.rqs p) .waitingQueue c q
  | .none | .first => q

/-- Append the lowest level to the highest. -/
def age (q : Mlfq) : Mlfq :=
  update (update q (.rqs 0) (q (.rqs 0) ++ q (.rqs (numPriorities - 1))))
    (.rqs (numPriorities - 1)) []

/-- The threads that can run, in level and queue order. -/
def runnable (q : Mlfq) : List ℕ := (List.range numPriorities).flatMap fun i ↦ q (.rqs i)

/-- The thread that runs after `c`. -/
def choose (c : ℕ) (q : Mlfq) : Option ℕ := (q.runnable.find? (· ≠ c)).or q.runnable.head?

/-- When `c` comes first of all, it goes to the tail of its level. -/
def rotate (c : ℕ) (q : Mlfq) : Mlfq := fun Q ↦
  if q.runnable.head? = some c ∧ (q Q).head? = some c then (q Q).tail ++ [c] else q Q

/-- The queues when `scheduler` chooses: a first call moves nothing. -/
def requested (fc : FlagCalled) (count c p : ℕ) (q : Mlfq) : Mlfq :=
  if fc = .first then q
  else if maintCycle < count then (q.request fc c p).age else q.request fc c p

/-- The queues after `scheduler`. -/
def schedule (fc : FlagCalled) (count c p : ℕ) (q : Mlfq) : Mlfq :=
  (q.requested fc count c p).rotate c

/-! ## The invariant -/

theorem nodup_concat {l : List ℕ} {n : ℕ} (hl : l.Nodup) (hn : n ∉ l) : (l ++ [n]).Nodup := by
  rw [← List.concat_eq_append]
  exact hl.concat hn

section WF

variable {q : Mlfq} {Q R src dst : QueueId} {n m c p : ℕ}

theorem mem_take (hq : q.WF) : m ∈ take Q n q R ↔ m ∈ q R ∧ (R = Q → m ≠ n) := by
  unfold take
  by_cases hR : R = Q
  · subst hR
    rw [update_self, (hq.nodup R).mem_erase_iff]
    tauto
  · rw [update_of_ne hR]
    tauto

theorem mem_put : m ∈ put Q n q R ↔ m ∈ q R ∨ (R = Q ∧ m = n) := by
  unfold put
  by_cases hR : R = Q
  · subst hR
    rw [update_self]
    simp
  · rw [update_of_ne hR]
    tauto

theorem WF.take (hq : q.WF) : (take Q n q).WF where
  nodup R := by
    unfold Mlfq.take
    by_cases hR : R = Q
    · subst hR
      rw [update_self]
      exact (hq.nodup R).erase n
    · rw [update_of_ne hR]
      exact hq.nodup R
  disjoint hQ hR := hq.disjoint ((mem_take hq).mp hQ).1 ((mem_take hq).mp hR).1
  bound i hi := List.eq_nil_iff_forall_not_mem.mpr fun m hm ↦ by
    have := ((mem_take hq).mp hm).1
    rw [hq.bound i hi] at this
    cases this

theorem WF.put (hq : q.WF) (hn : ¬q.Mem n) (hQ : ∀ i, Q = .rqs i → i < numPriorities) :
    (put Q n q).WF where
  nodup R := by
    unfold Mlfq.put
    by_cases hR : R = Q
    · subst hR
      rw [update_self]
      exact nodup_concat (hq.nodup R) fun h ↦ hn ⟨R, h⟩
    · rw [update_of_ne hR]
      exact hq.nodup R
  disjoint hR hR' := by
    rcases mem_put.mp hR with h | ⟨rfl, rfl⟩ <;> rcases mem_put.mp hR' with h' | ⟨rfl, heq⟩
    · exact hq.disjoint h h'
    · subst heq
      exact absurd ⟨_, h⟩ hn
    · exact absurd ⟨_, h'⟩ hn
    · rfl
  bound i hi := by
    unfold Mlfq.put
    have hne : QueueId.rqs i ≠ Q := fun h ↦ by
      have := hQ i h.symm
      omega
    rw [update_of_ne hne]
    exact hq.bound i hi

theorem not_mem_take (hq : q.WF) (hn : n ∈ q Q) : ¬(take Q n q).Mem n := by
  rintro ⟨R, hR⟩
  obtain ⟨hR, hne⟩ := (mem_take hq).mp hR
  exact hne (hq.disjoint hR hn) rfl

theorem WF.move (hq : q.WF) (hn : n ∈ q src) (hdst : ∀ i, dst = .rqs i → i < numPriorities) :
    (move src dst n q).WF :=
  hq.take.put (not_mem_take hq hn) hdst

theorem mem_move (hq : q.WF) (hn : n ∈ q src) :
    m ∈ move src dst n q R ↔ (m ∈ q R ∧ m ≠ n) ∨ (R = dst ∧ m = n) := by
  rw [Mlfq.move, mem_put, mem_take hq]
  constructor
  · rintro (⟨hm, hne⟩ | h)
    · refine .inl ⟨hm, ?_⟩
      rintro rfl
      exact hne (hq.disjoint hm hn) rfl
    · exact .inr h
  · rintro (⟨hm, hne⟩ | h)
    · exact .inl ⟨hm, fun _ ↦ hne⟩
    · exact .inr h

/-- The level of a thread exists. -/
theorem WF.lt_of_mem (hq : q.WF) {i : ℕ} (hn : n ∈ q (.rqs i)) : i < numPriorities := by
  by_contra hi
  rw [hq.bound i (not_lt.mp hi)] at hn
  cases hn

theorem WF.request {fc : FlagCalled} (hq : q.WF) (hc : c ∈ q (.rqs p)) :
    (q.request fc c p).WF := by
  have hp := hq.lt_of_mem hc
  cases fc with
  | none => exact hq
  | first => exact hq
  | pexit => exact hq.take
  | timer =>
    refine hq.move hc fun i hi ↦ ?_
    cases hi
    exact min_lt_of_right_lt (by decide)
  | yield =>
    refine hq.move hc fun i hi ↦ ?_
    cases hi
    exact hp
  | join => exact hq.move hc fun i hi ↦ by cases hi
  | blocked => exact hq.move hc fun i hi ↦ by cases hi

theorem mem_age : m ∈ age q R ↔
    (m ∈ q R ∧ R ≠ .rqs (numPriorities - 1)) ∨ (R = .rqs 0 ∧ m ∈ q (.rqs (numPriorities - 1))) := by
  unfold age
  by_cases h₉ : R = .rqs (numPriorities - 1)
  · subst h₉
    rw [update_self]
    simp
  · rw [update_of_ne h₉]
    by_cases h₀ : R = .rqs 0
    · subst h₀
      rw [update_self]
      simp
    · rw [update_of_ne h₀]
      tauto

theorem WF.age (hq : q.WF) : q.age.WF where
  nodup R := by
    unfold Mlfq.age
    by_cases h₉ : R = .rqs (numPriorities - 1)
    · subst h₉
      rw [update_self]
      exact List.nodup_nil
    · rw [update_of_ne h₉]
      by_cases h₀ : R = .rqs 0
      · subst h₀
        rw [update_self]
        refine List.nodup_append'.mpr ⟨hq.nodup _, hq.nodup _, fun n hn hn' ↦ ?_⟩
        exact h₉ (hq.disjoint hn hn')
      · rw [update_of_ne h₀]
        exact hq.nodup R
  disjoint hQ hR := by
    rcases mem_age.mp hQ with ⟨h, hne⟩ | ⟨rfl, h⟩ <;>
      rcases mem_age.mp hR with ⟨h', hne'⟩ | ⟨rfl, h'⟩
    · exact hq.disjoint h h'
    · exact absurd (hq.disjoint h h') hne
    · exact absurd (hq.disjoint h' h) hne'
    · rfl
  bound i hi := by
    refine List.eq_nil_iff_forall_not_mem.mpr fun m hm ↦ ?_
    rcases mem_age.mp hm with ⟨h, -⟩ | ⟨h, -⟩
    · rw [hq.bound i hi] at h
      cases h
    · obtain rfl : i = 0 := by simpa using h
      cases hi

theorem mem_rotate : m ∈ rotate c q R ↔ m ∈ q R := by
  unfold rotate
  split
  · rename_i h
    obtain ⟨l, hl⟩ := List.head?_eq_some_iff.mp h.2
    rw [hl]
    simp [or_comm]
  · rfl

/-- Only `PEXIT` loses a thread, the caller. -/
theorem mem_requested_iff {fc : FlagCalled} {count : ℕ} (hq : q.WF) (hc : c ∈ q (.rqs p)) :
    (q.requested fc count c p).Mem m ↔ q.Mem m ∧ (fc = .pexit → m ≠ c) := by
  have hage : ∀ {r : Mlfq}, r.age.Mem m ↔ r.Mem m := by
    intro r
    constructor
    · rintro ⟨R, hR⟩
      rcases mem_age.mp hR with ⟨h, -⟩ | ⟨-, h⟩
      · exact ⟨_, h⟩
      · exact ⟨_, h⟩
    · rintro ⟨R, hR⟩
      by_cases h₉ : R = .rqs (numPriorities - 1)
      · subst h₉
        exact ⟨.rqs 0, mem_age.mpr (.inr ⟨rfl, hR⟩)⟩
      · exact ⟨R, mem_age.mpr (.inl ⟨hR, h₉⟩)⟩
  have hmove : ∀ dst, (move (.rqs p) dst c q).Mem m ↔ q.Mem m := by
    intro dst
    constructor
    · rintro ⟨R, hR⟩
      rcases (mem_move hq hc).mp hR with ⟨h, -⟩ | ⟨-, rfl⟩
      · exact ⟨_, h⟩
      · exact ⟨_, hc⟩
    · rintro ⟨R, hR⟩
      by_cases hmc : m = c
      · exact ⟨dst, (mem_move hq hc).mpr (.inr ⟨rfl, hmc⟩)⟩
      · exact ⟨R, (mem_move hq hc).mpr (.inl ⟨hR, hmc⟩)⟩
  have hreq : (q.request fc c p).Mem m ↔ q.Mem m ∧ (fc = .pexit → m ≠ c) := by
    cases fc with
    | none => simp [Mlfq.request]
    | first => simp [Mlfq.request]
    | timer => simpa [Mlfq.request] using hmove _
    | yield => simpa [Mlfq.request] using hmove _
    | join => simpa [Mlfq.request] using hmove _
    | blocked => simpa [Mlfq.request] using hmove _
    | pexit =>
      constructor
      · rintro ⟨R, hR⟩
        obtain ⟨hmR, hne⟩ := (mem_take hq).mp hR
        exact ⟨⟨R, hmR⟩, fun _ hmc ↦ hne (hq.disjoint hmR (hmc ▸ hc)) hmc⟩
      · rintro ⟨⟨R, hR⟩, hne⟩
        exact ⟨R, (mem_take hq).mpr ⟨hR, fun _ ↦ hne rfl⟩⟩
  unfold requested
  split
  · rename_i hfc
    simp [hfc]
  · split
    · rw [hage, hreq]
    · exact hreq

theorem WF.requested (fc : FlagCalled) (count : ℕ) (hq : q.WF) (hc : c ∈ q (.rqs p)) :
    (q.requested fc count c p).WF := by
  unfold Mlfq.requested
  split
  · exact hq
  · split
    · exact (hq.request hc).age
    · exact hq.request hc

end WF

/-! ## The choice -/

section Choice

variable {q : Mlfq} {c n i j : ℕ} {l : List ℕ}

/-- The threads of level `i` and below. -/
def below (i : ℕ) (q : Mlfq) : List ℕ :=
  (List.range' i (numPriorities - i)).flatMap fun i ↦ q (.rqs i)

theorem below_zero : below 0 q = q.runnable := by
  rw [runnable, List.range_eq_range']
  rfl

theorem below_succ (hi : i < numPriorities) : below i q = q (.rqs i) ++ below (i + 1) q := by
  obtain ⟨k, hk⟩ : ∃ k, numPriorities - i = k + 1 := ⟨numPriorities - i - 1, by omega⟩
  have hk' : numPriorities - (i + 1) = k := by omega
  rw [below, below, hk, hk', List.range'_succ, List.flatMap_cons]

/-- Empty levels do not count. -/
theorem below_of_nil (hij : i ≤ j) (hj : j ≤ numPriorities)
    (hnil : ∀ t, i ≤ t → t < j → q (.rqs t) = []) : below i q = below j q := by
  induction j, hij using Nat.le_induction with
  | base => rfl
  | succ j hij ih =>
    rw [ih (by omega) fun t ht htj ↦ hnil t ht (by omega), below_succ (by omega),
      hnil j hij (by omega), List.nil_append]

/-- The threads that can run, from the first level that is not empty. -/
theorem runnable_of_first (hj : j < numPriorities) (hnil : ∀ t, t < j → q (.rqs t) = []) :
    q.runnable = q (.rqs j) ++ below (j + 1) q := by
  rw [← below_zero, below_of_nil (Nat.zero_le j) (by omega) fun t _ ht ↦ hnil t ht,
    below_succ hj]

theorem mem_below : n ∈ below i q ↔ ∃ t, i ≤ t ∧ t < numPriorities ∧ n ∈ q (.rqs t) := by
  simp only [below, List.mem_flatMap, List.mem_range'_1]
  constructor
  · rintro ⟨t, ⟨hit, ht⟩, hn⟩
    exact ⟨t, hit, by omega, hn⟩
  · rintro ⟨t, hit, ht, hn⟩
    exact ⟨t, ⟨hit, by omega⟩, hn⟩

theorem mem_runnable (hq : q.WF) : n ∈ q.runnable ↔ ∃ i, n ∈ q (.rqs i) := by
  rw [← below_zero, mem_below]
  constructor
  · rintro ⟨i, -, -, hn⟩
    exact ⟨i, hn⟩
  · rintro ⟨i, hn⟩
    exact ⟨i, Nat.zero_le i, hq.lt_of_mem hn, hn⟩

/-- A request makes no thread runnable. -/
theorem mem_runnable_of_request {fc : FlagCalled} {m p : ℕ} (hq : q.WF) (hc : c ∈ q (.rqs p))
    (hm : m ∈ q.request fc c p (.rqs i)) : m ∈ q.runnable := by
  have hmove : ∀ dst, m ∈ move (.rqs p) dst c q (.rqs i) → m ∈ q.runnable := by
    intro dst h
    rcases (mem_move hq hc).mp h with ⟨h, -⟩ | ⟨-, rfl⟩
    · exact (mem_runnable hq).mpr ⟨i, h⟩
    · exact (mem_runnable hq).mpr ⟨p, hc⟩
  cases fc with
  | none => exact (mem_runnable hq).mpr ⟨i, hm⟩
  | first => exact (mem_runnable hq).mpr ⟨i, hm⟩
  | pexit => exact (mem_runnable hq).mpr ⟨i, ((mem_take hq).mp hm).1⟩
  | timer => exact hmove _ hm
  | yield => exact hmove _ hm
  | join => exact hmove _ hm
  | blocked => exact hmove _ hm

/-- A level of the queues requested is no longer than the run queues were. -/
theorem length_request_age_le {fc : FlagCalled} {p : ℕ} (hq : q.WF) (hc : c ∈ q (.rqs p)) :
    ((q.request fc c p).age (.rqs i)).length ≤ q.runnable.length := by
  refine ((hq.request hc).age.nodup _ |>.subperm fun m hm ↦ ?_).length_le
  rcases mem_age.mp hm with ⟨h, -⟩ | ⟨-, h⟩
  · exact mem_runnable_of_request hq hc h
  · exact mem_runnable_of_request hq hc h

theorem length_requested_le {fc : FlagCalled} {count p : ℕ} (hq : q.WF) (hc : c ∈ q (.rqs p)) :
    (q.requested fc count c p (.rqs i)).length ≤ q.runnable.length := by
  unfold requested
  split
  · exact ((hq.nodup _).subperm fun m hm ↦ (mem_runnable hq).mpr ⟨i, hm⟩).length_le
  · split
    · exact length_request_age_le hq hc
    · refine ((hq.request hc).nodup _ |>.subperm fun m hm ↦ ?_).length_le
      exact mem_runnable_of_request hq hc hm

/-- The choice when another thread comes first. -/
theorem choose_of_ne (h : q.runnable.head? = some n) (hn : n ≠ c) : q.choose c = some n := by
  obtain ⟨l, hl⟩ := List.head?_eq_some_iff.mp h
  simp [choose, hl, hn]

/-- The choice when the current thread comes first. -/
theorem choose_of_eq (h : q.runnable = c :: l) (hc : c ∉ l) :
    q.choose c = some (l.head?.getD c) := by
  have hfind : l.find? (fun n ↦ decide (n ≠ c)) = l.head? := by
    cases l with
    | nil => rfl
    | cons n l =>
      rw [List.mem_cons, not_or] at hc
      simp [Ne.symm hc.1]
  rw [choose, h, List.find?_cons_of_neg (by simp), hfind]
  cases l <;> simp

theorem choose_nil (h : q.runnable = []) : q.choose c = none := by
  simp [choose, h]

theorem rotate_of_ne (h : q.runnable.head? ≠ some c) : q.rotate c = q := by
  funext Q
  unfold rotate
  rw [if_neg fun hh ↦ h hh.1]

/-- The rotation moves the current thread within its level. -/
theorem rotate_of_eq (hq : q.WF) (h : q.runnable.head? = some c) (hl : q (.rqs i) = c :: l) :
    q.rotate c = q.move (.rqs i) (.rqs i) c := by
  funext Q
  unfold rotate move put take
  by_cases hQ : Q = .rqs i
  · subst hQ
    rw [if_pos ⟨h, by rw [hl]; rfl⟩, update_self, update_self, hl, List.erase_cons_head,
      List.tail_cons]
  · rw [if_neg, update_of_ne hQ, update_of_ne hQ]
    rintro ⟨-, hhead⟩
    exact hQ (hq.disjoint (List.mem_of_head? hhead) (hl ▸ List.mem_cons_self))

end Choice

end Mlfq

end MyPthread.Sched
