import MyPthread.Lib.Word
import Mathlib.Data.Set.Basic
import Mathlib.Order.CompletePartialOrder

/-!
# Byte memory

Memory as a total function from addresses to bytes, with little-endian reads
and writes of `n`-byte words and a block copy.  The two facts every proof about
in-place data uses are that a word just written is read back
(`readLE_writeLE`) and that a read away from the written bytes is unaffected
(`readLE_writeLE_of_disjoint`).
-/

namespace MyPthread.Lib

/-- A byte memory. -/
abbrev Mem := ℕ → UInt8

/-- The `n`-byte little-endian word at address `a`. -/
def readLE (m : Mem) (a : ℕ) : ℕ → ℕ
  | 0 => 0
  | n + 1 => (m a).toNat + 256 * readLE m (a + 1) n

/-- Store the low `n` bytes of `v` at address `a`. -/
def writeLE (m : Mem) (a n v : ℕ) : Mem := fun x ↦
  if a ≤ x ∧ x < a + n then UInt8.ofNat (v / 256 ^ (x - a)) else m x

/-- Copy `n` bytes from `src` to `dst`; the source is read before the
destination is written. -/
def copyBytes (m : Mem) (dst src n : ℕ) : Mem := fun x ↦
  if dst ≤ x ∧ x < dst + n then m (src + (x - dst)) else m x

/-- A memory with one byte replaced. -/
def setByte (m : Mem) (a : ℕ) (v : UInt8) : Mem := fun x ↦ if x = a then v else m x

@[simp] theorem setByte_self (m : Mem) (a : ℕ) (v : UInt8) : setByte m a v a = v := by
  simp [setByte]

theorem setByte_of_ne {m : Mem} {a x : ℕ} {v : UInt8} (h : x ≠ a) : setByte m a v x = m x := by
  simp [setByte, h]

theorem writeLE_of_notMem {m : Mem} {a n v x : ℕ} (h : x < a ∨ a + n ≤ x) :
    writeLE m a n v x = m x := by
  unfold writeLE
  rw [if_neg]
  omega

theorem copyBytes_of_notMem {m : Mem} {dst src n x : ℕ} (h : x < dst ∨ dst + n ≤ x) :
    copyBytes m dst src n x = m x := by
  unfold copyBytes
  rw [if_neg]
  omega

theorem copyBytes_of_mem {m : Mem} {dst src n i : ℕ} (h : i < n) :
    copyBytes m dst src n (dst + i) = m (src + i) := by
  unfold copyBytes
  rw [if_pos (by omega), Nat.add_sub_cancel_left]

theorem readLE_lt (m : Mem) (a n : ℕ) : readLE m a n < 256 ^ n := by
  induction n generalizing a with
  | zero => simp [readLE]
  | succ n ih =>
    have hb : (m a).toNat < 256 := (m a).toNat_lt
    have hr := ih (a + 1)
    simp only [readLE, Nat.pow_succ]
    omega

/-- A read depends only on the bytes it covers. -/
theorem readLE_congr {m m' : Mem} {a n : ℕ} (h : ∀ i < n, m (a + i) = m' (a + i)) :
    readLE m a n = readLE m' a n := by
  induction n generalizing a with
  | zero => rfl
  | succ n ih =>
    have h₀ : m a = m' a := by simpa using h 0 (by omega)
    have htail : readLE m (a + 1) n = readLE m' (a + 1) n := by
      apply ih
      intro i hi
      have := h (i + 1) (by omega)
      rwa [show a + (i + 1) = a + 1 + i by omega] at this
    simp only [readLE, h₀, htail]

/-- A read that avoids the written bytes is unaffected. -/
theorem readLE_writeLE_of_disjoint {m : Mem} {a n b k v : ℕ} (h : a + n ≤ b ∨ b + k ≤ a) :
    readLE (writeLE m b k v) a n = readLE m a n := by
  apply readLE_congr
  intro i hi
  exact writeLE_of_notMem (by omega)

/-- The word just written is read back, up to the bytes that do not fit. -/
theorem readLE_writeLE (m : Mem) (a n v : ℕ) :
    readLE (writeLE m a n v) a n = v % 256 ^ n := by
  induction n generalizing m a v with
  | zero => simp [readLE, Nat.mod_one]
  | succ n ih =>
    -- the tail of the word is the word `v / 256` written one byte later
    have htail : readLE (writeLE m a (n + 1) v) (a + 1) n =
        readLE (writeLE m (a + 1) n (v / 256)) (a + 1) n := by
      apply readLE_congr
      intro i hi
      unfold writeLE
      rw [if_pos (by omega), if_pos (by omega)]
      congr 1
      rw [show a + 1 + i - a = i + 1 by omega, show a + 1 + i - (a + 1) = i by omega,
        Nat.pow_succ', Nat.div_div_eq_div_mul]
    have hhead : (writeLE m a (n + 1) v a).toNat = v % 256 := by
      simp [writeLE]
    simp only [readLE, htail, ih, hhead]
    rw [Nat.pow_succ', Nat.mod_mul]

/-- A range of addresses, `[a, a + n)`. -/
def Range (a n : ℕ) : Set ℕ := {x | a ≤ x ∧ x < a + n}

@[simp] theorem mem_Range {a n x : ℕ} : x ∈ Range a n ↔ a ≤ x ∧ x < a + n := Iff.rfl

/-- `m'` differs from `m` only at addresses in `S`. -/
def ChangesOnly (S : Set ℕ) (m m' : Mem) : Prop := ∀ x, x ∉ S → m' x = m x

namespace ChangesOnly

variable {S T : Set ℕ} {m m₁ m₂ : Mem}

theorem refl (S : Set ℕ) (m : Mem) : ChangesOnly S m m := fun _ _ ↦ rfl

theorem trans (h₁ : ChangesOnly S m m₁) (h₂ : ChangesOnly S m₁ m₂) : ChangesOnly S m m₂ :=
  fun x hx ↦ (h₂ x hx).trans (h₁ x hx)

theorem mono (h : ChangesOnly S m m₁) (hST : S ⊆ T) : ChangesOnly T m m₁ :=
  fun x hx ↦ h x fun hS ↦ hx (hST hS)

theorem writeLE {a n v : ℕ} (hS : Range a n ⊆ S) (h : ChangesOnly S m m₁) :
    ChangesOnly S m (writeLE m₁ a n v) := fun x hx ↦ by
  have hn : x ∉ Range a n := fun hr ↦ hx (hS hr)
  rw [mem_Range] at hn
  rw [writeLE_of_notMem (by omega), h x hx]

end ChangesOnly

end MyPthread.Lib
