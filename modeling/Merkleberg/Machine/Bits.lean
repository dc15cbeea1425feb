import Mathlib.Data.Nat.Bits
import Mathlib.Algebra.Order.Ring.Nat
import Mathlib.Tactic.Ring

namespace machine

/-- Number of ones in the binary representation. -/
def popcount (n : Nat) : Nat := n.bits.count true

/-- Number of zeros below the lowest one. -/
def trailingZeros (n : Nat) : Nat := (n.bits.takeWhile (! ·)).length

@[simp] theorem popcount_zero : popcount 0 = 0 := by simp [popcount]

@[simp] theorem popcount_two_mul (n : Nat) : popcount (2 * n) = popcount n := by
  rcases Nat.eq_zero_or_pos n with rfl | hn
  · simp
  · simp [popcount, Nat.bit0_bits n (by omega)]

@[simp] theorem popcount_two_mul_add_one (n : Nat) : popcount (2 * n + 1) = popcount n + 1 := by
  simp [popcount, Nat.bit1_bits]

theorem trailingZeros_two_mul {n : Nat} (hn : 0 < n) :
    trailingZeros (2 * n) = trailingZeros n + 1 := by
  simp [trailingZeros, Nat.bit0_bits n (by omega)]

@[simp] theorem trailingZeros_two_mul_add_one (n : Nat) : trailingZeros (2 * n + 1) = 0 := by
  simp [trailingZeros, Nat.bit1_bits]

/-- Every number is twice its half, or one more. -/
theorem even_or_odd_half (n : Nat) : n = 2 * (n / 2) ∨ n = 2 * (n / 2) + 1 := by
  omega

theorem popcount_le_self (n : Nat) : popcount n ≤ n := by
  induction n using Nat.strongRecOn with
  | ind n ih =>
    rcases Nat.eq_zero_or_pos n with rfl | hn
    · simp
    · have hhalf := ih (n / 2) (by omega)
      rcases even_or_odd_half n with h | h
      · rw [h, popcount_two_mul]
        omega
      · rw [h, popcount_two_mul_add_one]
        omega

theorem popcount_pos {n : Nat} (hn : 0 < n) : 0 < popcount n := by
  induction n using Nat.strongRecOn with
  | ind n ih =>
    rcases even_or_odd_half n with h | h
    · rw [h, popcount_two_mul]
      exact ih (n / 2) (by omega) (by omega)
    · rw [h, popcount_two_mul_add_one]
      omega

/-- A block of low bits contributes its ones independently of the bits above. -/
theorem popcount_block {k r : Nat} (a : Nat) (hr : r < 2 ^ k) :
    popcount (2 ^ k * a + r) = popcount a + popcount r := by
  induction k generalizing r with
  | zero =>
    have hzero : r = 0 := by omega
    simp [hzero]
  | succ k ih =>
    have hhalf : r / 2 < 2 ^ k := by omega
    rcases even_or_odd_half r with h | h
    · have hsplit : 2 ^ (k + 1) * a + r = 2 * (2 ^ k * a + r / 2) := by
        rw [pow_succ]
        nth_rewrite 1 [h]
        ring
      rw [hsplit, popcount_two_mul, ih hhalf, ← popcount_two_mul (r / 2), ← h]
    · have hsplit : 2 ^ (k + 1) * a + r = 2 * (2 ^ k * a + r / 2) + 1 := by
        rw [pow_succ]
        nth_rewrite 1 [h]
        ring
      rw [hsplit, popcount_two_mul_add_one, ih hhalf, Nat.add_assoc,
        ← popcount_two_mul_add_one (r / 2), ← h]

theorem popcount_two_pow_mul (k a : Nat) : popcount (2 ^ k * a) = popcount a := by
  have h := popcount_block a (Nat.two_pow_pos k)
  simpa using h

theorem popcount_two_pow (k : Nat) : popcount (2 ^ k) = 1 := by
  have h := popcount_two_pow_mul k 1
  have hone : popcount 1 = 1 := popcount_two_mul_add_one 0
  rw [Nat.mul_one] at h
  rw [h, hone]

/-- The trailing zeros are the powers of two that divide a number. -/
theorem two_pow_dvd_iff {n : Nat} (hn : 0 < n) (j : Nat) : 2 ^ j ∣ n ↔ j ≤ trailingZeros n := by
  induction n using Nat.strongRecOn generalizing j with
  | ind n ih =>
    cases j with
    | zero => simp
    | succ j =>
      rcases even_or_odd_half n with h | h
      · have hhalf : 0 < n / 2 := by omega
        rw [h, trailingZeros_two_mul hhalf, pow_succ', Nat.add_le_add_iff_right,
          Nat.mul_dvd_mul_iff_left (by omega)]
        exact ih (n / 2) (by omega) hhalf j
      · rw [h, trailingZeros_two_mul_add_one]
        constructor
        · intro hdvd
          have htwo : 2 ∣ 2 * (n / 2) + 1 := (Dvd.intro_left (2 ^ j) rfl).trans hdvd
          omega
        · omega

/-- Adding one turns the trailing ones into zeros and sets the bit above them. -/
theorem popcount_succ (n : Nat) : popcount (n + 1) + trailingZeros (n + 1) = popcount n + 1 := by
  induction n using Nat.strongRecOn with
  | ind n ih =>
    rcases even_or_odd_half n with h | h
    · rw [h, popcount_two_mul_add_one, trailingZeros_two_mul_add_one, popcount_two_mul]
    · have hnext : 2 * (n / 2) + 1 + 1 = 2 * (n / 2 + 1) := by ring
      rw [h, hnext, popcount_two_mul, trailingZeros_two_mul (by omega), popcount_two_mul_add_one]
      have hhalf := ih (n / 2) (by omega)
      omega

end machine
