import Mathlib.Tactic

/-!
# Masks and flag bits of machine words

This module is independent of the kernel.  Machine words are natural numbers
below `2 ^ 64`; C's `x & ~(2^k - 1)`, `x | flags` and `x & flag` are `Nat`'s
bitwise operations.  The rules here turn them into arithmetic that `omega`
can use:

* clearing the low bits rounds down (`land_highMask`, `land_lowMask`);
* or-ing a low field into an aligned word adds it (`lor_low_field`);
* testing a single flag bit reads one binary digit (`land_flag_ne_zero`).
-/

namespace RebornOS
namespace WordBits

/-- The 64-bit complement of `2 ^ k - 1`. -/
def highMask (k : Nat) : Nat := 2 ^ 64 - 2 ^ k

theorem testBit_highMask
    {k : Nat} (hk : k ≤ 64) (i : Nat) :
    (highMask k).testBit i = (decide (k ≤ i) && decide (i < 64)) := by
  have hpos : 0 < 2 ^ k := Nat.two_pow_pos k
  have hle : 2 ^ k ≤ 2 ^ 64 := Nat.pow_le_pow_right (by omega) hk
  have hsub : highMask k = 2 ^ 64 - ((2 ^ k - 1) + 1) := by
    unfold highMask
    omega
  rw [hsub, Nat.testBit_two_pow_sub_succ (by omega), Nat.testBit_two_pow_sub_one]
  by_cases h2 : i < k
  · simp [h2]
  · simp [h2, Nat.le_of_not_lt h2]

/-- Clearing the low `k` bits of a word rounds it down to a multiple of `2 ^ k`. -/
theorem land_highMask
    {x k : Nat} (hx : x < 2 ^ 64) (hk : k ≤ 64) :
    x &&& highMask k = x / 2 ^ k * 2 ^ k := by
  apply Nat.eq_of_testBit_eq
  intro i
  rw [Nat.testBit_and, testBit_highMask hk, Nat.testBit_mul_two_pow]
  by_cases hki : k ≤ i
  · have hdiv : (x / 2 ^ k).testBit (i - k) = x.testBit i := by
      rw [Nat.testBit_div_two_pow]
      congr 1
      omega
    by_cases hi : i < 64
    · simp [hki, hi, hdiv]
    · have hbit : x.testBit i = false :=
        Nat.testBit_lt_two_pow
          (lt_of_lt_of_le hx (Nat.pow_le_pow_right (by omega) (by omega)))
      simp [hki, hi, hdiv, hbit]
  · simp [hki]

/-- Keeping the low `k` bits is the remainder modulo `2 ^ k`. -/
theorem land_lowMask
    (x k : Nat) : x &&& (2 ^ k - 1) = x % 2 ^ k :=
  Nat.and_two_pow_sub_one_eq_mod x k

/-- Or-ing a field of `k` bits into a multiple of `2 ^ k` adds it. -/
theorem lor_low_field
    {x y k : Nat} (hx : x % 2 ^ k = 0) (hy : y < 2 ^ k) : x ||| y = x + y := by
  have hform : x = 2 ^ k * (x / 2 ^ k) := by
    have h := Nat.div_add_mod x (2 ^ k)
    omega
  rw [hform]
  exact (Nat.two_pow_add_eq_or_of_lt hy (x / 2 ^ k)).symm

/-- A flag test reads one binary digit. -/
theorem land_flag_ne_zero
    (x i : Nat) : x &&& 2 ^ i ≠ 0 ↔ x.testBit i = true := by
  constructor
  · intro h
    by_contra hbit
    have hfalse : x.testBit i = false := by
      simpa using hbit
    apply h
    apply Nat.eq_of_testBit_eq
    intro j
    rw [Nat.testBit_and, Nat.testBit_two_pow, Nat.zero_testBit]
    by_cases hij : i = j
    · subst hij
      simp [hfalse]
    · simp [hij]
  · intro hbit hzero
    have h : (x &&& 2 ^ i).testBit i = true := by
      rw [Nat.testBit_and, Nat.testBit_two_pow_self, hbit]
      rfl
    rw [hzero, Nat.zero_testBit] at h
    exact Bool.false_ne_true h

end WordBits
end RebornOS
