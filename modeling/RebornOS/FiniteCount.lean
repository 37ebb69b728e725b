import Mathlib.Tactic
import Mathlib.Data.Nat.Count

/-!
# Counting the indices below a bound

This module is independent of the kernel.  Tables of fixed size are scanned and
counted by index.  `Nat.count p n` is the number of indices below `n` that
satisfy `p`; the rules below follow it through the change of a single index,
which is how every incrementally maintained counter moves.
-/

namespace RebornOS
namespace FiniteCount

variable {p q : Nat → Prop} [DecidablePred p] [DecidablePred q]

/-- Predicates that agree below the bound have the same count. -/
theorem count_congr
    {n : Nat} (h : ∀ i, i < n → (p i ↔ q i)) : Nat.count p n = Nat.count q n := by
  induction n with
  | zero =>
      rfl
  | succ n ih =>
      have hlow := ih (fun i hi => h i (by omega))
      have htop := h n (by omega)
      rw [Nat.count_succ, Nat.count_succ, hlow]
      by_cases hq : q n
      · rw [if_pos (htop.mpr hq), if_pos hq]
      · rw [if_neg (fun hp => hq (htop.mp hp)), if_neg hq]

/-- Turning one index on raises the count by one. -/
theorem count_flip
    {n k : Nat} (hk : k < n)
    (hsame : ∀ i, i < n → i ≠ k → (p i ↔ q i))
    (hp : p k) (hq : ¬ q k) : Nat.count p n = Nat.count q n + 1 := by
  induction n with
  | zero =>
      omega
  | succ n ih =>
      rw [Nat.count_succ, Nat.count_succ]
      by_cases hkn : k = n
      · subst hkn
        have hlow : Nat.count p k = Nat.count q k :=
          count_congr (fun i hi => hsame i (by omega) (by omega))
        rw [if_pos hp, if_neg hq, hlow]
      · have hlow := ih (by omega) (fun i hi hik => hsame i (by omega) hik)
        have htop := hsame n (by omega) (fun hnk => hkn hnk.symm)
        rw [hlow]
        by_cases hqn : q n
        · rw [if_pos (htop.mpr hqn), if_pos hqn]
        · rw [if_neg (fun hpn => hqn (htop.mp hpn)), if_neg hqn]

/-- A count is positive exactly when some index satisfies the predicate. -/
theorem count_pos_iff
    {n : Nat} : 0 < Nat.count p n ↔ ∃ i, i < n ∧ p i := by
  induction n with
  | zero =>
      simp
  | succ n ih =>
      rw [Nat.count_succ]
      constructor
      · intro h
        by_cases hp : p n
        · exact ⟨n, by omega, hp⟩
        · rw [if_neg hp] at h
          obtain ⟨i, hi, hpi⟩ := ih.mp h
          exact ⟨i, by omega, hpi⟩
      · rintro ⟨i, hi, hpi⟩
        by_cases hin : i = n
        · subst hin
          rw [if_pos hpi]
          omega
        · have hpos := ih.mpr ⟨i, by omega, hpi⟩
          omega

end FiniteCount
end RebornOS
