import Mathlib.Tactic

/-!
# Ones' complement addition

This module is independent of the kernel.  Words are numbers below a base `b`, for
`b = 2 ^ w` words of `w` bits.  Adding two of them carries the overflow around to
the low end.  A sum may also be formed without carries and folded at the end.

Both ways depend only on the sum modulo `b - 1`, where zero has the two forms `0`
and `b - 1`.  `rep b s` settles which of them is taken: `0` for the sum `0` only.
-/

namespace RebornOS
namespace OnesComplement

/-- Addition with an end-around carry. -/
def add (b x y : Nat) : Nat :=
  if x + y < b then x + y else x + y - b + 1

/-- The ones' complement sum of some words. -/
def sum (b : Nat) (ws : List Nat) : Nat := ws.foldl (add b) 0

/-- Every digit flipped. -/
def complement (b x : Nat) : Nat := b - 1 - x

/-- The word that stands for the sum `s`. -/
def rep (b s : Nat) : Nat := if s = 0 then 0 else (s - 1) % (b - 1) + 1

/-- Folding the carries of a sum into its low digit once. -/
def carry (b s : Nat) : Nat := s % b + s / b

section

variable {b q s t x y : Nat}

@[simp] theorem rep_zero : rep b 0 = 0 := by
  rfl

theorem rep_of_lt
    (h : s < b) : rep b s = s := by
  unfold rep
  split_ifs with hs
  · exact hs.symm
  · rw [Nat.mod_eq_of_lt (by omega)]
    omega

theorem rep_lt
    (hb : 1 < b) : rep b s < b := by
  unfold rep
  split_ifs
  · omega
  · have hmod := Nat.mod_lt (s - 1) (by omega : 0 < b - 1)
    omega

/-- Multiples of `b - 1` do not count, as long as something else is left. -/
theorem rep_mul_add
    (ht : 0 < t) : rep b ((b - 1) * q + t) = rep b t := by
  have hsum : (b - 1) * q + t - 1 = t - 1 + (b - 1) * q := by omega
  unfold rep
  rw [if_neg (by omega), if_neg (by omega), hsum, Nat.add_mul_mod_self_left]

/-- A positive sum and its word differ by a multiple of `b - 1`. -/
theorem eq_mul_add_rep
    (hs : 0 < s) : s = (b - 1) * ((s - 1) / (b - 1)) + rep b s := by
  have hdiv := Nat.div_add_mod (s - 1) (b - 1)
  unfold rep
  rw [if_neg (by omega)]
  omega

/-- Words may be added to the word of a sum. -/
theorem rep_rep_add
    (s t : Nat) : rep b (rep b s + t) = rep b (s + t) := by
  rcases Nat.eq_zero_or_pos s with rfl | hs
  · rw [rep_zero]
  · have hpos : 0 < rep b s := by
      unfold rep
      rw [if_neg (by omega)]
      omega
    conv_rhs => rw [eq_mul_add_rep (b := b) hs, Nat.add_assoc]
    rw [rep_mul_add (by omega)]

/-- Folding keeps the word. -/
theorem rep_carry
    (hb : 1 < b) : rep b (carry b s) = rep b s := by
  rcases Nat.eq_zero_or_pos s with rfl | hs
  · simp [carry]
  · have hdiv := Nat.div_add_mod s b
    have hsplit : s = (b - 1) * (s / b) + carry b s := by
      have hmul : (b - 1) * (s / b) + s / b = b * (s / b) := by
        rw [← Nat.succ_mul, Nat.succ_eq_add_one, Nat.sub_add_cancel (by omega)]
      unfold carry
      omega
    have hpos : 0 < carry b s := by
      by_contra hzero
      obtain ⟨hlow, hhigh⟩ := Nat.add_eq_zero_iff.mp (Nat.eq_zero_of_not_pos hzero)
      rw [hlow, hhigh] at hdiv
      omega
    conv_rhs => rw [hsplit]
    rw [rep_mul_add hpos]

/-- A carry makes a sum of more than one digit smaller. -/
theorem carry_lt
    (hb : 1 < b) (hs : b ≤ s) : carry b s < s := by
  have hdiv := Nat.div_add_mod s b
  have hhigh : 0 < s / b := Nat.div_pos hs (by omega)
  have hmul : 2 * (s / b) ≤ b * (s / b) := Nat.mul_le_mul_right _ hb
  unfold carry
  omega

theorem add_eq_rep
    (hx : x < b) (hy : y < b) : add b x y = rep b (x + y) := by
  unfold add
  split_ifs with hsum
  · exact (rep_of_lt hsum).symm
  · have hsplit : x + y = (b - 1) * 1 + (x + y - b + 1) := by omega
    conv_rhs => rw [hsplit]
    rw [rep_mul_add (by omega), rep_of_lt (by omega)]

/-- The sum with end-around carries is the word of the plain sum. -/
theorem sum_eq_rep
    {ws : List Nat} (hb : 1 < b) (hws : ∀ w ∈ ws, w < b) : sum b ws = rep b ws.sum := by
  have hfold : ∀ acc, acc < b → ws.foldl (add b) acc = rep b (acc + ws.sum) := by
    induction ws with
    | nil =>
        intro acc hacc
        exact (rep_of_lt hacc).symm
    | cons w ws ih =>
        intro acc hacc
        have hw : w < b := hws w List.mem_cons_self
        rw [List.foldl_cons, add_eq_rep hacc hw,
          ih (fun v hv => hws v (List.mem_cons_of_mem _ hv)) _ (rep_lt hb),
          rep_rep_add, List.sum_cons, Nat.add_assoc]
  rw [sum, hfold 0 (by omega), Nat.zero_add]

/-- **A sum and its complement balance.**  Together they make the zero that is not
`0`. -/
theorem rep_add_complement
    (hb : 1 < b) (s : Nat) : rep b (s + complement b (rep b s)) = b - 1 := by
  have hlt : rep b s < b := rep_lt hb
  rw [← rep_rep_add, complement, Nat.add_sub_cancel' (by omega)]
  exact rep_of_lt (by omega)

end

end OnesComplement
end RebornOS
