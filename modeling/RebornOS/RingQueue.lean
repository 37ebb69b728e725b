import Mathlib.Tactic

/-!
# Queues in a ring of slots

This module is independent of the kernel.  Item number `k` of a queue lives in
slot `k % n` of a ring, and one slot always stays empty.  `RingQueue` keeps all
items that ever entered and how many of them have left, so that "nothing is lost,
duplicated or reordered" is a statement about one list.
-/

namespace RebornOS

universe u

/--
The items `entered` have entered the queue, the first `left` of them have left
it, and the others are held by their slots.
-/
structure RingQueue {α : Type u} (n : Nat) (Holds : Nat → α → Prop)
    (entered : List α) (left : Nat) : Prop where
  left_le : left ≤ entered.length
  room : entered.length < left + n
  holds : ∀ k x, left ≤ k → entered[k]? = some x → Holds (k % n) x

namespace RingQueue

variable {α : Type u} {n r i j left : Nat} {Holds Holds' : Nat → α → Prop}
  {entered : List α} {x : α}

/-- Numbers in a window of `n` have different slots. -/
theorem slot_eq_iff
    (hi : r ≤ i) (hi' : i < r + n) (hj : r ≤ j) (hj' : j < r + n) :
    i % n = j % n ↔ i = j := by
  refine ⟨fun h => ?_, fun h => h ▸ rfl⟩
  -- the difference of the two is a multiple of `n` and below `n`
  rcases le_total i j with hij | hij
  · have hzero := Nat.eq_zero_of_dvd_of_lt
      (Nat.dvd_of_mod_eq_zero (Nat.sub_mod_eq_zero_of_mod_eq h.symm)) (by omega)
    omega
  · have hzero := Nat.eq_zero_of_dvd_of_lt
      (Nat.dvd_of_mod_eq_zero (Nat.sub_mod_eq_zero_of_mod_eq h)) (by omega)
    omega

section

variable (h : RingQueue n Holds entered left)
include h

/-- The next item goes to a slot that no waiting item has. -/
theorem slot_ne
    {k : Nat} (hk : left ≤ k) (hlt : k < entered.length) :
    k % n ≠ entered.length % n := by
  have hroom := h.room
  rw [Ne, slot_eq_iff hk (by omega) h.left_le hroom]
  exact hlt.ne

/-- The queue is full when the next slot is the one before the first item's. -/
theorem full_iff :
    entered.length % n = (left + (n - 1)) % n ↔ entered.length = left + (n - 1) := by
  have hle := h.left_le
  have hroom := h.room
  exact slot_eq_iff hle hroom (by omega) (by omega)

/-- The same test, made on the slot after the next one. -/
theorem full_iff_succ :
    (entered.length + 1) % n = left % n ↔ entered.length = left + (n - 1) := by
  have hle := h.left_le
  have hroom := h.room
  rw [← Nat.add_mod_right left n,
    slot_eq_iff (r := left + 1) (by omega) (by omega) (by omega) (by omega)]
  omega

/-- The queue is empty when the next slot is the first item's. -/
theorem empty_iff : left % n = entered.length % n ↔ left = entered.length := by
  have hle := h.left_le
  have hroom := h.room
  exact slot_eq_iff (le_refl left) (by omega) hle hroom

end

/-- An empty ring. -/
theorem empty
    (hn : 0 < n) : RingQueue n Holds ([] : List α) 0 where
  left_le := le_refl 0
  room := by simpa using hn
  holds k x _ h := by simp at h

/-- Slots that hold the waiting items keep the queue. -/
theorem mono
    (h : RingQueue n Holds entered left)
    (hkeep : ∀ k x, left ≤ k → entered[k]? = some x → Holds (k % n) x →
      Holds' (k % n) x) : RingQueue n Holds' entered left where
  left_le := h.left_le
  room := h.room
  holds k x hk hx := hkeep k x hk hx (h.holds k x hk hx)

/-- An item enters in the next slot. -/
theorem enter
    (h : RingQueue n Holds entered left) (hroom : entered.length < left + (n - 1))
    (hnew : Holds (entered.length % n) x) :
    RingQueue n Holds (entered ++ [x]) left where
  left_le := by
    have hle := h.left_le
    simp only [List.length_append, List.length_singleton]
    omega
  room := by
    have hle := h.left_le
    simp only [List.length_append, List.length_singleton]
    omega
  holds k y hk hy := by
    rcases lt_trichotomy k entered.length with hlt | heq | hgt
    · rw [List.getElem?_append_left hlt] at hy
      exact h.holds k y hk hy
    · subst heq
      rw [List.getElem?_concat_length, Option.some.injEq] at hy
      exact hy ▸ hnew
    · rw [List.getElem?_eq_none (by simpa using hgt)] at hy
      cases hy

/-- The first item leaves. -/
theorem leave
    (h : RingQueue n Holds entered left) (hlt : left < entered.length) :
    RingQueue n Holds entered (left + 1) where
  left_le := hlt
  room := by
    have hroom := h.room
    omega
  holds k y hk := h.holds k y (by omega)

end RingQueue
end RebornOS
