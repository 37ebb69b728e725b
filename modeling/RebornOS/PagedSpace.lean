import Mathlib.Tactic

/-!
# Address spaces as partial functions

This module is independent of the kernel.  An address space says for every
address whether something is mapped there and what an access finds.  It is
changed in pages of `P` addresses: `mapPage` replaces a page, whatever was
there, and `ensurePage` maps a page only where nothing is mapped yet.

The loops over consecutive pages are described at a single address:
`mapPages_of_ne`, `mapPages_of_eq` and `ensurePages_apply`.  The last one needs
that pages are mapped as a whole (`Paged`), since only the first address of a
page is looked at.
-/

namespace RebornOS
namespace PagedSpace

/-- What an access finds at each address. -/
abbrev Space (α : Type) := Nat → Option α

variable {α : Type} (P : Nat)

/-- Map page `page` to `f`, which is given by the offset. -/
def mapPage (S : Space α) (page : Nat) (f : Nat → α) : Space α :=
  fun v => if v / P = page then some (f (v % P)) else S v

/-- Go through `n` pages from `page` on and map each at its place `ρ page`. -/
def mapPages (ρ : Nat → Nat) (f : Nat → Nat → α) :
    Nat → Nat → Space α → Space α
  | 0, _, S => S
  | n + 1, page, S => mapPages ρ f n (page + 1) (mapPage P S (ρ page) (f page))

/-- Map page `page` unless it is mapped already. -/
def ensurePage (S : Space α) (page : Nat) (f : Nat → α) : Space α :=
  if (S (page * P)).isSome then S else mapPage P S page f

/-- Go through `n` pages from `page` on and map those that are missing. -/
def ensurePages (f : Nat → α) : Nat → Nat → Space α → Space α
  | 0, _, S => S
  | n + 1, page, S => ensurePages f n (page + 1) (ensurePage P S page f)

/-- Pages are mapped as a whole. -/
def Paged (S : Space α) : Prop :=
  ∀ v w, v / P = w / P → (S v).isSome = (S w).isSome

section Apply

variable {P} {S : Space α} {page : Nat}

theorem mapPage_of_eq
    {f : Nat → α} {v : Nat} (h : v / P = page) :
    mapPage P S page f v = some (f (v % P)) := by
  unfold mapPage
  rw [if_pos h]

theorem mapPage_of_ne
    {f : Nat → α} {v : Nat} (h : v / P ≠ page) : mapPage P S page f v = S v := by
  unfold mapPage
  rw [if_neg h]

/-- Only the offsets below `P` are used. -/
theorem mapPage_congr
    (hP : 0 < P) {f f' : Nat → α} (h : ∀ k, k < P → f k = f' k) :
    mapPage P S page f = mapPage P S page f' := by
  funext v
  unfold mapPage
  rw [h _ (Nat.mod_lt v hP)]

/-- Pages that are the place of none of the mapped ones stay. -/
theorem mapPages_of_ne
    {ρ : Nat → Nat} (f : Nat → Nat → α) {n v : Nat}
    (h : ∀ q, page ≤ q → q < page + n → ρ q ≠ v / P) :
    mapPages P ρ f n page S v = S v := by
  induction n generalizing page S with
  | zero =>
      rfl
  | succ n ih =>
      rw [mapPages, ih (fun q hq hlt => h q (by omega) (by omega))]
      exact mapPage_of_ne (h page (le_refl page) (by omega)).symm

/-- The page whose place is visited once holds what was mapped there. -/
theorem mapPages_of_eq
    {ρ : Nat → Nat} (f : Nat → Nat → α) {n v q : Nat} (hq : page ≤ q)
    (hlt : q < page + n) (hplace : ρ q = v / P)
    (honce : ∀ q', page ≤ q' → q' < page + n → ρ q' = v / P → q' = q) :
    mapPages P ρ f n page S v = some (f q (v % P)) := by
  induction n generalizing page S with
  | zero =>
      omega
  | succ n ih =>
      rw [mapPages]
      by_cases hfirst : q = page
      · rw [mapPages_of_ne, hfirst]
        · exact mapPage_of_eq (by rw [← hplace, hfirst])
        · intro q' hq' hlt' hplace'
          have hsame := honce q' (by omega) (by omega) hplace'
          omega
      · exact
          ih (by omega) (by omega)
            (fun q' hq' hlt' => honce q' (by omega) (by omega))

theorem paged_mapPage
    (h : Paged P S) (f : Nat → α) : Paged P (mapPage P S page f) := by
  intro v w hvw
  by_cases hv : v / P = page
  · rw [mapPage_of_eq hv, mapPage_of_eq (hvw ▸ hv)]
    rfl
  · rw [mapPage_of_ne hv, mapPage_of_ne (hvw ▸ hv)]
    exact h v w hvw

theorem paged_ensurePage
    (h : Paged P S) (f : Nat → α) : Paged P (ensurePage P S page f) := by
  unfold ensurePage
  split_ifs
  · exact h
  · exact paged_mapPage h f

/-- A page that is mapped keeps what it has. -/
theorem ensurePage_apply
    (hP : 0 < P) (h : Paged P S) (f : Nat → α) (v : Nat) :
    ensurePage P S page f v =
      (S v).or (if v / P = page then some (f (v % P)) else none) := by
  unfold ensurePage
  by_cases hv : v / P = page
  · have hsame : (S v).isSome = (S (page * P)).isSome :=
      h v (page * P) (by rw [Nat.mul_div_cancel _ hP, hv])
    rw [if_pos hv, ← hsame]
    cases hS : S v with
    | none =>
        simp only [Option.isSome_none, Bool.false_eq_true, if_false, Option.none_or]
        exact mapPage_of_eq hv
    | some a =>
        simp only [Option.isSome_some, if_true, Option.some_or]
        exact hS
  · rw [if_neg hv, Option.or_none]
    split_ifs
    · rfl
    · exact mapPage_of_ne hv

/-- What was mapped stays, and the missing pages of the range are added. -/
theorem ensurePages_apply
    (hP : 0 < P) (h : Paged P S) (f : Nat → α) (n v : Nat) :
    ensurePages P f n page S v =
      (S v).or
        (if page ≤ v / P ∧ v / P < page + n then some (f (v % P)) else none) := by
  induction n generalizing page S with
  | zero =>
      rw [ensurePages, if_neg (by omega), Option.or_none]
  | succ n ih =>
      rw [ensurePages, ih (paged_ensurePage h f), ensurePage_apply hP h,
        Option.or_assoc]
      congr 1
      by_cases hfirst : v / P = page
      · rw [if_pos hfirst, Option.some_or, if_pos (by omega)]
      · rw [if_neg hfirst, Option.none_or]
        by_cases hrest : page + 1 ≤ v / P ∧ v / P < page + 1 + n
        · rw [if_pos hrest, if_pos (by omega)]
        · rw [if_neg hrest, if_neg (by omega)]

end Apply

end PagedSpace
end RebornOS
