import Mathlib.Data.List.TakeWhile

/-!
# Blocks of a list

This module is independent of the kernel.  `blocks sep l` are the nonempty parts
of `l` between separators.  `fitting limit used bs` are the leading blocks that
keep a running total below a limit; it is the longest prefix of `bs` that does.
-/

namespace RebornOS
namespace ListBlocks

universe u

variable {α : Type u}

section Separators

variable [BEq α] {sep : α}

/-- The nonempty parts between separators. -/
def blocks (sep : α) (l : List α) : List (List α) :=
  (l.splitOn sep).filter (fun b => !b.isEmpty)

@[simp] theorem blocks_nil : blocks sep [] = [] := by
  simp [blocks, List.splitOn]

variable [LawfulBEq α]

/-- Leading separators do not count. -/
@[simp] theorem blocks_cons_sep
    (l : List α) : blocks sep (sep :: l) = blocks sep l := by
  have hsplit :=
    @List.splitOnP_append_cons_of_forall_mem α (fun x => x == sep) [] (by simp)
      sep (by simp) l
  simp only [List.nil_append] at hsplit
  simp [blocks, List.splitOn, hsplit]

/-- A list without separators is one block. -/
theorem blocks_of_not_mem
    {w : List α} (hsep : sep ∉ w) (hne : w ≠ []) : blocks sep w = [w] := by
  have hsplit : w.splitOnP (fun x => x == sep) = [w] := by
    refine List.splitOnP_eq_singleton (fun x hx => ?_)
    rw [beq_eq_false_iff_ne]
    rintro rfl
    exact hsep hx
  simp [blocks, List.splitOn, hsplit, hne]

/-- The block in front of a separator. -/
theorem blocks_append_sep
    {w : List α} (hsep : sep ∉ w) (hne : w ≠ []) (l : List α) :
    blocks sep (w ++ sep :: l) = w :: blocks sep l := by
  have hsplit : (w ++ sep :: l).splitOnP (fun x => x == sep) =
      w :: l.splitOnP (fun x => x == sep) := by
    refine List.splitOnP_append_cons_of_forall_mem (fun x hx => ?_) sep (by simp) l
    rw [beq_eq_false_iff_ne]
    rintro rfl
    exact hsep hx
  simp [blocks, List.splitOn, hsplit, hne]

/-- A first block, up to a separator or the end. -/
theorem blocks_append
    {w l : List α} (hsep : sep ∉ w) (hne : w ≠ [])
    (hl : ∀ c, l.head? = some c → c = sep) :
    blocks sep (w ++ l) = w :: blocks sep l := by
  cases l with
  | nil =>
      simpa using blocks_of_not_mem hsep hne
  | cons c l =>
      obtain rfl : c = sep := hl c rfl
      rw [blocks_append_sep hsep hne, blocks_cons_sep]

/-- Skipping the leading separators changes nothing. -/
theorem blocks_dropWhile
    (l : List α) : blocks sep (l.dropWhile (fun c => c == sep)) = blocks sep l := by
  induction l with
  | nil =>
      rfl
  | cons a l ih =>
      by_cases ha : a = sep
      · subst ha
        simpa using ih
      · simp [ha]

end Separators

section Prefixes

variable {limit used : Nat} {bs : List (List α)}

/-- The leading blocks that keep the total below the limit. -/
def fitting (limit : Nat) : Nat → List (List α) → List (List α)
  | _, [] => []
  | used, b :: bs =>
      if used + b.length < limit then
        b :: fitting limit (used + b.length) bs
      else
        []

@[simp] theorem fitting_nil : fitting limit used ([] : List (List α)) = [] := by
  rfl

theorem fitting_cons_of_lt
    {b : List α} (h : used + b.length < limit) :
    fitting limit used (b :: bs) = b :: fitting limit (used + b.length) bs := by
  simp [fitting, h]

theorem fitting_cons_of_le
    {b : List α} (h : limit ≤ used + b.length) : fitting limit used (b :: bs) = [] := by
  simp [fitting, Nat.not_lt.mpr h]

/-- They are a prefix. -/
theorem fitting_isPrefix
    (limit used : Nat) (bs : List (List α)) : fitting limit used bs <+: bs := by
  induction bs generalizing used with
  | nil =>
      simp
  | cons b bs ih =>
      by_cases hfits : used + b.length < limit
      · rw [fitting_cons_of_lt hfits]
        simpa using ih (used + b.length)
      · rw [fitting_cons_of_le (Nat.not_lt.mp hfits)]
        simp

/-- Together they stay below the limit. -/
theorem fitting_length
    (hused : used < limit) (bs : List (List α)) :
    used + (fitting limit used bs).flatten.length < limit := by
  induction bs generalizing used with
  | nil =>
      simpa using hused
  | cons b bs ih =>
      by_cases hfits : used + b.length < limit
      · rw [fitting_cons_of_lt hfits]
        simpa [Nat.add_assoc] using ih hfits
      · rw [fitting_cons_of_le (Nat.not_lt.mp hfits)]
        simpa using hused

/-- No longer prefix does. -/
theorem fitting_longest
    {pre : List (List α)} (hpre : pre <+: bs)
    (hfits : used + pre.flatten.length < limit) :
    pre.length ≤ (fitting limit used bs).length := by
  induction bs generalizing used pre with
  | nil =>
      rw [List.prefix_nil.mp hpre]
      simp
  | cons b bs ih =>
      cases pre with
      | nil =>
          simp
      | cons b' pre =>
          obtain ⟨rfl, htail⟩ := List.cons_prefix_cons.mp hpre
          simp only [List.flatten_cons, List.length_append] at hfits
          rw [fitting_cons_of_lt (by omega)]
          simpa using ih htail (by omega)

end Prefixes

end ListBlocks
end RebornOS
