import Mathlib.Data.List.TakeWhile
import RebornOS.Fat16

/-!
# Short names and path components

`format_83` maps ASCII letters to upper case and otherwise keeps the bytes of
the name, so names that differ only in case get the same eleven bytes.  A name
without a slash and of at most twelve bytes is a path with one component.
-/

namespace RebornOS
namespace Fat16

variable {k : UInt8} {a b path : List UInt8}

section Letters

/-- Only lower case letters change, and they become upper case letters. -/
theorem upper_eq_iff
    {c : UInt8} (hk : k < 0x41 ∨ 0x7A < k) : upper c = k ↔ c = k := by
  unfold upper
  split_ifs with hc
  · grind
  · rfl

/-- Two names that differ only in the case of ASCII letters. -/
def CaseVariant (a b : List UInt8) : Prop := a.map upper = b.map upper

theorem CaseVariant.length_eq
    (h : CaseVariant a b) : a.length = b.length := by
  have hlen := congrArg List.length h
  simpa using hlen

/-- Bytes that are not letters stay where they are. -/
theorem CaseVariant.mem_iff
    (h : CaseVariant a b) (hk : k < 0x41 ∨ 0x7A < k) : k ∈ a ↔ k ∈ b := by
  have hmap : ∀ l : List UInt8, k ∈ l ↔ k ∈ l.map upper := by
    intro l
    rw [List.mem_map]
    constructor
    · intro hl
      exact ⟨k, hl, (upper_eq_iff hk).mpr rfl⟩
    · rintro ⟨c, hc, heq⟩
      rwa [(upper_eq_iff hk).mp heq] at hc
  rw [hmap a, h, ← hmap b]

end Letters

section Format

theorem padded_length
    (n : Nat) (bytes : List UInt8) : (padded n bytes).length = n := by
  simp only [padded, List.length_append, List.length_take, List.length_replicate]
  omega

/-- A short name has eleven bytes. -/
theorem format83_length
    (name : List UInt8) : (format83 name).length = 11 := by
  simp only [format83, List.length_append, padded_length]

/-- `format_83` sees only the upper case form of a name. -/
theorem format83_eq
    (name : List UInt8) :
    format83 name =
      padded 8 ((name.map upper).takeWhile (fun c => c ≠ 0x2E)) ++
        padded 3 (((name.map upper).dropWhile (fun c => c ≠ 0x2E)).drop 1) := by
  have hdot : (fun c : UInt8 => decide (c ≠ 0x2E)) ∘ upper =
      fun c => decide (c ≠ 0x2E) := by
    funext c
    simp only [Function.comp_apply, decide_eq_decide]
    exact not_congr (upper_eq_iff (Or.inl (by decide)))
  rw [List.takeWhile_map, List.dropWhile_map, hdot]
  simp only [format83, List.map_drop]

/-- Case variants have the same short name. -/
theorem CaseVariant.format83_eq
    (h : CaseVariant a b) : format83 a = format83 b := by
  rw [Fat16.format83_eq a, Fat16.format83_eq b, h]

/-- The first byte of a short name: a space or the first byte of the base. -/
theorem format83_head
    (name : List UInt8) :
    (format83 name).headD 0 =
      ((name.takeWhile (fun c => c ≠ 0x2E)).map upper).headD 0x20 := by
  simp only [format83]
  cases name.takeWhile (fun c => c ≠ 0x2E) with
  | nil =>
      rfl
  | cons c cs =>
      rfl

/-- A short name that starts with `k` comes from a name whose base does. -/
theorem mem_of_format83_head
    {name : List UInt8} (hk : k < 0x41 ∨ 0x7A < k) (hspace : k ≠ 0x20)
    (h : (format83 name).headD 0 = k) : k ∈ name.takeWhile (fun c => c ≠ 0x2E) := by
  rw [format83_head] at h
  cases hbase : name.takeWhile (fun c => c ≠ 0x2E) with
  | nil =>
      rw [hbase] at h
      exact absurd h.symm hspace
  | cons c cs =>
      rw [hbase] at h
      have hc : c = k := (upper_eq_iff hk).mp h
      rw [hc]
      exact List.mem_cons_self

/-- A short name never starts with a dot. -/
theorem format83_head_ne_dot
    (name : List UInt8) : (format83 name).headD 0 ≠ 0x2E := by
  intro h
  have hmem := mem_of_format83_head (Or.inl (by decide)) (by decide) h
  have hdot := List.mem_takeWhile_imp hmem
  simp at hdot

/-- Nor with the end mark of a directory. -/
theorem format83_head_ne_zero
    (name : CString) : (format83 name.bytes).headD 0 ≠ 0 := by
  intro h
  have hmem := mem_of_format83_head (Or.inl (by decide)) (by decide) h
  exact name.noNul (List.takeWhile_subset _ hmem)

end Format

section Paths

variable (hslash : 0x2F ∉ path) (hlen : path.length ≤ 12)
include hslash hlen

/-- A short path without a slash is its own only component. -/
theorem component_of_plain : component path = path := by
  have hall : path.takeWhile (fun c => decide (c ≠ 0x2F)) = path := by
    rw [List.takeWhile_eq_self_iff]
    intro c hc
    simp only [decide_eq_true_eq]
    rintro rfl
    exact hslash hc
  rw [component, hall, List.take_of_length_le hlen]

theorem pathRest_of_plain : pathRest path = [] := by
  rw [pathRest, component_of_plain hslash hlen, List.drop_length]
  rfl

/-- Such a path names an entry of the root directory. -/
theorem resolveParentDir_of_plain
    {serves : Nat → Bool} {v : Volume} :
    resolveParentDir serves v path = .ok (some (0, path)) := by
  rw [resolveParentDir, resolveFrom, if_pos (pathRest_of_plain hslash hlen),
    component_of_plain hslash hlen]

end Paths

end Fat16
end RebornOS
