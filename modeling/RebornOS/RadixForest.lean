import Mathlib.Tactic
import Mathlib.Data.Set.Insert

/-!
# Radix trees sharing one store

This module is independent of the kernel.  A store maps a node and an index to
an entry, and `child` says which node an entry points to, if any.  A node is
addressed by the path of indices that leads to it from a root.

Several trees live in the same store and are changed in place.  What keeps them
apart is ownership: `owner` assigns a path to every node, and in an owned
forest (`Owned`) a walk can only arrive at a node along the path that owns it.
Two rules then cover all changes: an entry that no walk reads may change freely
(`walk_congr`), and an entry may be redirected to an unowned node
(`Owned.attach`).
-/

namespace RebornOS
namespace RadixForest

open Function

universe u v w

variable {ν : Type u} {ι : Type v} {ε : Type w} {E E' : ν → ι → ε} {n p r r' t : ν}
  {i j : ι} {e : ε} {is js : List ι}

section Store

variable [DecidableEq ν]

/-- Replace one entry. -/
def setEntry
    [DecidableEq ι] (E : ν → ι → ε) (t : ν) (i : ι) (e : ε) : ν → ι → ε :=
  fun n j => if n = t ∧ j = i then e else E n j

/-- Replace all entries of one node. -/
def setNode (E : ν → ι → ε) (t : ν) (f : ι → ε) : ν → ι → ε :=
  fun n j => if n = t then f j else E n j

@[simp] theorem setEntry_same
    [DecidableEq ι] (E : ν → ι → ε) (t : ν) (i : ι) (e : ε) :
    setEntry E t i e t i = e := by
  simp [setEntry]

theorem setEntry_of_ne
    [DecidableEq ι] (h : n ≠ t ∨ j ≠ i) : setEntry E t i e n j = E n j := by
  unfold setEntry
  rw [if_neg (by tauto)]

theorem setEntry_comm
    [DecidableEq ι] (E : ν → ι → ε) {u : ν} {d : ε} (h : t ≠ u) :
    setEntry (setEntry E t i d) u j e = setEntry (setEntry E u j e) t i d := by
  funext n k
  by_cases hn : n = t
  · subst hn
    rw [setEntry_of_ne (Or.inl h)]
    unfold setEntry
    simp [h]
  · rw [setEntry_of_ne (t := t) (Or.inl hn)]
    unfold setEntry
    simp [hn]

@[simp] theorem setNode_same
    (E : ν → ι → ε) (t : ν) (f : ι → ε) (i : ι) : setNode E t f t i = f i := by
  simp [setNode]

theorem setNode_of_ne
    {f : ι → ε} (h : n ≠ t) (j : ι) : setNode E t f n j = E n j := by
  unfold setNode
  rw [if_neg h]

end Store

section Walk

variable (child : ε → Option ν) (E : ν → ι → ε)

/-- Follow a path of indices from a node. -/
def walk : ν → List ι → Option ν
  | t, [] => some t
  | t, i :: is => (child (E t i)).bind (fun c => walk c is)

@[simp] theorem walk_nil
    (t : ν) : walk child E t [] = some t := by
  rfl

theorem walk_cons
    (t : ν) (i : ι) (is : List ι) :
    walk child E t (i :: is) =
      (child (E t i)).bind (fun c => walk child E c is) := by
  rfl

theorem walk_append
    (t : ν) (is js : List ι) :
    walk child E t (is ++ js) =
      (walk child E t is).bind (fun c => walk child E c js) := by
  induction is generalizing t with
  | nil =>
      rfl
  | cons i is ih =>
      rw [List.cons_append, walk_cons, walk_cons, Option.bind_assoc]
      exact Option.bind_congr (fun c _ => ih c)

theorem walk_concat
    (t : ν) (is : List ι) (i : ι) :
    walk child E t (is ++ [i]) =
      (walk child E t is).bind (fun c => child (E c i)) := by
  rw [walk_append]
  refine Option.bind_congr (fun c _ => ?_)
  rw [walk_cons]
  cases child (E c i) <;> rfl

variable {child E}

/--
Walks are unchanged when the entries they read still point to the same nodes.
The induction extends the path at its end, so the node whose entry is read is
the one the original walk reaches.
-/
theorem walk_congr
    {P : List ι → Prop} (hclosed : ∀ is js, P (is ++ js) → P is)
    (hsame : ∀ is i c, P (is ++ [i]) → walk child E r is = some c →
      child (E' c i) = child (E c i)) (is : List ι) (hok : P is) :
    walk child E' r is = walk child E r is := by
  induction is using List.reverseRecOn with
  | nil =>
      rfl
  | append_singleton is i ih =>
      rw [walk_concat, walk_concat, ih (hclosed is [i] hok)]
      exact Option.bind_congr (fun c hc => hsame is i c hok hc)

end Walk

section Ownership

variable {child : ε → Option ν}

/-- A walk from a root arrives at a node only along the path that owns it. -/
def Owned (child : ε → Option ν) (Ok : List ι → Prop) (E : ν → ι → ε)
    (owner : ν → Option (ν × List ι)) (roots : Set ν) : Prop :=
  ∀ r is c, r ∈ roots → Ok is → walk child E r is = some c →
    owner c = some (r, is)

variable {Ok : List ι → Prop} {owner : ν → Option (ν × List ι)}
  {roots : Set ν}

/-- Two walks that meet are the same walk. -/
theorem Owned.unique
    (h : Owned child Ok E owner roots) {c : ν} (hr : r ∈ roots) (hr' : r' ∈ roots)
    (his : Ok is) (hjs : Ok js) (hw : walk child E r is = some c)
    (hw' : walk child E r' js = some c) : r = r' ∧ is = js := by
  have hpath := (h r is c hr his hw).symm.trans (h r' js c hr' hjs hw')
  simpa using hpath

/-- Ownership survives changes that no walk reads. -/
theorem Owned.congr
    (hclosed : ∀ is js, Ok (is ++ js) → Ok is) (h : Owned child Ok E owner roots)
    (hsame : ∀ r is i c, r ∈ roots → Ok (is ++ [i]) →
      walk child E r is = some c → child (E' c i) = child (E c i)) :
    Owned child Ok E' owner roots := by
  intro r is c hr his hw
  rw [walk_congr hclosed (fun is i c => hsame r is i c hr) is his] at hw
  exact h r is c hr his hw

section Attach

variable [DecidableEq ν]

/-- Redirecting one entry leaves every walk alone that does not pass it. -/
theorem Owned.walk_setEntry
    [DecidableEq ι] (hclosed : ∀ is js, Ok (is ++ js) → Ok is)
    (h : Owned child Ok E owner roots) (howner : owner t = some (r, is))
    (hr' : r' ∈ roots) (hjs : Ok js) (hpass : r' = r → ¬ is ++ [i] <+: js) :
    walk child (setEntry E t i e) r' js = walk child E r' js := by
  refine
    walk_congr (P := fun js => Ok js ∧ (r' = r → ¬ is ++ [i] <+: js))
      ?_ ?_ js ⟨hjs, hpass⟩
  · rintro ks ls ⟨hok, hno⟩
    exact
      ⟨hclosed ks ls hok, fun hrr hpre =>
        hno hrr (hpre.trans (List.prefix_append ks ls))⟩
  · rintro ks k c ⟨hok, hno⟩ hwalk
    have hc := h r' ks c hr' (hclosed ks [k] hok) hwalk
    rw [setEntry_of_ne]
    by_contra hboth
    push Not at hboth
    obtain ⟨rfl, rfl⟩ := hboth
    rw [howner] at hc
    simp only [Option.some.injEq, Prod.mk.injEq] at hc
    obtain ⟨rfl, rfl⟩ := hc
    exact hno rfl (List.prefix_refl _)

section Redirect

variable [DecidableEq ι]

/-- A walk through a redirected entry ends at the new node. -/
theorem Owned.walk_redirected
    (hclosed : ∀ is js, Ok (is ++ js) → Ok is)
    (h : Owned child Ok E owner roots)
    (hr : r ∈ roots) (hwalk : walk child E r is = some t)
    (hp : owner p = none) (hchild : child e = some p)
    (hleaf : ∀ k, Ok (is ++ [i] ++ [k]) → child (E p k) = none)
    (ks : List ι) (hok : Ok (is ++ [i] ++ ks)) :
    walk child (setEntry E t i e) r (is ++ [i] ++ ks) =
      if ks = [] then some p else none := by
  have hokis : Ok is := hclosed is [i] (hclosed _ ks hok)
  have howner := h r is t hr hokis hwalk
  have hpt : p ≠ t := by
    rintro rfl
    rw [hp] at howner
    cases howner
  have hstill : walk child (setEntry E t i e) r is = some t := by
    rw [h.walk_setEntry hclosed howner hr hokis]
    · exact hwalk
    · intro _ hpre
      have hlen := hpre.length_le
      simp at hlen
  have hnew : walk child (setEntry E t i e) r (is ++ [i]) = some p := by
    rw [walk_concat, hstill]
    simpa using hchild
  rw [walk_append, hnew, Option.bind_some]
  cases ks with
  | nil =>
      rfl
  | cons k ks =>
      have hkok : Ok (is ++ [i] ++ [k]) := by
        apply hclosed _ ks
        simpa using hok
      rw [walk_cons, setEntry_of_ne (Or.inl hpt), hleaf k hkok]
      rfl

/-- Redirecting one entry to an unowned node whose own entries lead nowhere. -/
theorem Owned.attach
    (hclosed : ∀ is js, Ok (is ++ js) → Ok is)
    (h : Owned child Ok E owner roots)
    (hr : r ∈ roots) (hwalk : walk child E r is = some t)
    (hok : Ok (is ++ [i]))
    (hp : owner p = none) (hchild : child e = some p)
    (hleaf : ∀ k, Ok (is ++ [i] ++ [k]) → child (E p k) = none) :
    Owned child Ok (setEntry E t i e)
      (update owner p (some (r, is ++ [i]))) roots := by
  have howner := h r is t hr (hclosed is [i] hok) hwalk
  intro r' js c hr' hjs hw
  by_cases hpass : r' = r ∧ is ++ [i] <+: js
  · obtain ⟨rfl, ks, rfl⟩ := hpass
    rw [h.walk_redirected hclosed hr hwalk hp hchild hleaf ks hjs] at hw
    split_ifs at hw with hks
    simp only [Option.some.injEq] at hw
    rw [← hw, hks]
    simp
  · rw [h.walk_setEntry hclosed howner hr' hjs
      (fun hrr hpre => hpass ⟨hrr, hpre⟩)] at hw
    have hc := h r' js c hr' hjs hw
    have hcp : c ≠ p := by
      rintro rfl
      rw [hp] at hc
      cases hc
    rw [update_of_ne hcp]
    exact hc

end Redirect

/-- A new root whose entries lead nowhere. -/
theorem Owned.addRoot
    (hclosed : ∀ is js, Ok (is ++ js) → Ok is) (h : Owned child Ok E owner roots)
    (hp : owner p = none) (hleaf : ∀ k, Ok [k] → child (E p k) = none) :
    Owned child Ok E (update owner p (some (p, [])))
      (insert p roots) := by
  intro r is c hr his hw
  rcases Set.mem_insert_iff.mp hr with rfl | hr
  · cases is with
    | nil =>
        simp only [walk_nil, Option.some.injEq] at hw
        rw [← hw]
        simp
    | cons k ks =>
        rw [walk_cons, hleaf k (hclosed [k] ks his)] at hw
        cases hw
  · have hc := h r is c hr his hw
    have hcp : c ≠ p := by
      rintro rfl
      rw [hp] at hc
      cases hc
    rw [update_of_ne hcp]
    exact hc

end Attach

end Ownership

end RadixForest
end RebornOS
