import Mathlib.Tactic

/-!
# Chains threaded through a link table

This module is independent of the kernel.  A table `next` sends the number of a
node to the number of its successor.  `Chain` relates a start value to the list
of nodes met from there up to a stop value.

A chain is determined by its start, so it cannot meet a node twice.  It depends
only on the links of its own nodes, so changes elsewhere in the table leave it
alone; and it cannot leave a set of nodes that is closed under `next`.

`Met` is about tables with cycles, too: it says which nodes are met from a start.
-/

namespace RebornOS
namespace TableChain

open Function

variable {next : Nat → Nat} {a c : Nat} {cs : List Nat}

/-- Following `next` from `a` meets the nodes of the list and then stops. -/
def Chain (next : Nat → Nat) (Node Stop : Nat → Prop) : Nat → List Nat → Prop
  | a, [] => Stop a
  | a, c :: cs => a = c ∧ Node c ∧ Chain next Node Stop (next c) cs

section Chains

variable {next' : Nat → Nat} {Node Stop : Nat → Prop}

theorem Chain.node
    (h : Chain next Node Stop a cs) (hc : c ∈ cs) : Node c := by
  induction cs generalizing a with
  | nil =>
      cases hc
  | cons b cs ih =>
      obtain ⟨_, hb, hrest⟩ := h
      rcases List.mem_cons.mp hc with rfl | hc
      · exact hb
      · exact ih hrest hc

/-- A chain started at one of its own nodes. -/
theorem Chain.suffix
    {post : List Nat} (pre : List Nat) (h : Chain next Node Stop a (pre ++ c :: post)) :
    Chain next Node Stop c (c :: post) := by
  induction pre generalizing a with
  | nil =>
      obtain ⟨rfl, hrest⟩ := h
      exact ⟨rfl, hrest⟩
  | cons b pre ih =>
      exact ih h.2.2

/-- The start determines the chain. -/
theorem Chain.unique
    (hstop : ∀ c, Node c → ¬ Stop c) {ds : List Nat} (hc : Chain next Node Stop a cs)
    (hd : Chain next Node Stop a ds) : cs = ds := by
  induction cs generalizing a ds with
  | nil =>
      cases ds with
      | nil =>
          rfl
      | cons d ds =>
          obtain ⟨rfl, hnode, _⟩ := hd
          exact absurd hc (hstop _ hnode)
  | cons c cs ih =>
      obtain ⟨rfl, hnode, hrest⟩ := hc
      cases ds with
      | nil =>
          exact absurd hd (hstop _ hnode)
      | cons d ds =>
          obtain ⟨rfl, _, hrest'⟩ := hd
          rw [ih hrest hrest']

/-- A chain meets no node twice. -/
theorem Chain.nodup
    (hstop : ∀ c, Node c → ¬ Stop c) (h : Chain next Node Stop a cs) : cs.Nodup := by
  induction cs generalizing a with
  | nil =>
      exact List.nodup_nil
  | cons c cs ih =>
      have hself : Chain next Node Stop c (c :: cs) := h.suffix []
      refine List.nodup_cons.mpr ⟨?_, ih h.2.2⟩
      intro hc
      -- a second visit would make the chain from `c` its own proper suffix
      obtain ⟨pre, post, rfl⟩ := List.append_of_mem hc
      have hagain : Chain next Node Stop c (c :: post) :=
        h.suffix (c :: pre)
      have heq := congrArg List.length (hself.unique hstop hagain)
      simp only [List.length_cons, List.length_append] at heq
      omega

/-- A chain depends only on the links of its nodes. -/
theorem Chain.congr
    (h : Chain next Node Stop a cs) (hsame : ∀ c, c ∈ cs → next' c = next c) :
    Chain next' Node Stop a cs := by
  induction cs generalizing a with
  | nil =>
      exact h
  | cons c cs ih =>
      obtain ⟨rfl, hnode, hrest⟩ := h
      refine ⟨rfl, hnode, ?_⟩
      rw [hsame a (by simp)]
      exact ih hrest (fun d hd => hsame d (List.mem_cons_of_mem _ hd))

/-- The link of a node that is not on the chain does not matter. -/
theorem chain_update_iff
    {b x : Nat} (hb : b ∉ cs) :
    Chain (update next b x) Node Stop a cs ↔ Chain next Node Stop a cs := by
  have hsame : ∀ c, c ∈ cs → update next b x c = next c := by
    intro c hc
    exact update_of_ne (ne_of_mem_of_not_mem hc hb) _ _
  exact ⟨fun h => h.congr (fun c hc => (hsame c hc).symm), fun h => h.congr hsame⟩

/-- Every link of a chain leads to another node of it or stops. -/
theorem Chain.next_mem
    (h : Chain next Node Stop a cs) (hc : c ∈ cs) : next c ∈ cs ∨ Stop (next c) := by
  obtain ⟨pre, post, rfl⟩ := List.append_of_mem hc
  have hsuffix := h.suffix pre
  cases post with
  | nil =>
      exact Or.inr hsuffix.2.2
  | cons d post =>
      refine Or.inl (List.mem_append_right _ (List.mem_cons_of_mem _ ?_))
      rw [hsuffix.2.2.1]
      exact List.mem_cons_self

/-- A chain stays inside a set that is closed under `next`. -/
theorem Chain.subset_of_closed
    {S : Set Nat} (hclosed : ∀ c, c ∈ S → Node c → next c ∈ S)
    (h : Chain next Node Stop a cs) (ha : a ∈ S) (hc : c ∈ cs) : c ∈ S := by
  induction cs generalizing a with
  | nil =>
      cases hc
  | cons b cs ih =>
      obtain ⟨rfl, hnode, hrest⟩ := h
      rcases List.mem_cons.mp hc with rfl | hc
      · exact ha
      · exact ih hrest (hclosed a ha hnode) hc

end Chains

/-- Following `next` from `a` through nodes meets the node `d`. -/
inductive Met (next : Nat → Nat) (Node : Nat → Prop) : Nat → Nat → Prop
  | here {a : Nat} :
      Node a → Met next Node a a
  | step {a d : Nat} :
      Node a → Met next Node (next a) d → Met next Node a d

section Meeting

variable {Node : Nat → Prop} {b d x : Nat}

theorem Met.start
    (h : Met next Node a d) : Node a := by
  cases h with
  | here ha =>
      exact ha
  | step ha _ =>
      exact ha

/-- A link to no node leads nowhere. -/
theorem Met.of_update
    (hx : ¬ Node x) (h : Met (update next b x) Node a d) : Met next Node a d := by
  induction h with
  | here ha =>
      exact .here ha
  | @step a d ha hrest ih =>
      by_cases hab : a = b
      · subst hab
        rw [update_self] at hrest
        exact absurd hrest.start hx
      · rw [update_of_ne hab] at ih
        exact .step ha ih

/-- What was met is still met from `a` or behind the changed link, or is its node. -/
theorem Met.update
    (h : Met next Node a d) (b x : Nat) :
    Met (update next b x) Node a d ∨
      Met (update next b x) Node (next b) d ∨ d = b := by
  induction h with
  | here ha =>
      exact Or.inl (.here ha)
  | @step a d ha _ ih =>
      rcases ih with hrest | hrest | hrest
      · by_cases hab : a = b
        · subst hab
          exact Or.inr (Or.inl hrest)
        · left
          refine .step ha ?_
          rwa [update_of_ne hab]
      · exact Or.inr (Or.inl hrest)
      · exact Or.inr (Or.inr hrest)

/-- The link of the start can be cut once it has been followed. -/
theorem met_iff
    (ha : Node a) (hx : ¬ Node x) :
    Met next Node a d ↔
      d = a ∨ Met (update next a x) Node (next a) d := by
  constructor
  · intro h
    rcases h.update a x with hcut | hrest | hsame
    · cases hcut with
      | here _ =>
          exact Or.inl rfl
      | step _ hrest =>
          rw [update_self] at hrest
          exact absurd hrest.start hx
    · exact Or.inr hrest
    · exact Or.inl hsame
  · rintro (rfl | hrest)
    · exact .here ha
    · exact .step ha (hrest.of_update hx)

end Meeting

/-- A list of distinct numbers below `n` has at most `n` members. -/
theorem length_le_of_nodup
    {n : Nat} (hnodup : cs.Nodup) (hlt : ∀ c, c ∈ cs → c < n) : cs.length ≤ n := by
  have hsub : cs ⊆ List.range n := fun c hc => List.mem_range.mpr (hlt c hc)
  have hle := (hnodup.subperm hsub).length_le
  rwa [List.length_range] at hle

/--
A sequence that follows links and stays below `n` for `n + 1` steps has met a
number twice, so it goes on for ever.
-/
theorem iterate_forever
    {P : Nat → Prop} {n : Nat} (hlt : ∀ x, P x → x < n)
    (h : ∀ i, i ≤ n → P (next^[i] a)) (i : Nat) : P (next^[i] a) := by
  -- two of the first `n + 1` numbers are equal
  have hrepeat : ∃ j k, j < k ∧ k ≤ n ∧ next^[j] a = next^[k] a := by
    by_contra hinj
    push Not at hinj
    have hnodup : ((List.range (n + 1)).map (fun i => next^[i] a)).Nodup := by
      refine (List.nodup_map_iff_inj_on List.nodup_range).mpr ?_
      intro j hj k hk hsame
      rw [List.mem_range] at hj hk
      rcases Nat.lt_trichotomy j k with hlt | heq | hlt
      · exact absurd hsame (hinj j k hlt (by omega))
      · exact heq
      · exact absurd hsame.symm (hinj k j hlt (by omega))
    have hle := length_le_of_nodup hnodup (n := n) (fun c hc => by
      obtain ⟨i, hi, rfl⟩ := List.mem_map.mp hc
      exact hlt _ (h i (Nat.le_of_lt_succ (List.mem_range.mp hi))))
    simp at hle
  obtain ⟨j, k, hjk, hkn, hsame⟩ := hrepeat
  induction i using Nat.strong_induction_on with
  | _ i ih =>
      by_cases hi : i ≤ n
      · exact h i hi
      · have hback : next^[i] a = next^[i - k + j] a := by
          rw [iterate_add_apply, hsame, ← iterate_add_apply,
            Nat.sub_add_cancel (by omega)]
        rw [hback]
        exact ih (i - k + j) (by omega)

end TableChain
end RebornOS
