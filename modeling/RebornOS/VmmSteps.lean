import RebornOS.VmmSpaces

/-!
# Changes to the page tables

The three changes that the code makes to the forest of page tables, each with
its effect on the invariant and on the leaves that walks find: hanging an empty
table into a private slot, writing a leaf, and starting a new address space.
-/

namespace RebornOS
namespace Vmm

open ByteStore WordBits PageWalk RadixForest Function

/-- Frame `n` belongs to no table tree. -/
def Ghost.Unused (g : Ghost) (n : Nat) : Prop :=
  g.owner n = none ∧ ¬ g.Shared n

/-- Give frame `n` to the path `is` of root `r`. -/
def Ghost.give (g : Ghost) (n r : Nat) (is : List (Fin 512)) : Ghost :=
  { g with owner := update g.owner n (some (r, is)) }

theorem Ghost.give_owner_self
    (g : Ghost) (n r : Nat) (is : List (Fin 512)) :
    (g.give n r is).owner n = some (r, is) := by
  unfold Ghost.give
  exact update_self _ _ _

theorem Ghost.give_owner_of_ne
    {g : Ghost} {n r k : Nat} {is : List (Fin 512)} (h : k ≠ n) :
    (g.give n r is).owner k = g.owner k := by
  unfold Ghost.give
  exact update_of_ne h _ _

/-- Only the frame that was given away can become a table. -/
theorem Ghost.give_table
    {g : Ghost} {n r k : Nat} {is : List (Fin 512)}
    (h : (g.give n r is).Table k) : g.Table k ∨ k = n ∧ is.length ≤ 3 := by
  rcases h with hshared | ⟨r', js, howner, hlen⟩
  · exact Or.inl (Or.inl hshared)
  · by_cases hk : k = n
    · rw [hk, Ghost.give_owner_self, Option.some.injEq, Prod.mk.injEq] at howner
      rw [← howner.2] at hlen
      exact Or.inr ⟨hk, hlen⟩
    · rw [Ghost.give_owner_of_ne hk] at howner
      exact Or.inl (Or.inr ⟨r', js, howner, hlen⟩)

namespace SpacesInv

variable {D p r' : Nat} {js : List (Fin 512)} {E : Nat → Fin 512 → Nat}
  {held roots : Set Nat} {g : Ghost}

theorem unused_of_not_held
    (h : SpacesInv D E roots held g) {n : Nat} (hn : n ∉ held) : g.Unused n :=
  ⟨h.owner_of_not_held hn, fun hs => hn (h.shared_free n hs).1⟩

section Give

variable (r : Nat) (is : List (Fin 512))

/-- The fields that only speak about ownership, after a frame is given away. -/
theorem give_fields
    (h : SpacesInv D E roots held g) (hp : g.Unused p) (hheld : p ∈ held) :
    (∀ n, (g.give p r is).owner n ≠ none → n ∈ held) ∧
    (∀ n, (g.give p r is).Shared n →
      n ∈ held ∧ (g.give p r is).owner n = none ∧ n < 2 ^ 40) := by
  constructor
  · intro n hn
    by_cases hnp : n = p
    · rw [hnp]
      exact hheld
    · rw [Ghost.give_owner_of_ne hnp] at hn
      exact h.owner_held n hn
  · intro n hn
    have hnp : n ≠ p := by
      rintro rfl
      exact hp.2 hn
    rw [Ghost.give_owner_of_ne hnp]
    exact h.shared_free n hn

end Give

section SetEntry

variable {r t : Nat} {is : List (Fin 512)} {i : Fin 512} {e : Nat}

variable (h : SpacesInv D E roots held g)
include h

/-- A private entry is not an entry of the shared part. -/
theorem setEntry_shared
    (ht : g.owner t = some (r, is)) (hok : OkPath 4 (is ++ [i])) :
    (∀ r', r' ∈ roots → setEntry E t i e r' 0 = E r' 0) ∧
    (∀ n, g.Shared n → setEntry E t i e n = E n) := by
  constructor
  · intro r' hr'
    apply setEntry_of_ne
    by_contra hboth
    push Not at hboth
    obtain ⟨rfl, hi⟩ := hboth
    have hroot := h.owner_root hr'
    rw [ht] at hroot
    simp only [Option.some.injEq, Prod.mk.injEq] at hroot
    apply hok.2
    rw [hroot.2, ← hi]
    rfl
  · intro n hn
    funext j
    apply setEntry_of_ne
    left
    rintro rfl
    have hfree := (h.shared_free n hn).2.1
    rw [ht] at hfree
    cases hfree

/-- Walks through a private slot with an empty table end there. -/
theorem walk_attach
    (hr : r ∈ roots) (hw : walk childOf E r is = some t) (hp : g.Unused p)
    (hlt : p < 2 ^ 40) (hzero : ∀ k, E p k = 0) (ks : List (Fin 512))
    (hok : OkPath D (is ++ [i] ++ ks)) :
    walk childOf (setEntry E t i (tableEntry p)) r (is ++ [i] ++ ks) =
      if ks = [] then some p else none :=
  h.owned.walk_redirected okPath_of_append hr hw hp.1 (childOf_tableEntry hlt)
    (fun k _ => by rw [hzero k]; rfl) ks hok

theorem walk_attach_self
    (hr : r ∈ roots) (hw : walk childOf E r is = some t) (hok : OkPath 3 (is ++ [i]))
    (hp : g.Unused p) (hlt : p < 2 ^ 40) (hzero : ∀ k, E p k = 0) :
    walk childOf (setEntry E t i (tableEntry p)) r (is ++ [i]) = some p := by
  have hthrough := h.walk_attach hr hw hp hlt hzero [] (i := i) (by
    rw [List.append_nil]
    exact h.ok_of_three hok)
  rwa [List.append_nil, if_pos rfl] at hthrough

/--
Hang the empty table `p` into a private slot.
-/
theorem attach
    (hr : r ∈ roots) (hw : walk childOf E r is = some t) (hok : OkPath 3 (is ++ [i]))
    (hp : g.Unused p) (hheld : p ∈ held) (hlt : p < 2 ^ 40) (hzero : ∀ k, E p k = 0) :
    SpacesInv D (setEntry E t i (tableEntry p)) roots held
      (g.give p r (is ++ [i])) := by
  have hokD := h.ok_of_three hok
  have ht := h.owned r is t hr (okPath_of_append is [i] hokD) hw
  have hleaf : ∀ k, OkPath D (is ++ [i] ++ [k]) → childOf (E p k) = none := by
    intro k _
    rw [hzero k]
    rfl
  obtain ⟨hslot, hshared⟩ :=
    h.setEntry_shared ht (hok.mono (by have := hok.1; omega))
      (e := tableEntry p)
  obtain ⟨hownerHeld, hsharedFree⟩ :=
    h.give_fields r (is ++ [i]) hp hheld
  have hpdpt := hshared g.pdpt (Or.inl rfl)
  refine
    { depth := h.depth
      owned := h.owned.attach okPath_of_append hr hw hokD hp.1 (childOf_tableEntry hlt) hleaf
      interior := ?_
      owner_held := hownerHeld
      root_lt := h.root_lt
      shared_slot := fun r' hr' => by
        rw [hslot r' hr']
        exact h.shared_slot r' hr'
      pdpt_low := fun j hj => by
        change setEntry E t i (tableEntry p) g.pdpt j = _
        rw [hpdpt]
        exact h.pdpt_low j hj
      pdpt_high := fun j hj => by
        change isPresent (setEntry E t i (tableEntry p) g.pdpt j) = _
        rw [hpdpt]
        exact h.pdpt_high j hj
      directory := fun k j hk => by
        change setEntry E t i (tableEntry p) (g.pd k) j = _
        rw [hshared (g.pd k) (Or.inr ⟨k, hk, rfl⟩)]
        exact h.directory k j hk
      shared_free := hsharedFree }
  intro r' js c j hr' hjs hwalk hpresent
  by_cases hsame : c = t ∧ j = i
  · obtain ⟨rfl, rfl⟩ := hsame
    exact ⟨p, hlt, setEntry_same _ _ _ _⟩
  · rw [setEntry_of_ne (by tauto)] at hpresent ⊢
    have hjsD := h.ok_of_three (okPath_of_append js [j] hjs)
    by_cases hpass : r' = r ∧ is ++ [i] <+: js
    · -- past the new entry there is only the empty table
      obtain ⟨rfl, ks, rfl⟩ := hpass
      rw [h.walk_attach hr hw hp hlt hzero ks hjsD] at hwalk
      split_ifs at hwalk
      simp only [Option.some.injEq] at hwalk
      rw [← hwalk, hzero j] at hpresent
      cases hpresent
    · rw [h.owned.walk_setEntry okPath_of_append ht hr' hjsD
        (fun hrr hpre => hpass ⟨hrr, hpre⟩)] at hwalk
      exact h.interior r' js c j hr' hjs hwalk hpresent

/-- A new table is empty, so no walk finds a leaf through it. -/
theorem leafAt_attach
    (hr : r ∈ roots) (hw : walk childOf E r is = some t) (hok : OkPath 3 (is ++ [i]))
    (habsent : isPresent (E t i) = false) (hp : g.Unused p) (hlt : p < 2 ^ 40)
    (hzero : ∀ k, E p k = 0) (hr' : r' ∈ roots) (hjs : OkPath 3 js)
    (hlen : js.length = 3) (j : Fin 512) :
    leafAt (setEntry E t i (tableEntry p)) r' js j = leafAt E r' js j := by
  have hokD := h.ok_of_three hok
  have hjsD := h.ok_of_three hjs
  have ht := h.owned r is t hr (okPath_of_append is [i] hokD) hw
  have hpt : p ≠ t := by
    rintro rfl
    rw [hp.1] at ht
    cases ht
  unfold leafAt
  by_cases hpass : r' = r ∧ is ++ [i] <+: js
  · obtain ⟨rfl, ks, rfl⟩ := hpass
    have hbefore : walk childOf E r' (is ++ [i] ++ ks) = none := by
      rw [walk_append, walk_concat, hw, Option.bind_some, childOf_eq_none.mpr habsent]
      rfl
    rw [h.walk_attach hr hw hp hlt hzero ks hjsD, hbefore]
    split_ifs
    · rw [Option.bind_some, setEntry_of_ne (Or.inl hpt), hzero j]
      rfl
    · rfl
  · rw [h.owned.walk_setEntry okPath_of_append ht hr' hjsD
      (fun hrr hpre => hpass ⟨hrr, hpre⟩)]
    refine Option.bind_congr (fun c hc => ?_)
    -- a table above the leaves and a leaf table are different frames
    have hct : c ≠ t := by
      rintro rfl
      have hcowner := h.owned r' js c hr' hjsD hc
      rw [ht] at hcowner
      simp only [Option.some.injEq, Prod.mk.injEq] at hcowner
      have hislen := hok.1
      rw [List.length_append, List.length_singleton, hcowner.2] at hislen
      omega
    rw [setEntry_of_ne (Or.inl hct)]

end SetEntry

section Leaf

variable {r t : Nat} {is : List (Fin 512)} {i : Fin 512} {e : Nat}

/-- What a leaf may point to: anything, unless mapped frames are owned too. -/
def LeafOk (D : Nat) (held : Set Nat) (g : Ghost) (e : Nat) : Prop :=
  D = 3 ∨ (D = 4 ∧ ∃ p, childOf e = some p ∧ g.Unused p ∧ p ∈ held)

variable (h : SpacesInv D E roots held g) (hr : r ∈ roots)
  (hw : walk childOf E r is = some t) (hok : OkPath 3 is) (hlen : is.length = 3)
include h hr hw hok hlen

theorem walk_setLeaf
    (hr' : r' ∈ roots) (hjs : OkPath 3 js) :
    walk childOf (setEntry E t i e) r' js = walk childOf E r' js := by
  refine
    h.owned.walk_setEntry okPath_of_append
      (h.owned r is t hr (h.ok_of_three hok) hw) hr' (h.ok_of_three hjs) ?_
  intro _ hpre
  have hle := hpre.length_le
  have hjs3 := hjs.1
  rw [List.length_append, List.length_singleton] at hle
  omega

/-- Write a leaf entry. -/
theorem setLeaf
    (he : LeafOk D held g e) :
    ∃ g', SpacesInv D (setEntry E t i e) roots held g' ∧
      ∀ n, g'.Table n → g.Table n := by
  have hokD := h.ok_of_three hok
  have ht := h.owned r is t hr hokD hw
  have hok4 : OkPath 4 (is ++ [i]) := by
    refine ⟨by simp [hlen], ?_⟩
    rw [List.head?_append_of_ne_nil _ (by
      intro hnil
      rw [hnil] at hlen
      cases hlen)]
    exact hok.2
  obtain ⟨hslot, hshared⟩ := h.setEntry_shared ht hok4 (e := e)
  have hpdpt := hshared g.pdpt (Or.inl rfl)
  -- everything but the ownership of the mapped frame is the same in both cases
  have hrest : ∀ g' : Ghost, g'.pdpt = g.pdpt → g'.pd = g.pd →
      Owned childOf (OkPath D) (setEntry E t i e) g'.owner roots →
      (∀ n, g'.owner n ≠ none → n ∈ held) →
      (∀ n, g'.Shared n → n ∈ held ∧ g'.owner n = none ∧ n < 2 ^ 40) →
      SpacesInv D (setEntry E t i e) roots held g' := by
    intro g' hg hgd howned hheld hfree
    refine
      { depth := h.depth
        owned := howned
        interior := ?_
        owner_held := hheld
        root_lt := h.root_lt
        shared_slot := fun r' hr' => by
          rw [hslot r' hr', hg]
          exact h.shared_slot r' hr'
        pdpt_low := fun j hj => by
          rw [hg, hgd, hpdpt]
          exact h.pdpt_low j hj
        pdpt_high := fun j hj => by
          rw [hg, hpdpt]
          exact h.pdpt_high j hj
        directory := fun k j hk => by
          rw [hgd, hshared (g.pd k) (Or.inr ⟨k, hk, rfl⟩)]
          exact h.directory k j hk
        shared_free := hfree }
    intro r' js c j hr' hjs hwalk hpresent
    have hjs3 := okPath_of_append js [j] hjs
    rw [h.walk_setLeaf hr hw hok hlen hr' hjs3] at hwalk
    have hct : c ≠ t := by
      rintro rfl
      have hcowner := h.owned r' js c hr' (h.ok_of_three hjs3) hwalk
      rw [ht] at hcowner
      simp only [Option.some.injEq, Prod.mk.injEq] at hcowner
      have hjslen := hjs.1
      rw [List.length_append, List.length_singleton, ← hcowner.2] at hjslen
      omega
    rw [setEntry_of_ne (Or.inl hct)] at hpresent ⊢
    exact h.interior r' js c j hr' hjs hwalk hpresent
  rcases he with hD | ⟨hD, p, hchild, hp, hheld⟩
  · refine ⟨g, hrest g rfl rfl ?_ h.owner_held h.shared_free, fun _ hn => hn⟩
    intro r' js c hr' hjs hwalk
    rw [hD] at hjs
    rw [h.walk_setLeaf hr hw hok hlen hr' hjs] at hwalk
    exact h.owned r' js c hr' (h.ok_of_three hjs) hwalk
  · obtain ⟨hownerHeld, hsharedFree⟩ :=
      h.give_fields r (is ++ [i]) hp hheld
    refine
      ⟨g.give p r (is ++ [i]), hrest _ rfl rfl ?_ hownerHeld hsharedFree, ?_⟩
    · refine
        h.owned.attach okPath_of_append hr hw (by rw [hD]; exact hok4) hp.1 hchild
          ?_
      intro k hk
      have hklen := hk.1
      simp only [List.length_append, List.length_singleton] at hklen
      omega
    · exact fun n hn => (Ghost.give_table hn).resolve_right (by simp [hlen])

/-- The leaf that was written, and all the others. -/
theorem leafAt_setLeaf
    (hr' : r' ∈ roots) (hjs : OkPath 3 js) (j : Fin 512) :
    leafAt (setEntry E t i e) r' js j =
      if r' = r ∧ js = is ∧ j = i then
        if isPresent e then some e else none
      else
        leafAt E r' js j := by
  unfold leafAt
  rw [h.walk_setLeaf hr hw hok hlen hr' hjs]
  split_ifs with hsame hp
  · obtain ⟨rfl, rfl, rfl⟩ := hsame
    rw [hw, Option.bind_some, setEntry_same, if_pos hp]
  · obtain ⟨rfl, rfl, rfl⟩ := hsame
    rw [hw, Option.bind_some, setEntry_same, if_neg hp]
  · refine Option.bind_congr (fun c hc => ?_)
    have hne : c ≠ t ∨ j ≠ i := by
      by_contra hboth
      push Not at hboth
      obtain ⟨rfl, rfl⟩ := hboth
      obtain ⟨hrr, hpath⟩ :=
        h.owned.unique hr' hr (h.ok_of_three hjs) (h.ok_of_three hok) hc hw
      exact hsame ⟨hrr, hpath, rfl⟩
    rw [setEntry_of_ne hne]

end Leaf

section Root

/-- Start a new address space in the empty frame `p`. -/
theorem addRoot
    (h : SpacesInv D E roots held g) (hp : g.Unused p) (hheld : p ∈ held)
    (hlt : p < 2 ^ 40) (hzero : ∀ k, k ≠ 0 → E p k = 0)
    (hslot : E p 0 = tableEntry g.pdpt) :
    SpacesInv D E (insert p roots) held (g.give p p []) := by
  have hokK : ∀ k, OkPath D [k] → k ≠ 0 := by
    intro k hk hk0
    apply hk.2
    rw [hk0]
    rfl
  have hnone : ∀ k ks, OkPath D (k :: ks) → walk childOf E p (k :: ks) = none := by
    intro k ks hk
    rw [walk_cons, hzero k (hokK k (okPath_of_append [k] ks hk))]
    rfl
  obtain ⟨hownerHeld, hsharedFree⟩ :=
    h.give_fields p [] hp hheld
  exact
    { depth := h.depth
      owned := h.owned.addRoot okPath_of_append hp.1 (fun k hk => by
        rw [hzero k (hokK k hk)]
        rfl)
      interior := by
        intro r js c j hr hjs hw hpresent
        have hjsD := h.ok_of_three (okPath_of_append js [j] hjs)
        rcases Set.mem_insert_iff.mp hr with rfl | hr
        · cases js with
          | nil =>
              simp only [walk_nil, Option.some.injEq] at hw
              rw [← hw, hzero j (hokK j (h.ok_of_three hjs))] at hpresent
              cases hpresent
          | cons k ks =>
              rw [hnone k ks hjsD] at hw
              cases hw
        · exact h.interior r js c j hr hjs hw hpresent
      owner_held := hownerHeld
      root_lt := by
        intro r hr
        rcases Set.mem_insert_iff.mp hr with rfl | hr
        · exact hlt
        · exact h.root_lt r hr
      shared_slot := by
        intro r hr
        rcases Set.mem_insert_iff.mp hr with rfl | hr
        · exact hslot
        · exact h.shared_slot r hr
      pdpt_low := h.pdpt_low
      pdpt_high := h.pdpt_high
      directory := h.directory
      shared_free := hsharedFree }

end Root

end SpacesInv

end Vmm
end RebornOS
