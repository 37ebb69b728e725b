import RebornOS.VmmTables

/-!
# The invariant of all address spaces

Every address space is a four-level tree whose slot 0 is the identity map that
all spaces share, and whose other slots are private.  `SpacesInv` states, for
all trees at once, that the private parts form an owned forest, that every
private table entry above the leaves is exactly `table | 7`, and that the
shared tables hold the identity map and belong to nobody.

`D` is the length of the paths that are owned: 3 when leaves may map any
physical page, 4 when the mapped frames are owned as well.

The second half of the module reads the hardware's translation off the
invariant.
-/

namespace RebornOS
namespace Vmm

open ByteStore WordBits PageWalk RadixForest

variable {D i k r v : Nat} {is : List (Fin 512)}

/-- Paths of at most `D` indices that do not start in the shared slot. -/
def OkPath (D : Nat) (is : List (Fin 512)) : Prop :=
  is.length ≤ D ∧ is.head? ≠ some 0

theorem okPath_of_append
    (is js : List (Fin 512)) (h : OkPath D (is ++ js)) : OkPath D is := by
  obtain ⟨hlen, hhead⟩ := h
  rw [List.length_append] at hlen
  refine ⟨by omega, ?_⟩
  cases is with
  | nil =>
      simp
  | cons i is =>
      simpa using hhead

theorem OkPath.mono
    {D' : Nat} (h : OkPath D is) (hlen : is.length ≤ D') : OkPath D' is :=
  ⟨hlen, h.2⟩

/-- Ownership of the private tables and the frames of the identity map. -/
structure Ghost where
  owner : Nat → Option (Nat × List (Fin 512))
  pdpt : Nat
  pd : Nat → Nat

/-- The tables of the identity map. -/
def Ghost.Shared (g : Ghost) (n : Nat) : Prop :=
  n = g.pdpt ∨ ∃ k, k < 4 ∧ n = g.pd k

/-- Frames whose entries the walk of some space may read. -/
def Ghost.Table (g : Ghost) (n : Nat) : Prop :=
  g.Shared n ∨ ∃ r is, g.owner n = some (r, is) ∧ is.length ≤ 3

/-- The invariant of all address spaces with the given root frames. -/
structure SpacesInv (D : Nat) (E : Nat → Fin 512 → Nat) (roots : Set Nat)
    (held : Set Nat) (g : Ghost) : Prop where
  depth : 3 ≤ D
  owned : Owned childOf (OkPath D) E g.owner roots
  interior :
    ∀ r is c i, r ∈ roots → OkPath 3 (is ++ [i]) →
      walk childOf E r is = some c → isPresent (E c i) = true →
        ∃ n, n < 2 ^ 40 ∧ E c i = tableEntry n
  owner_held : ∀ n, g.owner n ≠ none → n ∈ held
  root_lt : ∀ r, r ∈ roots → r < 2 ^ 40
  shared_slot : ∀ r, r ∈ roots → E r 0 = tableEntry g.pdpt
  pdpt_low : ∀ i : Fin 512, i.val < 4 → E g.pdpt i = tableEntry (g.pd i.val)
  pdpt_high : ∀ i : Fin 512, 4 ≤ i.val → isPresent (E g.pdpt i) = false
  directory : ∀ k (i : Fin 512), k < 4 → E (g.pd k) i = identityEntry k i.val
  shared_free : ∀ n, g.Shared n → n ∈ held ∧ g.owner n = none ∧ n < 2 ^ 40

namespace SpacesInv

variable {D : Nat} {E E' : Nat → Fin 512 → Nat} {roots held held' : Set Nat}
  {g : Ghost}

section

variable (h : SpacesInv D E roots held g)
include h

theorem ok_of_three
    {is : List (Fin 512)} (hok : OkPath 3 is) : OkPath D is :=
  hok.mono (le_trans hok.1 h.depth)

/-- Forget the ownership of the mapped frames. -/
theorem three : SpacesInv 3 E roots held g :=
  { h with
    depth := le_refl 3
    owned := fun r is c hr hok hw => h.owned r is c hr (h.ok_of_three hok) hw }

/-- A walk inside the owned part reaches a table. -/
theorem table_of_walk
    {r c : Nat} {is : List (Fin 512)} (hr : r ∈ roots) (hok : OkPath 3 is)
    (hw : walk childOf E r is = some c) : g.Table c :=
  Or.inr ⟨r, is, h.owned r is c hr (h.ok_of_three hok) hw, hok.1⟩

theorem owner_root
    {r : Nat} (hr : r ∈ roots) : g.owner r = some (r, []) :=
  h.owned r [] r hr ⟨by simp, by simp⟩ rfl

/-- Frames that are not held are not tables. -/
theorem not_table_of_not_held
    {n : Nat} (hn : n ∉ held) : ¬ g.Table n := by
  rintro (hs | ⟨r, is, ho, _⟩)
  · exact hn (h.shared_free n hs).1
  · exact hn (h.owner_held n (by rw [ho]; simp))

theorem owner_of_not_held
    {n : Nat} (hn : n ∉ held) : g.owner n = none := by
  by_contra hne
  exact hn (h.owner_held n hne)

end

/-- Reading a path of at most `D` indices only reads tables, if `D ≤ 4`. -/
theorem length_le_three
    (hD : D ≤ 4) {is : List (Fin 512)} {i : Fin 512}
    (hok : OkPath D (is ++ [i])) : OkPath 3 is := by
  have hlen := hok.1
  rw [List.length_append, List.length_singleton] at hlen
  exact (okPath_of_append is [i] hok).mono (by omega)

/-- The invariant only depends on the entries of tables. -/
theorem congr
    (hD : D ≤ 4) (h : SpacesInv D E roots held g) (hheld : held ⊆ held')
    (hsame : ∀ n, g.Table n → E' n = E n) : SpacesInv D E' roots held' g := by
  have hread : ∀ r is i c, r ∈ roots → OkPath D (is ++ [i]) →
      walk childOf E r is = some c → E' c i = E c i := by
    intro r is i c hr hok hw
    rw [hsame c (h.table_of_walk hr (length_le_three hD hok) hw)]
  have hwalk : ∀ r is, r ∈ roots → OkPath D is →
      walk childOf E' r is = walk childOf E r is := by
    intro r is hr hok
    refine walk_congr okPath_of_append ?_ is hok
    intro ks k c hks hw
    rw [hread r ks k c hr hks hw]
  have hshared : ∀ n, g.Shared n → E' n = E n :=
    fun n hn => hsame n (Or.inl hn)
  have hpdpt := hshared g.pdpt (Or.inl rfl)
  exact
    { depth := h.depth
      owned := h.owned.congr okPath_of_append (fun r is i c hr hok hw => by
        rw [hread r is i c hr hok hw])
      interior := by
        intro r is c i hr hok hw hp
        have hokD := h.ok_of_three hok
        rw [hwalk r is hr (okPath_of_append is [i] hokD)] at hw
        rw [hread r is i c hr hokD hw] at hp ⊢
        exact h.interior r is c i hr hok hw hp
      owner_held := fun n hn => hheld (h.owner_held n hn)
      root_lt := h.root_lt
      shared_slot := by
        intro r hr
        have hroot : g.Table r := Or.inr ⟨r, [], h.owner_root hr, by simp⟩
        rw [hsame r hroot]
        exact h.shared_slot r hr
      pdpt_low := by
        rw [hpdpt]
        exact h.pdpt_low
      pdpt_high := by
        rw [hpdpt]
        exact h.pdpt_high
      directory := by
        intro k i hk
        rw [hshared (g.pd k) (Or.inr ⟨k, hk, rfl⟩)]
        exact h.directory k i hk
      shared_free := fun n hn =>
        ⟨hheld (h.shared_free n hn).1, (h.shared_free n hn).2⟩ }

end SpacesInv

section Leaves

/-- The present leaf entry at the end of a path. -/
def leafAt (E : Nat → Fin 512 → Nat) (r : Nat) (is : List (Fin 512))
    (i : Fin 512) : Option Nat :=
  (walk childOf E r is).bind
    (fun t => if isPresent (E t i) then some (E t i) else none)

/-- The leaves of a space only depend on the entries of tables. -/
theorem SpacesInv.leafAt_congr
    {E E' : Nat → Fin 512 → Nat} {roots held : Set Nat} {g : Ghost}
    (h : SpacesInv D E roots held g) (hsame : ∀ n, g.Table n → E' n = E n)
    {js : List (Fin 512)} (hr : r ∈ roots) (hjs : OkPath 3 js) (j : Fin 512) :
    leafAt E' r js j = leafAt E r js j := by
  have hwalk : walk childOf E' r js = walk childOf E r js := by
    refine walk_congr okPath_of_append ?_ js hjs
    intro ks k c hks hw
    rw [hsame c (h.table_of_walk hr (okPath_of_append ks [k] hks) hw)]
  unfold leafAt
  rw [hwalk]
  refine Option.bind_congr (fun c hc => ?_)
  rw [hsame c (h.table_of_walk hr hjs hc)]

/-- The path of an address through the three table levels. -/
def pathOf (v : Nat) : List (Fin 512) := [index v 39, index v 30, index v 21]

theorem okPath_pathOf
    (hv : index v 39 ≠ 0) : OkPath 3 (pathOf v) := by
  refine ⟨by simp [pathOf], ?_⟩
  simpa [pathOf] using hv

/-- Addresses of one page take the same path. -/
theorem pathOf_eq_of_page_eq
    {w : Nat} (hpage : v / 4096 = w / 4096) : pathOf v = pathOf w := by
  unfold pathOf
  rw [index_eq_of_page_eq hpage (show 12 ≤ 39 by decide),
    index_eq_of_page_eq hpage (show 12 ≤ 30 by decide),
    index_eq_of_page_eq hpage (show 12 ≤ 21 by decide)]

/-- No leaf below a table that is missing. -/
theorem leafAt_of_walk_none
    {E : Nat → Fin 512 → Nat} {i : Fin 512} (hw : walk childOf E r is = none)
    (his : is <+: pathOf v) : leafAt E r (pathOf v) i = none := by
  obtain ⟨js, hjs⟩ := his
  unfold leafAt
  rw [← hjs, walk_append, hw]
  rfl

/-- Rights that do not restrict anything. -/
def fullRights : Rights :=
  { user := true, writable := true, noExecute := false }

@[simp] theorem fullRights_meet
    (a : Rights) : fullRights.meet a = a := by
  simp [fullRights, Rights.meet]

/-- What the identity map does with an address of the shared slot. -/
def lowTranslation (v : Nat) : Option Translation :=
  if v < 2 ^ 32 then
    some
      { phys := v
        rights :=
          { user := decide (v < kernelExecLimit)
            writable := true
            noExecute := decide (kernelExecLimit ≤ v) } }
  else
    none

/-- The identity entries in arithmetic form. -/
theorem identityEntry_eq
    (hk : k < 4) (hi : i < 512) :
    identityEntry k i =
      k * 2 ^ 30 + i * 2 ^ 21 + 131 +
        (if k * 2 ^ 30 + i * 2 ^ 21 < 2 ^ 22 then 4 else 2 ^ 63) := by
  have hlow : k * 2 ^ 30 + i * 2 ^ 21 ||| 135 =
      k * 2 ^ 30 + i * 2 ^ 21 + 135 :=
    lor_low_field (k := 21) (by omega) (by decide)
  have hhigh : k * 2 ^ 30 + i * 2 ^ 21 ||| (131 + 2 ^ 63) =
      k * 2 ^ 30 + i * 2 ^ 21 + 131 + 2 ^ 63 := by
    have hflags : k * 2 ^ 30 + i * 2 ^ 21 ||| 131 =
        k * 2 ^ 30 + i * 2 ^ 21 + 131 :=
      lor_low_field (k := 21) (by omega) (by decide)
    have htop : 2 ^ 63 ||| (k * 2 ^ 30 + i * 2 ^ 21 + 131) =
        2 ^ 63 + (k * 2 ^ 30 + i * 2 ^ 21 + 131) :=
      lor_low_field (k := 63) (by decide) (by omega)
    rw [show (131 + 2 ^ 63 : Nat) = 131 ||| 2 ^ 63 by decide, ← Nat.or_assoc,
      hflags, Nat.or_comm, htop]
    omega
  have huser : pagePresent ||| pageWritable ||| pageHuge ||| pageUser = 135 := by
    decide
  have hnx : pagePresent ||| pageWritable ||| pageHuge ||| pageNx =
      131 + 2 ^ 63 := by
    decide
  unfold identityEntry gib hugePageSize kernelExecLimit
  dsimp only
  rw [huser, hnx, show 2 * 1024 * 1024 = 2 ^ 21 from rfl,
    show 4 * 1024 * 1024 = 2 ^ 22 from rfl]
  split_ifs
  · rw [hlow]
  · rw [hhigh]

/-- The identity leaf of an address below 4 GiB. -/
theorem leaf_identityEntry
    (hv : v < 2 ^ 32) :
    isPresent (identityEntry (v / 2 ^ 30) (v / 2 ^ 21 % 512)) = true ∧
    isLarge (identityEntry (v / 2 ^ 30) (v / 2 ^ 21 % 512)) = true ∧
    some (leaf 21 fullRights
        (identityEntry (v / 2 ^ 30) (v / 2 ^ 21 % 512)) v) =
      lowTranslation v := by
  rw [identityEntry_eq (by omega) (by omega)]
  unfold isPresent isLarge leaf lowTranslation kernelExecLimit
  rw [if_pos hv, fullRights_meet]
  unfold rightsOf
  simp only [testBit_eq, decide_eq_true_eq, Option.some.injEq,
    Translation.mk.injEq, Rights.mk.injEq, decide_eq_decide]
  split_ifs <;> omega

theorem identityEntry_lt
    (hk : k < 4) (hi : i < 512) : identityEntry k i < 2 ^ 64 := by
  rw [identityEntry_eq hk hi]
  split_ifs with h
  · clear h
    omega
  · clear h
    omega

theorem identityEntry_ne_zero
    (hk : k < 4) (hi : i < 512) : identityEntry k i ≠ 0 := by
  rw [identityEntry_eq hk hi]
  split_ifs with h
  · clear h
    omega
  · clear h
    omega

end Leaves

section Translation

variable {mem : Store} {held roots : Set Nat} {g : Ghost}

variable (h : SpacesInv D (entries mem) roots held g) (hr : r ∈ roots)
include h hr

/-- Addresses of the shared slot translate by the identity map. -/
theorem SpacesInv.translate_low
    (hv : v < 2 ^ 39) : translateAddr mem (r * 4096) v = lowTranslation v := by
  have hcanon : Canonical v := Or.inl (by omega)
  have hslot : index v 39 = 0 := by
    apply Fin.ext
    simp only [index, Fin.val_zero]
    omega
  have hpdpt := (h.shared_free g.pdpt (Or.inl rfl)).2.2
  have hindex : (index v 30).val = v / 2 ^ 30 := by
    simp only [index]
    omega
  unfold translateAddr
  simp only [hcanon, not_true_eq_false, if_false, frameOf_mul (h.root_lt r hr),
    hslot, h.shared_slot r hr, isPresent_tableEntry, isLarge_tableEntry,
    Bool.true_eq_false, Bool.false_eq_true, or_self, frameOf_tableEntry hpdpt]
  by_cases hlow : v < 2 ^ 32
  · have hk : v / 2 ^ 30 < 4 := by omega
    have hpd := (h.shared_free (g.pd (v / 2 ^ 30)) (Or.inr ⟨_, hk, rfl⟩)).2.2
    obtain ⟨hpresent, hlarge, hleaf⟩ := leaf_identityEntry hlow
    rw [h.pdpt_low (index v 30) (by omega), hindex]
    simp only [isPresent_tableEntry, isLarge_tableEntry, Bool.true_eq_false,
      Bool.false_eq_true, if_false, frameOf_tableEntry hpd]
    rw [h.directory _ _ hk, rightsOf_tableEntry hpdpt, rightsOf_tableEntry hpd]
    change (if isPresent (identityEntry (v / 2 ^ 30) (v / 2 ^ 21 % 512)) = false
      then none
      else if isLarge (identityEntry (v / 2 ^ 30) (v / 2 ^ 21 % 512)) = true then
        some (leaf 21 (fullRights.meet fullRights)
          (identityEntry (v / 2 ^ 30) (v / 2 ^ 21 % 512)) v)
      else _) = _
    rw [hpresent, hlarge, if_neg (by decide), if_pos rfl, fullRights_meet, hleaf]
  · rw [h.pdpt_high (index v 30) (by omega), if_pos rfl]
    unfold lowTranslation
    rw [if_neg hlow]

/-- One level of the hardware walk above the leaves. -/
theorem SpacesInv.interior_entry
    {c : Nat} {i : Fin 512} (hok : OkPath 3 (is ++ [i]))
    (hw : walk childOf (entries mem) r is = some c) :
    (isPresent (entries mem c i) = false ∧
        walk childOf (entries mem) r (is ++ [i]) = none) ∨
    ∃ n, n < 2 ^ 40 ∧ entries mem c i = tableEntry n ∧
      walk childOf (entries mem) r (is ++ [i]) = some n := by
  by_cases hp : isPresent (entries mem c i) = true
  · obtain ⟨n, hn, he⟩ := h.interior r is c i hr hok hw hp
    refine Or.inr ⟨n, hn, he, ?_⟩
    rw [walk_concat, hw, Option.bind_some, he, childOf_tableEntry hn]
  · have hp' : isPresent (entries mem c i) = false := by simpa using hp
    refine Or.inl ⟨hp', ?_⟩
    rw [walk_concat, hw, Option.bind_some, childOf_eq_none.mpr hp']

/-- Addresses outside the shared slot translate by their leaf entry. -/
theorem SpacesInv.translate_high
    (hcanon : Canonical v) (hv : index v 39 ≠ 0) :
    translateAddr mem (r * 4096) v =
      (leafAt (entries mem) r (pathOf v) (index v 12)).map
        (fun e => leaf 12 fullRights e v) := by
  have hok : OkPath 3 (pathOf v) := okPath_pathOf hv
  have hok4 : OkPath 3 ([] ++ [index v 39]) := okPath_of_append [_] [_, _] hok
  have hok3 : OkPath 3 ([index v 39] ++ [index v 30]) :=
    okPath_of_append [_, _] [_] hok
  have hok2 : OkPath 3 ([index v 39, index v 30] ++ [index v 21]) := hok
  unfold translateAddr
  simp only [hcanon, not_true_eq_false, if_false, frameOf_mul (h.root_lt r hr)]
  rcases h.interior_entry hr hok4 rfl with ⟨hp, hw⟩ | ⟨n4, hn4, he4, hw4⟩
  · rw [hp, if_pos (Or.inl rfl), leafAt_of_walk_none hw ⟨_, rfl⟩]
    rfl
  rw [he4]
  simp only [isPresent_tableEntry, isLarge_tableEntry, Bool.true_eq_false,
    Bool.false_eq_true, or_self, if_false, frameOf_tableEntry hn4]
  rcases h.interior_entry hr hok3 hw4 with ⟨hp, hw⟩ | ⟨n3, hn3, he3, hw3⟩
  · rw [hp, if_pos rfl, leafAt_of_walk_none hw ⟨_, rfl⟩]
    rfl
  rw [he3]
  simp only [isPresent_tableEntry, isLarge_tableEntry, Bool.true_eq_false,
    Bool.false_eq_true, if_false, frameOf_tableEntry hn3]
  rcases h.interior_entry hr hok2 hw3 with ⟨hp, hw⟩ | ⟨n2, hn2, he2, hw2⟩
  · rw [hp, if_pos rfl, leafAt_of_walk_none hw ⟨[], by simp [pathOf]⟩]
    rfl
  rw [he2]
  simp only [isPresent_tableEntry, isLarge_tableEntry, Bool.true_eq_false,
    Bool.false_eq_true, if_false, frameOf_tableEntry hn2,
    rightsOf_tableEntry hn2, rightsOf_tableEntry hn3, rightsOf_tableEntry hn4]
  have hleaf : leafAt (entries mem) r (pathOf v) (index v 12) =
      if isPresent (entries mem n2 (index v 12)) then
        some (entries mem n2 (index v 12)) else none := by
    unfold leafAt
    rw [show pathOf v = [index v 39, index v 30] ++ [index v 21] from rfl, hw2]
    rfl
  rw [hleaf]
  cases hp : isPresent (entries mem n2 (index v 12)) with
  | false =>
      rfl
  | true =>
      rfl

end Translation

end Vmm
end RebornOS
