import RebornOS.VmmMapPage

/-!
# `vmm_init` and `vmm_create_address_space`

Both functions allocate their tables first and link them afterwards, bottom
up.  A frame that is allocated and cleared but not linked yet is `Spare`.
`vmm_init` starts the forest with the kernel's root and the identity map;
`vmm_create_address_space` adds a root with one private page.
-/

namespace RebornOS
namespace Vmm

open ByteStore WordBits PageWalk RadixForest Fallible Function

variable {σ : Type} {roots : Set Nat} {g : Ghost}
  {D n p p0 p1 p2 p3 p4 pdpt q r t : Nat} {is js : List (Fin 512)} {i : Fin 512}
  {E : Nat → Fin 512 → Nat} {pd : Nat → Nat} {held : σ → Set Nat} {s s' : σ}
  {alloc : σ → Nat × σ} {Valid : σ → Prop} {m m' : Machine σ}

/-- A cleared frame that no table points to yet. -/
structure Spare (E : Nat → Fin 512 → Nat) (held : Set Nat) (g : Ghost)
    (p : Nat) : Prop where
  unused : g.Unused p
  held : p ∈ held
  lt : p < 2 ^ 40
  zero : ∀ k, E p k = 0

section Spares

/-- The frame that `alloc_table` returns is spare. -/
theorem SpacesInv.spare_clear
    (h : SpacesInv D E roots (held s) g) (ht : TakenFrame held s p s') :
    Spare (setNode E p (fun _ => 0)) (held s') g p :=
  { unused := h.unused_of_not_held ht.fresh
    held := ht.taken
    lt := ht.lt
    zero := fun k => setNode_same E p _ k }

/-- Taking another frame keeps a frame spare. -/
theorem Spare.clear
    (hq : Spare E (held s) g q) (ht : TakenFrame held s p s') :
    q ≠ p ∧ Spare (setNode E p (fun _ => 0)) (held s') g q := by
  have hne : q ≠ p := by
    rintro rfl
    exact ht.fresh hq.held
  exact
    ⟨hne,
      { unused := hq.unused
        held := ht.keeps hq.held
        lt := hq.lt
        zero := fun k => by
          rw [setNode_of_ne hne]
          exact hq.zero k }⟩

/-- Linking one spare frame keeps the others spare. -/
theorem Spare.attach
    {held : Set Nat} {e : Nat} (hq : Spare E held g q) (hqp : q ≠ p) (hqt : q ≠ t) :
    Spare (setEntry E t i e) held (g.give p r is) q :=
  { unused := ⟨(Ghost.give_owner_of_ne hqp).trans hq.unused.1, hq.unused.2⟩
    held := hq.held
    lt := hq.lt
    zero := fun k => by
      rw [setEntry_of_ne (Or.inl hqt)]
      exact hq.zero k }

/-- A linked spare frame is where the extended path leads. -/
theorem SpacesInv.attach_spare
    {held : Set Nat} (h : SpacesInv D E roots held g) (hr : r ∈ roots)
    (hw : walk childOf E r is = some t) (hok : OkPath 3 (is ++ [i]))
    (hp : Spare E held g p) :
    SpacesInv D (setEntry E t i (tableEntry p)) roots held
        (g.give p r (is ++ [i])) ∧
      walk childOf (setEntry E t i (tableEntry p)) r (is ++ [i]) = some p := by
  exact
    ⟨h.attach hr hw hok hp.unused hp.held hp.lt hp.zero,
      h.walk_attach_self hr hw hok hp.unused hp.lt hp.zero⟩

end Spares

section Create

/-- Cleared frames for the three tables of a new space and for its page. -/
structure Spares (E : Nat → Fin 512 → Nat) (held : Set Nat) (g : Ghost)
    (p3 p2 p1 p0 : Nat) : Prop where
  table3 : Spare E held g p3
  table2 : Spare E held g p2
  table1 : Spare E held g p1
  page : Spare E held g p0
  ne32 : p3 ≠ p2
  ne31 : p3 ≠ p1
  ne30 : p3 ≠ p0
  ne21 : p2 ≠ p1
  ne20 : p2 ≠ p0
  ne10 : p1 ≠ p0

/-- These frames, linked to the root `p4` and to each other. -/
def linked (E : Nat → Fin 512 → Nat) (p4 p3 p2 p1 p0 : Nat) : Nat → Fin 512 → Nat :=
  setEntry (setEntry (setEntry (setEntry E p1 0 (tableEntry p0)) p2 0
    (tableEntry p1)) p3 0 (tableEntry p2)) p4 1 (tableEntry p3)

/--
The bottom-up stores of `vmm_create_address_space`, as a forest: a spare root
that holds only the shared slot, three spare tables and a spare page.
-/
theorem SpacesInv.create
    {held : Set Nat} (hD : D = 3 ∨ D = 4) (h : SpacesInv D E roots held g)
    (hroot : p4 ∈ roots) (hempty : ∀ k, k ≠ 0 → E p4 k = 0)
    (hs : Spares E held g p3 p2 p1 p0) :
    ∃ g', SpacesInv D (linked E p4 p3 p2 p1 p0) roots held g' ∧
      (∀ n, g'.Table n → g.Table n ∨ n = p3 ∨ n = p2 ∨ n = p1) ∧
      ∀ r js j, r ∈ roots → OkPath 3 js → js.length = 3 →
        leafAt (linked E p4 p3 p2 p1 p0) r js j =
          if r = p4 ∧ js = [1, 0, 0] ∧ j = 0 then some (tableEntry p0)
          else leafAt E r js j := by
  obtain ⟨h3, h2, h1, h0, h32, h31, h30, h21, h20, h10⟩ := hs
  have hne : ∀ q, Spare E held g q → q ≠ p4 := by
    rintro q hq rfl
    have howner := h.owner_root hroot
    rw [hq.unused.1] at howner
    cases howner
  have h34 := hne p3 h3
  have h24 := hne p2 h2
  have h14 := hne p1 h1
  have h04 := hne p0 h0
  -- link the tables top down
  have hs2 : Spare (setEntry E p4 1 (tableEntry p3)) held
      (g.give p3 p4 ([] ++ [1])) p2 :=
    h2.attach h32.symm h24
  have hs1 : Spare
      (setEntry (setEntry E p4 1 (tableEntry p3)) p3 0 (tableEntry p2)) held
      ((g.give p3 p4 ([] ++ [1])).give p2 p4 ([] ++ [1] ++ [0])) p1 :=
    (h1.attach h31.symm h14).attach h21.symm h31.symm
  have hok₁ : OkPath 3 ([] ++ [(1 : Fin 512)]) := ⟨by simp, by decide⟩
  have hok₂ : OkPath 3 ([] ++ [(1 : Fin 512)] ++ [0]) := ⟨by simp, by decide⟩
  have hok₃ : OkPath 3 ([] ++ [(1 : Fin 512)] ++ [0] ++ [0]) :=
    ⟨by simp, by decide⟩
  obtain ⟨ha, hwa⟩ := h.attach_spare hroot (walk_nil _ _ _) hok₁ h3
  obtain ⟨hb, hwb⟩ := ha.attach_spare hroot hwa hok₂ hs2
  obtain ⟨hc, hwc⟩ := hb.attach_spare hroot hwb hok₃ hs1
  have hspare : Spare
      (setEntry (setEntry (setEntry E p4 1 (tableEntry p3)) p3 0
        (tableEntry p2)) p2 0 (tableEntry p1)) held
      (((g.give p3 p4 ([] ++ [1])).give p2 p4 ([] ++ [1] ++ [0])).give p1 p4
        ([] ++ [1] ++ [0] ++ [0])) p0 :=
    ((h0.attach h30.symm h04).attach h20.symm h30.symm).attach h10.symm h20.symm
  obtain ⟨g', hleaf, htables⟩ :=
    hc.setLeaf hroot hwc ⟨by simp, by decide⟩ rfl (i := 0)
      (e := tableEntry p0)
      (hD.imp_right (fun hD4 =>
        ⟨hD4, p0, childOf_tableEntry h0.lt, hspare.unused, hspare.held⟩))
  -- the stores commute: they go to four different frames
  rw [linked, setEntry_comm _ h34, setEntry_comm _ h24, setEntry_comm _ h14,
    setEntry_comm _ h32.symm, setEntry_comm _ h31.symm, setEntry_comm _ h21.symm]
  refine ⟨g', hleaf, ?_, ?_⟩
  · intro n hn
    rcases Ghost.give_table (htables n hn) with hn | hn
    · rcases Ghost.give_table hn with hn | hn
      · rcases Ghost.give_table hn with hn | hn
        · exact Or.inl hn
        · exact Or.inr (Or.inl hn.1)
      · exact Or.inr (Or.inr (Or.inl hn.1))
    · exact Or.inr (Or.inr (Or.inr hn.1))
  · intro r js j hr hjs hlen
    rw [hc.leafAt_setLeaf hroot hwc hok₃ rfl hr hjs j,
      hb.leafAt_attach hroot hwb hok₃ ?_ hs1.unused hs1.lt hs1.zero hr hjs hlen j,
      ha.leafAt_attach hroot hwa hok₂ ?_ hs2.unused hs2.lt hs2.zero hr hjs hlen j,
      h.leafAt_attach hroot (walk_nil _ _ _) hok₁ ?_ h3.unused h3.lt h3.zero hr hjs
        hlen j, if_pos (isPresent_tableEntry p0)]
    · rfl
    · rw [hempty 1 (by decide)]
      rfl
    · rw [setEntry_of_ne (Or.inl h34), h3.zero]
      rfl
    · rw [setEntry_of_ne (Or.inl h32.symm), setEntry_of_ne (Or.inl h24), h2.zero]
      rfl

/-- A root with nothing but the shared slot has no leaves. -/
theorem leafAt_of_empty
    (hempty : ∀ k, k ≠ 0 → E p k = 0) (hjs : OkPath 3 js) (hlen : js.length = 3)
    (j : Fin 512) : leafAt E p js j = none := by
  cases js with
  | nil =>
      cases hlen
  | cons k ks =>
      have hk : k ≠ 0 := by
        rintro rfl
        exact hjs.2 rfl
      unfold leafAt
      rw [walk_cons, hempty k hk]
      rfl

/-- The frame `p` as a root with nothing but the slot of the shared table. -/
def bareRoot (E : Nat → Fin 512 → Nat) (p pdpt : Nat) : Nat → Fin 512 → Nat :=
  setEntry (setNode E p (fun _ => 0)) p 0 (tableEntry pdpt)

theorem bareRoot_self
    {k : Fin 512} (hk : k ≠ 0) : bareRoot E p pdpt p k = 0 := by
  rw [bareRoot, setEntry_of_ne (Or.inr hk), setNode_same]

theorem bareRoot_of_ne
    (hn : n ≠ p) : bareRoot E p pdpt n = E n := by
  funext k
  rw [bareRoot, setEntry_of_ne (Or.inl hn), setNode_of_ne hn]

/-- Such a root can be made of any frame that was just taken. -/
theorem SpacesInv.bareRoot
    (hD : D ≤ 4) (h : SpacesInv D E roots (held s) g) (ht : TakenFrame held s p s') :
    SpacesInv D (Vmm.bareRoot E p g.pdpt) (insert p roots) (held s')
      (g.give p p []) := by
  refine (h.congr hD ht.keeps ?_).addRoot (h.unused_of_not_held ht.fresh) ht.taken
    ht.lt (fun k hk => bareRoot_self hk) (setEntry_same _ _ _ _)
  intro n hn
  refine bareRoot_of_ne ?_
  rintro rfl
  exact h.not_table_of_not_held ht.fresh hn

/-- It has no leaves, and those of the others are the same. -/
theorem SpacesInv.leafAt_bareRoot
    {held : Set Nat} (h : SpacesInv D E roots held g) (hp : p ∉ held)
    (hr : r ∈ insert p roots) (hjs : OkPath 3 js) (hlen : js.length = 3) (j : Fin 512) :
    leafAt (Vmm.bareRoot E p g.pdpt) r js j =
      if r = p then none else leafAt E r js j := by
  split_ifs with hrp
  · rw [hrp]
    exact leafAt_of_empty (fun k hk => bareRoot_self hk) hjs hlen j
  · refine h.leafAt_congr ?_ (Set.mem_of_mem_insert_of_ne hr hrp) hjs j
    intro n hn
    refine bareRoot_of_ne ?_
    rintro rfl
    exact h.not_table_of_not_held hp hn

/-- Four frames that were cleared one after the other. -/
def clearedFrames (E : Nat → Fin 512 → Nat) (p3 p2 p1 p0 : Nat) :
    Nat → Fin 512 → Nat :=
  setNode (setNode (setNode (setNode E p3 (fun _ => 0)) p2 (fun _ => 0)) p1
    (fun _ => 0)) p0 (fun _ => 0)

theorem clearedFrames_of_ne
    (h3 : n ≠ p3) (h2 : n ≠ p2) (h1 : n ≠ p1) (h0 : n ≠ p0) (k : Fin 512) :
    clearedFrames E p3 p2 p1 p0 n k = E n k := by
  rw [clearedFrames, setNode_of_ne h0, setNode_of_ne h1, setNode_of_ne h2,
    setNode_of_ne h3]

section Frames

variable {s₀ s₁ s₂ s₃ : σ}

/-- Taken one after the other, they are spare. -/
theorem SpacesInv.spares
    (hD : D ≤ 4) (h : SpacesInv D E roots (held s) g)
    (ht3 : TakenFrame held s p3 s₃) (ht2 : TakenFrame held s₃ p2 s₂)
    (ht1 : TakenFrame held s₂ p1 s₁) (ht0 : TakenFrame held s₁ p0 s₀) :
    SpacesInv D (clearedFrames E p3 p2 p1 p0) roots (held s₀) g ∧
      Spares (clearedFrames E p3 p2 p1 p0) (held s₀) g p3 p2 p1 p0 := by
  have hI₃ := h.clear hD ht3 (fun _ => 0)
  have hs3 := h.spare_clear ht3
  have hI₂ := hI₃.clear hD ht2 (fun _ => 0)
  obtain ⟨h32, hs3⟩ := hs3.clear ht2
  have hs2 := hI₃.spare_clear ht2
  have hI₁ := hI₂.clear hD ht1 (fun _ => 0)
  obtain ⟨h31, hs3⟩ := hs3.clear ht1
  obtain ⟨h21, hs2⟩ := hs2.clear ht1
  have hs1 := hI₂.spare_clear ht1
  obtain ⟨h30, hs3⟩ := hs3.clear ht0
  obtain ⟨h20, hs2⟩ := hs2.clear ht0
  obtain ⟨h10, hs1⟩ := hs1.clear ht0
  exact
    ⟨hI₁.clear hD ht0 (fun _ => 0), hs3, hs2, hs1, hI₁.spare_clear ht0, h32, h31, h30,
      h21, h20, h10⟩

/-- The leaves do not depend on them. -/
theorem SpacesInv.leafAt_clearedFrames
    (hD : D ≤ 4) (h : SpacesInv D E roots (held s) g) (ht3 : TakenFrame held s p3 s₃)
    (ht2 : TakenFrame held s₃ p2 s₂) (ht1 : TakenFrame held s₂ p1 s₁)
    (ht0 : TakenFrame held s₁ p0 s₀) (hr : r ∈ roots) (hjs : OkPath 3 js) (j : Fin 512) :
    leafAt (clearedFrames E p3 p2 p1 p0) r js j = leafAt E r js j := by
  have hI₃ := h.clear hD ht3 (fun _ => 0)
  have hI₂ := hI₃.clear hD ht2 (fun _ => 0)
  have hI₁ := hI₂.clear hD ht1 (fun _ => 0)
  rw [clearedFrames, hI₁.leafAt_clear ht0.fresh _ hr hjs,
    hI₂.leafAt_clear ht1.fresh _ hr hjs, hI₃.leafAt_clear ht2.fresh _ hr hjs,
    h.leafAt_clear ht3.fresh _ hr hjs]

/--
The forest of `vmm_create_address_space`: five frames taken one after the other
become a root with the shared slot, its three tables and their only leaf.
-/
theorem SpacesInv.newSpace
    {s₄ : σ} (hD : D = 3 ∨ D = 4) (h : SpacesInv D E roots (held s) g)
    (ht4 : TakenFrame held s p4 s₄) (ht3 : TakenFrame held s₄ p3 s₃)
    (ht2 : TakenFrame held s₃ p2 s₂) (ht1 : TakenFrame held s₂ p1 s₁)
    (ht0 : TakenFrame held s₁ p0 s₀) :
    ∃ g', SpacesInv D
        (linked (clearedFrames (Vmm.bareRoot E p4 g.pdpt) p3 p2 p1 p0) p4 p3 p2 p1 p0)
        (insert p4 roots) (held s₀) g' ∧
      (∀ n, g'.Table n → g.Table n ∨ n = p4 ∨ n = p3 ∨ n = p2 ∨ n = p1) ∧
      ¬ g'.Table p0 ∧
      ∀ r js j, r ∈ insert p4 roots → OkPath 3 js → js.length = 3 →
        leafAt
          (linked (clearedFrames (Vmm.bareRoot E p4 g.pdpt) p3 p2 p1 p0) p4 p3 p2 p1 p0)
          r js j =
          if r = p4 then
            if js = [1, 0, 0] ∧ j = 0 then some (tableEntry p0) else none
          else
            leafAt E r js j := by
  have hD4 : D ≤ 4 := by omega
  have hI := h.bareRoot hD4 ht4
  obtain ⟨hI₀, hs⟩ := hI.spares hD4 ht3 ht2 ht1 ht0
  have hheld3 := ht3.keeps ht4.taken
  have hheld2 := ht2.keeps hheld3
  have hne : ∀ {q s s'}, TakenFrame held s q s' → p4 ∈ held s → p4 ≠ q := by
    rintro q s s' ht hheld rfl
    exact ht.fresh hheld
  have h40 := hne ht0 (ht1.keeps hheld2)
  have hempty : ∀ j, j ≠ 0 →
      clearedFrames (Vmm.bareRoot E p4 g.pdpt) p3 p2 p1 p0 p4 j = 0 := by
    intro j hj
    rw [clearedFrames_of_ne (hne ht3 ht4.taken) (hne ht2 hheld3) (hne ht1 hheld2) h40]
    exact bareRoot_self hj
  obtain ⟨g', hg', htables, hleaves⟩ :=
    hI₀.create hD (Set.mem_insert p4 roots) hempty hs
  have htable : ∀ n, g'.Table n → g.Table n ∨ n = p4 ∨ n = p3 ∨ n = p2 ∨ n = p1 := by
    intro n hn
    rcases htables n hn with hold | hnew
    · exact (Ghost.give_table hold).imp_right (fun hroot => Or.inl hroot.1)
    · exact Or.inr (Or.inr hnew)
  refine ⟨g', hg', htable, fun hp0 => ?_, fun r js j hr hjs hlen => ?_⟩
  · rcases htable p0 hp0 with hold | heq | heq | heq | heq
    · refine h.not_table_of_not_held (fun hheld => ?_) hold
      exact ht0.fresh (ht1.keeps (ht2.keeps (ht3.keeps (ht4.keeps hheld))))
    · exact h40 heq.symm
    · exact hs.ne30 heq.symm
    · exact hs.ne20 heq.symm
    · exact hs.ne10 heq.symm
  · rw [hleaves r js j hr hjs hlen, hI.leafAt_clearedFrames hD4 ht3 ht2 ht1 ht0 hr hjs,
      h.leafAt_bareRoot ht4.fresh hr hjs hlen]
    by_cases hr4 : r = p4
    · rw [if_pos hr4, if_pos hr4]
      simp only [hr4, true_and]
    · rw [if_neg hr4, if_neg hr4, if_neg (fun hall => hr4 hall.1)]

end Frames

/-- The stores at the end of `vmm_create_address_space`. -/
def linkTables (mem : Store) (p4 p3 p2 p1 p0 : Nat) : Store :=
  writeEntry
    (writeEntry
      (writeEntry
        (writeEntry (fill mem (p0 * 4096) pmmPageSize 0) (p1 * 4096) 0
          (tableEntry p0))
        (p2 * 4096) 0 (tableEntry p1))
      (p3 * 4096) 0 (tableEntry p2))
    (p4 * 4096) 1 (tableEntry p3)

theorem entries_linkTables
    (mem : Store) (h3 : p3 < 2 ^ 40) (h2 : p2 < 2 ^ 40) (h1 : p1 < 2 ^ 40)
    (h0 : p0 < 2 ^ 40) :
    entries (linkTables mem p4 p3 p2 p1 p0) =
      linked (setNode (entries mem) p0 (fun _ => 0)) p4 p3 p2 p1 p0 := by
  rw [linked, ← entries_fill, linkTables]
  exact
    (entries_writeEntry _ p4 1 (tableEntry_lt h3)).trans
      (congrArg (fun E => setEntry E p4 1 (tableEntry p3))
        ((entries_writeEntry _ p3 0 (tableEntry_lt h2)).trans
          (congrArg (fun E => setEntry E p3 0 (tableEntry p2))
            ((entries_writeEntry _ p2 0 (tableEntry_lt h1)).trans
              (congrArg (fun E => setEntry E p2 0 (tableEntry p1))
                (entries_writeEntry _ p1 0 (tableEntry_lt h0)))))))

/-- Other frames keep their bytes. -/
theorem linkTables_of_frame_ne
    {x : Nat} (mem : Store) (h4 : x / 4096 ≠ p4) (h3 : x / 4096 ≠ p3)
    (h2 : x / 4096 ≠ p2) (h1 : x / 4096 ≠ p1) (h0 : x / 4096 ≠ p0) :
    linkTables mem p4 p3 p2 p1 p0 x = mem x := by
  calc
    linkTables mem p4 p3 p2 p1 p0 x = fill mem (p0 * 4096) pmmPageSize 0 x :=
      (writeEntry_of_frame_ne _ 1 _ h4).trans
        ((writeEntry_of_frame_ne _ 0 _ h3).trans
          ((writeEntry_of_frame_ne _ 0 _ h2).trans
            (writeEntry_of_frame_ne _ 0 _ h1)))
    _ = mem x := fill_outside (by unfold pmmPageSize; omega)

/-- A new space with root `p`: its only leaf is the private page `p0`. -/
structure Created (D : Nat) (alloc : σ → Nat × σ) (Valid : σ → Prop)
    (held : σ → Set Nat) (roots : Set Nat) (m : Machine σ) (g : Ghost)
    (p p0 : Nat) (m' : Machine σ) (g' : Ghost) : Prop where
  inv : MachineInv D Valid held m' (insert p roots) g'
  fresh : p ∉ held m.pmm
  page : Idle alloc m'.pmm g' p0 ∧ p0 < 2 ^ 40
  data :
    ∀ n, Idle alloc m.pmm g n →
      Idle alloc m'.pmm g' n ∧ ∀ x, x / 4096 = n → m'.mem x = m.mem x
  leaves :
    ∀ r js j, r ∈ insert p roots → OkPath 3 js → js.length = 3 →
      leafAt (entries m'.mem) r js j =
        if r = p then
          if js = [1, 0, 0] ∧ j = 0 then some (tableEntry p0) else none
        else
          leafAt (entries m.mem) r js j

/-- The kernel's slot 0, read after a frame was taken for the new root. -/
theorem MachineInv.shared_slot_of_taken
    (h : MachineInv D Valid held m roots g) {m₁ : Machine σ}
    (ht : TakenFrame held m.pmm p s) (hkernel : m₁.kernelPml4 = m.kernelPml4)
    (hmem : entries m₁.mem = setNode (entries m.mem) p (fun _ => 0)) :
    readEntry m₁.mem m₁.kernelPml4 0 = tableEntry g.pdpt := by
  obtain ⟨k, hk, hroot⟩ := h.kernel
  have hne : k ≠ p := by
    rintro rfl
    have howner := h.spaces.owner_root hk
    rw [(h.spaces.unused_of_not_held ht.fresh).1] at howner
    cases howner
  rw [hkernel, hroot]
  change entries m₁.mem k 0 = _
  rw [hmem, setNode_of_ne hne]
  exact h.spaces.shared_slot k hk

/-- `vmm_create_address_space` adds a root to the forest. -/
theorem vmmCreateAddressSpace_ok
    (hf : FreshPages alloc Valid held) (hD : D = 3 ∨ D = 4)
    (h : MachineInv D Valid held m roots g) {a : Nat}
    (hrun : vmmCreateAddressSpace alloc m = .ok (a, m')) :
    ∃ p p0 g', a = p * 4096 ∧
      Created D alloc Valid held roots m g p p0 m' g' := by
  unfold vmmCreateAddressSpace at hrun
  -- the new root
  obtain ⟨⟨_, m₁⟩, halloc₄, hrun⟩ := bind_eq_ok.mp hrun
  obtain ⟨p4, rfl, ht4, hv₁, hk₁, _, hm₁⟩ := allocTable_ok hf h.valid halloc₄
  dsimp only at hrun
  rw [h.shared_slot_of_taken ht4 hk₁ hm₁] at hrun
  -- three more tables and the private page
  obtain ⟨⟨_, m₃⟩, halloc₃, hrun⟩ := bind_eq_ok.mp hrun
  obtain ⟨p3, rfl, ht3, hv₃, hk₃, _, hm₃⟩ :=
    allocTable_ok
      (m := { m₁ with
        mem := writeEntry m₁.mem (p4 * 4096) 0 (tableEntry g.pdpt) })
      hf hv₁ halloc₃
  dsimp only at hk₃ hm₃
  obtain ⟨⟨_, m₄⟩, halloc₂, hrun⟩ := bind_eq_ok.mp hrun
  obtain ⟨p2, rfl, ht2, hv₄, hk₄, _, hm₄⟩ := allocTable_ok hf hv₃ halloc₂
  obtain ⟨⟨_, m₅⟩, halloc₁, hrun⟩ := bind_eq_ok.mp hrun
  obtain ⟨p1, rfl, ht1, hv₅, hk₅, _, hm₅⟩ := allocTable_ok hf hv₄ halloc₁
  dsimp only at hrun
  split_ifs at hrun with hnull
  obtain ⟨p0, hp0, ht0⟩ := hf.frame hv₅ hnull
  rw [hp0] at hrun
  simp only [lor_tableFlags, Except.ok.injEq, Prod.mk.injEq] at hrun
  obtain ⟨rfl, rfl⟩ := hrun
  obtain ⟨g', hg', htable, hpage, hleaves⟩ := h.spaces.newSpace hD ht4 ht3 ht2 ht1 ht0
  have hpdptLt := (h.spaces.shared_free g.pdpt (Or.inl rfl)).2.2
  have hroot : entries (writeEntry m₁.mem (p4 * 4096) 0 (tableEntry g.pdpt)) =
      bareRoot (entries m.mem) p4 g.pdpt := by
    rw [bareRoot, ← hm₁]
    exact entries_writeEntry m₁.mem p4 0 (tableEntry_lt hpdptLt)
  have hE : entries (linkTables m₅.mem p4 p3 p2 p1 p0) =
      linked (clearedFrames (bareRoot (entries m.mem) p4 g.pdpt) p3 p2 p1 p0)
        p4 p3 p2 p1 p0 := by
    rw [entries_linkTables _ ht3.lt ht2.lt ht1.lt ht0.lt, hm₅, hm₄, hm₃, hroot,
      clearedFrames]
  rw [← hE] at hg' hleaves
  obtain ⟨k, hk, hkernel⟩ := h.kernel
  refine ⟨p4, p0, g', rfl, ?_⟩
  refine
    { inv :=
        { valid := hf.valid _ hv₅
          kernel := ⟨k, Set.mem_insert_of_mem _ hk, ?_⟩
          spaces := hg' }
      fresh := ht4.fresh
      page := ⟨⟨hf.retained (hf.valid _ hv₅) ht0.taken, hpage⟩, ht0.lt⟩
      data := fun n hn => ?_
      leaves := hleaves }
  · exact (hk₅.trans (hk₄.trans (hk₃.trans hk₁))).trans hkernel
  · obtain ⟨hn₁, hn4, hbytes₁⟩ := allocTable_data halloc₄ hn.1
    obtain ⟨hn₃, hn3, hbytes₃⟩ := allocTable_data halloc₃ hn₁
    obtain ⟨hn₄, hn2, hbytes₄⟩ := allocTable_data halloc₂ hn₃
    obtain ⟨hn₅, hn1, hbytes₅⟩ := allocTable_data halloc₁ hn₄
    have hn0 : n ≠ p0 := by
      have hnow := hn₅.now hnull
      rw [hp0, Nat.mul_div_cancel _ (by decide)] at hnow
      exact hnow.symm
    refine ⟨⟨hn₅.next, fun hnew => ?_⟩, ?_⟩
    · -- a frame becomes a table only if it was taken for one
      rcases htable n hnew with hold | heq | heq | heq | heq
      · exact hn.2 hold
      · exact hn4 heq
      · exact hn3 heq
      · exact hn2 heq
      · exact hn1 heq
    · rintro x rfl
      calc
        linkTables m₅.mem p4 p3 p2 p1 p0 x = m₅.mem x :=
          linkTables_of_frame_ne m₅.mem hn4 hn3 hn2 hn1 hn0
        _ = writeEntry m₁.mem (p4 * 4096) 0 (tableEntry g.pdpt) x := by
          rw [hbytes₅ x rfl, hbytes₄ x rfl, hbytes₃ x rfl]
        _ = m₁.mem x := writeEntry_of_frame_ne _ 0 _ hn4
        _ = m.mem x := hbytes₁ x rfl

end Create

section Init

/-- The identity map, up to gibibyte `n`. -/
structure IdentityBuilt (E : Nat → Fin 512 → Nat) (held : Set Nat)
    (p4 p3 : Nat) (pd : Nat → Nat) (n : Nat) : Prop where
  slot : E p4 0 = tableEntry p3
  empty : ∀ k, k ≠ 0 → E p4 k = 0
  low : ∀ i : Fin 512, i.val < n → E p3 i = tableEntry (pd i.val)
  high : ∀ i : Fin 512, n ≤ i.val → E p3 i = 0
  directory : ∀ k (i : Fin 512), k < n → E (pd k) i = identityEntry k i.val
  root_held : p4 ∈ held ∧ p4 < 2 ^ 40
  pdpt_held : p3 ∈ held ∧ p3 ≠ p4 ∧ p3 < 2 ^ 40
  pd_held : ∀ k, k < n → pd k ∈ held ∧ pd k ≠ p4 ∧ pd k < 2 ^ 40

/-- The loop over the entries of one directory. -/
theorem entries_fillDirectory
    (mem : Store) (p : Nat) {k c : Nat} (hk : k < 4) (hc : c ≤ 512) :
    entries (fillDirectory mem (p * 4096) k c) =
      fun t j =>
        if t = p ∧ j.val < c then identityEntry k j.val else entries mem t j := by
  induction c with
  | zero =>
      simp [fillDirectory]
  | succ c ih =>
      have hwrite :=
        entries_writeEntry (fillDirectory mem (p * 4096) k c) p ⟨c, by omega⟩
          (identityEntry_lt hk (show c < 512 by omega))
      rw [fillDirectory, hwrite, ih (by omega)]
      funext t j
      unfold setEntry
      by_cases ht : t = p
      · by_cases hj : j.val = c
        · have hj' : j = ⟨c, by omega⟩ := Fin.ext hj
          simp [ht, hj']
        · have hj' : j ≠ ⟨c, by omega⟩ := fun heq => hj (congrArg Fin.val heq)
          have hlt : j.val < c + 1 ↔ j.val < c := by omega
          simp [ht, hj', hlt]
      · simp [ht]

/-- One round of the loop over the gibibytes fills a directory and links it. -/
theorem mapGib_spec
    (hf : FreshPages alloc Valid held) (hv : Valid m.pmm) (hn : n < 4)
    (hrun : mapGib alloc m (p3 * 4096) n = .ok m') :
    ∃ p, Valid m'.pmm ∧ TakenFrame held m.pmm p m'.pmm ∧
      ∀ t (j : Fin 512), entries m'.mem t j =
        if t = p then identityEntry n j.val
        else if t = p3 ∧ j.val = n then tableEntry p
        else entries m.mem t j := by
  unfold mapGib at hrun
  obtain ⟨⟨_, m₁⟩, halloc, hrun⟩ := bind_eq_ok.mp hrun
  obtain ⟨p, rfl, htaken, hv₁, _, _, hm₁⟩ := allocTable_ok hf hv halloc
  simp only [lor_tableFlags, Except.ok.injEq] at hrun
  subst hrun
  refine ⟨p, hv₁, htaken, fun t j => ?_⟩
  rw [show entriesPerTable = 512 from rfl, entries_fillDirectory _ _ hn (le_refl _)]
  dsimp only
  by_cases ht : t = p
  · rw [if_pos ⟨ht, j.isLt⟩, if_pos ht]
  · rw [if_neg (fun h => ht h.1), if_neg ht]
    have hwrite := entries_writeEntry m₁.mem p3 ⟨n, by omega⟩ (tableEntry_lt htaken.lt)
    dsimp only at hwrite
    rw [hwrite, hm₁]
    by_cases hslot : t = p3 ∧ j.val = n
    · obtain ⟨rfl, hj⟩ := hslot
      have hj' : j = ⟨n, by omega⟩ := Fin.ext hj
      rw [if_pos ⟨rfl, hj⟩, hj', setEntry_same]
    · rw [if_neg hslot, setEntry_of_ne, setNode_of_ne ht]
      by_cases ht3 : t = p3
      · exact Or.inr (fun heq => hslot ⟨ht3, congrArg Fin.val heq⟩)
      · exact Or.inl ht3

/-- It extends the identity map by a gibibyte. -/
theorem mapGib_ok
    (hf : FreshPages alloc Valid held) (hv : Valid m.pmm) (hn : n < 4)
    (h : IdentityBuilt (entries m.mem) (held m.pmm) p4 p3 pd n)
    (hrun : mapGib alloc m (p3 * 4096) n = .ok m') :
    Valid m'.pmm ∧
      ∃ pd', IdentityBuilt (entries m'.mem) (held m'.pmm) p4 p3 pd' (n + 1) := by
  obtain ⟨p, hv', htaken, hE⟩ := mapGib_spec hf hv hn hrun
  refine ⟨hv', update pd n p, ?_⟩
  have hne : ∀ q, q ∈ held m.pmm → q ≠ p := by
    rintro q hq rfl
    exact htaken.fresh hq
  have hother : ∀ q, q ∈ held m.pmm → q ≠ p3 →
      ∀ j, entries m'.mem q j = entries m.mem q j := by
    intro q hq hq3 j
    rw [hE, if_neg (hne q hq), if_neg (fun hslot => hq3 hslot.1)]
  have h3p := hne p3 h.pdpt_held.1
  have h43 := h.pdpt_held.2.1
  refine
    { slot := ?_
      empty := fun k hk => ?_
      low := fun i hi => ?_
      high := fun i hi => ?_
      directory := fun k i hk => ?_
      root_held := ⟨htaken.keeps h.root_held.1, h.root_held.2⟩
      pdpt_held := ⟨htaken.keeps h.pdpt_held.1, h.pdpt_held.2⟩
      pd_held := fun k hk => ?_ }
  · rw [hother p4 h.root_held.1 h43.symm]
    exact h.slot
  · rw [hother p4 h.root_held.1 h43.symm]
    exact h.empty k hk
  · rw [hE, if_neg h3p]
    by_cases hin : i.val = n
    · rw [if_pos ⟨rfl, hin⟩, hin, update_self]
    · rw [if_neg (fun hslot => hin hslot.2), update_of_ne hin]
      exact h.low i (by omega)
  · rw [hE, if_neg h3p, if_neg (by omega)]
    exact h.high i (by omega)
  · by_cases hkn : k = n
    · rw [hkn, update_self, hE, if_pos rfl]
    · rw [update_of_ne hkn]
      have hpdk := h.pd_held k (by omega)
      have hpd3 : pd k ≠ p3 := by
        -- entry 511 of the table of directories is empty, that of a directory is not
        intro heq
        have hdir := h.directory k ⟨511, by decide⟩ (by omega)
        rw [heq, h.high ⟨511, by decide⟩ (show n ≤ 511 by omega)] at hdir
        exact identityEntry_ne_zero (by omega) (by decide) hdir.symm
      rw [hother (pd k) hpdk.1 hpd3]
      exact h.directory k i (by omega)
  · by_cases hkn : k = n
    · rw [hkn, update_self]
      exact ⟨htaken.taken, fun heq => hne p4 h.root_held.1 heq.symm, htaken.lt⟩
    · rw [update_of_ne hkn]
      obtain ⟨hheld, hrest⟩ := h.pd_held k (by omega)
      exact ⟨htaken.keeps hheld, hrest⟩

theorem mapGibs_ok
    (hf : FreshPages alloc Valid held) (hv : Valid m.pmm) (hn : n ≤ 4)
    (h : IdentityBuilt (entries m.mem) (held m.pmm) p4 p3 pd 0)
    (hrun : mapGibs alloc m (p3 * 4096) n = .ok m') :
    Valid m'.pmm ∧
      ∃ pd', IdentityBuilt (entries m'.mem) (held m'.pmm) p4 p3 pd' n := by
  induction n generalizing m' with
  | zero =>
      simp only [mapGibs, Except.ok.injEq] at hrun
      subst hrun
      exact ⟨hv, pd, h⟩
  | succ n ih =>
      rw [mapGibs] at hrun
      obtain ⟨m₁, hrun₁, hrun⟩ := bind_eq_ok.mp hrun
      obtain ⟨hv₁, pd₁, h₁⟩ := ih (by omega) hrun₁
      exact mapGib_ok hf hv₁ (by omega) h₁ hrun

/-- Ownership after `vmm_init`: only the root is owned. -/
def initGhost (p4 p3 : Nat) (pd : Nat → Nat) : Ghost :=
  { owner := fun n => if n = p4 then some (p4, []) else none
    pdpt := p3
    pd := pd }

/-- A finished identity map is a forest with one root. -/
theorem IdentityBuilt.spacesInv
    {held : Set Nat} (hD : 3 ≤ D) (h : IdentityBuilt E held p4 p3 pd 4) :
    SpacesInv D E {p4} held (initGhost p4 p3 pd) := by
  have hkeep : ∀ k ks, OkPath D (k :: ks) → E p4 k = 0 := by
    intro k ks hk
    apply h.empty
    rintro rfl
    exact hk.2 rfl
  have hwalk : ∀ is c, OkPath D is → walk childOf E p4 is = some c →
      is = [] ∧ c = p4 := by
    intro is c his hw
    cases is with
    | nil =>
        simp only [walk_nil, Option.some.injEq] at hw
        exact ⟨rfl, hw.symm⟩
    | cons k ks =>
        rw [walk_cons, hkeep k ks his] at hw
        cases hw
  refine
    { depth := hD
      owned := ?_
      interior := ?_
      owner_held := ?_
      root_lt := ?_
      shared_slot := ?_
      pdpt_low := h.low
      pdpt_high := fun i hi => congrArg isPresent (h.high i hi)
      directory := h.directory
      shared_free := ?_ }
  · rintro r is c rfl his hw
    obtain ⟨rfl, rfl⟩ := hwalk is c his hw
    simp [initGhost]
  · rintro r is c i rfl hok hw hpresent
    have hokD : OkPath D (is ++ [i]) := hok.mono (le_trans hok.1 hD)
    obtain ⟨rfl, rfl⟩ := hwalk is c (okPath_of_append is [i] hokD) hw
    rw [hkeep i [] hokD] at hpresent
    cases hpresent
  · intro n hn
    by_cases hnp : n = p4
    · rw [hnp]
      exact h.root_held.1
    · simp [initGhost, hnp] at hn
  · rintro r rfl
    exact h.root_held.2
  · rintro r rfl
    exact h.slot
  · rintro n (rfl | ⟨k, hk, rfl⟩)
    · exact ⟨h.pdpt_held.1, by simp [initGhost, h.pdpt_held.2.1], h.pdpt_held.2.2⟩
    · obtain ⟨hheld, hne, hlt⟩ := h.pd_held k hk
      exact ⟨hheld, by simp [initGhost, hne], hlt⟩

/-- `vmm_init` builds the kernel's address space. -/
theorem vmmInit_ok
    (hD : 3 ≤ D) (hf : FreshPages alloc Valid held) (hv : Valid m.pmm)
    (hrun : vmmInit alloc m = .ok m') :
    ∃ p g, m'.kernelPml4 = p * 4096 ∧ MachineInv D Valid held m' {p} g := by
  unfold vmmInit at hrun
  obtain ⟨⟨_, m₁⟩, halloc₁, hrun⟩ := bind_eq_ok.mp hrun
  obtain ⟨p4, rfl, ht4, hv₁, _, _, hm₁⟩ := allocTable_ok hf hv halloc₁
  obtain ⟨⟨_, m₂⟩, halloc₂, hrun⟩ := bind_eq_ok.mp hrun
  obtain ⟨p3, rfl, ht3, hv₂, _, _, hm₂⟩ := allocTable_ok hf hv₁ halloc₂
  obtain ⟨m₃, hgibs, hrun⟩ := bind_eq_ok.mp hrun
  simp only [lor_tableFlags, Except.ok.injEq] at hgibs hrun
  subst hrun
  have h34 : p3 ≠ p4 := by
    rintro rfl
    exact ht3.fresh ht4.taken
  have hE : entries (writeEntry m₂.mem (p4 * 4096) 0 (tableEntry p3)) =
      setEntry
        (setNode (setNode (entries m.mem) p4 (fun _ => 0)) p3 (fun _ => 0)) p4 0
        (tableEntry p3) := by
    rw [← hm₁, ← hm₂]
    exact entries_writeEntry m₂.mem p4 0 (tableEntry_lt ht3.lt)
  have hstart : IdentityBuilt
      (entries (writeEntry m₂.mem (p4 * 4096) 0 (tableEntry p3)))
      (held m₂.pmm) p4 p3 (fun _ => 0) 0 := by
    rw [hE]
    exact
      { slot := setEntry_same _ _ _ _
        empty := fun k hk => by
          rw [setEntry_of_ne (Or.inr hk), setNode_of_ne h34.symm, setNode_same]
        low := fun i hi => absurd hi (by omega)
        high := fun i _ => by
          rw [setEntry_of_ne (Or.inl h34), setNode_same]
        directory := fun k i hk => absurd hk (by omega)
        root_held := ⟨ht3.keeps ht4.taken, ht4.lt⟩
        pdpt_held := ⟨ht3.taken, h34, ht3.lt⟩
        pd_held := fun k hk => absurd hk (by omega) }
  obtain ⟨hv₃, pd, hbuilt⟩ :=
    mapGibs_ok
      (m := { m₂ with mem := writeEntry m₂.mem (p4 * 4096) 0 (tableEntry p3) })
      hf hv₂ (le_refl 4) hstart hgibs
  refine ⟨p4, initGhost p4 p3 pd, rfl, ?_⟩
  exact
    { valid := hv₃
      kernel := ⟨p4, rfl, rfl⟩
      spaces := hbuilt.spacesInv hD }

end Init

end Vmm
end RebornOS
