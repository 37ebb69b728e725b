import RebornOS.UserMemory

/-!
# Private-window isolation over whole runs

Address spaces are created, loaded, and grown by stack faults and `SYS_SBRK`,
in any order and for any number of processes.  `Isolated` is stated on the
hardware's translation: the frames behind user-accessible pages outside the
shared slot are pairwise different and never hold a page table.
-/

namespace RebornOS
namespace Elf

open ByteStore WordBits PageWalk RadixForest Fallible LabeledRun Vmm

variable {σ π α : Type} {cr3 r v : Nat} {Valid : σ → Prop} {s s' : Spaces σ}
  {alloc : σ → Nat × σ} {heldBy : σ → Set Nat} {run : Except π (α × Machine σ)}

/-- One operation that gives memory to a process. -/
inductive ProcessCall
  | createAddressSpace
  | loadUserProgram (elfData elfSize pml4Phys : Nat) (argv : List (List UInt8))
  | stackFault (cr3 faultAddr errorCode : Nat) (fromRing3 : Bool)
  | sbrk (pml4 oldBrk increment : Nat)
  deriving DecidableEq, Repr

/-- The machine after an operation on an existing address space. -/
def onSpace {π α : Type} (s : Spaces σ) (cr3 : Nat)
    (run : Except π (α × Machine σ)) : Option (Spaces σ) :=
  if cr3 ∈ s.roots then
    match run with
    | .ok (_, m) => some { s with machine := m }
    | .error _ => none
  else
    none

/-- One operation; a panic ends the run. -/
def processCall (alloc : σ → Nat × σ) (s : Spaces σ) :
    ProcessCall → Option (Spaces σ)
  | .createAddressSpace => Vmm.call alloc s .createAddressSpace
  | .loadUserProgram elfData elfSize pml4Phys argv =>
      onSpace s pml4Phys
        (elfLoadUserProgram alloc s.machine elfData elfSize pml4Phys argv)
  | .stackFault cr3 faultAddr errorCode fromRing3 =>
      onSpace s cr3
        (elfHandleStackFault alloc s.machine cr3 faultAddr errorCode fromRing3)
  | .sbrk pml4 oldBrk increment =>
      onSpace s pml4
        ((sysSbrk alloc s.machine pml4 oldBrk increment).map
          (fun r => ((r.1, r.2.1), r.2.2)))

section Runs

variable {held : σ → Set Nat}

/-- The invariant of a run: the forest owns the mapped frames. -/
structure ProcessesOk (Valid : σ → Prop) (held : σ → Set Nat)
    (s : Spaces σ) : Prop where
  nodup : s.roots.Nodup
  spaces : SpacesOk 4 Valid held s

theorem onSpace_eq_some
    (h : onSpace s cr3 run = some s') :
    cr3 ∈ s.roots ∧
      ∃ a m', run = .ok (a, m') ∧ s' = { s with machine := m' } := by
  unfold onSpace at h
  split_ifs at h with hmem
  split at h
  next a m' =>
    simp only [Option.some.injEq] at h
    exact ⟨hmem, a, m', rfl, h.symm⟩
  next =>
    cases h

theorem ProcessesOk.onSpace
    (hs : ProcessesOk Valid held s)
    (hstep : ∀ r g a m', cr3 = r * 4096 → r ∈ rootFrames s.roots →
      MachineInv 4 Valid held s.machine (rootFrames s.roots) g →
      run = .ok (a, m') →
        ∃ g', MachineInv 4 Valid held m' (rootFrames s.roots) g')
    (h : onSpace s cr3 run = some s') : ProcessesOk Valid held s' := by
  obtain ⟨hmem, a, m', hrun, rfl⟩ := onSpace_eq_some h
  obtain ⟨r, rfl⟩ := hs.spaces.frames _ hmem
  obtain ⟨g, hg⟩ := hs.spaces.inv
  obtain ⟨g', hg'⟩ := hstep r g a m' rfl hmem hg hrun
  exact ⟨hs.nodup, hs.spaces.frames, g', hg'⟩

theorem ProcessesOk.createAddressSpace
    (hf : FreshPages alloc Valid held) (hs : ProcessesOk Valid held s)
    (h : Vmm.call alloc s .createAddressSpace = some s') :
    ProcessesOk Valid held s' := by
  refine ⟨?_, hs.spaces.createAddressSpace hf (Or.inr rfl) h⟩
  obtain ⟨g, hg⟩ := hs.spaces.inv
  simp only [Vmm.call] at h
  split at h
  next pml4 m hcreate =>
    simp only [Option.some.injEq] at h
    subst h
    obtain ⟨p, _, _, rfl, hnew⟩ :=
      vmmCreateAddressSpace_ok hf (Or.inr rfl) hg hcreate
    refine List.nodup_cons.mpr ⟨?_, hs.nodup⟩
    intro hmem
    have howner := hg.spaces.owner_root hmem
    exact hnew.fresh (hg.spaces.owner_held p (by rw [howner]; simp))
  next =>
    cases h

/-- Every operation keeps the invariant. -/
theorem processCall_preserves
    {c : ProcessCall} (hf : FreshPages alloc Valid held) (hs : ProcessesOk Valid held s)
    (h : processCall alloc s c = some s') : ProcessesOk Valid held s' := by
  cases c with
  | createAddressSpace =>
      exact hs.createAddressSpace hf h
  | loadUserProgram elfData elfSize pml4Phys argv =>
      refine hs.onSpace ?_ h
      rintro r g out m' rfl hr hg hrun
      obtain ⟨g', hg'⟩ :=
        elfLoadUserProgram_ok hf (le_refl 4) (dataInv_of_owned hf hg) hr hrun
      exact ⟨g', hg'.inv⟩
  | stackFault cr3 faultAddr errorCode fromRing3 =>
      refine hs.onSpace ?_ h
      rintro r g ret m' rfl hr hg hrun
      obtain ⟨g', hg'⟩ :=
        elfHandleStackFault_ok hf (le_refl 4) (dataInv_of_owned hf hg) hr hrun
      exact ⟨g', hg'.inv⟩
  | sbrk pml4 oldBrk increment =>
      refine hs.onSpace ?_ h
      rintro r g a m' rfl hr hg hrun
      obtain ⟨res, hsbrk, hres⟩ := map_eq_ok.mp hrun
      simp only [Prod.mk.injEq] at hres
      rw [← hres.2]
      obtain ⟨g', hg'⟩ :=
        sysSbrk_ok hf (le_refl 4) (dataInv_of_owned hf hg) hr hsbrk
      exact ⟨g', hg'.inv⟩

theorem processesOk_of_run
    {m m' : Machine σ} {calls : List ProcessCall} (hf : FreshPages alloc Valid held)
    (hv : Valid m.pmm) (hinit : vmmInit alloc m = .ok m')
    (hrun : runAll (processCall alloc) (boot m') calls = some s) :
    ProcessesOk Valid held s := by
  refine
    runAll_invariant (fun _ _ _ hs hstep => processCall_preserves hf hs hstep)
      ?_ hrun
  exact ⟨List.nodup_singleton _, spacesOk_boot (by decide) hf hv hinit⟩

end Runs

section Isolation

/-- `v` is a user-accessible page outside the shared slot, with frame `p`. -/
def PrivateFrame (mem : Store) (cr3 v p : Nat) : Prop :=
  index v 39 ≠ 0 ∧
  ∃ t, translateAddr mem cr3 v = some t ∧ t.rights.user = true ∧
    p = t.phys / 4096

/-- Private frames are never shared and never hold a page table. -/
structure Isolated (mem : Store) (roots : List Nat) : Prop where
  roots_nodup : roots.Nodup
  across :
    ∀ r₁ r₂ v₁ v₂ p₁ p₂, r₁ ∈ roots → r₂ ∈ roots → r₁ ≠ r₂ →
      PrivateFrame mem r₁ v₁ p₁ → PrivateFrame mem r₂ v₂ p₂ → p₁ ≠ p₂
  within :
    ∀ r v₁ v₂ p₁ p₂, r ∈ roots → v₁ / 4096 ≠ v₂ / 4096 →
      PrivateFrame mem r v₁ p₁ → PrivateFrame mem r v₂ p₂ → p₁ ≠ p₂
  not_table :
    ∀ r r' v p level, r ∈ roots → r' ∈ roots → PrivateFrame mem r v p →
      ¬ TableFrame mem r' level p

variable {mem : Store} {roots held : Set Nat} {g : Ghost}

section

variable (h : SpacesInv 4 (entries mem) roots held g) (hr : r ∈ roots)
include h hr

/-- The frame behind a private page belongs to the path of the page. -/
theorem owner_of_translate
    {t : Translation} (hslot : index v 39 ≠ 0)
    (ht : translateAddr mem (r * 4096) v = some t) :
    Canonical v ∧
      g.owner (t.phys / 4096) = some (r, pathOf v ++ [index v 12]) ∧
      ¬ g.Table (t.phys / 4096) := by
  obtain ⟨hcanon, _, e, hleaf, hframe⟩ := h.leaf_of_translate hr hslot ht
  rw [hframe]
  exact ⟨hcanon, not_table_of_leafAt h hr (okPath_pathOf hslot) rfl hleaf⟩

theorem owner_privateFrame
    {p : Nat} (hp : PrivateFrame mem (r * 4096) v p) :
    Canonical v ∧ g.owner p = some (r, pathOf v ++ [index v 12]) ∧
      ¬ g.Table p := by
  obtain ⟨hslot, t, ht, _, rfl⟩ := hp
  exact owner_of_translate h hr hslot ht

/--
The frames that the hardware walk of a space reads are tables of the forest.
The induction follows the walk: through the shared slot it meets the identity
tables, elsewhere it stays on a private path.
-/
theorem table_of_tableFrame
    {level n : Nat} (hn : TableFrame mem (r * 4096) level n) :
    (level = 3 ∧ n = g.pdpt) ∨
    (level = 2 ∧ ∃ k, k < 4 ∧ n = g.pd k) ∨
    ∃ is, OkPath 3 is ∧ is.length + level = 4 ∧
      walk childOf (entries mem) r is = some n := by
  induction hn with
  | root =>
      refine Or.inr (Or.inr ⟨[], ⟨by simp, by simp⟩, rfl, ?_⟩)
      rw [frameOf_mul (h.root_lt r hr)]
      rfl
  | @next level n i _ hlevel hpresent hlarge ih =>
      rcases ih with ⟨hl, rfl⟩ | ⟨hl, k, hk, rfl⟩ | ⟨is, hok, hlen, hw⟩
      · by_cases hi : i.val < 4
        · have hpd := (h.shared_free (g.pd i.val) (Or.inr ⟨_, hi, rfl⟩)).2.2
          rw [h.pdpt_low i hi, frameOf_tableEntry hpd]
          exact Or.inr (Or.inl ⟨by omega, i.val, hi, rfl⟩)
        · rw [h.pdpt_high i (by omega)] at hpresent
          cases hpresent
      · rw [h.directory k i hk, isLarge, identityEntry_eq hk i.isLt,
          testBit_eq, decide_eq_false_iff_not] at hlarge
        split_ifs at hlarge <;> omega
      · by_cases hzero : is = [] ∧ i = 0
        · obtain ⟨rfl, rfl⟩ := hzero
          simp only [walk_nil, Option.some.injEq] at hw
          subst hw
          have hpdpt := (h.shared_free g.pdpt (Or.inl rfl)).2.2
          rw [h.shared_slot r hr, frameOf_tableEntry hpdpt]
          exact Or.inl ⟨by simp at hlen; omega, rfl⟩
        · have hok' : OkPath 3 (is ++ [i]) := by
            refine ⟨by simp only [List.length_append, List.length_singleton]; omega, ?_⟩
            cases is with
            | nil =>
                intro hhead
                simp only [List.nil_append, List.head?_cons, Option.some.injEq] at hhead
                exact hzero ⟨rfl, hhead⟩
            | cons j js =>
                exact hok.2
          refine
            Or.inr (Or.inr ⟨is ++ [i], hok', ?_, ?_⟩)
          · simp only [List.length_append, List.length_singleton]
            omega
          · rw [walk_concat, hw, Option.bind_some, childOf_of_present hpresent]

end

theorem isolated_of_spacesOk
    (hs : ProcessesOk Valid heldBy s) : Isolated s.machine.mem s.roots := by
  obtain ⟨g, hg⟩ := hs.spaces.inv
  have h := hg.spaces
  refine ⟨hs.nodup, ?_, ?_, ?_⟩
  · rintro r₁ r₂ v₁ v₂ p₁ p₂ hr₁ hr₂ hne hp₁ hp₂ rfl
    obtain ⟨n₁, rfl⟩ := hs.spaces.frames _ hr₁
    obtain ⟨n₂, rfl⟩ := hs.spaces.frames _ hr₂
    have ho₁ := (owner_privateFrame h hr₁ hp₁).2.1
    rw [(owner_privateFrame h hr₂ hp₂).2.1] at ho₁
    simp only [Option.some.injEq, Prod.mk.injEq] at ho₁
    exact hne (by rw [ho₁.1])
  · rintro r v₁ v₂ p₁ p₂ hr hne hp₁ hp₂ rfl
    obtain ⟨n, rfl⟩ := hs.spaces.frames _ hr
    obtain ⟨hc₁, ho₁, _⟩ := owner_privateFrame h hr hp₁
    obtain ⟨hc₂, ho₂, _⟩ := owner_privateFrame h hr hp₂
    rw [ho₂] at ho₁
    simp only [Option.some.injEq, Prod.mk.injEq, pathOf, List.cons_append,
      List.nil_append, List.cons.injEq, and_true, true_and] at ho₁
    exact
      hne (page_eq_of_index_eq hc₁ hc₂ ho₁.1.symm ho₁.2.1.symm ho₁.2.2.1.symm
        ho₁.2.2.2.symm)
  · intro r r' v p level hr hr' hp htable
    obtain ⟨n, rfl⟩ := hs.spaces.frames _ hr
    obtain ⟨n', rfl⟩ := hs.spaces.frames _ hr'
    apply (owner_privateFrame h hr hp).2.2
    rcases table_of_tableFrame h hr' htable with
      ⟨_, rfl⟩ | ⟨_, k, hk, rfl⟩ | ⟨is, hok, _, hw⟩
    · exact Or.inl (Or.inl rfl)
    · exact Or.inl (Or.inr ⟨k, hk, rfl⟩)
    · exact h.table_of_walk hr' hok hw

/--
**Private windows are isolated.**  After every sequence of address-space
creations, program loads, stack faults and `SYS_SBRK` calls, for any number of
processes in any order.
-/
theorem private_windows_isolated
    {m₀ m₁ : Machine σ} {s : Spaces σ} {calls : List ProcessCall}
    (hf : FreshPages alloc Valid heldBy) (hv : Valid m₀.pmm)
    (hinit : vmmInit alloc m₀ = .ok m₁)
    (hrun : runAll (processCall alloc) (boot m₁) calls = some s) :
    Isolated s.machine.mem s.roots :=
  isolated_of_spacesOk (processesOk_of_run hf hv hinit hrun)

/-- Two processes, and a heap page for the first. -/
theorem private_windows_isolated_two_processes :
    ∃ m₁ s,
      vmmInit bumpAlloc (blank 1) = .ok m₁ ∧
      runAll (processCall bumpAlloc) (boot m₁)
          [.createAddressSpace, .createAddressSpace,
            .sbrk 28672 0x8001400000 100] = some s ∧
      s.roots.length = 3 ∧ Isolated s.machine.mem s.roots := by
  obtain ⟨m₁, hinit⟩ :
      ∃ m₁, vmmInit bumpAlloc (blank 1) = .ok m₁ := ⟨_, rfl⟩
  have hrun :
      (match vmmInit bumpAlloc (blank 1) with
        | .ok m => (runAll (processCall bumpAlloc) (boot m)
            [.createAddressSpace, .createAddressSpace,
              .sbrk 28672 0x8001400000 100]).map (fun s => s.roots.length)
        | .error _ => none) = some 3 := by
    decide
  rw [hinit, Option.map_eq_some_iff] at hrun
  obtain ⟨s, hs, hroots⟩ := hrun
  exact
    ⟨m₁, s, hinit, hs, hroots,
      private_windows_isolated freshPages_bumpAlloc Nat.zero_lt_one hinit hs⟩

end Isolation

end Elf
end RebornOS
