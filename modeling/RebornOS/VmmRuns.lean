import RebornOS.LabeledRun
import RebornOS.VmmCreate

/-!
# `vmm_map_page` updates one page of one address space

The address spaces are followed over runs of `vmm_create_address_space` and
`vmm_map_page`, starting from `vmm_init`.  Whatever was built before, a further
`vmm_map_page` changes the hardware's translation of exactly one page.
-/

namespace RebornOS
namespace Vmm

open ByteStore WordBits PageWalk RadixForest Fallible LabeledRun

variable {σ : Type} {heldNow heldThen roots : Set Nat} {cr3 D flags paddr r v : Nat}
  {mem mem' : Store} {g g' : Ghost} {m m' : Machine σ} {alloc : σ → Nat × σ}
  {Valid : σ → Prop} {held : σ → Set Nat}

/-- The machine and the CR3 values of the address spaces built so far. -/
structure Spaces (σ : Type) where
  machine : Machine σ
  roots : List Nat

variable {s s' : Spaces σ}

/-- One call into the page-table code. -/
inductive Call
  | createAddressSpace
  | mapPage (pml4Phys vaddr paddr flags : Nat)
  deriving DecidableEq, Repr

/-- One call; a panic ends the run. -/
def call (alloc : σ → Nat × σ) (s : Spaces σ) : Call → Option (Spaces σ)
  | .createAddressSpace =>
      match vmmCreateAddressSpace alloc s.machine with
      | .ok (pml4, m) => some { machine := m, roots := pml4 :: s.roots }
      | .error _ => none
  | .mapPage pml4Phys vaddr paddr flags =>
      if pml4Phys ∈ s.roots then
        match vmmMapPage alloc s.machine pml4Phys vaddr paddr flags with
        | .ok m => some { s with machine := m }
        | .error _ => none
      else
        none

/-- The spaces after `vmm_init`. -/
def boot (m : Machine σ) : Spaces σ :=
  { machine := m, roots := [m.kernelPml4] }

/-- The frames of the root tables. -/
def rootFrames (roots : List Nat) : Set Nat := {r | r * 4096 ∈ roots}

/-- The invariant of a run. -/
structure SpacesOk (D : Nat) (Valid : σ → Prop) (held : σ → Set Nat)
    (s : Spaces σ) : Prop where
  frames : ∀ a, a ∈ s.roots → ∃ r, a = r * 4096
  inv : ∃ g, MachineInv D Valid held s.machine (rootFrames s.roots) g

theorem rootFrames_cons
    (p : Nat) (roots : List Nat) :
    rootFrames (p * 4096 :: roots) = insert p (rootFrames roots) := by
  ext r
  simp only [rootFrames, List.mem_cons, Set.mem_ofPred_eq, Set.mem_insert_iff]
  constructor
  · rintro (h | h)
    · exact Or.inl (Nat.eq_of_mul_eq_mul_right (by decide) h)
    · exact Or.inr h
  · rintro (h | h)
    · exact Or.inl (by rw [h])
    · exact Or.inr h

section Runs

theorem spacesOk_boot
    (hD : 3 ≤ D) (hf : FreshPages alloc Valid held) (hv : Valid m.pmm)
    (hrun : vmmInit alloc m = .ok m') : SpacesOk D Valid held (boot m') := by
  obtain ⟨p, g, hkernel, hinv⟩ := vmmInit_ok hD hf hv hrun
  have hroots : rootFrames (boot m').roots = {p} := by
    have hcons := rootFrames_cons p []
    rw [← hkernel] at hcons
    refine hcons.trans ?_
    simp [rootFrames]
  refine ⟨?_, g, ?_⟩
  · intro a ha
    simp only [boot, List.mem_singleton] at ha
    exact ⟨p, ha.trans hkernel⟩
  · rw [hroots]
    exact hinv

variable (hf : FreshPages alloc Valid held)
include hf

theorem SpacesOk.createAddressSpace
    (hD : D = 3 ∨ D = 4) (hs : SpacesOk D Valid held s)
    (h : call alloc s .createAddressSpace = some s') : SpacesOk D Valid held s' := by
  obtain ⟨g, hg⟩ := hs.inv
  simp only [call] at h
  split at h
  next pml4 m hcreate =>
    simp only [Option.some.injEq] at h
    subst h
    obtain ⟨p, _, g', rfl, hnew⟩ := vmmCreateAddressSpace_ok hf hD hg hcreate
    refine ⟨?_, g', ?_⟩
    · intro a ha
      rcases List.mem_cons.mp ha with rfl | ha
      · exact ⟨p, rfl⟩
      · exact hs.frames a ha
    · rw [rootFrames_cons]
      exact hnew.inv
  next =>
    cases h

theorem SpacesOk.mapPage
    (hs : SpacesOk 3 Valid held s)
    (h : call alloc s (.mapPage cr3 v paddr flags) = some s') :
    SpacesOk 3 Valid held s' := by
  obtain ⟨g, hg⟩ := hs.inv
  simp only [call] at h
  split_ifs at h with hmem
  obtain ⟨r, rfl⟩ := hs.frames _ hmem
  split at h
  next m hmap =>
    simp only [Option.some.injEq] at h
    subst h
    obtain ⟨_, _, ⟨g', hg', _⟩, _⟩ :=
      vmmMapPage_ok hf (by decide) hg hmem (Or.inl rfl) hmap
    exact ⟨hs.frames, g', hg'⟩
  next =>
    cases h

/-- Every call keeps the invariant of all address spaces. -/
theorem call_preserves
    {c : Call} (hs : SpacesOk 3 Valid held s) (h : call alloc s c = some s') :
    SpacesOk 3 Valid held s' := by
  cases c with
  | createAddressSpace =>
      exact hs.createAddressSpace hf (Or.inl rfl) h
  | mapPage cr3 v paddr flags =>
      exact hs.mapPage hf h

/-- The invariant holds after every run from `vmm_init`. -/
theorem spacesOk_of_run
    {calls : List Call} (hv : Valid m.pmm) (hinit : vmmInit alloc m = .ok m')
    (hrun : runAll (call alloc) (boot m') calls = some s) : SpacesOk 3 Valid held s :=
  runAll_invariant (fun _ _ _ hs hstep => call_preserves hf hs hstep)
    (spacesOk_boot (by decide) hf hv hinit) hrun

end Runs

section OnePage

/--
From `mem` to `mem'`, the page of `v` under `cr3` becomes a mapping of `paddr`,
and every other page of every space keeps its translation.
-/
structure UpdatesOnePage (mem mem' : Store) (roots : List Nat)
    (cr3 v paddr flags : Nat) : Prop where
  mapped :
    ∀ b, b / 4096 = v / 4096 →
      translateAddr mem' cr3 b =
        some
          { phys := paddr + b % 4096
            rights :=
              { user := true
                writable := decide (flags &&& vmmMapWrite ≠ 0)
                noExecute := decide (flags &&& vmmMapExec = 0) } }
  unchanged :
    ∀ root b, root ∈ roots → root ≠ cr3 ∨ b / 4096 ≠ v / 4096 →
      translateAddr mem' root b = translateAddr mem root b

/-- Translations that do not depend on the tables being changed. -/
theorem translate_not_canonical
    (h : ¬ Canonical v) : translateAddr mem cr3 v = none := by
  unfold translateAddr
  rw [if_pos h]

/-- A private translation comes from a leaf. -/
theorem SpacesInv.leaf_of_translate
    {held : Set Nat} (h : SpacesInv D (entries mem) roots held g) {t : Translation}
    (hr : r ∈ roots) (hslot : index v 39 ≠ 0)
    (ht : translateAddr mem (r * 4096) v = some t) :
    Canonical v ∧
      t.phys % 4096 = v % 4096 ∧
      ∃ e, leafAt (entries mem) r (pathOf v) (index v 12) = some e ∧
        t.phys / 4096 = frameOf e := by
  have hcanon : Canonical v := by
    by_contra hnot
    rw [translate_not_canonical hnot] at ht
    cases ht
  rw [h.translate_high hr hcanon hslot, Option.map_eq_some_iff] at ht
  obtain ⟨e, hleaf, rfl⟩ := ht
  have hphys : (leaf 12 fullRights e v).phys = frameOf e * 4096 + v % 4096 := by
    unfold leaf frameOf
    dsimp only
    omega
  exact ⟨hcanon, by omega, e, hleaf, by omega⟩

/-- Canonical addresses with index 0 are the first 512 GiB. -/
theorem lt_of_index_eq_zero
    (hv : Canonical v) (h : index v 39 = 0) : v < 2 ^ 39 := by
  simp only [index, Fin.ext_iff, Fin.val_zero] at h
  unfold Canonical at hv
  omega

/-- Pages with the same leaf in two memories have the same translation. -/
theorem SpacesInv.translate_congr
    {roots' held held' : Set Nat} (h : SpacesInv D (entries mem) roots held g)
    (h' : SpacesInv D (entries mem') roots' held' g') (hr : r ∈ roots)
    (hr' : r ∈ roots') (hleaf : index v 39 ≠ 0 →
      leafAt (entries mem') r (pathOf v) (index v 12) =
        leafAt (entries mem) r (pathOf v) (index v 12)) :
    translateAddr mem' (r * 4096) v = translateAddr mem (r * 4096) v := by
  by_cases hcanon : Canonical v
  · by_cases hslot : index v 39 = 0
    · have hlow := lt_of_index_eq_zero hcanon hslot
      rw [h'.translate_low hr' hlow, h.translate_low hr hlow]
    · rw [h'.translate_high hr' hcanon hslot, h.translate_high hr hcanon hslot,
        hleaf hslot]
  · rw [translate_not_canonical hcanon, translate_not_canonical hcanon]

/-- The rights that `vmm_map_page` gives a page. -/
def mapRights (flags : Nat) : Rights :=
  { user := true
    writable := decide (flags &&& vmmMapWrite ≠ 0)
    noExecute := decide (flags &&& vmmMapExec = 0) }

/-- How the hardware translates when exactly one leaf has been written. -/
theorem translate_of_leaf
    (h : SpacesInv D (entries mem) roots heldNow g)
    (h' : SpacesInv D (entries mem') roots heldThen g') {e : Nat} (hr : r ∈ roots)
    (hcanon : Canonical v) (hv : index v 39 ≠ 0) (hpresent : isPresent e = true)
    (hleaves : ∀ r' js j, r' ∈ roots → OkPath 3 js → js.length = 3 →
      leafAt (entries mem') r' js j =
        if r' = r ∧ js = pathOf v ∧ j = index v 12 then
          if isPresent e then some e else none
        else
          leafAt (entries mem) r' js j) :
    (∀ b, b / 4096 = v / 4096 →
      translateAddr mem' (r * 4096) b =
        some { phys := frameOf e * 4096 + b % 4096, rights := rightsOf e }) ∧
    ∀ r' b, r' ∈ roots → r' ≠ r ∨ b / 4096 ≠ v / 4096 →
      translateAddr mem' (r' * 4096) b = translateAddr mem (r' * 4096) b := by
  constructor
  · intro b hb
    have hbcanon : Canonical b := by
      unfold Canonical at hcanon ⊢
      omega
    have hbslot : index b 39 ≠ 0 := by
      rw [index_eq_of_page_eq hb (by decide)]
      exact hv
    rw [h'.translate_high hr hbcanon hbslot, pathOf_eq_of_page_eq hb,
      index_eq_of_page_eq hb (le_refl 12), hleaves r _ _ hr (okPath_pathOf hv) rfl,
      if_pos ⟨rfl, rfl, rfl⟩, if_pos hpresent]
    simp only [Option.map_some, leaf, fullRights_meet]
    rfl
  · intro r' b hr' hother
    by_cases hbcanon : Canonical b
    · refine h.translate_congr h' hr' hr' (fun hbslot => ?_)
      rw [hleaves r' _ _ hr' (okPath_pathOf hbslot) rfl, if_neg]
      rintro ⟨rfl, hpath, h12⟩
      simp only [pathOf, List.cons.injEq, and_true] at hpath
      have hpage :=
        page_eq_of_index_eq hbcanon hcanon hpath.1 hpath.2.1 hpath.2.2 h12
      rcases hother with hne | hne
      · exact hne rfl
      · exact hne hpage
    · rw [translate_not_canonical hbcanon, translate_not_canonical hbcanon]

/-- The same for a leaf of `vmm_map_page`. -/
theorem translate_of_leaves
    (h : SpacesInv D (entries mem) roots heldNow g)
    (h' : SpacesInv D (entries mem') roots heldThen g') (hr : r ∈ roots)
    (hcanon : Canonical v) (hv : index v 39 ≠ 0) (haligned : paddr % 4096 = 0)
    (hlt : paddr < 2 ^ 52)
    (hleaves : ∀ r' js j, r' ∈ roots → OkPath 3 js → js.length = 3 →
      leafAt (entries mem') r' js j =
        if r' = r ∧ js = pathOf v ∧ j = index v 12 then
          if isPresent (leafEntry paddr flags) then
            some (leafEntry paddr flags)
          else none
        else
          leafAt (entries mem) r' js j) :
    (∀ b, b / 4096 = v / 4096 →
      translateAddr mem' (r * 4096) b =
        some { phys := paddr + b % 4096, rights := mapRights flags }) ∧
    ∀ r' b, r' ∈ roots → r' ≠ r ∨ b / 4096 ≠ v / 4096 →
      translateAddr mem' (r' * 4096) b = translateAddr mem (r' * 4096) b := by
  obtain ⟨hpresent, hframe, hrights⟩ := @leafEntry_spec paddr flags hlt
  obtain ⟨hnew, hold⟩ := translate_of_leaf h h' hr hcanon hv hpresent hleaves
  refine ⟨fun b hb => ?_, hold⟩
  rw [hnew b hb, hframe, hrights, Nat.div_mul_cancel (Nat.dvd_of_mod_eq_zero haligned)]
  rfl

/-- A successful `vmm_map_page` updates one page. -/
theorem updatesOnePage_of_ok
    (hf : FreshPages alloc Valid held) (hs : SpacesOk 3 Valid held s)
    (hcr3 : cr3 ∈ s.roots) (hcanon : Canonical v) (haligned : paddr % 4096 = 0)
    (hlt : paddr < 2 ^ 52)
    (hmap : vmmMapPage alloc s.machine cr3 v paddr flags = .ok m') :
    UpdatesOnePage s.machine.mem m'.mem s.roots cr3 v paddr flags := by
  obtain ⟨g, hg⟩ := hs.inv
  obtain ⟨r, rfl⟩ := hs.frames _ hcr3
  obtain ⟨hv, _, ⟨g', hg', _⟩, hleaves⟩ :=
    vmmMapPage_ok hf (by decide) hg hcr3 (Or.inl rfl) hmap
  obtain ⟨hmapped, hunchanged⟩ :=
    translate_of_leaves hg.spaces hg'.spaces hcr3 hcanon hv haligned hlt hleaves
  refine ⟨hmapped, ?_⟩
  intro root b hroot hother
  obtain ⟨r', rfl⟩ := hs.frames _ hroot
  exact hunchanged r' b hroot (hother.imp_left (fun hne heq => hne (by rw [heq])))

/-- `vmm_map_page` outside slot 0 panics only if it does not get one of its three tables. -/
theorem vmmMapPage_error
    {e : Panic} (hv : index v 39 ≠ 0)
    (hrun : vmmMapPage alloc m r v paddr flags = .error e) :
    e = .outOfPhysicalMemory ∧
      ∃ k, k < 3 ∧ (alloc ((fun s => (alloc s).2)^[k] m.pmm)).1 = 0 := by
  unfold vmmMapPage at hrun
  simp only [tableIndex_eq] at hrun
  have hslot : ¬ (index v 39).val = 0 := fun hzero => hv (Fin.ext hzero)
  rw [if_neg hslot] at hrun
  rcases bind_eq_error.mp hrun with herr | ⟨⟨pdpt, m₁⟩, hrun₁, hrun⟩
  · obtain ⟨he, hnull⟩ := ensureTable_error herr
    exact ⟨he, 0, by decide, hnull⟩
  obtain ⟨k₁, hk₁, hpmm₁⟩ := ensureTable_pmm hrun₁
  rcases bind_eq_error.mp hrun with herr | ⟨⟨pd, m₂⟩, hrun₂, hrun⟩
  · obtain ⟨he, hnull⟩ := ensureTable_error herr
    exact ⟨he, k₁, by omega, hpmm₁ ▸ hnull⟩
  obtain ⟨k₂, hk₂, hpmm₂⟩ := ensureTable_pmm hrun₂
  rcases bind_eq_error.mp hrun with herr | ⟨⟨pt, m₃⟩, _, hrun⟩
  · obtain ⟨he, hnull⟩ := ensureTable_error herr
    refine ⟨he, k₂ + k₁, by omega, ?_⟩
    rw [Function.iterate_add_apply, ← hpmm₁, ← hpmm₂]
    exact hnull
  · cases hrun

/--
**`vmm_map_page` refines the update of one page.**  After any run of the
page-table code from `vmm_init`, a call on any of the address spaces either
updates exactly the page it names, or panics because `pmm_alloc_page` returns
`NULL` for one of the at most three tables that the call allocates.
-/
theorem vmmMapPage_updates_one_page
    {m₀ m₁ : Machine σ} {s : Spaces σ} {calls : List Call}
    (hf : FreshPages alloc Valid held) (hv : Valid m₀.pmm)
    (hinit : vmmInit alloc m₀ = .ok m₁)
    (hrun : runAll (call alloc) (boot m₁) calls = some s)
    {cr3 v paddr flags : Nat}
    (hcr3 : cr3 ∈ s.roots) (hcanon : Canonical v) (hslot : index v 39 ≠ 0)
    (haligned : paddr % 4096 = 0) (hlt : paddr < 2 ^ 52) :
    (∃ m', vmmMapPage alloc s.machine cr3 v paddr flags = .ok m' ∧
      UpdatesOnePage s.machine.mem m'.mem s.roots cr3 v paddr flags) ∨
    (vmmMapPage alloc s.machine cr3 v paddr flags =
        .error .outOfPhysicalMemory ∧
      ∃ k, k < 3 ∧ (alloc ((fun t => (alloc t).2)^[k] s.machine.pmm)).1 = 0) := by
  have hs := spacesOk_of_run hf hv hinit hrun
  cases hmap : vmmMapPage alloc s.machine cr3 v paddr flags with
  | ok m' =>
      exact
        Or.inl
          ⟨m', rfl, updatesOnePage_of_ok hf hs hcr3 hcanon haligned hlt hmap⟩
  | error e =>
      obtain ⟨rfl, hnull⟩ := vmmMapPage_error hslot hmap
      exact Or.inr ⟨rfl, hnull⟩

/-- An allocator that hands out the frames in order. -/
def bumpAlloc (next : Nat) : Nat × Nat :=
  if next < 2 ^ 40 then (next * 4096, next + 1) else (0, next)

/-- The frames in order are fresh. -/
theorem freshPages_bumpAlloc :
    FreshPages bumpAlloc (fun n => 0 < n) (fun n => {k | k < n}) := by
  refine ⟨?_, ?_, ?_, ?_, ?_, ?_⟩
  all_goals
    intro n hn
    unfold bumpAlloc
    split_ifs
  · exact Nat.succ_pos n
  · exact hn
  · exact Nat.mul_mod_left n 4096
  · rfl
  · simp only
    omega
  · exact Nat.two_pow_pos 52
  · intro _
    simp
  · intro h
    exact absurd rfl h
  · intro _
    simp
  · intro h
    exact absurd rfl h
  · intro k hk
    exact Nat.lt_succ_of_lt hk
  · exact subset_refl _

/-- A page is mapped into the second address space. -/
theorem vmmMapPage_updates_one_page_second_space :
    ∃ m₁ s m',
      vmmInit bumpAlloc (blank 1) = .ok m₁ ∧
      runAll (call bumpAlloc) (boot m₁) [.createAddressSpace] = some s ∧
      s.roots = [28672, 4096] ∧
      vmmMapPage bumpAlloc s.machine 28672 0x8000400000 0x5000 1 = .ok m' ∧
      UpdatesOnePage s.machine.mem m'.mem s.roots 28672 0x8000400000 0x5000 1 := by
  obtain ⟨m₁, hinit⟩ :
      ∃ m₁, vmmInit bumpAlloc (blank 1) = .ok m₁ := ⟨_, rfl⟩
  have hrun :
      (match vmmInit bumpAlloc (blank 1) with
        | .ok m => (runAll (call bumpAlloc) (boot m) [.createAddressSpace]).map
            (fun s => (s.roots, s.machine.pmm))
        | .error _ => none) = some ([28672, 4096], 12) := by
    decide
  rw [hinit, Option.map_eq_some_iff] at hrun
  obtain ⟨s, hs, hspec⟩ := hrun
  obtain ⟨hroots, hpmm⟩ := Prod.mk.inj hspec
  have hcases : (∃ m', vmmMapPage bumpAlloc s.machine 28672 0x8000400000 0x5000 1 = .ok m' ∧
      UpdatesOnePage s.machine.mem m'.mem s.roots 28672 0x8000400000 0x5000 1) ∨ _ :=
    vmmMapPage_updates_one_page freshPages_bumpAlloc Nat.zero_lt_one hinit hs
      (by rw [hroots]; simp) (Or.inl (by decide)) (by decide) (by decide) (by decide)
  rcases hcases with ⟨m', hmap, hupdates⟩ | ⟨_, k, hk, hnull⟩
  · exact ⟨m₁, s, m', hinit, hs, hroots, hmap, hupdates⟩
  · -- the pages 12, 13 and 14 are served
    rw [hpmm] at hnull
    interval_cases k <;> exact absurd hnull (by decide)

end OnePage

end Vmm
end RebornOS
