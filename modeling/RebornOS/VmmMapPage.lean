import RebornOS.VmmSteps

/-!
# `vmm_map_page` on the forest of page tables

The page allocator is described by what the page-table code relies on
(`FreshPages`): an address it returns is page aligned, addresses physical
memory, and is not among the frames that are held already.  With that, one
`ensureTable` step keeps the invariant of all spaces and every leaf that a walk
finds, and `vmm_map_page` as a whole writes a single leaf.
-/

namespace RebornOS
namespace Vmm

open ByteStore WordBits PageWalk RadixForest Fallible Function

variable {σ : Type} {a flags n p paddr r t v : Nat} {roots : Set Nat} {g : Ghost}
  {E : Nat → Fin 512 → Nat} {is : List (Fin 512)} {alloc : σ → Nat × σ}
  {Valid : σ → Prop} {held : σ → Set Nat} {s : σ} {m : Machine σ}

/-- The page allocator hands out frames that are not held. -/
structure FreshPages (alloc : σ → Nat × σ) (Valid : σ → Prop)
    (held : σ → Set Nat) : Prop where
  valid : ∀ s, Valid s → Valid (alloc s).2
  aligned : ∀ s, Valid s → (alloc s).1 % 4096 = 0
  bound : ∀ s, Valid s → (alloc s).1 < 2 ^ 52
  fresh : ∀ s, Valid s → (alloc s).1 ≠ 0 → (alloc s).1 / 4096 ∉ held s
  takes :
    ∀ s, Valid s → (alloc s).1 ≠ 0 → (alloc s).1 / 4096 ∈ held (alloc s).2
  keeps : ∀ s, Valid s → held s ⊆ held (alloc s).2

/-- From `s` on, the allocator never hands out frame `n`. -/
def Retained (alloc : σ → Nat × σ) (s : σ) (n : Nat) : Prop :=
  ∀ k, (alloc ((fun t => (alloc t).2)^[k] s)).1 ≠ 0 →
    (alloc ((fun t => (alloc t).2)^[k] s)).1 / 4096 ≠ n

/-- The machine's tables satisfy the invariant of all spaces. -/
structure MachineInv (D : Nat) (Valid : σ → Prop) (held : σ → Set Nat)
    (m : Machine σ) (roots : Set Nat) (g : Ghost) : Prop where
  valid : Valid m.pmm
  kernel : ∃ k, k ∈ roots ∧ m.kernelPml4 = k * 4096
  spaces : SpacesInv D (entries m.mem) roots (held m.pmm) g

/-- Walks find the same leaves in both memories. -/
def SameLeaves (roots : Set Nat) (mem mem' : Store) : Prop :=
  ∀ r js j, r ∈ roots → OkPath 3 js → js.length = 3 →
    leafAt (entries mem') r js j = leafAt (entries mem) r js j

/-- Frame `n` is neither a table nor ever handed out. -/
def Idle (alloc : σ → Nat × σ) (s : σ) (g : Ghost) (n : Nat) : Prop :=
  Retained alloc s n ∧ ¬ g.Table n

/-- What the table-building part of an operation may change. -/
structure Grows (alloc : σ → Nat × σ) (held : σ → Set Nat) (roots : Set Nat)
    (m : Machine σ) (g : Ghost) (m' : Machine σ) (g' : Ghost) : Prop where
  kernel : m'.kernelPml4 = m.kernelPml4
  pmm : ∃ k, m'.pmm = (fun s => (alloc s).2)^[k] m.pmm
  held_mono : held m.pmm ⊆ held m'.pmm
  unused : ∀ n, n ∈ held m.pmm → g.Unused n → g'.Unused n
  leaves : SameLeaves roots m.mem m'.mem
  data :
    ∀ n, Idle alloc m.pmm g n →
      ¬ g'.Table n ∧ ∀ x, x / 4096 = n → m'.mem x = m.mem x

section Retention

theorem Retained.now
    (h : Retained alloc s n) (hne : (alloc s).1 ≠ 0) : (alloc s).1 / 4096 ≠ n :=
  h 0 hne

theorem Retained.iterate
    (h : Retained alloc s n) (k : Nat) :
    Retained alloc ((fun t => (alloc t).2)^[k] s) n := by
  intro j
  rw [← iterate_add_apply]
  exact h (j + k)

theorem Retained.next
    (h : Retained alloc s n) : Retained alloc (alloc s).2 n :=
  h.iterate 1

/-- Frames that are held are never handed out. -/
theorem FreshPages.retained
    (hf : FreshPages alloc Valid held) (hs : Valid s) (hn : n ∈ held s) :
    Retained alloc s n := by
  have hiter : ∀ k, Valid ((fun t => (alloc t).2)^[k] s) ∧
      n ∈ held ((fun t => (alloc t).2)^[k] s) := by
    intro k
    induction k with
    | zero =>
        exact ⟨hs, hn⟩
    | succ k ih =>
        rw [iterate_succ_apply']
        exact ⟨hf.valid _ ih.1, hf.keeps _ ih.1 ih.2⟩
  intro k hne heq
  obtain ⟨hvalid, hheld⟩ := hiter k
  apply hf.fresh _ hvalid hne
  rw [heq]
  exact hheld

/--
Frames that are never handed out may be taken out of the held ones; the tables,
which are held, then lie elsewhere.
-/
theorem FreshPages.apart
    (hf : FreshPages alloc Valid held) (K : Set Nat) :
    FreshPages alloc
      (fun s => Valid s ∧ ∀ n, n ∈ K → Retained alloc s n)
      (fun s => held s \ K) :=
  { valid := fun s hs =>
      ⟨hf.valid s hs.1, fun n hn => (hs.2 n hn).next⟩
    aligned := fun s hs => hf.aligned s hs.1
    bound := fun s hs => hf.bound s hs.1
    fresh := fun s hs hne hmem => hf.fresh s hs.1 hne hmem.1
    takes := fun s hs hne =>
      ⟨hf.takes s hs.1 hne, fun hmem => (hs.2 _ hmem).now hne rfl⟩
    keeps := fun s hs => Set.sdiff_subset_sdiff_left (hf.keeps s hs.1) }

end Retention

section Growth

variable {m₁ m₂ : Machine σ} {g₁ g₂ : Ghost}

theorem Grows.refl : Grows alloc held roots m g m g :=
  { kernel := rfl
    pmm := ⟨0, rfl⟩
    held_mono := subset_refl _
    unused := fun _ _ h => h
    leaves := fun _ _ _ _ _ _ => rfl
    data := fun _ hn => ⟨hn.2, fun _ _ => rfl⟩ }

/-- Idle frames stay idle. -/
theorem Grows.idle
    (h : Grows alloc held roots m g m₁ g₁) (hn : Idle alloc m.pmm g n) :
    Idle alloc m₁.pmm g₁ n := by
  obtain ⟨k, hk⟩ := h.pmm
  refine ⟨?_, (h.data n hn).1⟩
  rw [hk]
  exact hn.1.iterate k

theorem Grows.trans
    (h₁ : Grows alloc held roots m g m₁ g₁)
    (h₂ : Grows alloc held roots m₁ g₁ m₂ g₂) : Grows alloc held roots m g m₂ g₂ := by
  obtain ⟨k, hk⟩ := h₁.pmm
  obtain ⟨l, hl⟩ := h₂.pmm
  exact
    { kernel := h₂.kernel.trans h₁.kernel
      pmm := ⟨l + k, by rw [hl, hk, iterate_add_apply]⟩
      held_mono := h₁.held_mono.trans h₂.held_mono
      unused := fun n hn hu => h₂.unused n (h₁.held_mono hn) (h₁.unused n hn hu)
      leaves := fun r js j hr hok hlen =>
        (h₂.leaves r js j hr hok hlen).trans (h₁.leaves r js j hr hok hlen)
      data := fun n hn =>
        ⟨(h₂.data n (h₁.idle hn)).1, fun x hx =>
          ((h₂.data n (h₁.idle hn)).2 x hx).trans ((h₁.data n hn).2 x hx)⟩ }

end Growth

section Alloc

variable {D : Nat} {m' : Machine σ}

/-- A frame that the allocator just handed out. -/
structure TakenFrame (held : σ → Set Nat) (s : σ) (p : Nat) (s' : σ) : Prop where
  lt : p < 2 ^ 40
  fresh : p ∉ held s
  taken : p ∈ held s'
  keeps : held s ⊆ held s'

/-- The address returned by the allocator is a frame that was not held. -/
theorem FreshPages.frame
    (hf : FreshPages alloc Valid held) (hs : Valid s) (hne : (alloc s).1 ≠ 0) :
    ∃ p, (alloc s).1 = p * 4096 ∧ TakenFrame held s p (alloc s).2 := by
  have haligned := hf.aligned s hs
  have hbound := hf.bound s hs
  refine ⟨(alloc s).1 / 4096, by omega, ?_⟩
  exact
    { lt := by omega
      fresh := hf.fresh s hs hne
      taken := hf.takes s hs hne
      keeps := hf.keeps s hs }

theorem allocTable_eq_ok
    (h : allocTable alloc m = .ok (a, m')) :
    a = (alloc m.pmm).1 ∧ (alloc m.pmm).1 ≠ 0 ∧
      m' =
        { m with
          mem := fill m.mem (alloc m.pmm).1 pmmPageSize 0
          pmm := (alloc m.pmm).2 } := by
  unfold allocTable at h
  dsimp only at h
  split_ifs at h with hnull
  simp only [Except.ok.injEq, Prod.mk.injEq] at h
  exact ⟨h.1.symm, hnull, h.2.symm⟩

/-- `alloc_table` takes a frame and clears it. -/
theorem allocTable_ok
    (hf : FreshPages alloc Valid held) (hs : Valid m.pmm)
    (h : allocTable alloc m = .ok (a, m')) :
    ∃ p, a = p * 4096 ∧ TakenFrame held m.pmm p m'.pmm ∧ Valid m'.pmm ∧
      m'.kernelPml4 = m.kernelPml4 ∧ m'.pmm = (alloc m.pmm).2 ∧
      entries m'.mem = setNode (entries m.mem) p (fun _ => 0) := by
  obtain ⟨rfl, hnull, rfl⟩ := allocTable_eq_ok h
  obtain ⟨p, hp, htaken⟩ := hf.frame hs hnull
  refine ⟨p, hp, htaken, hf.valid _ hs, rfl, rfl, ?_⟩
  rw [hp]
  exact entries_fill m.mem p

/-- Frames that are never handed out are not touched by `alloc_table`. -/
theorem allocTable_data
    (h : allocTable alloc m = .ok (p * 4096, m')) (hn : Retained alloc m.pmm n) :
    Retained alloc m'.pmm n ∧ n ≠ p ∧ ∀ x, x / 4096 = n → m'.mem x = m.mem x := by
  obtain ⟨hp, hnull, rfl⟩ := allocTable_eq_ok h
  have hnp : n ≠ p := by
    have hnow := hn.now hnull
    rw [← hp, Nat.mul_div_cancel _ (by decide)] at hnow
    exact hnow.symm
  refine ⟨hn.next, hnp, fun x hx => ?_⟩
  dsimp only
  rw [← hp]
  exact fill_outside (by unfold pmmPageSize; omega)

theorem allocTable_error
    {e : Panic} (h : allocTable alloc m = .error e) :
    e = .outOfPhysicalMemory ∧ (alloc m.pmm).1 = 0 := by
  unfold allocTable at h
  dsimp only at h
  split_ifs at h with hnull
  simp only [Except.error.injEq] at h
  exact ⟨h.symm, hnull⟩

/-- Clearing a frame that is not held keeps the invariant. -/
theorem SpacesInv.clear
    {s' : σ} (hD : D ≤ 4) (h : SpacesInv D E roots (held s) g)
    (ht : TakenFrame held s p s') (f : Fin 512 → Nat) :
    SpacesInv D (setNode E p f) roots (held s') g := by
  refine h.congr hD ht.keeps ?_
  intro n hn
  have hnp : n ≠ p := by
    rintro rfl
    exact h.not_table_of_not_held ht.fresh hn
  funext j
  exact setNode_of_ne hnp j

/-- Walks along private paths do not see a frame that is not held. -/
theorem SpacesInv.walk_clear
    (h : SpacesInv D E roots (held s) g) (hp : p ∉ held s) (f : Fin 512 → Nat)
    (hr : r ∈ roots) (hok : OkPath 3 is) :
    walk childOf (setNode E p f) r is = walk childOf E r is := by
  refine walk_congr okPath_of_append ?_ is hok
  intro ks k c hks hw
  have hcp : c ≠ p := by
    rintro rfl
    exact h.not_table_of_not_held hp
      (h.table_of_walk hr (okPath_of_append ks [k] hks) hw)
  rw [setNode_of_ne hcp]

theorem SpacesInv.leafAt_clear
    (h : SpacesInv D E roots (held s) g) (hp : p ∉ held s) (f : Fin 512 → Nat)
    (hr : r ∈ roots) (hok : OkPath 3 is) (i : Fin 512) :
    leafAt (setNode E p f) r is i = leafAt E r is i := by
  refine h.leafAt_congr (fun n hn => ?_) hr hok i
  have hnp : n ≠ p := by
    rintro rfl
    exact h.not_table_of_not_held hp hn
  funext j
  exact setNode_of_ne hnp j

/-- A frame that was just taken, cleared and hung into an empty private slot. -/
theorem SpacesInv.attach_taken
    {s' : σ} {i : Fin 512} (hD : D ≤ 4) (h : SpacesInv D E roots (held s) g)
    (ht : TakenFrame held s p s') (hr : r ∈ roots) (hw : walk childOf E r is = some t)
    (hok : OkPath 3 (is ++ [i])) (habsent : isPresent (E t i) = false) :
    SpacesInv D (setEntry (setNode E p (fun _ => 0)) t i (tableEntry p)) roots (held s')
        (g.give p r (is ++ [i])) ∧
      walk childOf (setEntry (setNode E p (fun _ => 0)) t i (tableEntry p)) r
        (is ++ [i]) = some p ∧
      ∀ r' js j, r' ∈ roots → OkPath 3 js → js.length = 3 →
        leafAt (setEntry (setNode E p (fun _ => 0)) t i (tableEntry p)) r' js j =
          leafAt E r' js j := by
  have hokis := okPath_of_append is [i] hok
  have hunused := h.unused_of_not_held ht.fresh
  have hclear := h.clear hD ht (fun _ => 0)
  have hwalk := (h.walk_clear ht.fresh (fun _ => 0) hr hokis).trans hw
  have hzero : ∀ k, setNode E p (fun _ => 0) p k = 0 := fun k => setNode_same _ _ _ k
  have htp : t ≠ p := by
    rintro rfl
    exact h.not_table_of_not_held ht.fresh (h.table_of_walk hr hokis hw)
  have habsent' : isPresent (setNode E p (fun _ => 0) t i) = false := by
    rw [setNode_of_ne htp]
    exact habsent
  refine
    ⟨hclear.attach hr hwalk hok hunused ht.taken ht.lt hzero,
      hclear.walk_attach_self hr hwalk hok hunused ht.lt hzero,
      fun r' js j hr' hjs hlen => ?_⟩
  rw [hclear.leafAt_attach hr hwalk hok habsent' hunused ht.lt hzero hr' hjs hlen j]
  exact h.leafAt_clear ht.fresh _ hr' hjs j

end Alloc

section Ensure

variable {D : Nat} {m' : Machine σ}

/-- One table step of `vmm_map_page`. -/
theorem ensureTable_ok
    (hf : FreshPages alloc Valid held) (hD : D ≤ 4)
    (h : MachineInv D Valid held m roots g) {i : Fin 512} (hr : r ∈ roots)
    (hw : walk childOf (entries m.mem) r is = some t) (hok : OkPath 3 (is ++ [i]))
    (hrun : ensureTable alloc m (t * 4096) i.val = .ok (a, m')) :
    ∃ n g', a = n * 4096 ∧ MachineInv D Valid held m' roots g' ∧
      walk childOf (entries m'.mem) r (is ++ [i]) = some n ∧
      Grows alloc held roots m g m' g' := by
  unfold ensureTable at hrun
  rw [readEntry_eq] at hrun
  split_ifs at hrun with habsent
  · rw [land_pagePresent_eq_zero] at habsent
    obtain ⟨⟨page, m₁⟩, halloc, hrun⟩ := bind_eq_ok.mp hrun
    obtain ⟨p, rfl, htaken, hvalid, hkernel, hpmm, hmem⟩ :=
      allocTable_ok hf h.valid halloc
    dsimp only at hrun
    simp only [lor_tableFlags, Except.ok.injEq, Prod.mk.injEq] at hrun
    obtain ⟨hret, rfl⟩ := hrun
    have hentries :
        entries (writeEntry m₁.mem (t * 4096) i.val (tableEntry p)) =
          setEntry (setNode (entries m.mem) p (fun _ => 0)) t i
            (tableEntry p) := by
      rw [entries_writeEntry _ _ _ (tableEntry_lt htaken.lt), hmem]
    obtain ⟨hattach, hreach, hleaves⟩ :=
      h.spaces.attach_taken hD htaken hr hw hok habsent
    rw [← hentries] at hattach hreach hleaves
    refine ⟨p, g.give p r (is ++ [i]), ?_, ?_, hreach, ?_⟩
    · rw [← hret, readEntry_eq, hentries, setEntry_same, tableEntry_land_mask htaken.lt]
    · obtain ⟨k, hk, hkernel'⟩ := h.kernel
      exact
        { valid := hvalid
          kernel := ⟨k, hk, hkernel.trans hkernel'⟩
          spaces := hattach }
    · refine
        { kernel := hkernel
          pmm := ⟨1, hpmm⟩
          held_mono := htaken.keeps
          unused := ?_
          leaves := hleaves
          data := ?_ }
      · intro n hn hu
        have hnp : n ≠ p := by
          rintro rfl
          exact htaken.fresh hn
        exact ⟨(Ghost.give_owner_of_ne hnp).trans hu.1, hu.2⟩
      · intro n hn
        obtain ⟨_, hnp, hbytes⟩ := allocTable_data halloc hn.1
        have hnt : n ≠ t := by
          rintro rfl
          exact hn.2 (h.spaces.table_of_walk hr (okPath_of_append is [i] hok) hw)
        refine ⟨fun hnew => ?_, fun x hx => ?_⟩
        · rcases Ghost.give_table hnew with hold | ⟨hpn, _⟩
          · exact hn.2 hold
          · exact hnp hpn
        · exact (writeEntry_of_frame_ne _ i _ (hx ▸ hnt)).trans (hbytes x hx)
  · simp only [Except.ok.injEq, Prod.mk.injEq] at hrun
    obtain ⟨hret, rfl⟩ := hrun
    have hpresent : isPresent (entries m.mem t i) = true := by
      rw [land_pagePresent_eq_zero] at habsent
      simpa using habsent
    obtain ⟨n, hn, he⟩ := h.spaces.interior r is t i hr hok hw hpresent
    refine ⟨n, g, ?_, h, ?_, Grows.refl⟩
    · rw [← hret, he, tableEntry_land_mask hn]
    · rw [walk_concat, hw, Option.bind_some, he, childOf_tableEntry hn]

theorem ensureTable_error
    {i : Nat} {e : Panic} (h : ensureTable alloc m t i = .error e) :
    e = .outOfPhysicalMemory ∧ (alloc m.pmm).1 = 0 := by
  unfold ensureTable at h
  split_ifs at h with habsent
  rcases bind_eq_error.mp h with h | ⟨⟨page, m₁⟩, _, h⟩
  · exact allocTable_error h
  · cases h

/-- A table step takes at most one page. -/
theorem ensureTable_pmm
    {i : Nat} (h : ensureTable alloc m t i = .ok (a, m')) :
    ∃ k, k ≤ 1 ∧ m'.pmm = (fun s => (alloc s).2)^[k] m.pmm := by
  unfold ensureTable at h
  split_ifs at h with habsent
  · obtain ⟨⟨page, m₁⟩, halloc, h⟩ := bind_eq_ok.mp h
    obtain ⟨_, _, rfl⟩ := allocTable_eq_ok halloc
    cases h
    exact ⟨1, le_refl 1, rfl⟩
  · cases h
    exact ⟨0, Nat.zero_le 1, rfl⟩

variable (hf : FreshPages alloc Valid held) (hD : D ≤ 4)
  (h : MachineInv D Valid held m roots g) (hr : r ∈ roots)
include hf hD h hr

/-- The three table steps of `vmm_map_page`, and the leaf it writes. -/
theorem vmmMapPage_tables
    (hrun : vmmMapPage alloc m (r * 4096) v paddr flags = .ok m') :
    index v 39 ≠ 0 ∧
    ∃ m₁ g₁ pt, MachineInv D Valid held m₁ roots g₁ ∧
      walk childOf (entries m₁.mem) r (pathOf v) = some pt ∧
      Grows alloc held roots m g m₁ g₁ ∧
      m'.kernelPml4 = m₁.kernelPml4 ∧ m'.pmm = m₁.pmm ∧
      m'.mem =
        writeEntry m₁.mem (pt * 4096) (index v 12).val (leafEntry paddr flags) := by
  unfold vmmMapPage at hrun
  simp only [tableIndex_eq] at hrun
  split_ifs at hrun with hslot
  have hv : index v 39 ≠ 0 := by
    intro hzero
    apply hslot
    rw [hzero]
    rfl
  have hok := okPath_pathOf hv
  obtain ⟨⟨pdpt, m₁⟩, hrun₁, hrun⟩ := bind_eq_ok.mp hrun
  dsimp only at hrun
  obtain ⟨n₁, g₁, rfl, hinv₁, hw₁, hgrow₁⟩ :=
    ensureTable_ok hf hD h hr (walk_nil _ _ _)
      (okPath_of_append [index v 39] [_, _] hok) hrun₁
  obtain ⟨⟨pd, m₂⟩, hrun₂, hrun⟩ := bind_eq_ok.mp hrun
  dsimp only at hrun
  obtain ⟨n₂, g₂, rfl, hinv₂, hw₂, hgrow₂⟩ :=
    ensureTable_ok hf hD hinv₁ hr hw₁
      (okPath_of_append [index v 39, index v 30] [_] hok) hrun₂
  obtain ⟨⟨pt, m₃⟩, hrun₃, hrun⟩ := bind_eq_ok.mp hrun
  dsimp only at hrun
  obtain ⟨n₃, g₃, rfl, hinv₃, hw₃, hgrow₃⟩ :=
    ensureTable_ok hf hD hinv₂ hr hw₂ hok hrun₃
  simp only [Except.ok.injEq] at hrun
  subst hrun
  refine
    ⟨hv, m₃, g₃, n₃, hinv₃, hw₃, (hgrow₁.trans hgrow₂).trans hgrow₃, rfl, rfl, rfl⟩

/-- `vmm_map_page` only allocates. -/
theorem vmmMapPage_pmm
    (hrun : vmmMapPage alloc m (r * 4096) v paddr flags = .ok m') :
    ∃ k, m'.pmm = (fun s => (alloc s).2)^[k] m.pmm := by
  obtain ⟨_, m₁, _, _, _, _, hgrow, _, hpmm, _⟩ :=
    vmmMapPage_tables hf hD h hr hrun
  obtain ⟨k, hk⟩ := hgrow.pmm
  exact ⟨k, hpmm.trans hk⟩

/-- The invariant after `vmm_map_page`, and the leaves walks find. -/
theorem vmmMapPage_ok
    (hframe : D = 3 ∨ (D = 4 ∧ ∃ p, paddr = p * 4096 ∧ p < 2 ^ 40 ∧
      g.Unused p ∧ p ∈ held m.pmm))
    (hrun : vmmMapPage alloc m (r * 4096) v paddr flags = .ok m') :
    index v 39 ≠ 0 ∧
    held m.pmm ⊆ held m'.pmm ∧
    (∃ g', MachineInv D Valid held m' roots g' ∧
      ∀ n, Idle alloc m.pmm g n →
        Idle alloc m'.pmm g' n ∧ ∀ x, x / 4096 = n → m'.mem x = m.mem x) ∧
    ∀ r' js j, r' ∈ roots → OkPath 3 js → js.length = 3 →
      leafAt (entries m'.mem) r' js j =
        if r' = r ∧ js = pathOf v ∧ j = index v 12 then
          if isPresent (leafEntry paddr flags) then
            some (leafEntry paddr flags)
          else none
        else
          leafAt (entries m.mem) r' js j := by
  obtain ⟨hv, m₁, g₁, pt, hinv, hw, hgrow, hkernel, hpmm, hmem⟩ :=
    vmmMapPage_tables hf hD h hr hrun
  have hentries :
      entries m'.mem =
        setEntry (entries m₁.mem) pt (index v 12) (leafEntry paddr flags) := by
    rw [hmem]
    exact entries_writeEntry _ _ _ (leafEntry_lt paddr flags)
  have hok := okPath_pathOf hv
  have hlen : (pathOf v).length = 3 := rfl
  have hleaf : SpacesInv.LeafOk D (held m₁.pmm) g₁ (leafEntry paddr flags) := by
    rcases hframe with hD3 | ⟨hD4, p, rfl, hlt, hunused, hheld⟩
    · exact Or.inl hD3
    · obtain ⟨hpresent, hfr, _⟩ :=
        @leafEntry_spec (p * 4096) flags (by omega)
      refine
        Or.inr ⟨hD4, p, ?_, hgrow.unused p hheld hunused, hgrow.held_mono hheld⟩
      rw [childOf_of_present hpresent, hfr, Nat.mul_div_cancel _ (by decide)]
  obtain ⟨g', hg', htables⟩ :=
    hinv.spaces.setLeaf hr hw hok hlen hleaf (i := index v 12)
  refine ⟨hv, ?_, ⟨g', ?_, ?_⟩, ?_⟩
  · rw [hpmm]
    exact hgrow.held_mono
  · obtain ⟨k, hk, hk'⟩ := hinv.kernel
    exact
      { valid := by
          rw [hpmm]
          exact hinv.valid
        kernel := ⟨k, hk, hkernel.trans hk'⟩
        spaces := by
          rw [hpmm, hentries]
          exact hg' }
  · intro n hn
    obtain ⟨hidle, htable⟩ := hgrow.idle hn
    refine ⟨⟨?_, fun hnew => htable (htables n hnew)⟩, fun x hx => ?_⟩
    · rw [hpmm]
      exact hidle
    · -- the leaf is written into a table
      have hnpt : n ≠ pt := by
        rintro rfl
        exact htable (hinv.spaces.table_of_walk hr hok hw)
      rw [hmem, writeEntry_of_frame_ne _ _ _ (hx ▸ hnpt)]
      exact (hgrow.data n hn).2 x hx
  · intro r' js j hr' hjs hjslen
    rw [hentries, hinv.spaces.leafAt_setLeaf hr hw hok hlen hr' hjs j]
    split_ifs with hsame hp
    · rfl
    · rfl
    · exact hgrow.leaves r' js j hr' hjs hjslen

end Ensure

end Vmm
end RebornOS
