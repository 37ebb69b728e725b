import RebornOS.ElfLoader
import RebornOS.VmmRuns

/-!
# Isolation of the private windows

Every page that a process gets outside the shared slot comes fresh from
`pmm_alloc_page`: from `vmm_create_address_space`, the ELF loader, stack growth
or `SYS_SBRK`.  With the mapped frames owned by their paths (`D = 4` in
`SpacesInv`), two different virtual pages, of one space or of two, cannot share
a frame, and no frame is a page table.
-/

namespace RebornOS
namespace Elf

open ByteStore WordBits PageWalk RadixForest Fallible LabeledRun Vmm

variable {σ : Type}
  {a brk cr3 D elfData elfSize errorCode faultAddr flags i increment n oldBrk : Nat}
  {p pml4 r rax ret v : Nat} {heldNow roots : Set Nat} {js : List (Fin 512)}
  {out : Process} {g : Ghost} {mem mem' : Store} {argv : List (List UInt8)}
  {fromRing3 : Bool} {alloc : σ → Nat × σ} {Valid : σ → Prop} {held : σ → Set Nat}
  {m m' : Machine σ} {Q : Machine σ → Prop}

section Data

variable {g' : Ghost}

/-- Two memories that differ at most inside frame `p`. -/
def SameOutside (p : Nat) (mem mem' : Store) : Prop :=
  ∀ x, x / 4096 ≠ p → mem' x = mem x

theorem SameOutside.trans
    {m₁ m₂ m₃ : Store} (h₁ : SameOutside p m₁ m₂) (h₂ : SameOutside p m₂ m₃) :
    SameOutside p m₁ m₃ := by
  intro x hx
  rw [h₂ x hx, h₁ x hx]

theorem sameOutside_fill
    (mem : Store) (p : Nat) :
    SameOutside p mem (fill mem (p * 4096) pmmPageSize 0) := by
  intro x hx
  apply fill_outside
  have hsize : pmmPageSize = 4096 := rfl
  omega

/-- A cleared frame reads as zero. -/
theorem fill_page
    (mem : Store) (p : Nat) {k : Nat} (hk : k < 4096) :
    fill mem (p * 4096) pmmPageSize 0 (p * 4096 + k) = 0 := by
  unfold fill pmmPageSize
  rw [if_pos (by omega)]

theorem sameOutside_copyIn
    (mem : Store) (src : Nat → UInt8) (ha : p * 4096 ≤ a) (hn : a + n ≤ p * 4096 + 4096) :
    SameOutside p mem (copyIn mem a n src) := by
  intro x hx
  apply copyIn_outside
  omega

theorem sameOutside_writeLE
    (mem : Store) (ha : p * 4096 ≤ a) (hn : a + n ≤ p * 4096 + 4096) :
    SameOutside p mem (writeLE mem a n v) := by
  intro x hx
  apply writeLE_outside
  omega

/-- Bytes written into a frame that holds no table change no table. -/
theorem entries_of_sameOutside
    (hp : ¬ g.Table p) (hmem : SameOutside p mem mem') (hn : g.Table n) :
    entries mem' n = entries mem n := by
  have hnp : n ≠ p := by
    rintro rfl
    exact hp hn
  funext j
  exact entries_of_agree hnp hmem j

/-- The frame of a leaf is not a table. -/
theorem not_table_of_leafAt
    {E : Nat → Fin 512 → Nat} (h : SpacesInv 4 E roots heldNow g) {e : Nat}
    {j : Fin 512} (hr : r ∈ roots) (hjs : OkPath 3 js) (hlen : js.length = 3)
    (hleaf : leafAt E r js j = some e) :
    g.owner (frameOf e) = some (r, js ++ [j]) ∧ ¬ g.Table (frameOf e) := by
  unfold leafAt at hleaf
  obtain ⟨t, hw, he⟩ := Option.bind_eq_some_iff.mp hleaf
  split_ifs at he with hpresent
  simp only [Option.some.injEq] at he
  have hok : OkPath 4 (js ++ [j]) := by
    refine ⟨by simp [hlen], ?_⟩
    rw [List.head?_append_of_ne_nil _ (by
      intro hnil
      rw [hnil] at hlen
      cases hlen)]
    exact hjs.2
  have hwalk : walk childOf E r (js ++ [j]) = some (frameOf e) := by
    rw [walk_concat, hw, Option.bind_some, ← he, childOf_of_present hpresent]
  have howner := h.owned r _ _ hr hok hwalk
  refine ⟨howner, ?_⟩
  rintro (hshared | ⟨r', is, ho, hislen⟩)
  · have hfree := (h.shared_free _ hshared).2.1
    rw [howner] at hfree
    cases hfree
  · rw [howner] at ho
    simp only [Option.some.injEq, Prod.mk.injEq] at ho
    rw [← ho.2, List.length_append, hlen, List.length_singleton] at hislen
    omega

/--
The invariant with what is known of the mapped frames: they hold no table and
are not handed out again.
-/
structure DataInv (D : Nat) (alloc : σ → Nat × σ) (Valid : σ → Prop)
    (held : σ → Set Nat) (m : Machine σ) (roots : Set Nat) (g : Ghost) :
    Prop where
  inv : MachineInv D Valid held m roots g
  idle :
    ∀ r js j e, r ∈ roots → OkPath 3 js → js.length = 3 →
      leafAt (entries m.mem) r js j = some e → Idle alloc m.pmm g (frameOf e)

/-- Frames that are owned by their paths are idle. -/
theorem dataInv_of_owned
    (hf : FreshPages alloc Valid held) (h : MachineInv 4 Valid held m roots g) :
    DataInv 4 alloc Valid held m roots g := by
  refine ⟨h, ?_⟩
  intro r js j e hr hjs hlen hleaf
  obtain ⟨howner, htable⟩ := not_table_of_leafAt h.spaces hr hjs hlen hleaf
  have hheld := h.spaces.owner_held (frameOf e) (by rw [howner]; simp)
  exact ⟨hf.retained h.valid hheld, htable⟩

theorem DataInv.three
    (h : DataInv D alloc Valid held m roots g) : DataInv 3 alloc Valid held m roots g :=
  ⟨⟨h.inv.valid, h.inv.kernel, h.inv.spaces.three⟩, h.idle⟩

/-- A frame `p` with the contents of `mem'` has been mapped at page `v`. -/
structure FreshMapped (D : Nat) (alloc : σ → Nat × σ) (Valid : σ → Prop)
    (held : σ → Set Nat) (roots : Set Nat) (m : Machine σ) (g : Ghost)
    (mem' : Store) (r v p flags : Nat) (m' : Machine σ) (g' : Ghost) :
    Prop where
  inv : MachineInv D Valid held m' roots g'
  slot : index v 39 ≠ 0
  lt : p < 2 ^ 40
  fresh : p ∉ held m.pmm
  pmm : ∃ k, m'.pmm = (fun s => (alloc s).2)^[k] (alloc m.pmm).2
  frame : Idle alloc m'.pmm g' p
  contents : ∀ x, x / 4096 = p → m'.mem x = mem' x
  others :
    ∀ n, Idle alloc m.pmm g n →
      n ≠ p ∧ Idle alloc m'.pmm g' n ∧ ∀ x, x / 4096 = n → m'.mem x = m.mem x
  leaves :
    ∀ r' js j, r' ∈ roots → OkPath 3 js → js.length = 3 →
      leafAt (entries m'.mem) r' js j =
        if r' = r ∧ js = pathOf v ∧ j = index v 12 then
          if isPresent (leafEntry (p * 4096) flags) then
            some (leafEntry (p * 4096) flags)
          else none
        else
          leafAt (entries m.mem) r' js j

/-- Bytes written into a frame that is not held change no leaf. -/
theorem leafAt_of_sameOutside
    (h : SpacesInv D (entries mem) roots heldNow g) (hp : ¬ g.Table p)
    (hmem : SameOutside p mem mem') (hr : r ∈ roots) (hjs : OkPath 3 js) (j : Fin 512) :
    leafAt (entries mem') r js j = leafAt (entries mem) r js j := by
  exact
    h.leafAt_congr (fun _ hn => entries_of_sameOutside hp hmem hn) hr hjs j

/-- Bytes written into a frame that holds no table keep the invariant. -/
theorem DataInv.write
    (hD : D ≤ 4) (h : DataInv D alloc Valid held m roots g) (hp : ¬ g.Table p)
    (hmem : SameOutside p m.mem mem') :
    DataInv D alloc Valid held { m with mem := mem' } roots g := by
  refine ⟨⟨h.inv.valid, h.inv.kernel, ?_⟩, ?_⟩
  · exact
      h.inv.spaces.congr hD (subset_refl _)
        (fun _ hn => entries_of_sameOutside hp hmem hn)
  · intro r js j e hr hjs hlen hleaf
    rw [leafAt_of_sameOutside h.inv.spaces hp hmem hr hjs j] at hleaf
    exact h.idle r js j e hr hjs hlen hleaf

/-- A failed allocation only changes the allocator. -/
theorem DataInv.allocFailed
    (hf : FreshPages alloc Valid held) (hD : D ≤ 4)
    (h : DataInv D alloc Valid held m roots g) :
    DataInv D alloc Valid held { m with pmm := (alloc m.pmm).2 } roots g := by
  refine ⟨⟨hf.valid _ h.inv.valid, h.inv.kernel, ?_⟩, ?_⟩
  · exact
      h.inv.spaces.congr hD (hf.keeps _ h.inv.valid) (fun _ _ => rfl)
  · intro r js j e hr hjs hlen hleaf
    obtain ⟨hretained, htable⟩ := h.idle r js j e hr hjs hlen hleaf
    exact ⟨hretained.next, htable⟩

/-- The new leaf leads to the new frame, all others to frames that stay idle. -/
theorem FreshMapped.dataInv
    (hm : FreshMapped D alloc Valid held roots m g mem' r v p flags m' g')
    (h : DataInv D alloc Valid held m roots g) :
    DataInv D alloc Valid held m' roots g' := by
  refine ⟨hm.inv, ?_⟩
  intro r' js j e hr' hjs hlen hleaf
  rw [hm.leaves r' js j hr' hjs hlen] at hleaf
  split_ifs at hleaf
  · have hlt := hm.lt
    obtain ⟨_, hframe, _⟩ := @leafEntry_spec (p * 4096) flags (by omega)
    rw [Option.some.injEq] at hleaf
    rw [← hleaf, hframe, Nat.mul_div_cancel _ (by decide)]
    exact hm.frame
  · exact (hm.others _ (h.idle r' js j e hr' hjs hlen hleaf)).2.1

/--
The common part of all four callers: take a frame, put data into it, map it.
-/
theorem mapFresh_ok
    (hf : FreshPages alloc Valid held) (hD : D ≤ 4)
    (h : MachineInv D Valid held m roots g) (hne : (alloc m.pmm).1 ≠ 0)
    (hp : (alloc m.pmm).1 = p * 4096) (hmem : SameOutside p m.mem mem') (hr : r ∈ roots)
    (hrun : vmmMapPage alloc { m with mem := mem', pmm := (alloc m.pmm).2 }
      (r * 4096) v (p * 4096) flags = .ok m') :
    ∃ g', FreshMapped D alloc Valid held roots m g mem' r v p flags m' g' := by
  obtain ⟨q, hq, htaken⟩ := hf.frame h.valid hne
  have hqp : q = p := by omega
  subst hqp
  have hnot := h.spaces.not_table_of_not_held htaken.fresh
  have hunused := h.spaces.unused_of_not_held htaken.fresh
  have hinv : MachineInv D Valid held
      { m with mem := mem', pmm := (alloc m.pmm).2 } roots g :=
    { valid := hf.valid _ h.valid
      kernel := h.kernel
      spaces :=
        h.spaces.congr hD htaken.keeps
          (fun _ hn => entries_of_sameOutside hnot hmem hn) }
  have hdepth : D = 3 ∨ D = 4 := by
    have hle := h.spaces.depth
    omega
  obtain ⟨hv, _, ⟨g', hg', hidle⟩, hleaves⟩ :=
    vmmMapPage_ok hf hD hinv hr
      (hdepth.imp_right
        (fun h4 => ⟨h4, q, rfl, htaken.lt, hunused, htaken.taken⟩)) hrun
  have hframe :=
    hidle q ⟨hf.retained (hf.valid _ h.valid) htaken.taken, hnot⟩
  refine
    ⟨g',
      { inv := hg'
        slot := hv
        lt := htaken.lt
        fresh := htaken.fresh
        pmm := vmmMapPage_pmm hf hD hinv hr hrun
        frame := hframe.1
        contents := hframe.2
        others := ?_
        leaves := ?_ }⟩
  · intro n hn
    have hnq : n ≠ q := by
      have hnow := hn.1.now hne
      rw [hp, Nat.mul_div_cancel _ (by decide)] at hnow
      exact hnow.symm
    obtain ⟨hthen, hbytes⟩ := hidle n ⟨hn.1.next, hn.2⟩
    refine ⟨hnq, hthen, fun x hx => ?_⟩
    rw [hbytes x hx]
    exact hmem x (hx ▸ hnq)
  · intro r' js j hr' hjs hlen
    rw [hleaves r' js j hr' hjs hlen]
    split_ifs
    · rfl
    · rfl
    · exact leafAt_of_sameOutside h.spaces hnot hmem hr' hjs j

end Data

section Loader

theorem vmmMapPage_of_mapPage
    {paddr : Nat} (h : mapPage alloc m cr3 v paddr flags = .ok m') :
    vmmMapPage alloc m cr3 v paddr flags = .ok m' := by
  unfold mapPage at h
  cases hmap : vmmMapPage alloc m cr3 v paddr flags with
  | ok m₁ =>
      rw [hmap] at h
      cases h
      rfl
  | error e =>
      rw [hmap] at h
      cases h

/-- The copied part of a segment stays inside the page. -/
theorem sameOutside_copySegmentBytes
    (mem : Store) (elfData page p : Nat) (ph : Phdr) :
    SameOutside p mem (copySegmentBytes mem elfData page (p * 4096) ph) := by
  have hsize : pmmPageSize = 4096 := rfl
  have hmod : (page + pmmPageSize) % 2 ^ 64 ≤ page + pmmPageSize :=
    Nat.mod_le _ _
  unfold copySegmentBytes
  dsimp only
  split_ifs
  all_goals
    first
    | exact fun x _ => rfl
    | apply sameOutside_copyIn <;> omega

/-- A page of a segment is a fresh frame with the segment's bytes. -/
theorem loadPage_fresh
    (hf : FreshPages alloc Valid held) (hD : D ≤ 4)
    (h : MachineInv D Valid held m roots g) {page : Nat} (hr : r ∈ roots)
    (hrun : loadPage alloc m elfData (r * 4096) i flags page = .ok m') :
    (alloc m.pmm).1 ≠ 0 ∧
      ∃ p g', (alloc m.pmm).1 = p * 4096 ∧
        FreshMapped D alloc Valid held roots m g
          (copySegmentBytes (fill m.mem (p * 4096) pmmPageSize 0) elfData page
            (p * 4096)
            (phdrAt (fill m.mem (p * 4096) pmmPageSize 0) elfData i))
          r page p flags m' g' := by
  unfold loadPage at hrun
  dsimp only at hrun
  split_ifs at hrun with hne
  obtain ⟨p, hp, _⟩ := hf.frame h.valid hne
  rw [hp] at hrun
  obtain ⟨g', hg'⟩ :=
    mapFresh_ok hf hD h hne hp
      ((sameOutside_fill m.mem p).trans
        (sameOutside_copySegmentBytes _ elfData page p _))
      hr (vmmMapPage_of_mapPage hrun)
  exact ⟨hne, p, g', hp, hg'⟩

section Preserved

/-- What every page keeps, the loop over the pages of a segment keeps. -/
theorem loadPages_preserves
    (n : Nat) :
    ∀ page m,
      (∀ m m' k, k < n → Q m →
        loadPage alloc m elfData pml4 i flags (page + k * pmmPageSize) = .ok m' →
          Q m') →
      Q m → loadPages alloc elfData pml4 i flags n page m = .ok m' → Q m' := by
  induction n with
  | zero =>
      intro page m _ h hrun
      simp only [loadPages, Except.ok.injEq] at hrun
      subst hrun
      exact h
  | succ n ih =>
      intro page m hpage h hrun
      rw [loadPages] at hrun
      obtain ⟨m₁, hfirst, hrun⟩ := bind_eq_ok.mp hrun
      have h₁ : Q m₁ :=
        hpage m m₁ 0 (Nat.succ_pos n) h (by rwa [Nat.zero_mul, Nat.add_zero])
      refine ih _ m₁ (fun m m' k hk hm hrun => ?_) h₁ hrun
      refine hpage m m' (k + 1) (Nat.succ_lt_succ hk) hm ?_
      rwa [Nat.succ_mul, Nat.add_comm (k * _), ← Nat.add_assoc]

/-- The loop over the headers visits the machines that its first rounds give. -/
theorem loadSegments_preserves
    (fuel : Nat) :
    ∀ i m,
      (∀ k m₁ m₂, loadSegments alloc elfData elfSize pml4 k i m = .ok m₁ →
        i + k < imageField m₁.mem elfData 56 2 → Q m₁ →
        loadSegment alloc m₁ elfData elfSize pml4 (i + k) = .ok m₂ → Q m₂) →
      Q m → loadSegments alloc elfData elfSize pml4 fuel i m = .ok m' →
        Q m' := by
  induction fuel with
  | zero =>
      intro i m _ h hrun
      simp only [loadSegments, Except.ok.injEq] at hrun
      subst hrun
      exact h
  | succ fuel ih =>
      intro i m hsegment h hrun
      rw [loadSegments] at hrun
      split_ifs at hrun with hlt
      · obtain ⟨m₁, hfirst, hrun⟩ := bind_eq_ok.mp hrun
        have h₁ : Q m₁ := hsegment 0 m m₁ rfl hlt h hfirst
        refine ih _ m₁ (fun k m₂ m₃ hreached hk hm hrun => ?_) h₁ hrun
        rw [Nat.add_assoc, Nat.add_comm 1] at hk hrun
        refine hsegment (k + 1) m₂ m₃ ?_ hk hm hrun
        rw [loadSegments, if_pos hlt, hfirst]
        exact hreached
      · simp only [Except.ok.injEq] at hrun
        subst hrun
        exact h

end Preserved

/-- One round of the loop over the headers is a loop over pages, or nothing. -/
theorem loadSegment_eq_ok
    (h : loadSegment alloc m elfData elfSize pml4 i = .ok m') :
    m' = m ∨
      ((phdrAt m.mem elfData i).type = ptLoad ∧
        loadPages alloc elfData pml4 i (segmentFlags (phdrAt m.mem elfData i))
          ((pageAlignUp (((phdrAt m.mem elfData i).vaddr +
            (phdrAt m.mem elfData i).memsz) % 2 ^ 64) -
              pageAlignDown (phdrAt m.mem elfData i).vaddr) / pmmPageSize)
          (pageAlignDown (phdrAt m.mem elfData i).vaddr) m = .ok m') := by
  unfold loadSegment at h
  dsimp only at h
  split_ifs at h with hload
  · simp only [Except.ok.injEq] at h
    exact Or.inl h.symm
  · exact Or.inr ⟨not_not.mp hload, h⟩

theorem loadSegments_ok
    (hf : FreshPages alloc Valid held) (hD : D ≤ 4)
    (h : DataInv D alloc Valid held m roots g) {fuel : Nat} (hr : r ∈ roots)
    (hrun : loadSegments alloc elfData elfSize (r * 4096) fuel i m = .ok m') :
    ∃ g', DataInv D alloc Valid held m' roots g' := by
  refine
    loadSegments_preserves
      (Q := fun m => ∃ g, DataInv D alloc Valid held m roots g) fuel i m ?_ ⟨g, h⟩
      hrun
  intro k m₁ m₂ _ _ h₁ hsegment
  rcases loadSegment_eq_ok hsegment with rfl | ⟨_, hpages⟩
  · exact h₁
  · refine
      loadPages_preserves
        (Q := fun m => ∃ g, DataInv D alloc Valid held m roots g) _ _ m₁ ?_ h₁
        hpages
    rintro m m' k _ ⟨g, h⟩ hpage
    obtain ⟨_, p, g', _, hmapped⟩ := loadPage_fresh hf hD h.inv hr hpage
    exact ⟨g', hmapped.dataInv h⟩

/-- The stack loop runs once and returns the frame it mapped. -/
theorem loadStack_ok
    (hf : FreshPages alloc Valid held) (hD : D ≤ 4)
    (h : DataInv D alloc Valid held m roots g) {top : Nat} (hr : r ∈ roots)
    (hrun : loadStack alloc (r * 4096) elfUserStackPages 0 0 m = .ok (top, m')) :
    ∃ p g', top = p * 4096 ∧
      FreshMapped D alloc Valid held roots m g
        (fill m.mem (p * 4096) pmmPageSize 0) r (elfUserStackTop - pmmPageSize) p
        vmmMapWrite m' g' := by
  rw [show elfUserStackPages = 0 + 1 from rfl, loadStack] at hrun
  obtain ⟨⟨phys, m₁⟩, hpage, hrun⟩ := bind_eq_ok.mp hrun
  simp only [loadStack, Except.ok.injEq, Prod.mk.injEq] at hrun
  obtain ⟨rfl, rfl⟩ := hrun
  unfold loadStackPage at hpage
  dsimp only at hpage
  split_ifs at hpage with hne
  obtain ⟨m₂, hmap, hret⟩ := bind_eq_ok.mp hpage
  simp only [Except.ok.injEq, Prod.mk.injEq] at hret
  obtain ⟨rfl, rfl⟩ := hret
  obtain ⟨p, hp, _⟩ := hf.frame h.inv.valid hne
  rw [hp] at hmap
  obtain ⟨g', hg'⟩ :=
    mapFresh_ok hf hD h.inv hne hp (sameOutside_fill m.mem p) hr
      (vmmMapPage_of_mapPage hmap)
  exact ⟨p, g', hp, hg'⟩

end Loader

section Argv

/--
The string loop stays inside the page: the strings end where the pointer array
begins, and the array ends with the page.
-/
theorem sameOutside_copyArgs
    {ptrArray : Nat} (hlow : p * 4096 ≤ ptrArray) (argv : List (List UInt8)) :
    ∀ i dst vaddr mem, p * 4096 ≤ dst →
      dst + totalStringBytes argv ≤ p * 4096 + 4096 →
      ptrArray + 8 * (i + argv.length) ≤ p * 4096 + 4096 →
        SameOutside p mem (copyArgs ptrArray argv i dst vaddr mem) := by
  induction argv with
  | nil =>
      intro i dst vaddr mem _ _ _
      exact fun x _ => rfl
  | cons arg rest ih =>
      intro i dst vaddr mem hdst hstrings hptrs
      have htotal : totalStringBytes (arg :: rest) =
          argLength arg + totalStringBytes rest := by
        simp [totalStringBytes]
      rw [List.length_cons] at hptrs
      have hcopy : SameOutside p mem
          (copyIn mem dst (argLength arg) (fun k => arg.getD k 0)) :=
        sameOutside_copyIn mem _ hdst (by omega)
      have hptr : SameOutside p _
          (writeLE (copyIn mem dst (argLength arg) (fun k => arg.getD k 0))
            (ptrArray + 8 * i) 8 vaddr) :=
        sameOutside_writeLE _ (by omega) (by omega)
      exact
        (hcopy.trans hptr).trans
          (ih (i + 1) _ _ _ (by omega) (by omega) (by omega))

/-- `write_argv_blob` only writes into the top stack page. -/
theorem sameOutside_writeArgvBlob
    {stackTop argvPtr : Nat}
    (h : writeArgvBlob mem (p * 4096) (elfUserStackTop - pmmPageSize) argv =
      .ok (mem', stackTop, argvPtr)) : SameOutside p mem mem' := by
  have hsize : pmmPageSize = 4096 := rfl
  have htop : elfUserStackTop = 0x8010000000 := rfl
  have hmax : elfArgvMaxTotalBytes = 3072 := rfl
  unfold writeArgvBlob at h
  dsimp only at h
  split_ifs at h with hnone hmany hlarge
  · simp only [Except.ok.injEq, Prod.mk.injEq] at h
    rw [← h.1]
    exact fun x _ => rfl
  · simp only [Except.ok.injEq, Prod.mk.injEq] at h
    rw [← h.1]
    have hblob : blobSize argv ≤ 3072 := by
      unfold blobSize
      omega
    have harea : stringAreaBytes argv + (argv.length + 1) * 8 ≤ blobSize argv := by
      unfold blobSize blobBytes
      omega
    have hstrings : totalStringBytes argv ≤ stringAreaBytes argv := by
      unfold stringAreaBytes
      omega
    have hargs :=
      sameOutside_copyArgs
        (p := p)
        (show p * 4096 ≤ p * 4096 +
          (elfUserStackTop - blobSize argv - (elfUserStackTop - pmmPageSize)) +
            stringAreaBytes argv by omega)
        argv 0
        (p * 4096 +
          (elfUserStackTop - blobSize argv - (elfUserStackTop - pmmPageSize)))
        (elfUserStackTop - blobSize argv) mem (by omega) (by omega) (by omega)
    refine hargs.trans ?_
    exact sameOutside_writeLE _ (by omega) (by omega)

end Argv

section Processes

/-- The three stages of a successful load. -/
theorem elfLoadUserProgram_eq_ok
    (h : elfLoadUserProgram alloc m elfData elfSize cr3 argv = .ok (out, m')) :
    ∃ m₁ m₂ top mem,
      loadSegments alloc elfData elfSize cr3 (2 ^ 16) 0 m = .ok m₁ ∧
      loadStack alloc cr3 elfUserStackPages 0 0 m₁ = .ok (top, m₂) ∧
      writeArgvBlob m₂.mem top (elfUserStackTop - pmmPageSize) argv =
        .ok (mem, out.stackTop, out.argvPtr) ∧
      out.argc = argv.length ∧ m' = { m₂ with mem := mem } := by
  unfold elfLoadUserProgram at h
  split_ifs at h
  obtain ⟨m₁, hsegments, h⟩ := bind_eq_ok.mp h
  obtain ⟨⟨top, m₂⟩, hstack, h⟩ := bind_eq_ok.mp h
  obtain ⟨⟨mem, stackTop, argvPtr⟩, hblob, h⟩ := bind_eq_ok.mp h
  simp only [Except.ok.injEq, Prod.mk.injEq] at h
  obtain ⟨rfl, rfl⟩ := h
  exact ⟨m₁, m₂, top, mem, hsegments, hstack, hblob, rfl, rfl⟩

theorem elfLoadUserProgram_ok
    (hf : FreshPages alloc Valid held) (hD : D ≤ 4)
    (h : DataInv D alloc Valid held m roots g) (hr : r ∈ roots)
    (hrun : elfLoadUserProgram alloc m elfData elfSize (r * 4096) argv =
      .ok (out, m')) : ∃ g', DataInv D alloc Valid held m' roots g' := by
  obtain ⟨m₁, m₂, _, mem, hsegments, hstack, hblob, _, rfl⟩ :=
    elfLoadUserProgram_eq_ok hrun
  obtain ⟨g₁, h₁⟩ := loadSegments_ok hf hD h hr hsegments
  obtain ⟨p, g₂, rfl, h₂⟩ := loadStack_ok hf hD h₁ hr hstack
  exact
    ⟨g₂,
      (h₂.dataInv h₁).write hD h₂.frame.2 (sameOutside_writeArgvBlob hblob)⟩

section Growth

/--
What `elf_handle_stack_fault` can do: refuse at once, find no frame, or map a
cleared frame at a missing page of the stack.
-/
theorem elfHandleStackFault_cases
    (hrun : elfHandleStackFault alloc m pml4 faultAddr errorCode fromRing3 =
      .ok (ret, m')) :
    ret = 0 ∧ m' = m ∨
    ret = 0 ∧ (alloc m.pmm).1 = 0 ∧ m' = { m with pmm := (alloc m.pmm).2 } ∨
    ret = 1 ∧ fromRing3 = true ∧ errorCode &&& pfErrorPresent = 0 ∧
      elfUserStackTop - elfUserStackMaxPages * pmmPageSize ≤
        pageAlignDown faultAddr ∧
      pageAlignDown faultAddr < elfUserStackTop ∧
      vmmPagePresent m.mem pml4 (pageAlignDown faultAddr) = false ∧
      (alloc m.pmm).1 ≠ 0 ∧
      vmmMapPage alloc
          { m with
            mem := fill m.mem (alloc m.pmm).1 pmmPageSize 0
            pmm := (alloc m.pmm).2 }
          pml4 (pageAlignDown faultAddr) (alloc m.pmm).1 vmmMapWrite = .ok m' := by
  unfold elfHandleStackFault at hrun
  dsimp only at hrun
  split_ifs at hrun with hring herror hrange hpresent hnull
  case neg =>
    obtain ⟨m₁, hmap, hret⟩ := bind_eq_ok.mp hrun
    simp only [Except.ok.injEq, Prod.mk.injEq] at hret
    obtain ⟨rfl, rfl⟩ := hret
    obtain ⟨hlow, hhigh⟩ := not_or.mp hrange
    exact
      Or.inr (Or.inr ⟨rfl, Bool.eq_true_of_not_eq_false hring, not_not.mp herror,
        not_lt.mp hlow, not_le.mp hhigh, Bool.eq_false_iff.mpr hpresent, hnull, hmap⟩)
  all_goals
    simp only [Except.ok.injEq, Prod.mk.injEq] at hrun
    obtain ⟨rfl, rfl⟩ := hrun
  · exact Or.inl ⟨rfl, rfl⟩
  · exact Or.inl ⟨rfl, rfl⟩
  · exact Or.inl ⟨rfl, rfl⟩
  · exact Or.inl ⟨rfl, rfl⟩
  · exact Or.inr (Or.inl ⟨rfl, hnull, rfl⟩)

end Growth

variable (hf : FreshPages alloc Valid held) (hD : D ≤ 4)
include hf hD

theorem DataInv.mapCleared
    (h : DataInv D alloc Valid held m roots g) (hr : r ∈ roots)
    (hne : (alloc m.pmm).1 ≠ 0)
    (hmap : vmmMapPage alloc
      { m with
        mem := fill m.mem (alloc m.pmm).1 pmmPageSize 0
        pmm := (alloc m.pmm).2 }
      (r * 4096) v (alloc m.pmm).1 vmmMapWrite = .ok m') :
    ∃ g', DataInv D alloc Valid held m' roots g' := by
  obtain ⟨p, hp, _⟩ := hf.frame h.inv.valid hne
  rw [hp] at hmap
  obtain ⟨g', hg'⟩ :=
    mapFresh_ok hf hD h.inv hne hp (sameOutside_fill m.mem p) hr hmap
  exact ⟨g', hg'.dataInv h⟩

theorem elfHandleStackFault_ok
    (h : DataInv D alloc Valid held m roots g) (hr : r ∈ roots)
    (hrun : elfHandleStackFault alloc m (r * 4096) faultAddr errorCode
      fromRing3 = .ok (ret, m')) : ∃ g', DataInv D alloc Valid held m' roots g' := by
  rcases elfHandleStackFault_cases hrun with
    ⟨_, rfl⟩ | ⟨_, _, rfl⟩ | ⟨_, _, _, _, _, _, hne, hmap⟩
  · exact ⟨g, h⟩
  · exact ⟨g, h.allocFailed hf hD⟩
  · exact h.mapCleared hf hD hr hne hmap

theorem sbrkPages_ok
    (hr : r ∈ roots) {ok : Bool} (n : Nat) :
    ∀ p m g, DataInv D alloc Valid held m roots g →
      sbrkPages alloc (r * 4096) n p m = .ok (ok, m') →
        ∃ g', DataInv D alloc Valid held m' roots g' := by
  induction n with
  | zero =>
      intro p m g h hrun
      simp only [sbrkPages, Except.ok.injEq, Prod.mk.injEq] at hrun
      rw [← hrun.2]
      exact ⟨g, h⟩
  | succ n ih =>
      intro p m g h hrun
      rw [sbrkPages] at hrun
      dsimp only at hrun
      split_ifs at hrun with _ hne
      · exact ih _ m g h hrun
      · simp only [Except.ok.injEq, Prod.mk.injEq] at hrun
        rw [← hrun.2]
        exact ⟨g, h.allocFailed hf hD⟩
      · obtain ⟨m₁, hmap, hrun⟩ := bind_eq_ok.mp hrun
        obtain ⟨g₁, h₁⟩ := h.mapCleared hf hD hr hne hmap
        exact ih _ m₁ g₁ h₁ hrun

theorem sysSbrk_ok
    (h : DataInv D alloc Valid held m roots g) (hr : r ∈ roots)
    (hrun : sysSbrk alloc m (r * 4096) oldBrk increment =
      .ok (rax, brk, m')) : ∃ g', DataInv D alloc Valid held m' roots g' := by
  unfold sysSbrk at hrun
  split_ifs at hrun
  · simp only [Except.ok.injEq, Prod.mk.injEq] at hrun
    rw [← hrun.2.2]
    exact ⟨g, h⟩
  · obtain ⟨⟨ok, m₁⟩, hpages, hrun⟩ := bind_eq_ok.mp hrun
    have h₁ := sbrkPages_ok hf hD hr _ _ m g h hpages
    dsimp only at hrun
    split_ifs at hrun
    all_goals
      simp only [Except.ok.injEq, Prod.mk.injEq] at hrun
      rw [← hrun.2.2]
      exact h₁

end Processes

end Elf
end RebornOS
