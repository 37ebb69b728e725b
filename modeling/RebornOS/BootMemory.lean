import RebornOS.Heap
import RebornOS.LowMemory

/-!
# What the firmware's memory map must look like

Two address ranges are constants of the kernel.  `vmm_init` identity-maps the
first 4 GiB, and every caller of `pmm_alloc_page` uses the returned address as
a pointer.  `heap_init` takes the 16 MiB from 16 MiB on.  Neither looks at the
memory map, while `pmm_init` takes its pages and the place of its bitmap from
there.

The two main results say for which maps this goes well: `pages_addressable_iff`
for the identity map and `heap_exclusive_iff` for the heap.  Both need to know
which pages are handed out and when: every free page is handed out after
finitely many allocations (`exists_allocPage_eq`), and the first pages are
handed out in ascending order (`Ascending`).
-/

namespace RebornOS
namespace BootMemory

open PageWalk Vmm Pmm LowMemory LabeledRun Fallible

variable {map : List Descriptor} {old : Bitmap} {region : Descriptor}
  {mem : ByteStore.Store} {k n p : Nat} {t : Pmm.Traced} {s : Pmm.State}
  {m : Machine Pmm.State}

section Order

theorem afterAllocs_succ
    (s : Pmm.State) (n : Nat) :
    afterAllocs s (n + 1) = afterAllocs (pmmAllocPage s).2 n :=
  Function.iterate_succ_apply _ n s

/--
Every free page is handed out sooner or later.  The induction is on the number
of free pages, which each allocation lowers by one.
-/
theorem exists_allocPage_eq
    (hp : p < s.bitmapBits) (hclear : bitmapTest s.bitmap p = false) :
    ∃ n, (pmmAllocPage (afterAllocs s n)).1 = p * pageSize := by
  induction hcount : clearCount s.bitmap s.bitmapBits generalizing s with
  | zero =>
      have hpos : 0 < clearCount s.bitmap s.bitmapBits :=
        FiniteCount.count_pos_iff.mpr ⟨p, hp, hclear⟩
      omega
  | succ c ih =>
      obtain ⟨bit, hbit, hfree, halloc⟩ := pmmAllocPage_free hp hclear
      by_cases hbp : bit = p
      · subst hbp
        exact ⟨0, congrArg Prod.fst halloc⟩
      · have hflip := clearCount_set hbit hfree
        have hstill : bitmapTest (pmmAllocPage s).2.bitmap p = false := by
          rw [halloc]
          simp [hclear, Ne.symm hbp]
        have hbits : (pmmAllocPage s).2.bitmapBits = s.bitmapBits := by
          rw [halloc]
        have hless :
            clearCount (pmmAllocPage s).2.bitmap (pmmAllocPage s).2.bitmapBits =
              c := by
          rw [halloc]
          simp only
          omega
        obtain ⟨n, hn⟩ := ih (by rw [hbits]; exact hp) hstill hless
        exact ⟨n + 1, by rw [afterAllocs_succ]; exact hn⟩

/-- A page that some allocation marks used is the one it returns. -/
theorem exists_allocPage_of_set
    (hclear : bitmapTest s.bitmap p = false)
    (hset : bitmapTest (afterAllocs s n).bitmap p = true) :
    ∃ i, i < n ∧ (pmmAllocPage (afterAllocs s i)).1 = p * pageSize := by
  induction n generalizing s with
  | zero =>
      rw [show afterAllocs s 0 = s from rfl, hclear] at hset
      cases hset
  | succ n ih =>
      rw [afterAllocs_succ] at hset
      by_cases hfirst : bitmapTest (pmmAllocPage s).2.bitmap p = false
      · obtain ⟨i, hi, hpage⟩ := ih hfirst hset
        exact ⟨i + 1, by omega, by rw [afterAllocs_succ]; exact hpage⟩
      · rcases pmmAllocPage_cases s with h | ⟨bit, _, _, h⟩
        · rw [h] at hfirst
          exact absurd hclear hfirst
        · rw [h] at hfirst
          simp only [bitmapTest_set, hclear, Bool.or_false,
            decide_eq_false_iff_not, not_not] at hfirst
          refine ⟨0, by omega, ?_⟩
          rw [show afterAllocs s 0 = s from rfl, h, hfirst]

theorem ascending_allocPage
    (hasc : Ascending s) : Ascending (pmmAllocPage s).2 := by
  rcases pmmAllocPage_cases s with h | ⟨bit, hbit, hclear, _⟩
  · rw [h]
    exact hasc
  · obtain ⟨_, _, _, _, _, _, hnext⟩ := pmmAllocPage_ascending hasc hbit hclear
    exact hnext

theorem ascending_afterAllocs
    (hasc : Ascending s) (n : Nat) : Ascending (afterAllocs s n) := by
  induction n generalizing s with
  | zero =>
      exact hasc
  | succ n ih =>
      rw [afterAllocs_succ]
      exact ih (ascending_allocPage hasc)

/-- The first `n` pages lie below page `w` when `n` pages are free there. -/
theorem allocs_below_iff
    (hasc : Ascending s) (w n : Nat) :
    (∀ i, i < n →
        (pmmAllocPage (afterAllocs s i)).1 ≠ 0 ∧
        (pmmAllocPage (afterAllocs s i)).1 < w * pageSize) ↔
      n ≤ clearCount s.bitmap (min w s.bitmapBits) := by
  induction n generalizing s with
  | zero =>
      simp
  | succ n ih =>
      have hsplit :
          (∀ i, i < n + 1 →
            (pmmAllocPage (afterAllocs s i)).1 ≠ 0 ∧
            (pmmAllocPage (afterAllocs s i)).1 < w * pageSize) ↔
          ((pmmAllocPage s).1 ≠ 0 ∧ (pmmAllocPage s).1 < w * pageSize) ∧
            n ≤ clearCount (pmmAllocPage s).2.bitmap
              (min w (pmmAllocPage s).2.bitmapBits) := by
        rw [← ih (ascending_allocPage hasc)]
        constructor
        · intro h
          refine ⟨h 0 (by omega), fun i hi => ?_⟩
          rw [← afterAllocs_succ]
          exact h (i + 1) (by omega)
        · rintro ⟨hfirst, hrest⟩ i hi
          cases i with
          | zero =>
              exact hfirst
          | succ i =>
              rw [afterAllocs_succ]
              exact hrest i (by omega)
      rw [hsplit]
      -- either way some page below `w` is free, and the lowest one is taken
      have htake : ∀ p, p < min w s.bitmapBits →
          bitmapTest s.bitmap p = false →
          ((pmmAllocPage s).1 ≠ 0 ∧ (pmmAllocPage s).1 < w * pageSize) ∧
          clearCount s.bitmap (min w s.bitmapBits) =
            clearCount (pmmAllocPage s).2.bitmap
              (min w (pmmAllocPage s).2.bitmapBits) + 1 := by
        intro p hp hclear
        obtain ⟨q, hqp, hqclear, haddr, hbits, hbitmap, _⟩ :=
          pmmAllocPage_ascending hasc (by omega) hclear
        have hq := hasc.hint_le q (by omega) hqclear
        have hpos := hasc.hint_pos
        rw [haddr, hbits, hbitmap]
        refine ⟨⟨?_, ?_⟩, clearCount_set (by omega) hqclear⟩
        · unfold pageSize
          omega
        · exact Nat.mul_lt_mul_of_pos_right (by omega) (by decide)
      constructor
      · rintro ⟨⟨hne, hlt⟩, hcount⟩
        rcases pmmAllocPage_cases s with h | ⟨bit, hbit, hclear, h⟩
        · rw [h] at hne
          exact absurd rfl hne
        · have hbw : bit < w := by
            rw [h] at hlt
            exact Nat.lt_of_mul_lt_mul_right hlt
          have hflip := (htake bit (by omega) hclear).2
          omega
      · intro hcount
        obtain ⟨p, hp, hclear⟩ :=
          FiniteCount.count_pos_iff.mp (show 0 < clearCount s.bitmap (min w s.bitmapBits) by omega)
        obtain ⟨hfirst, hflip⟩ := htake p hp hclear
        exact ⟨hfirst, by omega⟩

end Order

section IdentityMap

/-- End of the range that `vmm_init` identity-maps. -/
def identityLimit : Nat := identityMapGib * gib

/-- In slot 0, exactly the addresses below the limit are mapped, to themselves. -/
theorem identityMapped_iff
    (hs : Physical s)
    (hvmm : vmmInit pmmAllocPage { mem := mem, kernelPml4 := k, pmm := s } =
      .ok m) {v : Nat} (hv : v < 2 ^ 39) :
    (∃ t, translateAddr m.mem m.kernelPml4 v = some t ∧ t.phys = v) ↔
      v < identityLimit := by
  rw [translate_kernel hs hvmm hv]
  unfold lowTranslation
  rw [show identityLimit = 2 ^ 32 from rfl]
  split_ifs with hlow
  · exact ⟨fun _ => hlow, fun _ => ⟨_, rfl, rfl⟩⟩
  · constructor
    · rintro ⟨t, ht, _⟩
      cases ht
    · intro h
      exact absurd h hlow

theorem identityMapped_iff_sixteenPages :
    ∃ s m, Physical s ∧ vmmInit pmmAllocPage ⟨fun _ => 0, 0, s⟩ = .ok m ∧
      ((∃ t, translateAddr m.mem m.kernelPml4 4096 = some t ∧ t.phys = 4096) ↔
        4096 < identityLimit) := by
  have hrun : (pmmInit sixteenPages (fun _ => 0#8)).toOption.any (fun s =>
      s.bitmapBits = 17 ∧
        (vmmInit pmmAllocPage ⟨fun _ => 0, 0, s⟩).toOption.isSome) := by
    decide
  obtain ⟨s, _, hspec⟩ := any_toOption.mp hrun
  obtain ⟨hbits, hsome⟩ := of_decide_eq_true hspec
  obtain ⟨m, hm⟩ := Option.isSome_iff_exists.mp hsome
  have hs : Physical s := by
    unfold Physical
    omega
  have hvmm := toOption_eq_some.mp hm
  exact ⟨s, m, hs, hvmm, identityMapped_iff hs hvmm (by decide)⟩

/-- Every page handed out, and the bitmap, lie in the identity-mapped range. -/
structure Addressable (map : List Descriptor) (s : Pmm.State) : Prop where
  pages :
    ∀ n, (pmmAllocPage (afterAllocs s n)).1 ≠ 0 →
      Set.Ico (pmmAllocPage (afterAllocs s n)).1
          ((pmmAllocPage (afterAllocs s n)).1 + pageSize) ⊆
        Set.Iio identityLimit
  bitmap :
    Set.Ico s.bitmapAddr (s.bitmapAddr + bitmapBytes map) ⊆
      Set.Iio identityLimit

/-- The bitmap's place and all usable pages are below the limit. -/
structure FitsIdentityMap (map : List Descriptor) (region : Descriptor) :
    Prop where
  bitmap :
    Set.Ico region.physicalStart (region.physicalStart + bitmapBytes map) ⊆
      Set.Iio identityLimit
  usable :
    ∀ p, p < bitmapBits map → Covered map p → p * pageSize < identityLimit

/-- A bitmap below the limit occupies no page above it. -/
theorem FitsIdentityMap.not_inBitmap
    (hbits : p < bitmapBits map) (hbitmap :
      Set.Ico region.physicalStart (region.physicalStart + bitmapBytes map) ⊆
        Set.Iio identityLimit) (hp : identityLimit ≤ p * pageSize) :
    ¬ InBitmap map region p := by
  have hlimit : identityLimit = 2 ^ 32 := rfl
  have hpos : 0 < bitmapBytes map := by
    unfold bitmapBytes
    omega
  have hlast :=
    hbitmap (show region.physicalStart + (bitmapBytes map - 1) ∈ _ from
      ⟨by omega, by omega⟩)
  rw [Set.mem_Iio] at hlast
  unfold InBitmap bitmapPages
  unfold pageSize at *
  omega

/--
**Which memory maps keep the handed-out pages addressable.**  For every map
that `pmm_init` accepts: every page that a run of `pmm_alloc_page` returns and
the bitmap itself lie in the range that `vmm_init` identity-maps, if and only
if the bitmap was placed there and no usable page lies above it.
-/
theorem pages_addressable_iff
    (hinit : pmmInit map old = .ok s)
    (hregion : bitmapRegion map = some region) :
    Addressable map s ↔ FitsIdentityMap map region := by
  obtain ⟨region', hregion', haddr, hbits, _, _⟩ := pmmInit_eq_ok hinit
  rw [hregion, Option.some.injEq] at hregion'
  subst hregion'
  have hlimit : identityLimit = 2 ^ 32 := rfl
  have hsize : pageSize = 4096 := rfl
  constructor
  · intro h
    have hbitmap := h.bitmap
    rw [haddr] at hbitmap
    refine ⟨hbitmap, ?_⟩
    intro p hp hcovered
    by_contra habove
    have hnot := FitsIdentityMap.not_inBitmap hp hbitmap (by omega)
    have hzero : p ≠ 0 := by
      rintro rfl
      omega
    rw [← hbits] at hp
    have hclear :=
      (pmmInit_clear_iff hinit hregion hp).mpr ⟨hcovered, hnot, hzero⟩
    obtain ⟨n, hn⟩ := exists_allocPage_eq hp hclear
    have hin := h.pages n
    rw [hn] at hin
    have hmem := hin (by omega) (show p * pageSize ∈ _ from ⟨le_refl _, by omega⟩)
    exact habove hmem
  · intro h
    refine ⟨?_, by rw [haddr]; exact h.bitmap⟩
    intro n hne
    obtain ⟨hbitsn, hmono⟩ := afterAllocs_spec s n
    rcases pmmAllocPage_cases (afterAllocs s n) with
      hnull | ⟨bit, hlt, hclear, halloc⟩
    · rw [hnull] at hne
      exact absurd rfl hne
    · rw [hbitsn] at hlt
      have hgood := (pmmInit_clear_iff hinit hregion hlt).mp (hmono bit hclear)
      rw [hbits] at hlt
      have hbelow := h.usable bit hlt hgood.1
      rw [halloc]
      rintro x ⟨_, hx⟩
      rw [Set.mem_Iio]
      simp only [hsize] at hx hbelow
      omega

/-- With 16 pages from `0x1000` on, everything is addressable. -/
theorem pages_addressable_sixteenPages :
    ∃ s, pmmInit sixteenPages (fun _ => 0#8) = .ok s ∧
      Addressable sixteenPages s := by
  obtain ⟨s, hs⟩ :
      ∃ s, pmmInit sixteenPages (fun _ => 0#8) = .ok s := ⟨_, rfl⟩
  refine
    ⟨s, hs,
      (pages_addressable_iff hs
        (show bitmapRegion sixteenPages = some _ from rfl)).mpr ⟨?_, ?_⟩⟩
  · rintro x ⟨_, hx⟩
    exact lt_trans hx (by decide)
  · intro p hp _
    have hbits : bitmapBits sixteenPages = 17 := rfl
    unfold identityLimit identityMapGib gib pageSize
    omega

/-- 64 pages from `0x1000` on, and one page at 4 GiB. -/
def pageAboveLimit : List Descriptor :=
  [{ memType := conventional, physicalStart := 0x1000, numberOfPages := 64 },
    { memType := conventional, physicalStart := 2 ^ 32, numberOfPages := 1 }]

/--
The page at 4 GiB is usable, so some allocation returns it; no translation
exists for it in the kernel's address space.
-/
theorem page_above_limit_handed_out :
    ∃ s m n, pmmInit pageAboveLimit (fun _ => 0#8) = .ok s ∧
      vmmInit pmmAllocPage (blank s) = .ok m ∧
      (pmmAllocPage (afterAllocs s n)).1 = 2 ^ 32 ∧
      ¬ Addressable pageAboveLimit s ∧
      translateAddr m.mem m.kernelPml4 (2 ^ 32) = none := by
  have hrun :
      (pmmInit pageAboveLimit (fun _ => 0#8)).toOption.any (fun s =>
        bitmapTest s.bitmap (2 ^ 20) = false ∧ s.bitmapBits = 2 ^ 20 + 1 ∧
        (vmmInit pmmAllocPage (blank s)).toOption.isSome) := by
    decide +kernel
  obtain ⟨s, hs, hspec⟩ := any_toOption.mp hrun
  obtain ⟨hclear, hbits, hsome⟩ := of_decide_eq_true hspec
  obtain ⟨m, hm⟩ := Option.isSome_iff_exists.mp hsome
  have hvmm := toOption_eq_some.mp hm
  obtain ⟨n, hn⟩ := exists_allocPage_eq (by omega) hclear
  have haddr : (pmmAllocPage (afterAllocs s n)).1 = 2 ^ 32 := hn
  refine ⟨s, m, n, hs, hvmm, haddr, ?_, ?_⟩
  · intro h
    have hpages := h.pages n
    rw [haddr] at hpages
    have hmem := hpages (by decide) (show 2 ^ 32 ∈ _ from ⟨le_refl _, by decide⟩)
    exact absurd hmem (by decide)
  · rw [translate_kernel (by unfold Physical; omega) hvmm (by decide)]
    rfl

end IdentityMap

section HeapWindow

/-- The bytes `[HEAP_BASE, HEAP_BASE + HEAP_SIZE)`. -/
def heapWindow : Set Nat := Set.Ico Heap.heapBase Heap.heapEnd

/-- `p` is a page of the heap. -/
def InHeap (p : Nat) : Prop := p * pageSize ∈ heapWindow

/-- The first page of the heap. -/
theorem inHeap_first : InHeap 4096 := by
  unfold InHeap heapWindow Heap.heapEnd Heap.heapBase Heap.heapSize pageSize
  simp only [Set.mem_Ico]
  omega

/-- `heap_init`, with its call of `pmm_reserve_region`. -/
def heapInit (m : Machine Pmm.State) : Machine Pmm.State :=
  { m with
    mem := (Heap.heapInit m.mem).mem
    pmm := pmmReserveRegion m.pmm Heap.heapBase Heap.heapSize }

/-- Number of tables that `vmm_init` allocates. -/
def initTables : Nat := 2 + identityMapGib

/-- The first `n` addresses that `pmm_alloc_page` returns. -/
def handedOut (s : Pmm.State) (n : Nat) : List Nat :=
  (List.range n).map (fun i => (pmmAllocPage (afterAllocs s i)).1)

/-- The allocator after boot; the page tables are handed out. -/
def booted (s : Pmm.State) (m : Machine Pmm.State) : Pmm.Traced :=
  { pmm := (heapInit m).pmm, live := handedOut s initTables, reserved := [] }

theorem pmmReserveRegion_bitmapBits
    (s : Pmm.State) (physAddr size : Nat) :
    (pmmReserveRegion s physAddr size).bitmapBits = s.bitmapBits := by
  rfl

/-- A descriptor reports the whole page as usable. -/
def ReportedUsable (map : List Descriptor) (p : Nat) : Prop :=
  ∃ d, d ∈ map ∧ typeIsUsable d.memType = true ∧
    Set.Ico (p * pageSize) (p * pageSize + pageSize) ⊆ d.region

/--
The heap has its memory for itself.  `s` is the allocator after `pmm_init`, `m`
the machine after `vmm_init`; the runs of the last part start after `heap_init`.
-/
structure HeapExclusive
    (map : List Descriptor) (s : Pmm.State) (m : Machine Pmm.State) :
    Prop where
  usable : ∀ p, InHeap p → ReportedUsable map p
  bitmap :
    ∀ x, x ∈ Set.Ico s.bitmapAddr (s.bitmapAddr + bitmapBytes map) →
      x ∉ heapWindow
  tables :
    ∀ a, a ∈ handedOut s initTables →
      ∀ x, x ∈ Set.Ico a (a + pageSize) → x ∉ heapWindow
  later :
    ∀ calls t, runAll Pmm.call (booted s m) calls = some t →
      (pmmAllocPage t.pmm).1 ≠ 0 →
        ∀ x, x ∈ Set.Ico (pmmAllocPage t.pmm).1
            ((pmmAllocPage t.pmm).1 + pageSize) → x ∉ heapWindow

/-- What the map must provide: the heap's pages, and room for the tables. -/
structure RoomForHeap
    (map : List Descriptor) (region : Descriptor) (s : Pmm.State) : Prop where
  usable : ∀ p, InHeap p → ReportedUsable map p
  bitmap :
    ∀ x, x ∈ Set.Ico region.physicalStart
        (region.physicalStart + bitmapBytes map) → x ∉ heapWindow
  tables :
    initTables ≤
      clearCount s.bitmap (min (Heap.heapBase / pageSize) s.bitmapBits)

/-- A page lies inside the heap or outside of it. -/
theorem page_outside_iff
    (p : Nat) :
    (∀ x, x ∈ Set.Ico (p * pageSize) (p * pageSize + pageSize) →
        x ∉ heapWindow) ↔ ¬ InHeap p := by
  unfold InHeap heapWindow Heap.heapEnd Heap.heapBase Heap.heapSize pageSize
  simp only [Set.mem_Ico]
  constructor
  · intro h
    exact h _ ⟨le_refl _, by omega⟩
  · intro h x hx
    omega

/-- The address returned is a multiple of the page size. -/
theorem allocPage_eq_mul
    (s : Pmm.State) :
    (pmmAllocPage s).1 = (pmmAllocPage s).1 / pageSize * pageSize := by
  rcases pmmAllocPage_cases s with h | ⟨bit, _, _, h⟩
  · simp [h]
  · rw [h, Nat.mul_div_cancel _ (by decide)]

section Boot

variable {m' : Machine Pmm.State}

theorem allocTable_pmm
    {a : Nat} (h : allocTable pmmAllocPage m = .ok (a, m')) :
    (pmmAllocPage m.pmm).1 ≠ 0 ∧ m'.pmm = (pmmAllocPage m.pmm).2 := by
  unfold allocTable at h
  dsimp only at h
  split_ifs at h with hnull
  simp only [Except.ok.injEq, Prod.mk.injEq] at h
  rw [← h.2]
  exact ⟨hnull, rfl⟩

/-- The directories take one page each. -/
theorem mapGibs_pmm
    {pdpt : Nat} (h : mapGibs pmmAllocPage m pdpt n = .ok m') :
    m'.pmm = afterAllocs m.pmm n ∧
    ∀ i, i < n → (pmmAllocPage (afterAllocs m.pmm i)).1 ≠ 0 := by
  induction n generalizing m' with
  | zero =>
      simp only [mapGibs, Except.ok.injEq] at h
      rw [← h]
      exact ⟨rfl, fun i hi => absurd hi (by omega)⟩
  | succ n ih =>
      obtain ⟨m₁, hfirst, h⟩ := bind_eq_ok.mp h
      obtain ⟨hpmm, hne⟩ := ih hfirst
      obtain ⟨⟨pd, m₂⟩, halloc, h⟩ := bind_eq_ok.mp h
      obtain ⟨hnull, hpmm₂⟩ := allocTable_pmm halloc
      simp only [Except.ok.injEq] at h
      rw [← h]
      rw [hpmm] at hnull hpmm₂
      refine ⟨?_, ?_⟩
      · rw [afterAllocs, Function.iterate_succ_apply']
        exact hpmm₂
      · intro i hi
        rcases Nat.lt_succ_iff_lt_or_eq.mp hi with hlt | rfl
        · exact hne i hlt
        · exact hnull

/-- `vmm_init` takes six pages. -/
theorem vmmInit_pmm
    (h : vmmInit pmmAllocPage m = .ok m') :
    m'.pmm = afterAllocs m.pmm initTables ∧
    ∀ i, i < initTables → (pmmAllocPage (afterAllocs m.pmm i)).1 ≠ 0 := by
  unfold vmmInit at h
  obtain ⟨⟨_, m₁⟩, halloc₁, h⟩ := bind_eq_ok.mp h
  obtain ⟨⟨_, m₂⟩, halloc₂, h⟩ := bind_eq_ok.mp h
  obtain ⟨m₃, hgibs, h⟩ := bind_eq_ok.mp h
  obtain ⟨hne₁, hpmm₁⟩ := allocTable_pmm halloc₁
  obtain ⟨hne₂, hpmm₂⟩ := allocTable_pmm halloc₂
  obtain ⟨hpmm₃, hne₃⟩ := mapGibs_pmm hgibs
  simp only [Except.ok.injEq] at h
  rw [← h]
  simp only at hpmm₃ hne₃
  rw [hpmm₂, hpmm₁] at hpmm₃ hne₃
  rw [hpmm₁] at hne₂
  refine ⟨hpmm₃, ?_⟩
  intro i hi
  match i with
  | 0 =>
      exact hne₁
  | 1 =>
      exact hne₂
  | i + 2 =>
      exact hne₃ i (by unfold initTables at hi; omega)

theorem allocTable_of_page
    (h : (pmmAllocPage m.pmm).1 ≠ 0) :
    ∃ a m', allocTable pmmAllocPage m = .ok (a, m') ∧
      m'.pmm = (pmmAllocPage m.pmm).2 := by
  unfold allocTable
  dsimp only
  rw [if_neg h]
  exact ⟨_, _, rfl, rfl⟩

theorem mapGibs_of_pages
    (pdpt : Nat) (h : ∀ i, i < n → (pmmAllocPage (afterAllocs m.pmm i)).1 ≠ 0) :
    ∃ m', mapGibs pmmAllocPage m pdpt n = .ok m' := by
  induction n with
  | zero =>
      exact ⟨m, rfl⟩
  | succ n ih =>
      obtain ⟨m₁, hm₁⟩ := ih (fun i hi => h i (by omega))
      have hnull := h n (by omega)
      rw [← (mapGibs_pmm hm₁).1] at hnull
      obtain ⟨a, m₂, halloc, _⟩ := allocTable_of_page hnull
      unfold mapGibs mapGib
      rw [hm₁]
      simp only [bind, Except.bind, halloc]
      exact ⟨_, rfl⟩

/-- With six pages to hand out, `vmm_init` completes. -/
theorem vmmInit_of_pages
    (h : ∀ i, i < initTables → (pmmAllocPage (afterAllocs m.pmm i)).1 ≠ 0) :
    ∃ m', vmmInit pmmAllocPage m = .ok m' := by
  have hfirst : (pmmAllocPage m.pmm).1 ≠ 0 := h 0 (by decide)
  obtain ⟨a₁, m₁, halloc₁, hpmm₁⟩ := allocTable_of_page hfirst
  have hsecond : (pmmAllocPage (pmmAllocPage m.pmm).2).1 ≠ 0 := h 1 (by decide)
  rw [← hpmm₁] at hsecond
  obtain ⟨a₂, m₂, halloc₂, hpmm₂⟩ := allocTable_of_page hsecond
  obtain ⟨m₃, hgibs⟩ :=
    mapGibs_of_pages a₂ (n := identityMapGib)
      (m := { m₂ with mem := writeEntry m₂.mem a₁ 0 (a₂ ||| tableFlags) })
      (fun i hi => by
        simp only [hpmm₂, hpmm₁]
        exact h (i + 2) (by unfold initTables; omega))
  unfold vmmInit
  simp only [bind, Except.bind, halloc₁, halloc₂, hgibs]
  exact ⟨_, rfl⟩

end Boot

section Kept

/-- All tracked pages of the heap are used, and none is handed out. -/
structure HeapKept (t : Pmm.Traced) : Prop where
  used :
    ∀ p, p < t.pmm.bitmapBits → InHeap p → bitmapTest t.pmm.bitmap p = true
  live : ∀ a, a ∈ t.live → ¬ InHeap (a / pageSize)

/-- A free page is not a page of the heap. -/
theorem HeapKept.not_inHeap
    (h : HeapKept t) (hp : p < t.pmm.bitmapBits)
    (hclear : bitmapTest t.pmm.bitmap p = false) : ¬ InHeap p := by
  intro hin
  rw [h.used p hp hin] at hclear
  cases hclear

/-- Reserving a region clears no bit. -/
theorem reserveRegion_test_of_set
    {physAddr size : Nat} (hset : bitmapTest s.bitmap p = true) :
    bitmapTest (pmmReserveRegion s physAddr size).bitmap p = true := by
  by_contra hne
  have hclear := Bool.eq_false_of_not_eq_true hne
  unfold pmmReserveRegion at hclear
  rw [((claimRun_test _ _ _ _).mp hclear).1] at hset
  cases hset

/-- No call hands out a page of the heap or frees one. -/
theorem HeapKept.call
    {t' : Pmm.Traced} {c : Pmm.Call} (h : HeapKept t) (hcall : Pmm.call t c = some t') :
    HeapKept t' := by
  cases c with
  | allocPage =>
      simp only [Pmm.call] at hcall
      rcases pmmAllocPage_cases t.pmm with hnull | ⟨bit, hbit, hclear, halloc⟩
      · simp only [hnull, if_true, Option.some.injEq] at hcall
        rw [← hcall]
        exact h
      · have hused : ∀ p, p < t.pmm.bitmapBits → InHeap p →
            bitmapTest (bitmapSet t.pmm.bitmap bit) p = true := by
          intro p hp hin
          rw [bitmapTest_set, h.used p hp hin, Bool.or_true]
        rw [halloc] at hcall
        split_ifs at hcall
        · simp only [Option.some.injEq] at hcall
          rw [← hcall]
          exact ⟨hused, h.live⟩
        · simp only [Option.some.injEq] at hcall
          rw [← hcall]
          refine ⟨hused, ?_⟩
          intro a ha
          rcases List.mem_cons.mp ha with rfl | ha
          · rw [Nat.mul_div_cancel _ (by decide)]
            exact h.not_inHeap hbit hclear
          · exact h.live a ha
  | freePage physAddr =>
      simp only [Pmm.call] at hcall
      split_ifs at hcall with hlive
      unfold pmmFreePage at hcall
      dsimp only at hcall
      split_ifs at hcall
      simp only [Option.some.injEq] at hcall
      rw [← hcall]
      refine ⟨?_, fun a ha => h.live a (List.mem_of_mem_erase ha)⟩
      intro p hp hin
      have hne : p ≠ physAddr / pageSize := by
        rintro rfl
        exact h.live physAddr hlive hin
      simp [bitmapTest_clear, hne, h.used p hp hin]
  | reserveRegion physAddr size =>
      simp only [Pmm.call, Option.some.injEq] at hcall
      rw [← hcall]
      exact
        ⟨fun p hp hin => reserveRegion_test_of_set (h.used p hp hin), h.live⟩

end Kept

section Exclusive

/-- A page that a descriptor reports is covered by that descriptor. -/
theorem ReportedUsable.covered
    (hp : p < 2 ^ 52) (h : ReportedUsable map p) : Covered map p := by
  obtain ⟨d, hd, husable, hsub⟩ := h
  have hfirst :=
    hsub (show p * pageSize ∈ _ from ⟨le_refl _, by unfold pageSize; omega⟩)
  have hlast :=
    hsub (show p * pageSize + (pageSize - 1) ∈ _ from
      ⟨by omega, by unfold pageSize; omega⟩)
  simp only [Descriptor.region, Set.mem_Ico] at hfirst hlast
  unfold pageSize at hfirst hlast
  refine ⟨d, hd, husable, p - d.physicalStart / pageSize, ?_, ?_⟩
  · unfold pageSize
    omega
  · unfold pageSize
    rw [Nat.mod_eq_of_lt (by omega)]
    omega

/-- A bitmap outside the heap's bytes occupies no page of the heap. -/
theorem not_inBitmap_of_inHeap
    (hbits : p < bitmapBits map) (hin : InHeap p) (hbitmap :
      ∀ x, x ∈ Set.Ico region.physicalStart
          (region.physicalStart + bitmapBytes map) → x ∉ heapWindow) :
    ¬ InBitmap map region p := by
  rintro ⟨hstart, hend⟩
  have hpos : 0 < bitmapBytes map := by
    unfold bitmapBytes
    omega
  -- the first byte of the page, or the first byte of the bitmap if that is later
  have hbyte :=
    hbitmap (max (p * pageSize) region.physicalStart)
  unfold InHeap heapWindow Heap.heapEnd Heap.heapBase Heap.heapSize at *
  unfold bitmapPages at hend
  unfold pageSize at *
  simp only [Set.mem_Ico] at hin hbyte
  omega

/-- With the heap's pages usable, tables outside the heap are below it. -/
theorem tables_below
    (hinit : pmmInit map old = .ok s) (hregion : bitmapRegion map = some region)
    (husable : ∀ p, InHeap p → ReportedUsable map p) (hbitmap :
      ∀ x, x ∈ Set.Ico region.physicalStart
          (region.physicalStart + bitmapBytes map) → x ∉ heapWindow)
    (hout : ∀ i, i < n →
      ¬ InHeap ((pmmAllocPage (afterAllocs s i)).1 / pageSize)) :
    ∀ i, i < n →
      (pmmAllocPage (afterAllocs s i)).1 <
        Heap.heapBase / pageSize * pageSize := by
  intro i hi
  by_contra habove
  have hbase : Heap.heapBase / pageSize = 4096 := rfl
  have hin := inHeap_first
  obtain ⟨hbitsi, _⟩ := afterAllocs_spec s i
  obtain ⟨_, _, _, hbits, _, _⟩ := pmmInit_eq_ok hinit
  have hpage := hout i hi
  rcases pmmAllocPage_cases (afterAllocs s i) with h | ⟨bit, hbit, _, h⟩
  · rw [h, hbase] at habove
    unfold pageSize at habove
    omega
  · have hlarge : 4096 ≤ bit := by
      rw [h, hbase] at habove
      unfold pageSize at habove
      simp only at habove
      omega
    have htracked : 4096 < s.bitmapBits ∨ bit = 4096 := by omega
    have hclear : bitmapTest s.bitmap 4096 = false := by
      have hlt : 4096 < s.bitmapBits := by omega
      refine (pmmInit_clear_iff hinit hregion hlt).mpr ⟨?_, ?_, by decide⟩
      · exact (husable 4096 hin).covered (by decide)
      · exact not_inBitmap_of_inHeap (by omega) hin hbitmap
    -- the first page of the heap is still free, so the search stops there
    have hstill : bitmapTest (afterAllocs s i).bitmap 4096 = false := by
      by_contra hset
      obtain ⟨j, hj, hjpage⟩ :=
        exists_allocPage_of_set hclear (Bool.eq_true_of_not_eq_false hset)
      have hjout := hout j (by omega)
      rw [hjpage, Nat.mul_div_cancel _ (by decide)] at hjout
      exact hjout hin
    obtain ⟨q, hq, _, haddr, _⟩ :=
      pmmAllocPage_ascending
        (ascending_afterAllocs (ascending_of_pmmInit hinit) i) (by omega) hstill
    rw [h] at haddr hpage
    rw [Nat.mul_div_cancel _ (by decide)] at hpage
    have hbq : bit = q := Nat.eq_of_mul_eq_mul_right (by decide) haddr
    rw [show bit = 4096 by omega] at hpage
    exact hpage hin

/-- 16 pages from `0x1000` on, and the heap's own 16 MiB. -/
def heapAndTables : List Descriptor :=
  [{ memType := conventional, physicalStart := 0x1000, numberOfPages := 16 },
    { memType := conventional, physicalStart := 0x1000000,
      numberOfPages := 4096 }]

theorem roomForHeap_heapAndTables
    (hinit : pmmInit heapAndTables old = .ok s)
    (hregion : bitmapRegion heapAndTables = some region) :
    RoomForHeap heapAndTables region s := by
  obtain ⟨_, _, _, hbits, _, _⟩ := pmmInit_eq_ok hinit
  have hbits' : s.bitmapBits = 8192 := hbits
  obtain rfl :
      { memType := conventional, physicalStart := 0x1000, numberOfPages := 16 } =
        region := Option.some.inj hregion
  refine ⟨?_, ?_, ?_⟩
  · intro p hin
    refine
      ⟨{ memType := conventional, physicalStart := 0x1000000,
          numberOfPages := 4096 },
        List.mem_cons_of_mem _ List.mem_cons_self, rfl, ?_⟩
    unfold InHeap heapWindow Heap.heapEnd Heap.heapBase Heap.heapSize at hin
    intro x hx
    simp only [Descriptor.region, Set.mem_Ico, pageSize] at hin hx ⊢
    omega
  · intro x hx
    have hbytes : bitmapBytes heapAndTables = 1024 := rfl
    unfold heapWindow Heap.heapEnd Heap.heapBase Heap.heapSize
    simp only [hbytes, Set.mem_Ico] at hx ⊢
    omega
  · -- pages 2 to 16 are free
    have hfree : ∀ p, p < 17 →
        (decide (2 ≤ p) = true ↔ bitmapTest s.bitmap p = false) := by
      intro p hp
      rw [pmmInit_clear_iff hinit hregion (by omega), decide_eq_true_eq]
      have hpages : bitmapPages heapAndTables = 1 := rfl
      unfold InBitmap
      rw [hpages]
      simp only [pageSize]
      constructor
      · intro h2
        refine ⟨⟨_, List.mem_cons_self, rfl, p - 1, ?_, ?_⟩, by omega, by omega⟩
        · simp only
          omega
        · simp only [pageSize]
          omega
      · omega
    have hcount : clearCount s.bitmap 17 = 15 :=
      (FiniteCount.count_congr hfree).symm.trans (by decide)
    have hmono :=
      Nat.count_monotone (fun p => bitmapTest s.bitmap p = false)
        (show 17 ≤ min (Heap.heapBase / pageSize) s.bitmapBits by
          rw [hbits']
          decide)
    unfold clearCount at hcount ⊢
    unfold initTables identityMapGib
    omega

/--
**Which memory maps leave the heap its memory.**  After `pmm_init`, `vmm_init`
and `heap_init`, the heap's 16 MiB are usable memory, hold neither the bitmap
nor a page table and are never handed out, if and only if the map reports them
usable, the bitmap was placed elsewhere, and the six page tables fit into the
free pages below them.
-/
theorem heap_exclusive_iff
    (hinit : pmmInit map old = .ok s)
    (hregion : bitmapRegion map = some region)
    (hvmm : vmmInit pmmAllocPage { mem := mem, kernelPml4 := k, pmm := s } =
      .ok m) :
    HeapExclusive map s m ↔ RoomForHeap map region s := by
  obtain ⟨region', hregion', haddr, hbits, _, _⟩ := pmmInit_eq_ok hinit
  rw [hregion, Option.some.injEq] at hregion'
  subst hregion'
  obtain ⟨hpmm, hnull⟩ := vmmInit_pmm hvmm
  simp only at hpmm hnull
  have hbelow :=
    allocs_below_iff (ascending_of_pmmInit hinit)
      (Heap.heapBase / pageSize) initTables
  have hlist : ∀ a, a ∈ handedOut s initTables ↔
      ∃ i, i < initTables ∧ (pmmAllocPage (afterAllocs s i)).1 = a := by
    intro a
    simp [handedOut]
  constructor
  · intro h
    have hbitmap := h.bitmap
    rw [haddr] at hbitmap
    refine ⟨h.usable, hbitmap, hbelow.mp ?_⟩
    intro i hi
    refine
      ⟨hnull i hi,
        tables_below hinit hregion h.usable hbitmap ?_ i hi⟩
    intro j hj
    rw [← page_outside_iff, ← allocPage_eq_mul]
    exact h.tables _ ((hlist _).mpr ⟨j, hj, rfl⟩)
  · intro h
    have htables : ∀ a, a ∈ handedOut s initTables → ¬ InHeap (a / pageSize) := by
      intro a ha
      obtain ⟨i, hi, rfl⟩ := (hlist a).mp ha
      have hlt := (hbelow.mpr h.tables i hi).2
      unfold InHeap heapWindow Heap.heapEnd Heap.heapBase Heap.heapSize
      unfold Heap.heapBase at hlt
      unfold pageSize at *
      simp only [Set.mem_Ico]
      omega
    have hkept : HeapKept (booted s m) := by
      refine ⟨?_, htables⟩
      intro p hp hin
      by_contra hne
      have hclear := Bool.eq_false_of_not_eq_true hne
      have hw : Heap.heapBase + Heap.heapSize + pageSize - 1 < 2 ^ 64 := by
        decide
      have hp : p < (pmmReserveRegion m.pmm _ _).bitmapBits := hp
      rw [pmmReserveRegion_bitmapBits] at hp
      apply ((pmmReserveRegion_test hw hp).mp hclear).2
      unfold InHeap heapWindow Heap.heapEnd at hin
      unfold InRegion
      simp only [Set.mem_Ico] at hin
      refine ⟨?_, hin.2⟩
      exact Nat.div_le_of_le_mul (by rw [Nat.mul_comm]; exact hin.1)
    refine
      { usable := h.usable
        bitmap := by
          rw [haddr]
          exact h.bitmap
        tables := ?_
        later := ?_ }
    · intro a ha
      obtain ⟨i, hi, rfl⟩ := (hlist a).mp ha
      rw [allocPage_eq_mul, page_outside_iff]
      exact htables _ ha
    · intro calls t hrun hne
      have ht : HeapKept t :=
        runAll_invariant (fun _ _ _ hs hcall => hs.call hcall) hkept hrun
      rcases pmmAllocPage_cases t.pmm with hfull | ⟨bit, hbit, hclear, halloc⟩
      · rw [hfull] at hne
        exact absurd rfl hne
      · rw [halloc]
        exact (page_outside_iff bit).mpr (ht.not_inHeap hbit hclear)

/-- With room below the heap, boot gives the heap its memory. -/
theorem heap_exclusive_heapAndTables :
    ∃ s m, pmmInit heapAndTables (fun _ => 0#8) = .ok s ∧
      vmmInit pmmAllocPage (blank s) = .ok m ∧
      HeapExclusive heapAndTables s m := by
  obtain ⟨s, hs⟩ :
      ∃ s, pmmInit heapAndTables (fun _ => 0#8) = .ok s := ⟨_, rfl⟩
  have hregion : bitmapRegion heapAndTables = some _ := rfl
  have hroom := roomForHeap_heapAndTables hs hregion
  have hpages :=
    (allocs_below_iff (ascending_of_pmmInit hs)
      (Heap.heapBase / pageSize) initTables).mpr hroom.tables
  obtain ⟨m, hvmm⟩ :=
    vmmInit_of_pages
      (m := blank s)
      (fun i hi => (hpages i hi).1)
  exact ⟨s, m, hs, hvmm, (heap_exclusive_iff hs hregion hvmm).mpr hroom⟩

/-- 16 pages from `0x1000` on; the firmware keeps the memory from 16 MiB on. -/
def reservedHeap : List Descriptor :=
  [{ memType := conventional, physicalStart := 0x1000, numberOfPages := 16 },
    { memType := 0, physicalStart := 0x1000000, numberOfPages := 4096 }]

/--
`EfiReservedMemoryType` memory at the heap's place: boot completes, and the
heap lies in memory that the map does not report as usable.
-/
theorem heap_in_reserved_memory :
    ∃ s m, pmmInit reservedHeap (fun _ => 0#8) = .ok s ∧
      vmmInit pmmAllocPage (blank s) = .ok m ∧
      InHeap 4096 ∧ ¬ ReportedUsable reservedHeap 4096 ∧
      ¬ HeapExclusive reservedHeap s m := by
  have hrun :
      (pmmInit reservedHeap (fun _ => 0#8)).toOption.any (fun s =>
        (vmmInit pmmAllocPage (blank s)).toOption.isSome) := by
    decide
  obtain ⟨s, hs, hsome⟩ := any_toOption.mp hrun
  obtain ⟨m, hm⟩ := Option.isSome_iff_exists.mp hsome
  have hin := inHeap_first
  have hnot : ¬ ReportedUsable reservedHeap 4096 := by
    rintro ⟨d, hd, husable, hsub⟩
    have hfirst :=
      hsub (show 4096 * pageSize ∈ _ from
        ⟨le_refl _, by unfold pageSize; omega⟩)
    simp only [reservedHeap, List.mem_cons, List.not_mem_nil, or_false] at hd
    rcases hd with rfl | rfl
    · simp only [Descriptor.region, Set.mem_Ico, pageSize] at hfirst
      omega
    · exact absurd husable (by decide)
  exact
    ⟨s, m, hs, toOption_eq_some.mp hm, hin, hnot,
      fun h => hnot (h.usable 4096 hin)⟩

end Exclusive

end HeapWindow

end BootMemory
end RebornOS
