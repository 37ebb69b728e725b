import RebornOS.PmmRuns
import RebornOS.VmmRuns

/-!
# The pages handed out and the user-accessible low memory

`vmm_init` leaves the first 4 MiB of the identity map accessible from ring 3.
`pmm_alloc_page` starts its search at page 1.  Here the two are put together:
the page-table code runs on the real page allocator, and the pages it hands out
are compared with the user bit of the leaf that covers them.
-/

namespace RebornOS
namespace LowMemory

open PageWalk Vmm Pmm Fallible

section Allocator

/-- Frames whose bit is set are held. -/
def heldFrames (s : Pmm.State) : Set Nat := {p | bitmapTest s.bitmap p = true}

/-- All tracked pages lie below the physical address limit. -/
def Physical (s : Pmm.State) : Prop := s.bitmapBits ≤ 2 ^ 40

/-- What one call of `pmm_alloc_page` does, whether it finds a page or not. -/
theorem pmmAllocPage_cases
    (s : Pmm.State) :
    pmmAllocPage s = (0, s) ∨
    ∃ bit, bit < s.bitmapBits ∧ bitmapTest s.bitmap bit = false ∧
      pmmAllocPage s =
        (bit * pageSize,
          { s with
            bitmap := bitmapSet s.bitmap bit
            freePages := (s.freePages + (2 ^ 64 - 1)) % 2 ^ 64
            searchHint := bit + 1 }) := by
  by_cases hfull : ∀ p, p < s.bitmapBits → bitmapTest s.bitmap p = true
  · exact Or.inl (pmmAllocPage_full hfull)
  · push Not at hfull
    obtain ⟨p, hp, hclear⟩ := hfull
    exact Or.inr (pmmAllocPage_free hp (by simpa using hclear))

/-- The real allocator hands out fresh frames. -/
theorem freshPages_pmm : FreshPages pmmAllocPage Physical heldFrames := by
  have hsize : pageSize = 4096 := rfl
  have hcases : ∀ s, Physical s →
      pmmAllocPage s = (0, s) ∨
      ∃ bit, bit < 2 ^ 40 ∧ bitmapTest s.bitmap bit = false ∧
        (pmmAllocPage s).1 = bit * 4096 ∧
        (pmmAllocPage s).2.bitmapBits = s.bitmapBits ∧
        (pmmAllocPage s).2.bitmap = bitmapSet s.bitmap bit := by
    intro s hs
    rcases pmmAllocPage_cases s with h | ⟨bit, hlt, hclear, h⟩
    · exact Or.inl h
    · refine Or.inr ⟨bit, lt_of_lt_of_le hlt hs, hclear, ?_⟩
      rw [h]
      exact ⟨rfl, rfl, rfl⟩
  refine ⟨?_, ?_, ?_, ?_, ?_, ?_⟩
  all_goals
    intro s hs
    rcases hcases s hs with h | ⟨bit, hlt, hclear, haddr, hbits, hmap⟩
  · rw [h]
    exact hs
  · unfold Physical
    rw [hbits]
    exact hs
  · rw [h]
    rfl
  · rw [haddr]
    omega
  · rw [h]
    exact Nat.two_pow_pos 52
  · rw [haddr]
    omega
  · intro hne
    rw [h] at hne
    exact absurd rfl hne
  · intro _
    rw [haddr, Nat.mul_div_cancel _ (by decide)]
    simp [heldFrames, hclear]
  · intro hne
    rw [h] at hne
    exact absurd rfl hne
  · intro _
    rw [haddr, Nat.mul_div_cancel _ (by decide)]
    simp [heldFrames, hmap]
  · rw [h]
  · intro p hp
    simp only [heldFrames, Set.mem_ofPred_eq] at hp ⊢
    rw [hmap, bitmapTest_set, hp, Bool.or_true]

/-- The allocator after `n` calls of `pmm_alloc_page`. -/
def afterAllocs (s : Pmm.State) (n : Nat) : Pmm.State :=
  (fun t => (pmmAllocPage t).2)^[n] s

/-- Bits are only set by allocations. -/
theorem afterAllocs_spec
    (s : Pmm.State) (n : Nat) :
    (afterAllocs s n).bitmapBits = s.bitmapBits ∧
    ∀ p, bitmapTest (afterAllocs s n).bitmap p = false →
      bitmapTest s.bitmap p = false := by
  induction n with
  | zero =>
      exact ⟨rfl, fun _ h => h⟩
  | succ n ih =>
      have hstep : afterAllocs s (n + 1) =
          (pmmAllocPage (afterAllocs s n)).2 :=
        Function.iterate_succ_apply' _ n s
      rw [hstep]
      rcases pmmAllocPage_cases (afterAllocs s n) with h | ⟨bit, _, _, h⟩
      · rw [h]
        exact ih
      · rw [h]
        refine ⟨ih.1, fun p hp => ih.2 p ?_⟩
        simp only [bitmapTest_set, Bool.or_eq_false_iff] at hp
        exact hp.2

/-- The search resumes at or below every free page, and above page 0. -/
structure Ascending (s : Pmm.State) : Prop where
  hint_pos : 0 < s.searchHint
  hint_le :
    ∀ p, p < s.bitmapBits → bitmapTest s.bitmap p = false → s.searchHint ≤ p

/-- As long as the search only moves up, it finds the lowest free page. -/
theorem pmmAllocPage_ascending
    {s : Pmm.State} (hasc : Ascending s) {p : Nat} (hp : p < s.bitmapBits)
    (hclear : bitmapTest s.bitmap p = false) :
    ∃ q, q ≤ p ∧ bitmapTest s.bitmap q = false ∧
      (pmmAllocPage s).1 = q * pageSize ∧
      (pmmAllocPage s).2.bitmapBits = s.bitmapBits ∧
      (pmmAllocPage s).2.bitmap = bitmapSet s.bitmap q ∧
      Ascending (pmmAllocPage s).2 := by
  have hmod : ∀ x, x < s.bitmapBits → s.searchHint ≤ x →
      (s.searchHint + (x - s.searchHint)) % s.bitmapBits = x := by
    intro x hx hhint
    rw [show s.searchHint + (x - s.searchHint) = x by omega, Nat.mod_eq_of_lt hx]
  unfold pmmAllocPage
  cases hscan : scanFrom s s.bitmapBits 0 with
  | none =>
      have hset :=
        scanFrom_none hscan (p - s.searchHint) (by omega) (by omega)
      rw [hmod p hp (hasc.hint_le p hp hclear), hclear] at hset
      cases hset
  | some bit =>
      obtain ⟨k, _, hbit, hfree, hbefore⟩ := scanFrom_some hscan
      have hlt : bit < s.bitmapBits := by
        rw [hbit]
        exact Nat.mod_lt _ (by omega)
      -- nothing free lies between the hint and the page found
      have hleast : ∀ x, x < s.bitmapBits → bitmapTest s.bitmap x = false →
          bit ≤ x := by
        intro x hx hxclear
        have hhint := hasc.hint_le x hx hxclear
        have hkx : k ≤ x - s.searchHint := by
          by_contra hlater
          have hset := hbefore (x - s.searchHint) (by omega) (by omega)
          rw [hmod x hx hhint, hxclear] at hset
          cases hset
        rw [Nat.mod_eq_of_lt (by omega)] at hbit
        omega
      refine
        ⟨bit, hleast p hp hclear, hfree, rfl, rfl, rfl, Nat.succ_pos bit, ?_⟩
      intro x hx hxclear
      simp only [bitmapTest_set, Bool.or_eq_false_iff,
        decide_eq_false_iff_not] at hxclear
      have hle := hleast x hx hxclear.2
      simp only
      omega

end Allocator

section Exposure

/-- Ring 3 reaches the physical page at `a` through slot 0 of `cr3`. -/
def UserReachable (mem : ByteStore.Store) (cr3 a : Nat) : Prop :=
  ∃ v t, v < 2 ^ 39 ∧ translateAddr mem cr3 v = some t ∧
    t.phys / pageSize = a / pageSize ∧ t.rights.user = true

/-- The usable memory lies inside the 52-bit physical address space. -/
def PhysicalMap (map : List Descriptor) : Prop :=
  ∀ d, d ∈ map → typeIsUsable d.memType = true →
    d.physicalStart + d.numberOfPages * pageSize ≤ 2 ^ 52

/-- A usable page below 4 MiB that `pmm_init` leaves free. -/
def FreeLowPage (map : List Descriptor) (region : Descriptor) (p : Nat) :
    Prop :=
  0 < p ∧ p * pageSize < kernelExecLimit ∧ p < bitmapBits map ∧
    Covered map p ∧ ¬ InBitmap map region p

theorem highestAddr_le
    {map : List Descriptor} (h : PhysicalMap map) {highest : Nat}
    (hle : highest ≤ 2 ^ 52) : highestAddr map highest ≤ 2 ^ 52 := by
  induction map generalizing highest with
  | nil =>
      exact hle
  | cons d ds ih =>
      have htail : PhysicalMap ds :=
        fun e he => h e (List.mem_cons_of_mem _ he)
      unfold highestAddr
      split_ifs with hd
      · have hend := h d (by simp) hd.1
        exact ih htail (le_trans (Nat.mod_le _ _) hend)
      · exact ih htail hle

variable {map : List Descriptor} {old : Bitmap} {s : Pmm.State}
  {region : Descriptor} {mem : ByteStore.Store} {k : Nat}
  {m : Machine Pmm.State}

theorem physical_of_pmmInit
    (hmap : PhysicalMap map) (hinit : pmmInit map old = .ok s) : Physical s := by
  obtain ⟨_, _, _, hbits, _, _⟩ := pmmInit_eq_ok hinit
  have hhigh := highestAddr_le hmap (show 0 ≤ 2 ^ 52 by decide)
  unfold Physical
  rw [hbits]
  unfold bitmapBits pageSize
  omega

/-- `pmm_init` leaves the hint at page 1 and page 0 used. -/
theorem ascending_of_pmmInit
    (hinit : pmmInit map old = .ok s) : Ascending s := by
  obtain ⟨region, hregion, _, _, hhint, _⟩ := pmmInit_eq_ok hinit
  refine ⟨by rw [hhint]; exact Nat.one_pos, ?_⟩
  intro p hp hclear
  have hgood := (pmmInit_clear_iff hinit hregion hp).mp hclear
  rw [hhint]
  exact Nat.one_le_iff_ne_zero.mpr hgood.2.2

/-- The kernel's own address space after `vmm_init`, in slot 0. -/
theorem translate_kernel
    (hs : Physical s)
    (hvmm : vmmInit pmmAllocPage { mem := mem, kernelPml4 := k, pmm := s } =
      .ok m) {v : Nat} (hv : v < 2 ^ 39) :
    translateAddr m.mem m.kernelPml4 v = lowTranslation v := by
  obtain ⟨p, g, hkernel, hinv⟩ :=
    vmmInit_ok (le_refl 3) freshPages_pmm hs hvmm
  rw [hkernel]
  exact hinv.spaces.translate_low (Set.mem_singleton p) hv

/-- After `vmm_init`, ring 3 reaches exactly the pages below 4 MiB. -/
theorem userReachable_iff
    (hs : Physical s)
    (hvmm : vmmInit pmmAllocPage { mem := mem, kernelPml4 := k, pmm := s } =
      .ok m) {a : Nat} :
    UserReachable m.mem m.kernelPml4 a ↔
      a / pageSize * pageSize < kernelExecLimit := by
  have hlow : ∀ v, v < 2 ^ 39 →
      translateAddr m.mem m.kernelPml4 v = lowTranslation v :=
    fun v hv => translate_kernel hs hvmm hv
  have hexec : kernelExecLimit = 4194304 := rfl
  have hsize : pageSize = 4096 := rfl
  constructor
  · rintro ⟨v, t, hv, ht, hpage, huser⟩
    rw [hlow v hv] at ht
    unfold lowTranslation at ht
    split_ifs at ht
    simp only [Option.some.injEq] at ht
    subst ht
    simp only [decide_eq_true_eq] at huser hpage
    rw [hsize] at hpage ⊢
    omega
  · intro ha
    have htranslate :=
      (hlow (a / pageSize * pageSize) (by omega)).trans
        (if_pos (show a / pageSize * pageSize < 2 ^ 32 by omega))
    refine ⟨a / pageSize * pageSize, _, by omega, htranslate, ?_, ?_⟩
    · exact Nat.mul_div_cancel _ (by decide)
    · exact decide_eq_true ha

/--
**Which memory maps keep the handed-out pages away from ring 3.**  For every
map that `pmm_init` accepts: no page that any run of `pmm_alloc_page` returns
(those of `vmm_init` included) is reachable from ring 3 through slot 0, if and
only if the map leaves no usable page below 4 MiB free.
-/
theorem pages_unreachable_iff
    (hmap : PhysicalMap map) (hinit : pmmInit map old = .ok s)
    (hregion : bitmapRegion map = some region)
    (hvmm : vmmInit pmmAllocPage { mem := mem, kernelPml4 := k, pmm := s } =
      .ok m) :
    (∀ n, (pmmAllocPage (afterAllocs s n)).1 ≠ 0 →
        ¬ UserReachable m.mem m.kernelPml4
          (pmmAllocPage (afterAllocs s n)).1) ↔
      ∀ p, ¬ FreeLowPage map region p := by
  have hphys := physical_of_pmmInit hmap hinit
  obtain ⟨_, _, _, hbits, hhint, _⟩ := pmmInit_eq_ok hinit
  have hexec : kernelExecLimit = 4194304 := rfl
  have hsize : pageSize = 4096 := rfl
  constructor
  · rintro hsafe p ⟨hpos, hlow, hp, hcovered, hbitmap⟩
    rw [← hbits] at hp
    have hclear :=
      (pmmInit_clear_iff hinit hregion hp).mpr ⟨hcovered, hbitmap, by omega⟩
    -- the first allocation already returns a page at or below `p`
    have hasc := ascending_of_pmmInit hinit
    obtain ⟨q, hqp, hqclear, haddr, _⟩ := pmmAllocPage_ascending hasc hp hclear
    have hq := hasc.hint_le q (by omega) hqclear
    rw [hhint] at hq
    have hfirst := hsafe 0
    rw [show afterAllocs s 0 = s from rfl, haddr] at hfirst
    rw [hsize] at hlow hfirst
    apply hfirst (by omega)
    rw [userReachable_iff hphys hvmm, hsize, Nat.mul_div_cancel _ (by decide)]
    exact lt_of_le_of_lt (Nat.mul_le_mul_right 4096 hqp) hlow
  · intro hnone n hne hreach
    obtain ⟨hbitsn, hmono⟩ := afterAllocs_spec s n
    rcases pmmAllocPage_cases (afterAllocs s n) with
      h | ⟨bit, hlt, hclear, h⟩
    · rw [h] at hne
      exact hne rfl
    · rw [h, userReachable_iff hphys hvmm, Nat.mul_div_cancel _ (by decide)] at hreach
      rw [hbitsn] at hlt
      obtain ⟨hcovered, hbitmap, hzero⟩ :=
        (pmmInit_clear_iff hinit hregion hlt).mp (hmono bit hclear)
      exact
        hnone bit
          ⟨by omega, hreach, by rw [← hbits]; exact hlt, hcovered, hbitmap⟩

/-- One conventional descriptor of 16 pages from 4 MiB on. -/
def highPages : List Descriptor :=
  [{ memType := conventional, physicalStart := 0x400000, numberOfPages := 16 }]

/-- With all usable memory above 4 MiB, no page is exposed. -/
theorem pages_unreachable_highPages :
    ∃ s m, pmmInit highPages (fun _ => 0#8) = .ok s ∧
      vmmInit pmmAllocPage (blank s) = .ok m ∧
      ∀ n, (pmmAllocPage (afterAllocs s n)).1 ≠ 0 →
        ¬ UserReachable m.mem m.kernelPml4
          (pmmAllocPage (afterAllocs s n)).1 := by
  have hrun :
      (pmmInit highPages (fun _ => 0#8)).toOption.any (fun s =>
        (vmmInit pmmAllocPage (blank s)).toOption.isSome) := by
    decide +kernel
  obtain ⟨s, hs, hsome⟩ := any_toOption.mp hrun
  obtain ⟨m, hm⟩ := Option.isSome_iff_exists.mp hsome
  have hvmm := toOption_eq_some.mp hm
  refine ⟨s, m, hs, hvmm, ?_⟩
  refine
    (pages_unreachable_iff ?_ hs
      (show bitmapRegion highPages = some _ from rfl) hvmm).mpr ?_
  · intro d hd _
    simp only [highPages, List.mem_singleton] at hd
    rw [hd]
    decide
  · rintro p ⟨_, hlow, _, ⟨d, hd, _, j, hj, hjp⟩, _⟩
    simp only [highPages, List.mem_singleton] at hd
    subst hd
    simp only [pageSize] at hlow hjp hj
    unfold kernelExecLimit at hlow
    omega

/--
With usable memory from `0x1000` on, the first page handed out is at `0x2000`:
it becomes the kernel's PML4, and ring 3 reaches it.
-/
theorem first_page_reachable :
    ∃ s m, pmmInit sixteenPages (fun _ => 0#8) = .ok s ∧
      vmmInit pmmAllocPage (blank s) = .ok m ∧
      (pmmAllocPage s).1 = 0x2000 ∧ m.kernelPml4 = 0x2000 ∧
      UserReachable m.mem m.kernelPml4 0x2000 := by
  have hrun :
      (pmmInit sixteenPages (fun _ => 0#8)).toOption.any (fun s =>
        (vmmInit pmmAllocPage (blank s)).toOption.any (fun m =>
            (pmmAllocPage s).1 = 0x2000 ∧ m.kernelPml4 = 0x2000 ∧
              s.bitmapBits = 17)) := by
    decide
  obtain ⟨s, hs, hinit⟩ := any_toOption.mp hrun
  obtain ⟨m, hvmm, hspec⟩ := any_toOption.mp hinit
  obtain ⟨hfirst, hkernel, hbits⟩ := of_decide_eq_true hspec
  have hphys : Physical s := by
    unfold Physical
    rw [hbits]
    decide
  exact
    ⟨s, m, hs, hvmm, hfirst, hkernel,
      (userReachable_iff hphys hvmm).mpr (by decide)⟩

end Exposure

end LowMemory
end RebornOS
