import RebornOS.LabeledRun
import RebornOS.PmmInit

/-!
# Sequences of physical page allocator calls

The allocator is followed over whole runs of `pmm_alloc_page`,
`pmm_free_page` and `pmm_reserve_region`, starting from what `pmm_init` leaves.
Beside the allocator's own variables the traced state remembers the pages that
are currently handed out and the pages that were reserved while they were free.

`TraceInv` is the invariant of the single call; `PmmSound` is what it says to a
caller of the allocator.
-/

namespace RebornOS
namespace Pmm

open FiniteCount LabeledRun

variable {s : State} {p physAddr size : Nat}

section Scan

theorem scanFrom_none
    {n i : Nat} (h : scanFrom s n i = none) :
    ∀ k, i ≤ k → k < i + n →
      bitmapTest s.bitmap ((s.searchHint + k) % s.bitmapBits) = true := by
  induction n generalizing i with
  | zero =>
      intro k hik hk
      omega
  | succ n ih =>
      intro k hik hk
      simp only [scanFrom] at h
      split_ifs at h with hset
      by_cases hki : k = i
      · rw [hki]
        exact hset
      · exact ih h k (by omega) (by omega)

theorem scanFrom_some
    {n i bit : Nat} (h : scanFrom s n i = some bit) :
    ∃ k, k < i + n ∧ bit = (s.searchHint + k) % s.bitmapBits ∧
      bitmapTest s.bitmap bit = false ∧
      ∀ l, i ≤ l → l < k →
        bitmapTest s.bitmap ((s.searchHint + l) % s.bitmapBits) = true := by
  induction n generalizing i with
  | zero =>
      cases h
  | succ n ih =>
      simp only [scanFrom] at h
      split_ifs at h with hset
      · obtain ⟨k, hk, hbit, hclear, hbefore⟩ := ih h
        refine ⟨k, by omega, hbit, hclear, ?_⟩
        intro l hil hlk
        by_cases hli : l = i
        · rw [hli]
          exact hset
        · exact hbefore l (by omega) hlk
      · simp only [Option.some.injEq] at h
        refine ⟨i, by omega, h.symm, ?_, ?_⟩
        · rw [← h]
          simpa using hset
        · intro l hil hli
          omega

/-- The scan visits every bit, wherever it starts. -/
theorem exists_offset
    (hint : Nat) {bits page : Nat} (hpage : page < bits) :
    ∃ k, k < bits ∧ (hint + k) % bits = page := by
  have hpos : 0 < bits := by omega
  have hhint := Nat.mod_lt hint hpos
  refine ⟨(page + (bits - hint % bits)) % bits, Nat.mod_lt _ hpos, ?_⟩
  rw [Nat.add_mod, Nat.mod_mod, ← Nat.add_mod, ← Nat.mod_add_mod,
    show hint % bits + (page + (bits - hint % bits)) = page + bits by omega,
    Nat.add_mod_right, Nat.mod_eq_of_lt hpage]

/-- `pmm_alloc_page` with no free page. -/
theorem pmmAllocPage_full
    (hfull : ∀ p, p < s.bitmapBits → bitmapTest s.bitmap p = true) :
    pmmAllocPage s = (0, s) := by
  unfold pmmAllocPage
  cases hscan : scanFrom s s.bitmapBits 0 with
  | none =>
      rfl
  | some bit =>
      obtain ⟨k, hk, hbit, hclear, _⟩ := scanFrom_some hscan
      have hlt : bit < s.bitmapBits := by
        rw [hbit]
        exact Nat.mod_lt _ (by omega)
      rw [hfull bit hlt] at hclear
      cases hclear

/-- `pmm_alloc_page` with some free page claims one. -/
theorem pmmAllocPage_free
    (hp : p < s.bitmapBits) (hclear : bitmapTest s.bitmap p = false) :
    ∃ bit, bit < s.bitmapBits ∧ bitmapTest s.bitmap bit = false ∧
      pmmAllocPage s =
        (bit * pageSize,
          { s with
            bitmap := bitmapSet s.bitmap bit
            freePages := (s.freePages + (2 ^ 64 - 1)) % 2 ^ 64
            searchHint := bit + 1 }) := by
  unfold pmmAllocPage
  cases hscan : scanFrom s s.bitmapBits 0 with
  | none =>
      obtain ⟨k, hk, hkp⟩ := exists_offset s.searchHint hp
      have hset := scanFrom_none hscan k (by omega) (by omega)
      rw [hkp, hclear] at hset
      cases hset
  | some bit =>
      obtain ⟨k, hk, hbit, hfree, _⟩ := scanFrom_some hscan
      refine ⟨bit, ?_, hfree, rfl⟩
      rw [hbit]
      exact Nat.mod_lt _ (by omega)

end Scan

section Trace

/-- One call into the allocator. -/
inductive Call
  | allocPage
  | freePage (physAddr : Nat)
  | reserveRegion (physAddr size : Nat)
  deriving DecidableEq, Repr

/-- The allocator, the addresses handed out, the pages reserved while free. -/
structure Traced where
  pmm : State
  live : List Nat
  reserved : List Nat

/-- Page `page` belongs to `[physAddr, physAddr + size)`, rounded outward. -/
def InRegion (physAddr size page : Nat) : Prop :=
  physAddr / pageSize ≤ page ∧ page * pageSize < physAddr + size

instance (physAddr size page : Nat) : Decidable (InRegion physAddr size page) :=
  inferInstanceAs (Decidable (_ ∧ _))

/-- The tracked pages of a region that are free. -/
def freeInRegion (s : State) (physAddr size : Nat) : List Nat :=
  (List.range s.bitmapBits).filter
    (fun p => decide (InRegion physAddr size p) && !bitmapTest s.bitmap p)

/-- One call; only a page that is handed out may be freed. -/
def call (t : Traced) : Call → Option Traced
  | .allocPage =>
      let r := pmmAllocPage t.pmm
      if r.1 = 0 then
        some { t with pmm := r.2 }
      else
        some { t with pmm := r.2, live := r.1 :: t.live }
  | .freePage physAddr =>
      if physAddr ∈ t.live then
        match pmmFreePage t.pmm physAddr with
        | .ok s => some { t with pmm := s, live := t.live.erase physAddr }
        | .error _ => none
      else
        none
  | .reserveRegion physAddr size =>
      some
        { t with
          pmm := pmmReserveRegion t.pmm physAddr size
          reserved := freeInRegion t.pmm physAddr size ++ t.reserved }

/-- The traced state after `pmm_init`. -/
def start (s : State) : Traced := { pmm := s, live := [], reserved := [] }

/-- The end of the region, rounded up, is below `2 ^ 64`. -/
def Call.NoWrap : Call → Prop
  | .allocPage => True
  | .freePage _ => True
  | .reserveRegion physAddr size => physAddr + size + pageSize - 1 < 2 ^ 64

instance (c : Call) : Decidable c.NoWrap := by
  cases c <;> unfold Call.NoWrap <;> infer_instance

/-- A page that may be handed out. -/
def Good (map : List Descriptor) (region : Descriptor) (page : Nat) : Prop :=
  Covered map page ∧ ¬ InBitmap map region page ∧ page ≠ 0

/-- The invariant of the traced allocator. -/
structure TraceInv
    (map : List Descriptor) (region : Descriptor) (t : Traced) : Prop where
  addr : t.pmm.bitmapAddr = region.physicalStart
  bits : t.pmm.bitmapBits = bitmapBits map
  count : CountOk t.pmm.bitmapBits (t.pmm.bitmap, t.pmm.freePages)
  clear_good :
    ∀ p, p < t.pmm.bitmapBits → bitmapTest t.pmm.bitmap p = false →
      Good map region p ∧ p ∉ t.reserved
  live_good :
    ∀ a, a ∈ t.live →
      ∃ p, p < t.pmm.bitmapBits ∧ a = p * pageSize ∧
        bitmapTest t.pmm.bitmap p = true ∧ Good map region p ∧
        p ∉ t.reserved
  nodup : t.live.Nodup

variable {map : List Descriptor} {region : Descriptor} {t : Traced}

theorem traceInv_start
    {old : Bitmap} (hv : ValidMap map) (hw : NoWrap map) (h : pmmInit map old = .ok s)
    (hregion : bitmapRegion map = some region) : TraceInv map region (start s) := by
  obtain ⟨region', hregion', haddr, hbits, _, _⟩ := pmmInit_eq_ok h
  rw [hregion, Option.some.injEq] at hregion'
  subst hregion'
  exact
    { addr := haddr
      bits := hbits
      count := pmmInit_counted hv hw h
      clear_good := fun p hp hclear =>
        ⟨(pmmInit_clear_iff h hregion hp).mp hclear, by simp [start]⟩
      live_good := fun a ha => by simp [start] at ha
      nodup := List.nodup_nil }

theorem TraceInv.bits_lt
    (ht : TraceInv map region t) : t.pmm.bitmapBits < 2 ^ 52 := by
  rw [ht.bits]
  exact bitmapBits_le map

/-- Claiming a clear bit of the bitmap is `claimPage`. -/
theorem claimPage_of_clear
    {st : Counted} {page : Nat} (hclear : bitmapTest st.1 page = false) :
    claimPage st page =
      (bitmapSet st.1 page, (st.2 + (2 ^ 64 - 1)) % 2 ^ 64) := by
  unfold claimPage
  rw [hclear, if_neg (by decide)]

theorem TraceInv.allocPage
    (ht : TraceInv map region t) {t' : Traced}
    (h : call t .allocPage = some t') : TraceInv map region t' := by
  by_cases hfull :
      ∀ p, p < t.pmm.bitmapBits → bitmapTest t.pmm.bitmap p = true
  · simp only [call, pmmAllocPage_full hfull, if_true, Option.some.injEq] at h
    rw [← h]
    exact ht
  · push Not at hfull
    obtain ⟨p, hp, hpset⟩ := hfull
    obtain ⟨bit, hbit, hclear, halloc⟩ :=
      pmmAllocPage_free hp (by simpa using hpset)
    obtain ⟨hgood, hfresh⟩ := ht.clear_good bit hbit hclear
    have hne : bit * pageSize ≠ 0 := by
      have hzero := hgood.2.2
      unfold pageSize
      omega
    simp only [call, halloc, if_neg hne, Option.some.injEq] at h
    subst h
    have hcount :=
      claimPage_countOk ht.bits_lt hbit ht.count
    have hclaim : claimPage (t.pmm.bitmap, t.pmm.freePages) bit = _ :=
      claimPage_of_clear hclear
    rw [hclaim] at hcount
    refine
      { addr := ht.addr
        bits := ht.bits
        count := hcount
        clear_good := ?_
        live_good := ?_
        nodup := ?_ }
    · intro q hq hqclear
      simp only [bitmapTest_set, Bool.or_eq_false_iff] at hqclear
      exact ht.clear_good q hq hqclear.2
    · intro a ha
      rcases List.mem_cons.mp ha with rfl | ha
      · exact ⟨bit, hbit, rfl, by simp, hgood, hfresh⟩
      · obtain ⟨q, hq, haq, hset, hrest⟩ := ht.live_good a ha
        exact ⟨q, hq, haq, by simp [hset], hrest⟩
    · refine List.nodup_cons.mpr ⟨?_, ht.nodup⟩
      intro hmem
      obtain ⟨q, _, haq, hset, _⟩ := ht.live_good _ hmem
      have hqb : bit = q := Nat.eq_of_mul_eq_mul_right (by decide) haq
      rw [← hqb, hclear] at hset
      cases hset

/-- Freeing a tracked page whose bit is set never panics. -/
theorem pmmFreePage_set
    (hp : p < t.pmm.bitmapBits) (hset : bitmapTest t.pmm.bitmap p = true) :
    pmmFreePage t.pmm (p * pageSize) =
      .ok
        { t.pmm with
          bitmap := bitmapClear t.pmm.bitmap p
          freePages := (t.pmm.freePages + 1) % 2 ^ 64 } := by
  have hpage : p * pageSize / pageSize = p :=
    Nat.mul_div_cancel _ (by decide)
  unfold pmmFreePage
  simp only [hpage]
  rw [if_neg (by omega), if_neg (by simp [hset])]

theorem TraceInv.freePage
    (ht : TraceInv map region t) {t' : Traced}
    (h : call t (.freePage physAddr) = some t') : TraceInv map region t' := by
  simp only [call] at h
  split_ifs at h with hlive
  obtain ⟨p, hp, rfl, hset, hgood, hres⟩ := ht.live_good physAddr hlive
  rw [pmmFreePage_set hp hset] at h
  simp only [Option.some.injEq] at h
  subst h
  have hcount :
      CountOk t.pmm.bitmapBits
        (clearRun p 1 (t.pmm.bitmap, t.pmm.freePages)) :=
    clearRun_countOk ht.bits_lt hp
      (fun k hk => by
        have hzero : k = 0 := by omega
        rw [hzero]
        exact hset)
      ht.count
  have hmod : p % 2 ^ 64 = p :=
    Nat.mod_eq_of_lt (by have := ht.bits_lt; omega)
  simp only [clearRun, Nat.add_zero, hmod] at hcount
  refine
    { addr := ht.addr
      bits := ht.bits
      count := hcount
      clear_good := ?_
      live_good := ?_
      nodup := ht.nodup.erase _ }
  · intro q hq hqclear
    by_cases hqp : q = p
    · rw [hqp]
      exact ⟨hgood, hres⟩
    · simp only [bitmapTest_clear, hqp, decide_false, Bool.not_false,
        Bool.true_and] at hqclear
      exact ht.clear_good q hq hqclear
  · intro a ha
    obtain ⟨hne, hmem⟩ := (List.Nodup.mem_erase_iff ht.nodup).mp ha
    obtain ⟨q, hq, haq, hqset, hrest⟩ := ht.live_good a hmem
    have hqp : q ≠ p := by
      rintro rfl
      exact hne haq
    exact ⟨q, hq, haq, by simp [hqp, hqset], hrest⟩

/-- Which bits are clear after `pmm_reserve_region`. -/
theorem pmmReserveRegion_test
    (hw : physAddr + size + pageSize - 1 < 2 ^ 64) (hp : p < s.bitmapBits) :
    bitmapTest (pmmReserveRegion s physAddr size).bitmap p = false ↔
      bitmapTest s.bitmap p = false ∧ ¬ InRegion physAddr size p := by
  unfold pmmReserveRegion
  simp only [claimRun_test, Nat.mod_eq_of_lt hw]
  refine and_congr_right (fun _ => not_congr ?_)
  unfold InRegion pageSize
  omega

theorem mem_freeInRegion :
    p ∈ freeInRegion s physAddr size ↔
      p < s.bitmapBits ∧ InRegion physAddr size p ∧
        bitmapTest s.bitmap p = false := by
  simp [freeInRegion]

theorem TraceInv.reserveRegion
    (ht : TraceInv map region t) {t' : Traced}
    (hw : physAddr + size + pageSize - 1 < 2 ^ 64)
    (h : call t (.reserveRegion physAddr size) = some t') : TraceInv map region t' := by
  simp only [call, Option.some.injEq] at h
  subst h
  have hcount :
      CountOk t.pmm.bitmapBits
        (claimRun (physAddr / pageSize)
          (min ((physAddr + size + pageSize - 1) % 2 ^ 64 / pageSize)
              t.pmm.bitmapBits - physAddr / pageSize)
          (t.pmm.bitmap, t.pmm.freePages)) := by
    by_cases hempty : t.pmm.bitmapBits ≤ physAddr / pageSize
    · rw [Nat.sub_eq_zero_of_le (le_trans (Nat.min_le_right _ _) hempty)]
      exact ht.count
    · exact claimRun_countOk ht.bits_lt (by omega) ht.count
  refine
    { addr := ht.addr
      bits := ht.bits
      count := hcount
      clear_good := ?_
      live_good := ?_
      nodup := ht.nodup }
  · intro q hq hqclear
    have hq' : q < t.pmm.bitmapBits := hq
    obtain ⟨hold, hout⟩ := (pmmReserveRegion_test hw hq').mp hqclear
    obtain ⟨hgood, hres⟩ := ht.clear_good q hq hold
    refine ⟨hgood, ?_⟩
    intro hmem
    rcases List.mem_append.mp hmem with hnew | hmem
    · exact hout (mem_freeInRegion.mp hnew).2.1
    · exact hres hmem
  · intro a ha
    obtain ⟨q, hq, haq, hqset, hgood, hres⟩ := ht.live_good a ha
    refine ⟨q, hq, haq, ?_, hgood, ?_⟩
    · by_contra hne
      have hold :=
        ((pmmReserveRegion_test hw hq).mp (by simpa using hne)).1
      rw [hqset] at hold
      cases hold
    · intro hmem
      rcases List.mem_append.mp hmem with hnew | hmem
      · have hclear := (mem_freeInRegion.mp hnew).2.2
        rw [hqset] at hclear
        cases hclear
      · exact hres hmem

/-- Every call that does not wrap keeps the invariant. -/
theorem call_preserves
    {t' : Traced} {c : Call}
    (ht : TraceInv map region t) (hc : c.NoWrap) (h : call t c = some t') :
    TraceInv map region t' := by
  cases c with
  | allocPage =>
      exact ht.allocPage h
  | freePage physAddr =>
      exact ht.freePage h
  | reserveRegion physAddr size =>
      exact ht.reserveRegion hc h

end Trace

section Soundness

/-- What the callers of the allocator rely on. -/
structure PmmSound (map : List Descriptor) (t : Traced) : Prop where
  free_count : t.pmm.freePages = clearCount t.pmm.bitmap t.pmm.bitmapBits
  live_nodup : t.live.Nodup
  live_aligned : ∀ a, a ∈ t.live → a % pageSize = 0
  live_usable :
    ∀ a, a ∈ t.live →
      ∃ d, d ∈ map ∧ typeIsUsable d.memType = true ∧
        Set.Ico a (a + pageSize) ⊆ d.region
  live_ne_zero : ∀ a, a ∈ t.live → a ≠ 0
  live_not_bitmap :
    ∀ a, a ∈ t.live →
      Disjoint (Set.Ico a (a + pageSize))
        (Set.Ico t.pmm.bitmapAddr (t.pmm.bitmapAddr + bitmapBytes map))
  live_not_reserved : ∀ a, a ∈ t.live → a / pageSize ∉ t.reserved
  alloc_null_iff :
    (pmmAllocPage t.pmm).1 = 0 ↔
      ∀ p, p < t.pmm.bitmapBits → bitmapTest t.pmm.bitmap p = true

variable {map : List Descriptor} {region : Descriptor} {t : Traced}

/-- A covered page lies inside its descriptor. -/
theorem Covered.inside_descriptor
    (hv : ValidMap map) (hw : NoWrap map) (h : Covered map p) :
    ∃ d, d ∈ map ∧ typeIsUsable d.memType = true ∧
      Set.Ico (p * pageSize) (p * pageSize + pageSize) ⊆ d.region := by
  obtain ⟨d, hd, husable, k, hk, hkp⟩ := h
  have halign := hv.aligned d hd
  have hend := hw d hd husable
  refine ⟨d, hd, husable, ?_⟩
  intro x hx
  simp only [Descriptor.region, Set.mem_Ico] at hx ⊢
  unfold pageSize at *
  rw [Nat.mod_eq_of_lt (by omega)] at hkp
  omega

/-- A page outside the bitmap's pages does not meet the bitmap's bytes. -/
theorem disjoint_bitmap
    (halign : region.physicalStart % pageSize = 0) (h : ¬ InBitmap map region p) :
    Disjoint (Set.Ico (p * pageSize) (p * pageSize + pageSize))
      (Set.Ico region.physicalStart
        (region.physicalStart + bitmapBytes map)) := by
  rw [Set.disjoint_left]
  intro x hx hbitmap
  apply h
  simp only [Set.mem_Ico] at hx hbitmap
  unfold InBitmap bitmapPages
  unfold pageSize at *
  omega

theorem TraceInv.alloc_null_iff
    (ht : TraceInv map region t) :
    (pmmAllocPage t.pmm).1 = 0 ↔
      ∀ p, p < t.pmm.bitmapBits → bitmapTest t.pmm.bitmap p = true := by
  constructor
  · intro hnull
    by_contra hfull
    push Not at hfull
    obtain ⟨p, hp, hpset⟩ := hfull
    obtain ⟨bit, hbit, hclear, halloc⟩ :=
      pmmAllocPage_free hp (by simpa using hpset)
    rw [halloc] at hnull
    have hzero := (ht.clear_good bit hbit hclear).1.2.2
    unfold pageSize at hnull
    omega
  · intro hfull
    rw [pmmAllocPage_full hfull]

theorem TraceInv.sound
    (hv : ValidMap map) (hw : NoWrap map)
    (hregion : bitmapRegion map = some region)
    (ht : TraceInv map region t) : PmmSound map t := by
  have halign := hv.aligned region (bitmapRegion_spec hregion).1
  refine
    { free_count := ht.count
      live_nodup := ht.nodup
      live_aligned := ?_
      live_usable := ?_
      live_ne_zero := ?_
      live_not_bitmap := ?_
      live_not_reserved := ?_
      alloc_null_iff := ht.alloc_null_iff }
  · intro a ha
    obtain ⟨p, _, rfl, _⟩ := ht.live_good a ha
    exact Nat.mul_mod_left _ _
  · intro a ha
    obtain ⟨p, _, rfl, _, hgood, _⟩ := ht.live_good a ha
    exact Covered.inside_descriptor hv hw hgood.1
  · intro a ha
    obtain ⟨p, _, rfl, _, hgood, _⟩ := ht.live_good a ha
    have hzero := hgood.2.2
    unfold pageSize
    omega
  · intro a ha
    obtain ⟨p, _, rfl, _, hgood, _⟩ := ht.live_good a ha
    rw [ht.addr]
    exact disjoint_bitmap halign hgood.2.1
  · intro a ha
    obtain ⟨p, _, rfl, _, _, hres⟩ := ht.live_good a ha
    rwa [Nat.mul_div_cancel _ (by decide)]

/--
**Physical allocator invariant.**  If no usable descriptor and no reserved
region reaches the end of the 64-bit address range, every run of the allocator
keeps its count exact and hands out only distinct pages that are free to use.
-/
theorem pmm_sound_of_no_wrap
    {old : Bitmap} {s : State} {calls : List Call}
    (hv : ValidMap map) (hw : NoWrap map)
    (hinit : pmmInit map old = .ok s)
    (hcalls : ∀ c, c ∈ calls → c.NoWrap)
    (hrun : runAll call (start s) calls = some t) :
    PmmSound map t := by
  obtain ⟨region, hregion, _⟩ := pmmInit_eq_ok hinit
  have ht : TraceInv map region t :=
    runAll_invariant_of_forall
      (fun _ _ _ hs hc hstep => call_preserves hs hc hstep)
      (traceInv_start hv hw hinit hregion) hcalls hrun
  exact ht.sound hv hw hregion

/-- One conventional descriptor of 16 pages from `0x1000`. -/
def sixteenPages : List Descriptor :=
  [{ memType := conventional, physicalStart := 4096, numberOfPages := 16 }]

theorem validMap_sixteenPages : ValidMap sixteenPages := by
  refine ⟨?_, List.pairwise_singleton _ _⟩
  intro d hd
  simp only [sixteenPages, List.mem_singleton] at hd
  rw [hd]
  rfl

/-- Two pages are taken, one is given back and a region is reserved. -/
theorem pmm_sound_sixteenPages :
    ∃ s t, pmmInit sixteenPages (fun _ => 0#8) = .ok s ∧
      runAll call (start s)
          [.allocPage, .allocPage, .freePage 8192,
            .reserveRegion 8193 4096, .allocPage] = some t ∧
        t.live = [16384, 12288] ∧ PmmSound sixteenPages t := by
  obtain ⟨s, hs⟩ :
      ∃ s, pmmInit sixteenPages (fun _ => 0#8) = .ok s := ⟨_, rfl⟩
  have hw : NoWrap sixteenPages := by
    intro d hd _
    simp only [sixteenPages, List.mem_singleton] at hd
    rw [hd]
    decide
  have hrun :
      ∃ t, runAll call (start s)
          [.allocPage, .allocPage, .freePage 8192,
            .reserveRegion 8193 4096, .allocPage] = some t ∧
        t.live = [16384, 12288] := by
    cases hs
    exact ⟨_, rfl, by decide⟩
  obtain ⟨t, ht, hlive⟩ := hrun
  exact
    ⟨s, t, hs, ht, hlive,
      pmm_sound_of_no_wrap validMap_sixteenPages hw hs (by decide) ht⟩

/--
A region whose rounded end passes `2 ^ 64` is not reserved at all: page 2 lies
in `[0x2000, 2 ^ 64 - 1)`, is free when the region is reserved, and is the next
page handed out.
-/
theorem reserveRegion_wrap_hands_out_reserved :
    ∃ s t, pmmInit sixteenPages (fun _ => 0#8) = .ok s ∧
      ValidMap sixteenPages ∧
      runAll call (start s)
          [.reserveRegion 8192 (2 ^ 64 - 8193), .allocPage] = some t ∧
        8192 ∈ t.live ∧ 2 ∈ t.reserved ∧ ¬ PmmSound sixteenPages t := by
  obtain ⟨s, hs⟩ :
      ∃ s, pmmInit sixteenPages (fun _ => 0#8) = .ok s := ⟨_, rfl⟩
  have hrun :
      ∃ t, runAll call (start s)
          [.reserveRegion 8192 (2 ^ 64 - 8193), .allocPage] = some t ∧
        8192 ∈ t.live ∧ 2 ∈ t.reserved := by
    cases hs
    exact ⟨_, rfl, by decide, by decide⟩
  obtain ⟨t, ht, hlive, hres⟩ := hrun
  exact
    ⟨s, t, hs, validMap_sixteenPages, ht, hlive, hres,
      fun hsound => hsound.live_not_reserved 8192 hlive hres⟩

end Soundness

end Pmm
end RebornOS
