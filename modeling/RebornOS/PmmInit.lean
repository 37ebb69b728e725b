import RebornOS.Pmm
import Mathlib.Order.CompletePartialOrder

/-!
# What `pmm_init` leaves in the bitmap

Two facts about the four passes of `pmm_init`.

* For every memory map, a bit below `bitmap_bits` ends up clear exactly when
  its page is covered by a usable descriptor, is not a page of the bitmap
  itself and is not page 0 (`pmmInit_clear_iff`).
* For a map of page-aligned, pairwise disjoint descriptors that end below
  `2 ^ 64`, `free_pages` is the number of clear bits (`pmmInit_counted`).

The second needs the passes to be followed one bit at a time: every clear in
pass 3 must hit a bit that is still set, which is where disjointness is used.
-/

namespace RebornOS
namespace Pmm

open FiniteCount

variable {bits highest j n page startPage : Nat} {map : List Descriptor} {old : Bitmap}
  {s : State} {d : Descriptor} {st : Counted}

/-- Number of clear bits below `bits`. -/
def clearCount (b : Bitmap) (bits : Nat) : Nat :=
  Nat.count (fun i => bitmapTest b i = false) bits

/-- `free_pages` agrees with the bitmap. -/
def CountOk (bits : Nat) (st : Counted) : Prop :=
  st.2 = clearCount st.1 bits

/-- Page `page` is cleared by pass 3 for the descriptor `d`. -/
def Descriptor.Clears (d : Descriptor) (page : Nat) : Prop :=
  typeIsUsable d.memType = true ∧
  ∃ k, k < d.numberOfPages ∧ (d.physicalStart / pageSize + k) % 2 ^ 64 = page

/-- Page `page` is covered by a usable descriptor. -/
def Covered (map : List Descriptor) (page : Nat) : Prop :=
  ∃ d, d ∈ map ∧ d.Clears page

/-- The pages the bitmap occupies when it is placed into `region`. -/
def InBitmap (map : List Descriptor) (region : Descriptor) (page : Nat) : Prop :=
  region.physicalStart / pageSize ≤ page ∧
  page < region.physicalStart / pageSize + bitmapPages map

section Bits

theorem clearRun_test
    (startPage n : Nat) (st : Counted) (j : Nat) :
    bitmapTest (clearRun startPage n st).1 j = false ↔
      bitmapTest st.1 j = false ∨
        ∃ k, k < n ∧ (startPage + k) % 2 ^ 64 = j := by
  induction n with
  | zero =>
      simp [clearRun]
  | succ n ih =>
      simp only [clearRun, bitmapTest_clear, Bool.and_eq_false_iff, ih,
        Bool.not_eq_false', decide_eq_true_eq]
      constructor
      · rintro (rfl | hold | ⟨k, hk, hkj⟩)
        · exact Or.inr ⟨n, by omega, rfl⟩
        · exact Or.inl hold
        · exact Or.inr ⟨k, by omega, hkj⟩
      · rintro (hold | ⟨k, hk, hkj⟩)
        · exact Or.inr (Or.inl hold)
        · by_cases hkn : k = n
          · subst hkn
            exact Or.inl hkj.symm
          · exact Or.inr (Or.inr ⟨k, by omega, hkj⟩)

/-- Pass 3 clears exactly the covered pages. -/
theorem clearUsable_test
    (map : List Descriptor) (st : Counted) (j : Nat) :
    bitmapTest (clearUsable map st).1 j = false ↔
      bitmapTest st.1 j = false ∨ Covered map j := by
  induction map generalizing st with
  | nil =>
      simp [clearUsable, Covered]
  | cons d ds ih =>
      have hcovered : Covered (d :: ds) j ↔ d.Clears j ∨ Covered ds j := by
        simp [Covered]
      rw [hcovered]
      unfold clearUsable
      by_cases hd : typeIsUsable d.memType = true
      · rw [if_pos hd, ih, clearRun_test]
        have hclears : d.Clears j ↔
            ∃ k, k < d.numberOfPages ∧
              (d.physicalStart / pageSize + k) % 2 ^ 64 = j := by
          simp [Descriptor.Clears, hd]
        rw [hclears, or_assoc]
      · rw [if_neg hd, ih]
        have hclears : ¬ d.Clears j := fun h => hd h.1
        simp [hclears]

theorem claimPage_test
    (st : Counted) (page j : Nat) :
    bitmapTest (claimPage st page).1 j =
      (decide (j = page) || bitmapTest st.1 j) := by
  unfold claimPage
  by_cases hset : bitmapTest st.1 page = true
  · rw [if_pos hset]
    by_cases hj : j = page
    · subst hj
      simp [hset]
    · simp [hj]
  · rw [if_neg hset]
    exact bitmapTest_set st.1 page j

theorem claimRun_test
    (startPage n : Nat) (st : Counted) (j : Nat) :
    bitmapTest (claimRun startPage n st).1 j = false ↔
      bitmapTest st.1 j = false ∧ ¬ (startPage ≤ j ∧ j < startPage + n) := by
  induction n with
  | zero =>
      simp [claimRun]
  | succ n ih =>
      rw [claimRun, claimPage_test, Bool.or_eq_false_iff, ih, decide_eq_false_iff_not]
      constructor
      · rintro ⟨hne, hold, hout⟩
        exact ⟨hold, by omega⟩
      · rintro ⟨hold, hout⟩
        exact ⟨by omega, hold, by omega⟩

/-- After the initial `memset` every bit below `bitmap_bits` is set. -/
theorem filled_test
    (hj : j < bitmapBits map) : bitmapTest (filledBitmap map old) j = true := by
  have hbyte : j / 8 < bitmapBytes map := by
    unfold bitmapBytes
    omega
  have hones : ∀ k, k < 8 → (255#8).getLsbD k = true := by decide
  rw [bitmapTest_eq, filledBitmap, if_pos hbyte]
  exact hones _ (by omega)

/-- The state `pmm_init` builds, once the bitmap has a place. -/
theorem pmmInit_eq_ok
    (h : pmmInit map old = .ok s) :
    ∃ region, bitmapRegion map = some region ∧
      s.bitmapAddr = region.physicalStart ∧
      s.bitmapBits = bitmapBits map ∧
      s.searchHint = 1 ∧
      (s.bitmap, s.freePages) = initCounted map old region := by
  unfold pmmInit at h
  cases hregion : bitmapRegion map with
  | none =>
      rw [hregion] at h
      cases h
  | some region =>
      rw [hregion] at h
      simp only [Except.ok.injEq] at h
      subst h
      exact ⟨region, rfl, rfl, rfl, rfl, rfl⟩

/--
Which bits are clear after `pmm_init`, for any memory map at all.
-/
theorem pmmInit_clear_iff
    {region : Descriptor} (h : pmmInit map old = .ok s)
    (hregion : bitmapRegion map = some region) (hj : j < s.bitmapBits) :
    bitmapTest s.bitmap j = false ↔
      Covered map j ∧ ¬ InBitmap map region j ∧ j ≠ 0 := by
  obtain ⟨region', hregion', _, hbits, _, hst⟩ := pmmInit_eq_ok h
  rw [hregion, Option.some.injEq] at hregion'
  subst hregion'
  rw [hbits] at hj
  rw [initCounted, if_pos (by omega)] at hst
  have hbitmap := congrArg Prod.fst hst
  simp only at hbitmap
  rw [hbitmap, claimPage_test, Bool.or_eq_false_iff, claimRun_test,
    clearUsable_test, filled_test hj, decide_eq_false_iff_not]
  constructor
  · rintro ⟨hzero, hcov, hout⟩
    exact ⟨by simpa using hcov, hout, hzero⟩
  · rintro ⟨hcov, hout, hzero⟩
    exact ⟨hzero, Or.inr hcov, hout⟩

end Bits

section Bounds

/-- Pass 1 never goes below its starting value. -/
theorem le_highestAddr
    (map : List Descriptor) (highest : Nat) : highest ≤ highestAddr map highest := by
  induction map generalizing highest with
  | nil =>
      exact le_refl _
  | cons d ds ih =>
      unfold highestAddr
      split_ifs with hd
      · exact le_trans (le_of_lt hd.2) (ih _)
      · exact ih _

/-- Pass 1 reaches the end of every usable descriptor. -/
theorem descriptorEnd_le_highestAddr
    (hd : d ∈ map) (husable : typeIsUsable d.memType = true) :
    descriptorEnd d ≤ highestAddr map highest := by
  induction map generalizing highest with
  | nil =>
      cases hd
  | cons e es ih =>
      unfold highestAddr
      rcases List.mem_cons.mp hd with rfl | hd
      · split_ifs with hlt
        · exact le_highestAddr es _
        · have hle : descriptorEnd d ≤ highest := by
            by_contra hgt
            exact hlt ⟨husable, by omega⟩
          exact le_trans hle (le_highestAddr es _)
      · split_ifs
        · exact ih hd
        · exact ih hd

theorem highestAddr_lt
    (map : List Descriptor) (h : highest < 2 ^ 64) :
    highestAddr map highest < 2 ^ 64 := by
  induction map generalizing highest with
  | nil =>
      exact h
  | cons d ds ih =>
      unfold highestAddr
      split_ifs
      · exact ih (Nat.mod_lt _ (by decide))
      · exact ih h

/-- There are at most `2 ^ 52` tracked pages. -/
theorem bitmapBits_le
    (map : List Descriptor) : bitmapBits map < 2 ^ 52 := by
  have h := highestAddr_lt map (show 0 < 2 ^ 64 by decide)
  unfold bitmapBits pageSize
  omega

end Bounds

section Counting

theorem clearCount_lt
    (b : Bitmap) (hbits : bits < 2 ^ 52) : clearCount b bits < 2 ^ 64 := by
  have h : clearCount b bits ≤ bits := Nat.count_le _
  omega

/-- Setting a clear bit takes one page from the count. -/
theorem clearCount_set
    {b : Bitmap} (hpage : page < bits) (hclear : bitmapTest b page = false) :
    clearCount b bits = clearCount (bitmapSet b page) bits + 1 := by
  refine count_flip hpage ?_ hclear ?_
  · intro i _ hi
    simp [hi]
  · simp

/-- Claiming a tracked page keeps the count. -/
theorem claimPage_countOk
    (hbits : bits < 2 ^ 52) (hpage : page < bits) (h : CountOk bits st) :
    CountOk bits (claimPage st page) := by
  unfold claimPage
  by_cases hset : bitmapTest st.1 page = true
  · rw [if_pos hset]
    exact h
  · rw [if_neg hset]
    have hclear : bitmapTest st.1 page = false := by simpa using hset
    have hflip := clearCount_set hpage hclear
    have hlt := clearCount_lt (bitmapSet st.1 page) hbits
    unfold CountOk at h ⊢
    simp only
    rw [h, hflip]
    omega

theorem claimRun_countOk
    (hbits : bits < 2 ^ 52) (hn : startPage + n ≤ bits) (h : CountOk bits st) :
    CountOk bits (claimRun startPage n st) := by
  induction n with
  | zero =>
      exact h
  | succ n ih =>
      exact claimPage_countOk hbits (by omega) (ih (by omega))

/-- Clearing pages that are all still marked used keeps the count. -/
theorem clearRun_countOk
    (hbits : bits < 2 ^ 52) (hn : startPage + n ≤ bits)
    (hset : ∀ k, k < n → bitmapTest st.1 (startPage + k) = true) (h : CountOk bits st) :
    CountOk bits (clearRun startPage n st) := by
  induction n with
  | zero =>
      exact h
  | succ n ih =>
      have ih' := ih (by omega) (fun k hk => hset k (by omega))
      have hpage : (startPage + n) % 2 ^ 64 = startPage + n :=
        Nat.mod_eq_of_lt (by omega)
      have hstill : bitmapTest (clearRun startPage n st).1 (startPage + n) =
          true := by
        by_contra hne
        have hclear : bitmapTest (clearRun startPage n st).1 (startPage + n) =
            false := by simpa using hne
        rcases (clearRun_test _ _ _ _).mp hclear with hold | ⟨k, hk, hkn⟩
        · rw [hset n (by omega)] at hold
          cases hold
        · rw [Nat.mod_eq_of_lt (by omega)] at hkn
          omega
      have hflip :
          clearCount (bitmapClear (clearRun startPage n st).1 (startPage + n))
              bits =
            clearCount (clearRun startPage n st).1 bits + 1 := by
        refine count_flip (k := startPage + n) (by omega) ?_ ?_ ?_
        · intro i _ hi
          simp [hi]
        · simp
        · simp [hstill]
      have hlt :=
        clearCount_lt
          (bitmapClear (clearRun startPage n st).1 (startPage + n)) hbits
      unfold CountOk at ih' ⊢
      simp only [clearRun, hpage]
      rw [hflip] at hlt ⊢
      rw [ih']
      exact Nat.mod_eq_of_lt hlt

end Counting

section ValidMap

/-- The physical addresses of a descriptor. -/
def Descriptor.region (d : Descriptor) : Set Nat :=
  Set.Ico d.physicalStart (d.physicalStart + d.numberOfPages * pageSize)

/-- Page-aligned, pairwise disjoint descriptors. -/
structure ValidMap (map : List Descriptor) : Prop where
  aligned : ∀ d, d ∈ map → d.physicalStart % pageSize = 0
  disjoint : map.Pairwise (fun d e => Disjoint d.region e.region)

/-- No usable descriptor reaches the end of the 64-bit address range. -/
def NoWrap (map : List Descriptor) : Prop :=
  ∀ d, d ∈ map → typeIsUsable d.memType = true →
    d.physicalStart + d.numberOfPages * pageSize < 2 ^ 64

/-- The pages of a usable descriptor are tracked by the bitmap. -/
theorem pages_lt_bitmapBits
    (hv : ValidMap map) (hw : NoWrap map) (hd : d ∈ map)
    (husable : typeIsUsable d.memType = true) :
    d.physicalStart / pageSize + d.numberOfPages ≤ bitmapBits map := by
  have hend : descriptorEnd d ≤ highestAddr map 0 :=
    descriptorEnd_le_highestAddr hd husable
  unfold descriptorEnd at hend
  rw [Nat.mod_eq_of_lt (hw d hd husable)] at hend
  have halign := hv.aligned d hd
  unfold bitmapBits
  unfold pageSize at *
  omega

/-- The page numbers of disjoint aligned descriptors are disjoint. -/
theorem pages_disjoint
    {e : Descriptor} (hd : d.physicalStart % pageSize = 0)
    (he : e.physicalStart % pageSize = 0) (hdisj : Disjoint d.region e.region)
    {k l : Nat} (hk : k < d.numberOfPages) (hl : l < e.numberOfPages) :
    d.physicalStart / pageSize + k ≠ e.physicalStart / pageSize + l := by
  intro heq
  rw [Set.disjoint_left] at hdisj
  unfold pageSize at *
  refine hdisj (a := (d.physicalStart / 4096 + k) * 4096) ?_ ?_
  · simp only [Descriptor.region, Set.mem_Ico, pageSize]
    omega
  · rw [heq]
    simp only [Descriptor.region, Set.mem_Ico, pageSize]
    omega

/--
Pass 3 keeps the count.  The induction is on the remaining descriptors: all
their pages are still marked used, because the descriptors before them are
disjoint from them.
-/
theorem clearUsable_countOk
    {ds : List Descriptor} (hbits : bits < 2 ^ 52)
    (haligned : ∀ d, d ∈ ds → d.physicalStart % pageSize = 0)
    (hdisj : ds.Pairwise (fun d e => Disjoint d.region e.region))
    (hbound : ∀ d, d ∈ ds → typeIsUsable d.memType = true →
      d.physicalStart / pageSize + d.numberOfPages ≤ bits)
    (hset : ∀ d, d ∈ ds → typeIsUsable d.memType = true →
      ∀ k, k < d.numberOfPages →
        bitmapTest st.1 (d.physicalStart / pageSize + k) = true) (h : CountOk bits st) :
    CountOk bits (clearUsable ds st) := by
  induction ds generalizing st with
  | nil =>
      exact h
  | cons d ds ih =>
      have hpair := List.pairwise_cons.mp hdisj
      unfold clearUsable
      split_ifs with hd
      · apply ih (fun e he => haligned e (List.mem_cons_of_mem _ he)) hpair.2
          (fun e he => hbound e (List.mem_cons_of_mem _ he))
        · intro e he husable k hk
          by_contra hne
          have hclear :
              bitmapTest
                  (clearRun (d.physicalStart / pageSize) d.numberOfPages st).1
                  (e.physicalStart / pageSize + k) = false := by
            simpa using hne
          rcases (clearRun_test _ _ _ _).mp hclear with hold | ⟨l, hl, hlk⟩
          · rw [hset e (List.mem_cons_of_mem _ he) husable k hk] at hold
            cases hold
          · have hdb := hbound d (by simp) hd
            rw [Nat.mod_eq_of_lt (by omega)] at hlk
            exact
              pages_disjoint (haligned d (by simp))
                (haligned e (List.mem_cons_of_mem _ he)) (hpair.1 e he) hl hk
                hlk
        · exact
            clearRun_countOk hbits (hbound d (by simp) hd)
              (hset d (by simp) hd) h
      · exact
          ih (fun e he => haligned e (List.mem_cons_of_mem _ he)) hpair.2
            (fun e he => hbound e (List.mem_cons_of_mem _ he))
            (fun e he => hset e (List.mem_cons_of_mem _ he)) h

/-- The region chosen in pass 2. -/
theorem bitmapRegion_spec
    {region : Descriptor} (h : bitmapRegion map = some region) :
    region ∈ map ∧ region.memType = conventional ∧
      bitmapBytes map ≤ region.numberOfPages * pageSize % 2 ^ 64 := by
  have hmem := List.mem_of_find?_eq_some h
  have hprop := List.find?_some h
  simp only [Bool.and_eq_true, beq_iff_eq, decide_eq_true_eq] at hprop
  exact ⟨hmem, hprop.1, hprop.2⟩

/-- The bitmap fits into its region. -/
theorem bitmapPages_le
    {region : Descriptor} (h : bitmapRegion map = some region) :
    bitmapPages map ≤ region.numberOfPages := by
  obtain ⟨_, _, hbytes⟩ := bitmapRegion_spec h
  have hmod := Nat.mod_le (region.numberOfPages * pageSize) (2 ^ 64)
  unfold bitmapPages
  unfold pageSize at *
  omega

/-- **`free_pages` is exact after `pmm_init`.** -/
theorem pmmInit_counted
    (hv : ValidMap map) (hw : NoWrap map) (h : pmmInit map old = .ok s) :
    s.freePages = clearCount s.bitmap s.bitmapBits := by
  obtain ⟨region, hregion, _, hbits, _, hst⟩ := pmmInit_eq_ok h
  have hlt := bitmapBits_le map
  obtain ⟨hmem, htype, _⟩ := bitmapRegion_spec hregion
  have husable : typeIsUsable region.memType = true := by
    rw [htype]
    rfl
  have hfilled : CountOk (bitmapBits map) (filledBitmap map old, 0) := by
    have hzero : clearCount (filledBitmap map old) (bitmapBits map) = 0 := by
      by_contra hne
      obtain ⟨i, hi, hclear⟩ := count_pos_iff.mp (Nat.pos_of_ne_zero hne)
      rw [filled_test hi] at hclear
      cases hclear
    exact hzero.symm
  have hbound : ∀ d, d ∈ map → typeIsUsable d.memType = true →
      d.physicalStart / pageSize + d.numberOfPages ≤ bitmapBits map :=
    fun d hd hu => pages_lt_bitmapBits hv hw hd hu
  have hset : ∀ d, d ∈ map → typeIsUsable d.memType = true →
      ∀ k, k < d.numberOfPages →
        bitmapTest (filledBitmap map old) (d.physicalStart / pageSize + k) =
          true := by
    intro d hd hu k hk
    have hb := hbound d hd hu
    exact filled_test (by omega)
  have hcleared :
      CountOk (bitmapBits map) (clearUsable map (filledBitmap map old, 0)) :=
    clearUsable_countOk hlt hv.aligned hv.disjoint hbound hset hfilled
  have hregionBound := hbound region hmem husable
  have hpages := bitmapPages_le hregion
  have hclaimed :
      CountOk (bitmapBits map)
        (claimRun (region.physicalStart / pageSize) (bitmapPages map)
          (clearUsable map (filledBitmap map old, 0))) :=
    claimRun_countOk hlt (by omega) hcleared
  have hfinal : CountOk (bitmapBits map) (s.bitmap, s.freePages) := by
    rw [hst, initCounted]
    split_ifs with hpos
    · exact claimPage_countOk hlt hpos hclaimed
    · exact hclaimed
  rw [hbits]
  exact hfinal

end ValidMap

end Pmm
end RebornOS
