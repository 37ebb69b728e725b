import RebornOS.FiniteCount

/-!
# The physical page allocator: `pmm_init`, `pmm_alloc_page`, `pmm_free_page`

A shallow embedding of `kernel/src/pmm.c`.  One bit per physical page, set for
a page in use, packed into bytes.  `pmm_init` reads the UEFI memory map in
four passes: it finds the highest usable address, places the bitmap first-fit
into conventional memory, clears the bits of all usable pages, and finally
claims back the pages of the bitmap itself and page 0.

`uint64_t` sums and products whose operands come from the firmware or from a
caller are taken modulo `2 ^ 64`.  Page numbers below `bitmap_bits` never
exceed `2 ^ 52`, so sums of those are plain.
-/

namespace RebornOS
namespace Pmm

/-- `PMM_PAGE_SIZE`. -/
def pageSize : Nat := 4096

/-- The fields of `efi_memory_descriptor_t` that the allocator reads. -/
structure Descriptor where
  memType : Nat
  physicalStart : Nat
  numberOfPages : Nat
deriving DecidableEq, Repr

/-- `EFI_MEM_TYPE_BOOT_SERVICES_CODE`. -/
def bootServicesCode : Nat := 3

/-- `EFI_MEM_TYPE_BOOT_SERVICES_DATA`. -/
def bootServicesData : Nat := 4

/-- `EFI_MEM_TYPE_CONVENTIONAL`. -/
def conventional : Nat := 7

/-- `type_is_usable`. -/
def typeIsUsable (t : Nat) : Bool :=
  t == conventional || t == bootServicesCode || t == bootServicesData

/-- The bytes of the page bitmap. -/
abbrev Bitmap := Nat → BitVec 8

/-- `bitmap_set`. -/
def bitmapSet (b : Bitmap) (bit : Nat) : Bitmap :=
  fun i => if i = bit / 8 then b i ||| (1#8 <<< (bit % 8)) else b i

/-- `bitmap_clear`. -/
def bitmapClear (b : Bitmap) (bit : Nat) : Bitmap :=
  fun i => if i = bit / 8 then b i &&& ~~~(1#8 <<< (bit % 8)) else b i

/-- `bitmap_test`. -/
def bitmapTest (b : Bitmap) (bit : Nat) : Bool :=
  ((b (bit / 8) >>> (bit % 8)) &&& 1#8) == 1#8

/-- The allocator's static variables. -/
structure State where
  bitmap : Bitmap
  /-- Physical address the bitmap is stored at. -/
  bitmapAddr : Nat
  bitmapBits : Nat
  freePages : Nat
  searchHint : Nat

/-- The panics of `pmm.c`. -/
inductive Panic where
  | noRegionForBitmap (bitmapBytes : Nat)
  | freeOutsideRange (physAddr : Nat)
  | doubleFree (physAddr : Nat)
deriving DecidableEq, Repr

section Init

/-- End of a descriptor, as pass 1 computes it. -/
def descriptorEnd (d : Descriptor) : Nat :=
  (d.physicalStart + d.numberOfPages * pageSize) % 2 ^ 64

/-- Pass 1: the highest end of a usable descriptor. -/
def highestAddr : List Descriptor → Nat → Nat
  | [], highest => highest
  | d :: ds, highest =>
      if typeIsUsable d.memType ∧ highest < descriptorEnd d then
        highestAddr ds (descriptorEnd d)
      else
        highestAddr ds highest

/-- `bitmap_bits`. -/
def bitmapBits (map : List Descriptor) : Nat := highestAddr map 0 / pageSize

/-- `bitmap_bytes`. -/
def bitmapBytes (map : List Descriptor) : Nat := (bitmapBits map + 7) / 8

/-- Pass 2: the first conventional region that can hold the bitmap. -/
def bitmapRegion (map : List Descriptor) : Option Descriptor :=
  map.find? (fun d =>
    d.memType == conventional &&
      decide (bitmapBytes map ≤ d.numberOfPages * pageSize % 2 ^ 64))

/-- `bitmap_pages`. -/
def bitmapPages (map : List Descriptor) : Nat :=
  (bitmapBytes map + pageSize - 1) / pageSize

/-- The bitmap and `free_pages`, which change together. -/
abbrev Counted := Bitmap × Nat

/-- Clear the bits of `n` pages from `startPage` on, counting each one. -/
def clearRun (startPage : Nat) : Nat → Counted → Counted
  | 0, st => st
  | n + 1, st =>
      let st := clearRun startPage n st
      (bitmapClear st.1 ((startPage + n) % 2 ^ 64), (st.2 + 1) % 2 ^ 64)

/-- Pass 3: clear the pages of every usable descriptor. -/
def clearUsable : List Descriptor → Counted → Counted
  | [], st => st
  | d :: ds, st =>
      if typeIsUsable d.memType then
        clearUsable ds
          (clearRun (d.physicalStart / pageSize) d.numberOfPages st)
      else
        clearUsable ds st

/-- Mark one page used if it is free. -/
def claimPage (st : Counted) (page : Nat) : Counted :=
  if bitmapTest st.1 page then
    st
  else
    (bitmapSet st.1 page, (st.2 + (2 ^ 64 - 1)) % 2 ^ 64)

/-- Claim `n` pages from `startPage` on. -/
def claimRun (startPage : Nat) : Nat → Counted → Counted
  | 0, st => st
  | n + 1, st => claimPage (claimRun startPage n st) (startPage + n)

/-- The bitmap after `memset(bitmap, 0xFF, bitmap_bytes)`. -/
def filledBitmap (map : List Descriptor) (old : Bitmap) : Bitmap :=
  fun i => if i < bitmapBytes map then 255#8 else old i

/-- The bitmap and `free_pages` that the passes leave, given the region. -/
def initCounted
    (map : List Descriptor) (old : Bitmap) (region : Descriptor) : Counted :=
  let st := clearUsable map (filledBitmap map old, 0)
  let st := claimRun (region.physicalStart / pageSize) (bitmapPages map) st
  if 0 < bitmapBits map then claimPage st 0 else st

/-- `pmm_init`; `old` is what the bitmap's memory held before. -/
def pmmInit (map : List Descriptor) (old : Bitmap) : Except Panic State :=
  match bitmapRegion map with
  | none => .error (.noRegionForBitmap (bitmapBytes map))
  | some region =>
      let st := initCounted map old region
      .ok
        { bitmap := st.1
          bitmapAddr := region.physicalStart
          bitmapBits := bitmapBits map
          freePages := st.2
          searchHint := 1 }

end Init

section Operations

/-- The wrap-around scan of `pmm_alloc_page`: `n` more bits, at offset `i`. -/
def scanFrom (s : State) : Nat → Nat → Option Nat
  | 0, _ => none
  | n + 1, i =>
      let bit := (s.searchHint + i) % s.bitmapBits
      if bitmapTest s.bitmap bit then
        scanFrom s n (i + 1)
      else
        some bit

/-- `pmm_alloc_page`; the returned address is 0 for `NULL`. -/
def pmmAllocPage (s : State) : Nat × State :=
  match scanFrom s s.bitmapBits 0 with
  | none => (0, s)
  | some bit =>
      (bit * pageSize,
        { s with
          bitmap := bitmapSet s.bitmap bit
          freePages := (s.freePages + (2 ^ 64 - 1)) % 2 ^ 64
          searchHint := bit + 1 })

/-- `pmm_free_page`. -/
def pmmFreePage (s : State) (physAddr : Nat) : Except Panic State :=
  let bit := physAddr / pageSize
  if s.bitmapBits ≤ bit then
    .error (.freeOutsideRange physAddr)
  else if bitmapTest s.bitmap bit = false then
    .error (.doubleFree physAddr)
  else
    .ok
      { s with
        bitmap := bitmapClear s.bitmap bit
        freePages := (s.freePages + 1) % 2 ^ 64 }

/-- `pmm_reserve_region`. -/
def pmmReserveRegion (s : State) (physAddr size : Nat) : State :=
  let startPage := physAddr / pageSize
  let endPage := (physAddr + size + pageSize - 1) % 2 ^ 64 / pageSize
  let st :=
    claimRun startPage (min endPage s.bitmapBits - startPage)
      (s.bitmap, s.freePages)
  { s with bitmap := st.1, freePages := st.2 }

end Operations

section BitRules

/-- Reading a bit is reading one digit of one byte. -/
theorem bitmapTest_eq
    (b : Bitmap) (bit : Nat) : bitmapTest b bit = (b (bit / 8)).getLsbD (bit % 8) := by
  unfold bitmapTest
  have hone : ∀ x : BitVec 8, ((x &&& 1#8) == 1#8) = x.getLsbD 0 := by
    decide
  rw [hone, BitVec.getLsbD_ushiftRight, Nat.add_zero]

/-- The mask of one bit, digit by digit. -/
theorem getLsbD_bitMask
    {i j : Nat} (hj : j < 8) : (1#8 <<< i).getLsbD j = decide (j = i) := by
  rw [BitVec.getLsbD_shiftLeft, BitVec.getLsbD_one]
  by_cases hlt : j < i
  · have hne : j ≠ i := by omega
    simp [hlt, hne]
  · by_cases heq : j = i
    · subst heq
      simp [hj]
    · have hsub : j - i ≠ 0 := by omega
      simp [heq, hsub]

@[simp] theorem bitmapTest_set
    (b : Bitmap) (i j : Nat) :
    bitmapTest (bitmapSet b i) j = (decide (j = i) || bitmapTest b j) := by
  rw [bitmapTest_eq, bitmapTest_eq]
  unfold bitmapSet
  by_cases hbyte : j / 8 = i / 8
  · have hiff : j % 8 = i % 8 ↔ j = i := by omega
    rw [if_pos hbyte, BitVec.getLsbD_or, getLsbD_bitMask (by omega), Bool.or_comm]
    simp only [hiff]
  · have hji : j ≠ i := by
      rintro rfl
      exact hbyte rfl
    rw [if_neg hbyte]
    simp [hji]

@[simp] theorem bitmapTest_clear
    (b : Bitmap) (i j : Nat) :
    bitmapTest (bitmapClear b i) j = (!decide (j = i) && bitmapTest b j) := by
  rw [bitmapTest_eq, bitmapTest_eq]
  unfold bitmapClear
  by_cases hbyte : j / 8 = i / 8
  · have hiff : j % 8 = i % 8 ↔ j = i := by omega
    have hj : j % 8 < 8 := by omega
    rw [if_pos hbyte, BitVec.getLsbD_and, BitVec.getLsbD_not,
      getLsbD_bitMask hj, Bool.and_comm]
    simp only [hiff, hj, decide_true, Bool.true_and]
  · have hji : j ≠ i := by
      rintro rfl
      exact hbyte rfl
    rw [if_neg hbyte]
    simp [hji]

end BitRules

end Pmm
end RebornOS
