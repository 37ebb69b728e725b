import RebornOS.ElfFaithful
import RebornOS.Traced

/-!
# Which bytes of the image the loader reads

`tracedProgram` is `elf_load_user_program` with a trace: it emits the offset of
every byte of the image that it reads, and without the trace it is the loader
(`tracedProgram_result`).  An offset is the distance from `elf_data` as the
64-bit address arithmetic of the code computes it.

The size check of the loader covers the ELF header.  Nothing covers the program
headers, and the check of `p_offset + p_filesz` is made modulo `2 ^ 64`.
`HeadersInside` asks both of the file.
-/

namespace RebornOS
namespace Elf

open ByteStore WordBits PageWalk Fallible Vmm PagedSpace
open Traced (all_bind all_fail all_ite all_pure result_bind)

variable {σ α : Type} {ph : Phdr} {mem mem₀ mem' : Store}
  {elfData elfSize i n off pml4 : Nat} {S : Space (UInt8 × Rights)} {e : Panic}
  {K : Finset Nat} {alloc : σ → Nat × σ} {Valid : σ → Prop} {held : σ → Set Nat}
  {P : Target σ} {m m' : Machine σ}

section Traced

variable (pmmAllocPage : σ → Nat × σ)

/-- The offsets of `n` bytes from `off` on. -/
def byteOffsets (off n : Nat) : List Nat :=
  (List.range n).map (fun k => (off + k) % 2 ^ 64)

/-- Read a field of the image. -/
def readField (mem : Store) (elfData off n : Nat) : Traced Panic Nat Nat :=
  .emit (byteOffsets off n) (imageField mem elfData off n)

/-- Read a field and panic unless it is `v`. -/
def expectField (mem : Store) (elfData off n v : Nat) (e : Panic) :
    Traced Panic Nat Unit := do
  let x ← readField mem elfData off n
  if x ≠ v then
    .fail e
  else
    pure ()

/-- Where the fields of `phdrs[i]` start. -/
def phdrOffset (mem : Store) (elfData i : Nat) : Nat :=
  phoff mem elfData + i * phdrSize

/-- The copied range of one page. -/
def copyStart (vaddr page : Nat) : Nat := if page > vaddr then page else vaddr
def copyEnd (vaddr filesz page : Nat) : Nat :=
  let pageEnd := (page + pmmPageSize) % 2 ^ 64
  let fileEnd := (vaddr + filesz) % 2 ^ 64
  if pageEnd < fileEnd then pageEnd else fileEnd

/-- `copySegmentBytes` with a trace. -/
def tracedCopy (mem : Store) (elfData page phys i : Nat) :
    Traced Panic Nat Store := do
  let base := phdrOffset mem elfData i
  let vaddr ← readField mem elfData (base + 16) 8
  let filesz ← readField mem elfData (base + 32) 8
  let start := copyStart vaddr page
  let stop := copyEnd vaddr filesz page
  if stop > start then do
    let offset ← readField mem elfData (base + 8) 8
    let fileOffset := offset + (start - vaddr)
    .emit (byteOffsets fileOffset (stop - start))
      (copyIn mem (phys + (start - page)) (stop - start)
        (fun k => mem ((elfData + fileOffset + k) % 2 ^ 64)))
  else
    pure mem

/-- `loadPage` with a trace. -/
def tracedPage (m : Machine σ) (elfData pml4Phys i flags page : Nat) :
    Traced Panic Nat (Machine σ) :=
  let r := pmmAllocPage m.pmm
  if r.1 = 0 then
    .fail (.outOfMemoryForSegment i)
  else do
    let mem := fill m.mem r.1 pmmPageSize 0
    let mem ← tracedCopy mem elfData page r.1 i
    .lift
      (mapPage pmmAllocPage { m with mem := mem, pmm := r.2 } pml4Phys page r.1
        flags)

/-- `loadPages` with a trace. -/
def tracedPages (elfData pml4Phys i flags : Nat) :
    Nat → Nat → Machine σ → Traced Panic Nat (Machine σ)
  | 0, _, m => pure m
  | n + 1, page, m => do
      let m ← tracedPage pmmAllocPage m elfData pml4Phys i flags page
      tracedPages elfData pml4Phys i flags n (page + pmmPageSize) m

/-- `loadSegment` with a trace. -/
def tracedSegment (m : Machine σ) (elfData elfSize pml4Phys i : Nat) :
    Traced Panic Nat (Machine σ) := do
  let base := phdrOffset m.mem elfData i
  let type ← readField m.mem elfData base 4
  if type ≠ ptLoad then
    pure m
  else do
    let offset ← readField m.mem elfData (base + 8) 8
    let filesz ← readField m.mem elfData (base + 32) 8
    if (offset + filesz) % 2 ^ 64 > elfSize then
      .fail (.segmentPastEnd i)
    else do
      let vaddr ← readField m.mem elfData (base + 16) 8
      let memsz ← readField m.mem elfData (base + 40) 8
      let flags ← readField m.mem elfData (base + 4) 4
      let ph : Phdr :=
        { type := type, flags := flags, offset := offset, vaddr := vaddr,
          filesz := filesz, memsz := memsz }
      let segStart := pageAlignDown vaddr
      let segEnd := pageAlignUp ((vaddr + memsz) % 2 ^ 64)
      tracedPages pmmAllocPage elfData pml4Phys i (segmentFlags ph)
        ((segEnd - segStart) / pmmPageSize) segStart m

/-- `loadSegments` with a trace. -/
def tracedSegments (elfData elfSize pml4Phys : Nat) :
    Nat → Nat → Machine σ → Traced Panic Nat (Machine σ)
  | 0, _, m => pure m
  | fuel + 1, i, m => do
      let n ← readField m.mem elfData 56 2
      if i < n then do
        let m ← tracedSegment pmmAllocPage m elfData elfSize pml4Phys i
        tracedSegments elfData elfSize pml4Phys fuel (i + 1) m
      else
        pure m

/-- The checks of the ELF header. -/
def tracedHeader (mem : Store) (elfData : Nat) : Traced Panic Nat Unit := do
  expectField mem elfData 0 1 0x7F .badMagic
  expectField mem elfData 1 1 0x45 .badMagic
  expectField mem elfData 2 1 0x4C .badMagic
  expectField mem elfData 3 1 0x46 .badMagic
  expectField mem elfData 4 1 elfClass64 .notX8664
  expectField mem elfData 18 2 emX8664 .notX8664

/-- The stack, the argument block and the entry point. -/
def tracedFinish (m : Machine σ) (elfData pml4Phys : Nat)
    (argv : List (List UInt8)) : Traced Panic Nat (Process × Machine σ) := do
  let (top, m) ← .lift (loadStack pmmAllocPage pml4Phys elfUserStackPages 0 0 m)
  let (mem, stackTop, argvPtr) ←
    .lift (writeArgvBlob m.mem top (elfUserStackTop - pmmPageSize) argv)
  let entry ← readField mem elfData 24 8
  pure
    ({ entry := entry
       stackTop := stackTop
       argvPtr := argvPtr
       argc := argv.length },
      { m with mem := mem })

/-- `elf_load_user_program` with a trace. -/
def tracedProgram (m : Machine σ) (elfData elfSize pml4Phys : Nat)
    (argv : List (List UInt8)) : Traced Panic Nat (Process × Machine σ) :=
  if elfSize < ehdrSize then
    .fail .fileTooSmall
  else do
    tracedHeader m.mem elfData
    let _ ← readField m.mem elfData 32 8
    let m ← tracedSegments pmmAllocPage elfData elfSize pml4Phys (2 ^ 16) 0 m
    tracedFinish pmmAllocPage m elfData pml4Phys argv

end Traced

section Result

variable {pmmAllocPage : σ → Nat × σ}

/-- The value of a field goes on to the rest. -/
theorem readField_bind_result
    (mem : Store) (elfData off n : Nat) (f : Nat → Traced Panic Nat α) :
    (readField mem elfData off n >>= f).result =
      (f (imageField mem elfData off n)).result := by
  rw [result_bind]
  rfl

theorem expectField_result
    (mem : Store) (elfData off n v : Nat) (e : Panic) :
    (expectField mem elfData off n v e).result =
      if imageField mem elfData off n ≠ v then .error e else .ok () := by
  unfold expectField
  rw [readField_bind_result]
  split_ifs <;> rfl

/-- The checks one by one are the two checks of the loader. -/
theorem tracedHeader_result
    (mem : Store) (elfData : Nat) :
    (tracedHeader mem elfData).result =
      if imageField mem elfData 0 1 ≠ 0x7F ∨ imageField mem elfData 1 1 ≠ 0x45 ∨
          imageField mem elfData 2 1 ≠ 0x4C ∨
          imageField mem elfData 3 1 ≠ 0x46 then
        .error .badMagic
      else if imageField mem elfData 4 1 ≠ elfClass64 ∨
          imageField mem elfData 18 2 ≠ emX8664 then
        .error .notX8664
      else
        .ok () := by
  have hcheck : ∀ (c : Prop) [Decidable c] (e : Panic) (f : Unit → Except Panic Unit),
      ((if c then .error e else .ok ()) >>= f) = if c then .error e else f () := by
    intro c _ e f
    split_ifs <;> rfl
  unfold tracedHeader
  simp only [result_bind, expectField_result, hcheck, ite_or]

theorem tracedCopy_result
    (mem : Store) (elfData page phys i : Nat) :
    (tracedCopy mem elfData page phys i).result =
      .ok (copySegmentBytes mem elfData page phys (phdrAt mem elfData i)) := by
  unfold tracedCopy copySegmentBytes
  dsimp only
  -- both sides branch on the same comparison, with the fields read one by one
  rw [readField_bind_result, readField_bind_result, apply_ite Traced.result,
    apply_ite Except.ok, readField_bind_result]
  rfl

theorem tracedPage_result
    (m : Machine σ) (elfData pml4Phys i flags page : Nat) :
    (tracedPage pmmAllocPage m elfData pml4Phys i flags page).result =
      loadPage pmmAllocPage m elfData pml4Phys i flags page := by
  unfold tracedPage loadPage
  dsimp only
  split_ifs
  · rfl
  · rw [result_bind, tracedCopy_result]
    rfl

theorem tracedPages_result
    (elfData pml4Phys i flags n : Nat) :
    ∀ page m,
      (tracedPages pmmAllocPage elfData pml4Phys i flags n page m).result =
        loadPages pmmAllocPage elfData pml4Phys i flags n page m := by
  induction n with
  | zero =>
      intro page m
      rfl
  | succ n ih =>
      intro page m
      rw [tracedPages, loadPages, result_bind, tracedPage_result]
      simp only [ih]

theorem tracedSegment_result
    (m : Machine σ) (elfData elfSize pml4Phys i : Nat) :
    (tracedSegment pmmAllocPage m elfData elfSize pml4Phys i).result =
      loadSegment pmmAllocPage m elfData elfSize pml4Phys i := by
  unfold tracedSegment loadSegment
  dsimp only
  simp only [readField_bind_result, apply_ite Traced.result, tracedPages_result]
  rfl

theorem tracedSegments_result
    (elfData elfSize pml4Phys fuel : Nat) :
    ∀ i m,
      (tracedSegments pmmAllocPage elfData elfSize pml4Phys fuel i m).result =
        loadSegments pmmAllocPage elfData elfSize pml4Phys fuel i m := by
  induction fuel with
  | zero =>
      intro i m
      rfl
  | succ fuel ih =>
      intro i m
      rw [tracedSegments, loadSegments, readField_bind_result]
      split_ifs
      · rw [result_bind, tracedSegment_result]
        simp only [ih]
      · rfl

/-- Without its trace, `tracedProgram` is the loader. -/
theorem tracedProgram_result
    (m : Machine σ) (elfData elfSize pml4Phys : Nat) (argv : List (List UInt8)) :
    (tracedProgram pmmAllocPage m elfData elfSize pml4Phys argv).result =
      elfLoadUserProgram pmmAllocPage m elfData elfSize pml4Phys argv := by
  unfold tracedProgram elfLoadUserProgram
  by_cases hsize : elfSize < ehdrSize
  · rw [if_pos hsize, if_pos hsize]
    rfl
  · rw [if_neg hsize, if_neg hsize]
    rw [result_bind, tracedHeader_result]
    split_ifs
    · rfl
    · rfl
    · rw [ok_bind, readField_bind_result, result_bind, tracedSegments_result]
      refine bind_congr (fun m => ?_)
      unfold tracedFinish
      rw [result_bind, Traced.result_lift]
      refine bind_congr (fun stack => ?_)
      rw [result_bind, Traced.result_lift]
      exact bind_congr (fun blob => readField_bind_result _ _ _ _ _)

end Result

section Inside

/-- `n` bytes at `off` are bytes of the file. -/
def Inside (elfSize off n : Nat) : Prop := off % 2 ^ 64 + n ≤ elfSize

instance (elfSize off n : Nat) : Decidable (Inside elfSize off n) :=
  Nat.decLe _ _

theorem byteOffsets_inside
    (hsize : elfSize < 2 ^ 64) (hn : 0 < n) :
    (∀ x ∈ byteOffsets off n, x < elfSize) ↔ Inside elfSize off n := by
  unfold byteOffsets Inside
  simp only [List.mem_map, List.mem_range, forall_exists_index, and_imp,
    forall_apply_eq_imp_iff₂]
  constructor
  · intro h
    have hfirst := h 0 hn
    rw [Nat.add_zero] at hfirst
    by_contra hout
    -- the first byte past the end of the file
    have hlast := h (elfSize - off % 2 ^ 64) (by omega)
    omega
  · intro h k hk
    omega

/-- A part of bytes that are in the file. -/
theorem Inside.part
    {base size : Nat} (h : Inside elfSize base size) (hle : off + n ≤ size) :
    Inside elfSize (base + off) n := by
  unfold Inside at h ⊢
  omega

/-- A field of the ELF header, once the size has been checked. -/
theorem inside_header
    (hehdr : ehdrSize ≤ elfSize) (hle : off + n ≤ ehdrSize) : Inside elfSize off n := by
  unfold ehdrSize at hehdr hle
  unfold Inside
  omega

theorem all_readField_bind
    (hsize : elfSize < 2 ^ 64) (hn : 0 < n) {f : Nat → Traced Panic Nat α} :
    (readField mem elfData off n >>= f).All (· < elfSize) ↔
      Inside elfSize off n ∧ (f (imageField mem elfData off n)).All (· < elfSize) := by
  unfold readField
  rw [Traced.all_emit_bind, byteOffsets_inside hsize hn]

/-- A part of the segment is copied into the page. -/
def Phdr.Copies (ph : Phdr) (page : Nat) : Prop :=
  copyStart ph.vaddr page < copyEnd ph.vaddr ph.filesz page

/-- The part of the segment that is copied into a page is part of the file. -/
def CopyInside (elfSize : Nat) (ph : Phdr) (page : Nat) : Prop :=
  ph.Copies page →
    Inside elfSize (ph.offset + (copyStart ph.vaddr page - ph.vaddr))
      (copyEnd ph.vaddr ph.filesz page - copyStart ph.vaddr page)

/-- The fields of header `i` that a page needs, and the bytes that it copies. -/
theorem all_tracedCopy
    (hsize : elfSize < 2 ^ 64) (mem : Store) (page phys i : Nat) :
    (tracedCopy mem elfData page phys i).All (· < elfSize) ↔
      Inside elfSize (phdrOffset mem elfData i + 16) 8 ∧
      Inside elfSize (phdrOffset mem elfData i + 32) 8 ∧
      ((phdrAt mem elfData i).Copies page →
        Inside elfSize (phdrOffset mem elfData i + 8) 8) ∧
      CopyInside elfSize (phdrAt mem elfData i) page := by
  unfold tracedCopy
  dsimp only
  rw [all_readField_bind hsize (by decide), all_readField_bind hsize (by decide),
    all_ite, and_iff_left (fun _ => all_pure mem)]
  refine and_congr_right (fun _ => and_congr_right (fun _ => ?_))
  refine Iff.trans (forall_congr' (fun hcopy => ?_)) imp_and
  rw [all_readField_bind hsize (by decide)]
  exact and_congr_right (fun _ => byteOffsets_inside hsize (Nat.sub_pos_of_lt hcopy))

/-- The check of the loader against the size of the file. -/
def Phdr.Accepted (ph : Phdr) (elfSize : Nat) : Prop :=
  (ph.offset + ph.filesz) % 2 ^ 64 ≤ elfSize

/-- An accepted segment whose end does not wrap around is copied from the file. -/
theorem copyInside_of_accepted
    (hin : ph.Accepted elfSize) (hwrap : ph.offset + ph.filesz < 2 ^ 64) (page : Nat) :
    CopyInside elfSize ph page := by
  intro hcopy
  have hstart : ph.vaddr ≤ copyStart ph.vaddr page := by
    unfold copyStart
    split_ifs <;> omega
  have hend : copyEnd ph.vaddr ph.filesz page ≤ ph.vaddr + ph.filesz := by
    have hmod := Nat.mod_le (ph.vaddr + ph.filesz) (2 ^ 64)
    unfold copyEnd
    dsimp only
    split_ifs <;> omega
  unfold Phdr.Copies at hcopy
  unfold Phdr.Accepted at hin
  rw [Nat.mod_eq_of_lt hwrap] at hin
  unfold Inside
  rw [Nat.mod_eq_of_lt (by omega)]
  omega

/--
A segment that has an address for each of its file bytes copies them all, and so
reads the last byte of the address space when its end wraps around.
-/
theorem noWrap_of_copyInside
    (hsize : elfSize < 2 ^ 64) (hoffset : ph.offset < 2 ^ 64)
    (hfilesz : ph.filesz ≤ ph.memsz) (hend : ph.vaddr + ph.memsz + 4096 ≤ 2 ^ 64)
    (hcopy : ∀ k, k < ph.pageCount →
      CopyInside elfSize ph (pageAlignDown ph.vaddr + k * pmmPageSize)) :
    ph.offset + ph.filesz < 2 ^ 64 := by
  by_contra hwrap
  have hdown : pageAlignDown ph.vaddr = ph.vaddr / 4096 * 4096 :=
    land_highMask (show ph.vaddr < 2 ^ 64 by omega) (by decide)
  have hup : pageAlignUp ((ph.vaddr + ph.memsz) % 2 ^ 64) =
      (ph.vaddr + ph.memsz + 4096 - 1) / 4096 * 4096 := by
    unfold pageAlignUp pmmPageSize
    rw [Nat.mod_eq_of_lt (show ph.vaddr + ph.memsz < 2 ^ 64 by omega),
      Nat.mod_eq_of_lt (by omega)]
    exact land_highMask (by omega) (by decide)
  -- the page that byte `2 ^ 64 - 1 - p_offset` of the segment falls into
  have hpage := hcopy ((ph.vaddr + (2 ^ 64 - 1 - ph.offset)) / 4096 - ph.vaddr / 4096) (by
    unfold Phdr.pageCount pmmPageSize
    rw [hup, hdown]
    omega)
  have haddr : pageAlignDown ph.vaddr +
      ((ph.vaddr + (2 ^ 64 - 1 - ph.offset)) / 4096 - ph.vaddr / 4096) * pmmPageSize =
      (ph.vaddr + (2 ^ 64 - 1 - ph.offset)) / 4096 * 4096 := by
    unfold pmmPageSize
    rw [hdown]
    omega
  rw [haddr] at hpage
  have hstart : copyStart ph.vaddr
      ((ph.vaddr + (2 ^ 64 - 1 - ph.offset)) / 4096 * 4096) ≤
        ph.vaddr + (2 ^ 64 - 1 - ph.offset) := by
    unfold copyStart
    split_ifs <;> omega
  have hlow : ph.vaddr ≤ copyStart ph.vaddr
      ((ph.vaddr + (2 ^ 64 - 1 - ph.offset)) / 4096 * 4096) := by
    unfold copyStart
    split_ifs <;> omega
  have hstop : ph.vaddr + (2 ^ 64 - 1 - ph.offset) < copyEnd ph.vaddr ph.filesz
      ((ph.vaddr + (2 ^ 64 - 1 - ph.offset)) / 4096 * 4096) := by
    unfold copyEnd pmmPageSize
    dsimp only
    rw [Nat.mod_eq_of_lt (by omega), Nat.mod_eq_of_lt (by omega)]
    split_ifs <;> omega
  have hin := hpage (lt_of_le_of_lt hstart hstop)
  unfold Inside at hin
  rw [Nat.mod_eq_of_lt (by omega)] at hin
  omega

end Inside

section Condition

/-- What the loader checks before it looks at the program headers. -/
structure HeaderAccepted (mem : Store) (elfData elfSize : Nat) : Prop where
  size : ehdrSize ≤ elfSize
  magic :
    imageField mem elfData 0 1 = 0x7F ∧ imageField mem elfData 1 1 = 0x45 ∧
      imageField mem elfData 2 1 = 0x4C ∧ imageField mem elfData 3 1 = 0x46
  machine :
    imageField mem elfData 4 1 = elfClass64 ∧
      imageField mem elfData 18 2 = emX8664

/--
What header `i` has to keep to: its type lies in the file; for a segment, so do
`p_offset` and `p_filesz`; for a segment that passes the check, so do the other
fields, and `p_offset + p_filesz` stays below `2 ^ 64`.
-/
structure HeaderInside (mem : Store) (elfData elfSize i : Nat) : Prop where
  type : Inside elfSize (phdrOffset mem elfData i) 4
  bounds :
    (phdrAt mem elfData i).type = ptLoad →
      Inside elfSize (phdrOffset mem elfData i) 40
  segment :
    (phdrAt mem elfData i).type = ptLoad → (phdrAt mem elfData i).Accepted elfSize →
      Inside elfSize (phdrOffset mem elfData i) 48 ∧
        (phdrAt mem elfData i).offset + (phdrAt mem elfData i).filesz < 2 ^ 64

/-- No segment among the headers from `i` to `k` is refused. -/
def AllAccepted (mem : Store) (elfData elfSize i k : Nat) : Prop :=
  ∀ j, i ≤ j → j < k → (phdrAt mem elfData j).type = ptLoad →
    (phdrAt mem elfData j).Accepted elfSize

/-- Every header up to the first refused segment keeps to the file. -/
def HeadersInside (mem : Store) (elfData elfSize : Nat) : Prop :=
  HeaderAccepted mem elfData elfSize →
    ∀ i, i < phnum mem elfData → AllAccepted mem elfData elfSize 0 i →
      HeaderInside mem elfData elfSize i

/-- The segments of the file have an address for each of their file bytes. -/
def SegmentsPlain (mem : Store) (elfData elfSize : Nat) : Prop :=
  ∀ i, i < phnum mem elfData → Inside elfSize (phdrOffset mem elfData i) 48 →
    (phdrAt mem elfData i).type = ptLoad →
      (phdrAt mem elfData i).filesz ≤ (phdrAt mem elfData i).memsz ∧
        (phdrAt mem elfData i).vaddr + (phdrAt mem elfData i).memsz + 4096 ≤ 2 ^ 64

/-- The panics over a page that is not to be had or not to be mapped. -/
def Panic.ofPage : Panic → Bool
  | .vmm _ => true
  | .outOfMemoryForSegment _ => true
  | _ => false

end Condition

section Pages

variable {flags : Nat}

/-- A file that holds an ELF header, in frames that are not handed out. -/
structure FileRead (elfData elfSize : Nat) (K : Finset Nat) : Prop extends
    FileKept elfData elfSize K where
  header : ehdrSize ≤ elfSize
  half : elfSize < 2 ^ 63

theorem FileRead.small
    (hf : FileRead elfData elfSize K) : elfSize < 2 ^ 64 := by
  have := hf.half
  omega

section

variable (hf : FileRead elfData elfSize K) (hkeep : KeepsFrames K mem mem')
include hf hkeep

/-- Fields inside the file do not change while the loader works. -/
theorem FileRead.imageField_eq
    (hin : Inside elfSize off n) :
    imageField mem' elfData off n = imageField mem elfData off n := by
  refine hkeep.imageField (fun k hk => ?_)
  have hfits := hf.fits
  unfold Inside at hin
  rw [← Nat.add_mod_mod, Nat.mod_eq_of_lt (by omega), Nat.add_assoc]
  exact hf.frames _ (by omega)

theorem FileRead.phdrOffset_eq
    (i : Nat) : phdrOffset mem' elfData i = phdrOffset mem elfData i := by
  have hoff : phoff mem' elfData = phoff mem elfData :=
    hf.imageField_eq hkeep (inside_header hf.header (by decide))
  unfold phdrOffset
  rw [hoff]

/-- Neither does a header that lies in the file. -/
theorem FileRead.phdrAt_eq
    (h : Inside elfSize (phdrOffset mem elfData i) 48) :
    phdrAt mem' elfData i = phdrAt mem elfData i := by
  have hfields : ∀ f ∈ phdrFields, f.1 + f.2 ≤ 48 := by decide
  refine
    phdrAt_congr (hf.imageField_eq hkeep (inside_header hf.header (by decide))) ?_
  exact fun off n hmem => hf.imageField_eq hkeep (h.part (hfields _ hmem))

/-- A header that lies in the file up to `p_filesz` is checked as it is there. -/
theorem FileRead.accepted_iff
    (h : Inside elfSize (phdrOffset mem elfData i) 40) :
    (phdrAt mem' elfData i).Accepted elfSize ↔
      (phdrAt mem elfData i).Accepted elfSize := by
  have hfield : ∀ off, off + 8 ≤ 40 →
      imageField mem' elfData (phdrOffset mem' elfData i + off) 8 =
        imageField mem elfData (phdrOffset mem elfData i + off) 8 := by
    intro off hle
    rw [hf.phdrOffset_eq hkeep]
    exact hf.imageField_eq hkeep (h.part hle)
  have hoffset : (phdrAt mem' elfData i).offset = (phdrAt mem elfData i).offset :=
    hfield 8 (by decide)
  have hfilesz : (phdrAt mem' elfData i).filesz = (phdrAt mem elfData i).filesz :=
    hfield 32 (by decide)
  unfold Phdr.Accepted
  rw [hoffset, hfilesz]

theorem FileRead.type_eq
    (h : Inside elfSize (phdrOffset mem elfData i) 4) :
    (phdrAt mem' elfData i).type = (phdrAt mem elfData i).type := by
  show imageField mem' elfData (phdrOffset mem' elfData i) 4 = _
  rw [hf.phdrOffset_eq hkeep]
  exact hf.imageField_eq hkeep h

end

theorem all_tracedPage
    {P : Nat → Prop} (m : Machine σ) (page : Nat) :
    (tracedPage alloc m elfData pml4 i flags page).All P ↔
      ((alloc m.pmm).1 ≠ 0 →
        (tracedCopy (fill m.mem (alloc m.pmm).1 pmmPageSize 0) elfData page
          (alloc m.pmm).1 i).All P) := by
  unfold tracedPage
  dsimp only
  by_cases hne : (alloc m.pmm).1 = 0
  · rw [if_pos hne]
    exact iff_of_true (all_fail _) (fun h => absurd hne h)
  · rw [if_neg hne, all_bind, imp_iff_right hne]
    exact and_iff_left (fun mem _ => Traced.all_lift _)

/-- With the header inside the file, only the copied bytes are left. -/
theorem all_tracedPage_iff
    (hf : FileRead elfData elfSize P.K)
    (hl : Loading P mem₀ m S)
    (hin : Inside elfSize (phdrOffset mem₀ elfData i) 48) (page : Nat) :
    (tracedPage P.alloc m elfData pml4 i flags page).All (· < elfSize) ↔
      ((P.alloc m.pmm).1 ≠ 0 → CopyInside elfSize (phdrAt mem₀ elfData i) page) := by
  rw [all_tracedPage]
  refine forall_congr' (fun hne => ?_)
  obtain ⟨g, hg⟩ := hl.inv
  obtain ⟨p, hp, _⟩ := P.apart.frame hg.inv.valid hne
  have hkeep := hl.cleared hne hp
  rw [← hp] at hkeep
  rw [all_tracedCopy hf.small, hf.phdrOffset_eq hkeep, hf.phdrAt_eq hkeep hin,
    and_iff_right (hin.part (by decide)), and_iff_right (hin.part (by decide)),
    and_iff_right (fun _ => hin.part (by decide))]

/-- The loop over the pages of a segment that copies from the file only. -/
theorem all_tracedPages
    (hf : FileRead elfData elfSize P.K)
    (hin : Inside elfSize (phdrOffset mem₀ elfData i) 48)
    (hcopy : ∀ page, CopyInside elfSize (phdrAt mem₀ elfData i) page) (n : Nat) :
    ∀ page m S, Loading P mem₀ m S →
      (tracedPages P.alloc elfData (P.r * 4096) i flags n page m).All (· < elfSize) := by
  induction n with
  | zero =>
      intro page m _ _
      exact all_pure m
  | succ n ih =>
      intro page m S hl
      rw [tracedPages, all_bind, all_tracedPage_iff hf hl hin, tracedPage_result]
      refine ⟨fun _ => hcopy page, fun m₁ hpage => ?_⟩
      obtain ⟨S₁, hl₁⟩ := loadPage_loading hl hpage
      exact ih _ m₁ S₁ hl₁

/-- A loop that comes to its end has copied for every page. -/
theorem copyInside_of_tracedPages
    (hf : FileRead elfData elfSize P.K)
    (hin : Inside elfSize (phdrOffset mem₀ elfData i) 48) (n : Nat) :
    ∀ page m S, Loading P mem₀ m S →
      (tracedPages P.alloc elfData (P.r * 4096) i flags n page m).All (· < elfSize) →
      loadPages P.alloc elfData (P.r * 4096) i flags n page m = .ok m' →
        ∀ k, k < n →
          CopyInside elfSize (phdrAt mem₀ elfData i) (page + k * pmmPageSize) := by
  induction n with
  | zero =>
      intro page m S _ _ _ k hk
      exact absurd hk (Nat.not_lt_zero k)
  | succ n ih =>
      intro page m S hl hall hrun k hk
      rw [tracedPages, all_bind, all_tracedPage_iff hf hl hin,
        tracedPage_result] at hall
      rw [loadPages] at hrun
      obtain ⟨m₁, hpage, hrun⟩ := bind_eq_ok.mp hrun
      cases k with
      | zero =>
          rw [Nat.zero_mul, Nat.add_zero]
          refine hall.1 (fun hnull => ?_)
          unfold loadPage at hpage
          rw [if_pos hnull] at hpage
          cases hpage
      | succ k =>
          obtain ⟨S₁, hl₁⟩ := loadPage_loading hl hpage
          rw [show page + (k + 1) * pmmPageSize = page + pmmPageSize + k * pmmPageSize by
            rw [Nat.succ_mul]
            omega]
          exact ih _ m₁ S₁ hl₁ (hall.2 m₁ hpage) hrun k (Nat.lt_of_succ_lt_succ hk)

theorem loadPages_error
    (n : Nat) :
    ∀ page m, loadPages alloc elfData pml4 i flags n page m = .error e →
      e.ofPage = true := by
  induction n with
  | zero =>
      intro page m h
      cases h
  | succ n ih =>
      intro page m h
      rw [loadPages] at h
      cases hpage : loadPage alloc m elfData pml4 i flags page with
      | ok m₁ =>
          rw [hpage] at h
          exact ih _ m₁ h
      | error e' =>
          rw [hpage] at h
          obtain rfl : e' = e := Except.error.inj h
          unfold loadPage mapPage at hpage
          dsimp only at hpage
          split_ifs at hpage
          · cases hpage
            rfl
          · revert hpage
            cases vmmMapPage alloc _ pml4 page _ flags with
            | ok m₁ =>
                intro h
                cases h
            | error p =>
                intro h
                cases h
                rfl

end Pages

section Headers

/-- The fields of one header and the pages of its segment. -/
theorem all_tracedSegment
    (hsize : elfSize < 2 ^ 64) (m : Machine σ) :
    (tracedSegment alloc m elfData elfSize pml4 i).All (· < elfSize) ↔
      Inside elfSize (phdrOffset m.mem elfData i) 4 ∧
      ((phdrAt m.mem elfData i).type = ptLoad →
        Inside elfSize (phdrOffset m.mem elfData i + 8) 8 ∧
        Inside elfSize (phdrOffset m.mem elfData i + 32) 8 ∧
        ((phdrAt m.mem elfData i).Accepted elfSize →
          Inside elfSize (phdrOffset m.mem elfData i + 16) 8 ∧
          Inside elfSize (phdrOffset m.mem elfData i + 40) 8 ∧
          Inside elfSize (phdrOffset m.mem elfData i + 4) 4 ∧
          (tracedPages alloc elfData pml4 i
            (segmentFlags (phdrAt m.mem elfData i))
            (phdrAt m.mem elfData i).pageCount
            (pageAlignDown (phdrAt m.mem elfData i).vaddr) m).All
            (· < elfSize))) := by
  unfold tracedSegment
  dsimp only
  rw [all_readField_bind hsize (by decide), all_ite,
    and_iff_right (fun _ => all_pure m)]
  refine and_congr_right (fun _ => imp_congr not_not ?_)
  rw [all_readField_bind hsize (by decide), all_readField_bind hsize (by decide),
    all_ite, and_iff_right (fun _ => all_fail _)]
  refine and_congr_right (fun _ => and_congr_right (fun _ => imp_congr Nat.not_lt ?_))
  rw [all_readField_bind hsize (by decide), all_readField_bind hsize (by decide),
    all_readField_bind hsize (by decide)]
  rfl

/-- What is read for a header that keeps to the file. -/
theorem HeaderInside.all_tracedSegment
    (hf : FileRead elfData elfSize P.K)
    (hl : Loading P mem₀ m S)
    (h : HeaderInside mem₀ elfData elfSize i) :
    (tracedSegment P.alloc m elfData elfSize (P.r * 4096) i).All (· < elfSize) := by
  rw [Elf.all_tracedSegment hf.small, hf.phdrOffset_eq hl.image,
    hf.type_eq hl.image h.type]
  refine ⟨h.type, fun hload => ?_⟩
  have hbounds := h.bounds hload
  refine ⟨hbounds.part (by decide), hbounds.part (by decide), ?_⟩
  intro haccepted
  have haccepted := (hf.accepted_iff hl.image hbounds).mp haccepted
  obtain ⟨hin, hwrap⟩ := h.segment hload haccepted
  refine
    ⟨hin.part (by decide), hin.part (by decide),
      hin.part (by decide), ?_⟩
  exact
    all_tracedPages hf hin
      (copyInside_of_accepted haccepted hwrap) _ _ m S hl

/-- A segment that is not refused fails over its pages only. -/
theorem loadSegment_error
    (h : loadSegment alloc m elfData elfSize pml4 i = .error e) :
    e.ofPage = true ∨
      (phdrAt m.mem elfData i).type = ptLoad ∧
        ¬ (phdrAt m.mem elfData i).Accepted elfSize := by
  unfold loadSegment at h
  dsimp only at h
  split_ifs at h with hload hpast
  · exact Or.inr ⟨not_not.mp hload, Nat.not_le.mpr hpast⟩
  · exact Or.inl (loadPages_error _ _ m h)

/-- Conversely, what is read for a header tells that it keeps to the file. -/
theorem headerInside_of_tracedSegment
    (hf : FileRead elfData elfSize P.K) (hl : Loading P mem₀ m S)
    (hserved : ∀ e, loadSegment P.alloc m elfData elfSize (P.r * 4096) i = .error e →
      e.ofPage = false) (hplain : Inside elfSize (phdrOffset mem₀ elfData i) 48 →
      (phdrAt mem₀ elfData i).type = ptLoad →
        (phdrAt mem₀ elfData i).filesz ≤ (phdrAt mem₀ elfData i).memsz ∧
          (phdrAt mem₀ elfData i).vaddr + (phdrAt mem₀ elfData i).memsz + 4096 ≤
            2 ^ 64)
    (hall : (tracedSegment P.alloc m elfData elfSize (P.r * 4096) i).All (· < elfSize)) :
    HeaderInside mem₀ elfData elfSize i := by
  rw [all_tracedSegment hf.small, hf.phdrOffset_eq hl.image] at hall
  obtain ⟨htype, hrest⟩ := hall
  rw [hf.type_eq hl.image htype] at hrest
  -- the header starts below `2 ^ 63`, so its fields lie behind each other
  have hfield : ∀ off n, off ≤ 40 →
      Inside elfSize (phdrOffset mem₀ elfData i + off) n →
        Inside elfSize (phdrOffset mem₀ elfData i) (off + n) := by
    intro off n hoff hin
    have hhalf := hf.half
    unfold Inside at htype hin ⊢
    omega
  have hbounds : (phdrAt mem₀ elfData i).type = ptLoad →
      Inside elfSize (phdrOffset mem₀ elfData i) 40 :=
    fun hload => hfield 32 8 (by decide) (hrest hload).2.1
  refine ⟨htype, hbounds, fun hload haccepted => ?_⟩
  have haccepted' :=
    (hf.accepted_iff hl.image (hbounds hload)).mpr haccepted
  obtain ⟨_, hmemsz, _, hpages⟩ := (hrest hload).2.2 haccepted'
  have hin := hfield 40 8 (by decide) hmemsz
  have hphdr := hf.phdrAt_eq hl.image hin
  rw [hphdr] at hpages
  obtain ⟨hfilesz, hend⟩ := hplain hin hload
  refine ⟨hin, ?_⟩
  cases hrun : loadPages P.alloc elfData (P.r * 4096) i
      (segmentFlags (phdrAt mem₀ elfData i)) (phdrAt mem₀ elfData i).pageCount
      (pageAlignDown (phdrAt mem₀ elfData i).vaddr) m with
  | ok m' =>
      exact
        noWrap_of_copyInside hf.small (readLE_lt mem₀ _ 8) hfilesz hend
          (copyInside_of_tracedPages hf hin _ _ m S hl hpages
            hrun)
  | error e =>
      have hfail : loadSegment P.alloc m elfData elfSize (P.r * 4096) i = .error e := by
        unfold loadSegment
        rw [hphdr]
        dsimp only
        rw [if_neg (not_not.mpr hload), if_neg (Nat.not_lt.mpr haccepted)]
        exact hrun
      have hpage := loadPages_error _ _ m hrun
      rw [hserved e hfail] at hpage
      cases hpage

/-- One round of the loop leaves the file alone. -/
theorem loadSegment_loading
    (hl : Loading P mem₀ m S)
    (hrun : loadSegment P.alloc m elfData elfSize (P.r * 4096) i = .ok m') :
    ∃ S', Loading P mem₀ m' S' := by
  rcases loadSegment_eq_ok hrun with rfl | ⟨_, hpages⟩
  · exact ⟨S, hl⟩
  · refine
      loadPages_preserves
        (Q := fun m' => ∃ S', Loading P mem₀ m' S') _ _ m
        ?_ ⟨S, hl⟩ hpages
    rintro _ _ _ _ ⟨S', hl'⟩ hpage
    exact loadPage_loading hl' hpage

/-- The loop reads inside the file when the headers that it meets keep to it. -/
theorem all_tracedSegments
    (hf : FileRead elfData elfSize P.K) (fuel : Nat) :
    ∀ i m S, Loading P mem₀ m S →
      (∀ k, i ≤ k → k < phnum mem₀ elfData → AllAccepted mem₀ elfData elfSize i k →
        HeaderInside mem₀ elfData elfSize k) →
      (tracedSegments P.alloc elfData elfSize (P.r * 4096) fuel i m).All (· < elfSize) := by
  induction fuel with
  | zero =>
      intro i m S _ _
      exact all_pure m
  | succ fuel ih =>
      intro i m S hl hinside
      have hnum : imageField m.mem elfData 56 2 = phnum mem₀ elfData :=
        hf.imageField_eq hl.image (inside_header hf.header (by decide))
      rw [tracedSegments, all_readField_bind hf.small (by decide), hnum]
      refine ⟨inside_header hf.header (by decide), ?_⟩
      split_ifs with hlt
      · have hheader := hinside i (le_refl i) hlt (fun j hle hj => by omega)
        rw [all_bind, tracedSegment_result]
        refine
          ⟨hheader.all_tracedSegment hf hl, fun m₁ hsegment => ?_⟩
        obtain ⟨S₁, hl₁⟩ := loadSegment_loading hl hsegment
        refine ih (i + 1) m₁ S₁ hl₁ (fun k hle hk haccepted => ?_)
        refine hinside k (by omega) hk (fun j hij hj hload => ?_)
        by_cases heq : j = i
        · -- the round was not refused
          subst heq
          rw [← hf.accepted_iff hl.image (hheader.bounds hload)]
          rw [← hf.type_eq hl.image hheader.type] at hload
          unfold loadSegment at hsegment
          dsimp only at hsegment
          rw [if_neg (not_not.mpr hload)] at hsegment
          by_contra hpast
          rw [if_pos (Nat.lt_of_not_le hpast)] at hsegment
          cases hsegment
        · exact haccepted j (by omega) hj hload
      · exact all_pure m

/-- Conversely, a loop that gets its pages tells about every header it meets. -/
theorem headersInside_of_tracedSegments
    (hf : FileRead elfData elfSize P.K) (hplain : SegmentsPlain mem₀ elfData elfSize)
    {k : Nat} (hk : k < phnum mem₀ elfData) (fuel : Nat) :
    ∀ i m S, Loading P mem₀ m S →
      (tracedSegments P.alloc elfData elfSize (P.r * 4096) fuel i m).All (· < elfSize) →
      (∀ e, loadSegments P.alloc elfData elfSize (P.r * 4096) fuel i m = .error e →
        e.ofPage = false) →
      i ≤ k → k < i + fuel → AllAccepted mem₀ elfData elfSize i k →
        HeaderInside mem₀ elfData elfSize k := by
  induction fuel with
  | zero =>
      intro i m S _ _ _ hle hlt
      omega
  | succ fuel ih =>
      intro i m S hl hall hserved hle hlt haccepted
      have hnum : imageField m.mem elfData 56 2 = phnum mem₀ elfData :=
        hf.imageField_eq hl.image (inside_header hf.header (by decide))
      have hi : i < phnum mem₀ elfData := by omega
      rw [tracedSegments, all_readField_bind hf.small (by decide), hnum, if_pos hi,
        all_bind, tracedSegment_result] at hall
      rw [loadSegments, hnum, if_pos hi] at hserved
      have hheader : HeaderInside mem₀ elfData elfSize i := by
        refine
          headerInside_of_tracedSegment hf hl (fun e he => ?_)
            (hplain i hi) hall.2.1
        exact hserved e (by rw [he]; rfl)
      by_cases heq : i = k
      · exact heq ▸ hheader
      · cases hsegment : loadSegment P.alloc m elfData elfSize (P.r * 4096) i with
        | ok m₁ =>
            rw [hsegment] at hserved
            obtain ⟨S₁, hl₁⟩ := loadSegment_loading hl hsegment
            exact
              ih (i + 1) m₁ S₁ hl₁ (hall.2.2 m₁ hsegment) hserved (by omega) (by omega)
                (fun j hj => haccepted j (by omega))
        | error e =>
            rcases loadSegment_error hsegment with hpage | ⟨hload, hrefused⟩
            · rw [hserved e (by rw [hsegment]; rfl)] at hpage
              cases hpage
            · rw [hf.type_eq hl.image hheader.type] at hload
              rw [hf.accepted_iff hl.image (hheader.bounds hload)]
                at hrefused
              exact absurd (haccepted i (le_refl i) (by omega) hload) hrefused

end Headers

section Program

variable {fb : Framebuffer} {s : Spaces σ} {argv : List (List UInt8)}

theorem tracedHeader_ok_iff
    (mem : Store) (elfData : Nat) (hsize : ehdrSize ≤ elfSize) :
    (tracedHeader mem elfData).result = .ok () ↔
      HeaderAccepted mem elfData elfSize := by
  rw [tracedHeader_result]
  constructor
  · intro h
    split_ifs at h with hmagic hmachine
    exact ⟨hsize, by tauto, by tauto⟩
  · rintro ⟨_, hmagic, hmachine⟩
    rw [if_neg (by tauto), if_neg (by tauto)]

theorem all_tracedFinish
    (hf : FileRead elfData elfSize K) (m : Machine σ) :
    (tracedFinish alloc m elfData pml4 argv).All (· < elfSize) := by
  unfold tracedFinish
  rw [all_bind]
  refine ⟨Traced.all_lift _, fun stack _ => ?_⟩
  rw [all_bind]
  refine ⟨Traced.all_lift _, fun blob _ => ?_⟩
  rw [all_readField_bind hf.small (by decide)]
  exact ⟨inside_header hf.header (by decide), all_pure _⟩

/-- The checks read inside the ELF header. -/
theorem all_tracedHeader
    (hf : FileRead elfData elfSize K) (mem : Store) :
    (tracedHeader mem elfData).All (· < elfSize) := by
  have hfield : ∀ {off n v e}, 0 < n → off + n ≤ ehdrSize →
      (expectField mem elfData off n v e).All (· < elfSize) := by
    intro off n v e hn hle
    unfold expectField
    rw [all_readField_bind hf.small hn, all_ite]
    exact
      ⟨inside_header hf.header hle, fun _ => all_fail _,
        fun _ => all_pure _⟩
  unfold tracedHeader
  simp only [all_bind]
  refine
    ⟨?_, fun _ _ => ⟨?_, fun _ _ => ⟨?_, fun _ _ => ⟨?_, fun _ _ => ⟨?_,
      fun _ _ => ?_⟩⟩⟩⟩⟩ <;>
    exact hfield (by decide) (by decide)

/--
**When the loader reads inside the file.**  Whatever the allocator does, the
loader reads bytes of the file only, if every program header up to the first
refused segment lies in the file and no accepted segment has a `p_offset +
p_filesz` of `2 ^ 64` or more.  Where every page is to be had, and the segments
have an address for each of their file bytes, this is the only case.
-/
theorem elf_reads_inside
    (hs : Reachable alloc Valid held fb K s) (hroot : pml4 ∈ s.roots)
    (hfile : FileKept elfData elfSize K) (hsize : elfSize < 2 ^ 63) :
    (HeadersInside s.machine.mem elfData elfSize →
      ∀ off ∈ (tracedProgram alloc s.machine elfData elfSize pml4 argv).events,
        off < elfSize) ∧
    ((∀ e, elfLoadUserProgram alloc s.machine elfData elfSize pml4 argv = .error e →
        e.ofPage = false) →
      SegmentsPlain s.machine.mem elfData elfSize →
      (∀ off ∈ (tracedProgram alloc s.machine elfData elfSize pml4 argv).events,
        off < elfSize) →
        HeadersInside s.machine.mem elfData elfSize) := by
  have hok := hs.systemOk
  obtain ⟨r, rfl⟩ := hok.frames _ hroot
  have hl : Loading (hs.target hroot) s.machine.mem s.machine _ :=
    ⟨hok.inv, fun _ _ => rfl, rfl⟩
  show (_ → (tracedProgram _ _ _ _ _ _).All (· < elfSize)) ∧
    (_ → _ → (tracedProgram _ _ _ _ _ _).All (· < elfSize) → _)
  rw [← tracedProgram_result]
  unfold tracedProgram
  by_cases hsmall : elfSize < ehdrSize
  · rw [if_pos hsmall]
    exact
      ⟨fun _ => all_fail _,
        fun _ _ _ hheader => absurd hsmall (Nat.not_lt.mpr hheader.size)⟩
  · have hf : FileRead elfData elfSize K := ⟨hfile, Nat.le_of_not_lt hsmall, hsize⟩
    rw [if_neg hsmall, all_bind]
    constructor
    · intro hinside
      refine ⟨all_tracedHeader hf _, fun _ haccepted => ?_⟩
      rw [all_readField_bind hf.small (by decide), all_bind]
      refine
        ⟨inside_header hf.header (by decide), ?_,
          fun m' _ => all_tracedFinish hf m'⟩
      refine all_tracedSegments hf _ 0 s.machine _ hl ?_
      exact fun k _ =>
        hinside ((tracedHeader_ok_iff _ _ hf.header).mp haccepted) k
    · intro hserved hplain hall haccepted k hk
      have hheader := (tracedHeader_ok_iff _ _ hf.header).mpr haccepted
      have hreads := hall.2 () hheader
      rw [all_readField_bind hf.small (by decide), all_bind] at hreads
      refine
        headersInside_of_tracedSegments hf hplain hk (2 ^ 16) 0
          s.machine _ hl hreads.2.1 (fun e he => hserved e ?_) (Nat.zero_le k) ?_
      · rw [result_bind, hheader, ok_bind, readField_bind_result,
          result_bind, tracedSegments_result, he]
        rfl
      · rw [Nat.zero_add]
        exact lt_trans hk (readLE_lt s.machine.mem _ 2)

/-- The headers of an image with a code and a data segment keep to the file. -/
theorem headersInside_codeAndData
    (hoff : phoff mem elfData = 64) (hnum : phnum mem elfData = 2)
    (hcode : phdrAt mem elfData 0 = codeSegment)
    (hdata : phdrAt mem elfData 1 = dataSegment) :
    HeadersInside mem elfData 178 ∧ SegmentsPlain mem elfData 178 := by
  have hcases : ∀ i, i < phnum mem elfData →
      (phdrOffset mem elfData i = 64 ∧ phdrAt mem elfData i = codeSegment) ∨
        phdrOffset mem elfData i = 120 ∧ phdrAt mem elfData i = dataSegment := by
    intro i hi
    rw [hnum] at hi
    unfold phdrOffset
    rw [hoff]
    obtain rfl | rfl : i = 0 ∨ i = 1 := by omega
    · exact Or.inl ⟨rfl, hcode⟩
    · exact Or.inr ⟨rfl, hdata⟩
  refine ⟨fun _ i hi _ => ?_, fun i hi _ _ => ?_⟩
  · rcases hcases i hi with ⟨hbase, hph⟩ | ⟨hbase, hph⟩
    all_goals
      refine ⟨?_, fun _ => ?_, fun _ _ => ?_⟩ <;> rw [hbase]
      · decide
      · decide
      · rw [hph]
        decide
  · rcases hcases i hi with ⟨_, hph⟩ | ⟨_, hph⟩ <;> rw [hph] <;> decide

/-- An image with a code and a data segment: it is loaded, and only it is read. -/
theorem elf_reads_inside_codeAndData :
    ∃ s, bootFile codeAndData [.process .createAddressSpace] = some s ∧
      (∃ out m', elfLoadUserProgram bumpAlloc s.machine 4096 178 90112 [] =
        .ok (out, m')) ∧
      SegmentsPlain s.machine.mem 4096 178 ∧
      HeadersInside s.machine.mem 4096 178 ∧
      ∀ off ∈ (tracedProgram bumpAlloc s.machine 4096 178 90112 []).events,
        off < 178 := by
  have hrun :
      (bootFile codeAndData [.process .createAddressSpace]).any (fun s =>
        decide (90112 ∈ s.roots ∧ phoff s.machine.mem 4096 = 64 ∧
          phnum s.machine.mem 4096 = 2 ∧ phdrAt s.machine.mem 4096 0 = codeSegment ∧
          phdrAt s.machine.mem 4096 1 = dataSegment) &&
        (elfLoadUserProgram bumpAlloc s.machine 4096 178 90112 []).toOption.any
          (fun _ => true)) = true := by
    decide +kernel
  obtain ⟨s, hs, hok⟩ := (Option.any_eq_true _ _).mp hrun
  rw [Bool.and_eq_true, decide_eq_true_eq] at hok
  obtain ⟨⟨hroot, hoff, hnum, hcode, hdata⟩, hload⟩ := hok
  obtain ⟨⟨out, m'⟩, hprogram, _⟩ := any_toOption.mp hload
  have hfile : FileKept 4096 178 (Finset.range 16) := by
    refine ⟨by decide, fun off hlt => ?_⟩
    rw [Finset.mem_range]
    omega
  obtain ⟨hinside, hplain⟩ := headersInside_codeAndData hoff hnum hcode hdata
  exact
    ⟨s, hs, ⟨out, m', hprogram⟩, hplain, hinside,
      (elf_reads_inside (reachable_of_bootFile hs) hroot hfile (by decide)).1 hinside⟩

/-- A segment of one byte, in front of the file. -/
def wrappedSegment : List UInt8 :=
  imageOf
    [{ type := ptLoad, flags := pfW, offset := 2 ^ 64 - 1, vaddr := 0x8000400000,
        filesz := 1, memsz := 1 }] []

/--
A file that ends with its ELF header has its program headers behind its end; and
a segment whose `p_offset + p_filesz` is `2 ^ 64` passes the check and is copied
from the byte in front of the file.
-/
theorem elf_reads_outside :
    (∃ s, bootFile (ehdrBytes 1) [.process .createAddressSpace] = some s ∧
      90112 ∈ s.roots ∧ (ehdrBytes 1).length = 64 ∧
      64 ∈ (tracedProgram bumpAlloc s.machine 4096 64 90112 []).events) ∧
    ∃ s, bootFile wrappedSegment [.process .createAddressSpace] = some s ∧
      90112 ∈ s.roots ∧ wrappedSegment.length = 120 ∧
      2 ^ 64 - 1 ∈ (tracedProgram bumpAlloc s.machine 4096 120 90112 []).events := by
  have hbehind :
      (bootFile (ehdrBytes 1) [.process .createAddressSpace]).any (fun s =>
        decide (90112 ∈ s.roots ∧
          64 ∈ (tracedProgram bumpAlloc s.machine 4096 64 90112 []).events)) =
        true := by
    decide +kernel
  have hfront :
      (bootFile wrappedSegment [.process .createAddressSpace]).any (fun s =>
        decide (90112 ∈ s.roots ∧ 2 ^ 64 - 1 ∈
          (tracedProgram bumpAlloc s.machine 4096 120 90112 []).events)) =
        true := by
    decide +kernel
  obtain ⟨s, hs, hreads⟩ := (Option.any_eq_true _ _).mp hbehind
  obtain ⟨s', hs', hreads'⟩ := (Option.any_eq_true _ _).mp hfront
  rw [decide_eq_true_eq] at hreads hreads'
  exact
    ⟨⟨s, hs, hreads.1, by decide +kernel, hreads.2⟩,
      ⟨s', hs', hreads'.1, by decide +kernel, hreads'.2⟩⟩

end Program

end Elf
end RebornOS
