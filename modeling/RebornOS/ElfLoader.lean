import RebornOS.Vmm

/-!
# Model of `elf_loader.c`, `SYS_SBRK` and `SYS_FB_MAP`

The image is read where the kernel has it, in physical memory from `elf_data`
on; an offset past `elf_size` reads whatever lies there.  The argument strings
are the kernel's copies, given as lists of bytes without their terminating NUL.
-/

namespace RebornOS
namespace Elf

open ByteStore WordBits Vmm

def elfUserLoadBase : Nat := 0x8000400000
def elfUserStackTop : Nat := 0x8010000000
def elfUserStackPages : Nat := 1
def elfUserStackMaxPages : Nat := 64
def elfArgvMaxArgs : Nat := 16
def elfArgvMaxTotalBytes : Nat := 3072
def userHeapVaddrStart : Nat := elfUserLoadBase + 0x1000000
def userFbVaddr : Nat := elfUserLoadBase + 0x8000000

def elfClass64 : Nat := 2
def emX8664 : Nat := 62
def ptLoad : Nat := 1
def pfX : Nat := 2 ^ 0
def pfW : Nat := 2 ^ 1

/-- `sizeof(Elf64_Ehdr)` and `sizeof(Elf64_Phdr)`. -/
def ehdrSize : Nat := 64
def phdrSize : Nat := 56

/-- The ways `elf_load_user_program` panics. -/
inductive Panic
  | vmm (p : Vmm.Panic)
  | fileTooSmall
  | badMagic
  | notX8664
  | segmentPastEnd (segment : Nat)
  | outOfMemoryForSegment (segment : Nat)
  | outOfMemoryForStack
  | tooManyArguments (argc : Nat)
  | argvTooLarge (bytes : Nat)
  deriving DecidableEq, Repr

/-- `page_align_down`. -/
def pageAlignDown (x : Nat) : Nat := x &&& highMask 12

/-- `page_align_up`. -/
def pageAlignUp (x : Nat) : Nat :=
  (x + pmmPageSize - 1) % 2 ^ 64 &&& highMask 12

/-- The `n`-byte field at offset `off` of the image. -/
def imageField (mem : Store) (elfData off n : Nat) : Nat :=
  readLE mem ((elfData + off) % 2 ^ 64) n

/-- The fields of a program header that the loader reads. -/
structure Phdr where
  type : Nat
  flags : Nat
  offset : Nat
  vaddr : Nat
  filesz : Nat
  memsz : Nat
  deriving DecidableEq, Repr

/-- `phdrs[i]`. -/
def phdrAt (mem : Store) (elfData i : Nat) : Phdr :=
  let phoff := imageField mem elfData 32 8
  let base := phoff + i * phdrSize
  { type := imageField mem elfData base 4
    flags := imageField mem elfData (base + 4) 4
    offset := imageField mem elfData (base + 8) 8
    vaddr := imageField mem elfData (base + 16) 8
    filesz := imageField mem elfData (base + 32) 8
    memsz := imageField mem elfData (base + 40) 8 }

/-- What `elf_load_user_program` reports in `*out`. -/
structure Process where
  entry : Nat
  stackTop : Nat
  argvPtr : Nat
  argc : Nat
  deriving DecidableEq, Repr

section Argv

/-- `lengths[i]`: the string with its NUL. -/
def argLength (arg : List UInt8) : Nat := arg.length + 1

/-- `total_string_bytes`. -/
def totalStringBytes (argv : List (List UInt8)) : Nat :=
  (argv.map argLength).sum

/-- `string_area_bytes`. -/
def stringAreaBytes (argv : List (List UInt8)) : Nat :=
  (totalStringBytes argv + 7) / 8 * 8

/-- `blob_bytes` before it is rounded up. -/
def blobBytes (argv : List (List UInt8)) : Nat :=
  stringAreaBytes argv + (argv.length + 1) * 8

/-- `blob_bytes` rounded up to a multiple of 16. -/
def blobSize (argv : List (List UInt8)) : Nat := (blobBytes argv + 15) / 16 * 16

/-- The loop that copies the strings and fills the pointer array. -/
def copyArgs (ptrArray : Nat) :
    List (List UInt8) → Nat → Nat → Nat → Store → Store
  | [], _, _, _, mem => mem
  | arg :: rest, i, dst, vaddr, mem =>
      let mem := copyIn mem dst (argLength arg) (fun k => arg.getD k 0)
      let mem := writeLE mem (ptrArray + 8 * i) 8 vaddr
      copyArgs ptrArray rest (i + 1) (dst + argLength arg)
        (vaddr + argLength arg) mem

/-- `write_argv_blob`: the memory, the new stack top and `*out_argv_ptr`. -/
def writeArgvBlob (mem : Store) (topPagePhys topPageVaddr : Nat)
    (argv : List (List UInt8)) : Except Panic (Store × Nat × Nat) :=
  if argv.length = 0 then
    .ok (mem, elfUserStackTop, 0)
  else if elfArgvMaxArgs < argv.length then
    .error (.tooManyArguments argv.length)
  else if elfArgvMaxTotalBytes < blobBytes argv then
    .error (.argvTooLarge (blobBytes argv))
  else
    let blobVaddr := elfUserStackTop - blobSize argv
    let blobPhys := topPagePhys + (blobVaddr - topPageVaddr)
    let ptrArray := blobPhys + stringAreaBytes argv
    let mem := copyArgs ptrArray argv 0 blobPhys blobVaddr mem
    let mem := writeLE mem (ptrArray + 8 * argv.length) 8 0
    .ok (mem, blobVaddr, blobVaddr + stringAreaBytes argv)

end Argv

section Load

variable {σ : Type} (pmmAllocPage : σ → Nat × σ)

/-- `vmm_map_page` called from here. -/
def mapPage (m : Machine σ) (pml4Phys vaddr paddr flags : Nat) :
    Except Panic (Machine σ) :=
  (vmmMapPage pmmAllocPage m pml4Phys vaddr paddr flags).mapError .vmm

/-- `vmm_flags` of a segment. -/
def segmentFlags (ph : Phdr) : Nat :=
  (if ph.flags &&& pfW ≠ 0 then vmmMapWrite else 0) |||
    (if ph.flags &&& pfX ≠ 0 then vmmMapExec else 0)

/-- The part of the segment's file bytes that falls into one page. -/
def copySegmentBytes
    (mem : Store) (elfData page phys : Nat) (ph : Phdr) : Store :=
  let pageEnd := (page + pmmPageSize) % 2 ^ 64
  let fileEnd := (ph.vaddr + ph.filesz) % 2 ^ 64
  let copyStart := if page > ph.vaddr then page else ph.vaddr
  let copyEnd := if pageEnd < fileEnd then pageEnd else fileEnd
  if copyEnd > copyStart then
    let fileOffset := ph.offset + (copyStart - ph.vaddr)
    copyIn mem (phys + (copyStart - page)) (copyEnd - copyStart)
      (fun k => mem ((elfData + fileOffset + k) % 2 ^ 64))
  else
    mem

/-- One page of a segment. -/
def loadPage (m : Machine σ) (elfData pml4Phys i flags page : Nat) :
    Except Panic (Machine σ) :=
  let r := pmmAllocPage m.pmm
  if r.1 = 0 then
    .error (.outOfMemoryForSegment i)
  else
    let mem := fill m.mem r.1 pmmPageSize 0
    let mem := copySegmentBytes mem elfData page r.1 (phdrAt mem elfData i)
    mapPage pmmAllocPage { m with mem := mem, pmm := r.2 } pml4Phys page r.1
      flags

/-- The loop over the pages of a segment, `n` pages from `page` on. -/
def loadPages (elfData pml4Phys i flags : Nat) :
    Nat → Nat → Machine σ → Except Panic (Machine σ)
  | 0, _, m => .ok m
  | n + 1, page, m => do
      let m ← loadPage pmmAllocPage m elfData pml4Phys i flags page
      loadPages elfData pml4Phys i flags n (page + pmmPageSize) m

/-- One round of the loop over the program headers. -/
def loadSegment (m : Machine σ) (elfData elfSize pml4Phys i : Nat) :
    Except Panic (Machine σ) :=
  let ph := phdrAt m.mem elfData i
  if ph.type ≠ ptLoad then
    .ok m
  else if (ph.offset + ph.filesz) % 2 ^ 64 > elfSize then
    .error (.segmentPastEnd i)
  else
    let segStart := pageAlignDown ph.vaddr
    let segEnd := pageAlignUp ((ph.vaddr + ph.memsz) % 2 ^ 64)
    loadPages pmmAllocPage elfData pml4Phys i (segmentFlags ph)
      ((segEnd - segStart) / pmmPageSize) segStart m

/--
The loop over the program headers; `e_phnum` is a 16-bit field, so `2 ^ 16`
rounds are enough.
-/
def loadSegments (elfData elfSize pml4Phys : Nat) :
    Nat → Nat → Machine σ → Except Panic (Machine σ)
  | 0, _, m => .ok m
  | fuel + 1, i, m =>
      if i < imageField m.mem elfData 56 2 then do
        let m ← loadSegment pmmAllocPage m elfData elfSize pml4Phys i
        loadSegments elfData elfSize pml4Phys fuel (i + 1) m
      else
        .ok m

/-- One zeroed, writable stack page. -/
def loadStackPage (m : Machine σ) (pml4Phys vaddr : Nat) :
    Except Panic (Nat × Machine σ) :=
  let r := pmmAllocPage m.pmm
  if r.1 = 0 then
    .error .outOfMemoryForStack
  else do
    let mem := fill m.mem r.1 pmmPageSize 0
    let m ← mapPage pmmAllocPage { m with mem := mem, pmm := r.2 } pml4Phys
      vaddr r.1 vmmMapWrite
    .ok (r.1, m)

/-- The loop over the eager stack pages; the top page is the first. -/
def loadStack (pml4Phys : Nat) :
    Nat → Nat → Nat → Machine σ → Except Panic (Nat × Machine σ)
  | 0, _, top, m => .ok (top, m)
  | n + 1, i, top, m => do
      let (phys, m) ←
        loadStackPage pmmAllocPage m pml4Phys
          (elfUserStackTop - (i + 1) * pmmPageSize)
      loadStack pml4Phys n (i + 1) (if i = 0 then phys else top) m

/-- `elf_load_user_program`. -/
def elfLoadUserProgram (m : Machine σ) (elfData elfSize pml4Phys : Nat)
    (argv : List (List UInt8)) : Except Panic (Process × Machine σ) := do
  if elfSize < ehdrSize then
    .error .fileTooSmall
  else if imageField m.mem elfData 0 1 ≠ 0x7F ∨
      imageField m.mem elfData 1 1 ≠ 0x45 ∨
      imageField m.mem elfData 2 1 ≠ 0x4C ∨
      imageField m.mem elfData 3 1 ≠ 0x46 then
    .error .badMagic
  else if imageField m.mem elfData 4 1 ≠ elfClass64 ∨
      imageField m.mem elfData 18 2 ≠ emX8664 then
    .error .notX8664
  else
    let m ←
      loadSegments pmmAllocPage elfData elfSize pml4Phys (2 ^ 16) 0 m
    let (top, m) ← loadStack pmmAllocPage pml4Phys elfUserStackPages 0 0 m
    let (mem, stackTop, argvPtr) ←
      writeArgvBlob m.mem top (elfUserStackTop - pmmPageSize) argv
    .ok
      ({ entry := imageField mem elfData 24 8
         stackTop := stackTop
         argvPtr := argvPtr
         argc := argv.length },
        { m with mem := mem })

end Load

section Growth

variable {σ : Type} (pmmAllocPage : σ → Nat × σ)

/-- `PF_ERROR_PRESENT`. -/
def pfErrorPresent : Nat := 2 ^ 0

/-- `elf_handle_stack_fault`, with the current CR3 as an argument. -/
def elfHandleStackFault (m : Machine σ) (cr3 faultAddr errorCode : Nat)
    (fromRing3 : Bool) : Except Vmm.Panic (Nat × Machine σ) :=
  if fromRing3 = false then
    .ok (0, m)
  else if errorCode &&& pfErrorPresent ≠ 0 then
    .ok (0, m)
  else
    let pageAddr := pageAlignDown faultAddr
    let stackLow := elfUserStackTop - elfUserStackMaxPages * pmmPageSize
    if pageAddr < stackLow ∨ pageAddr ≥ elfUserStackTop then
      .ok (0, m)
    else if vmmPagePresent m.mem cr3 pageAddr then
      .ok (0, m)
    else
      let r := pmmAllocPage m.pmm
      if r.1 = 0 then
        .ok (0, { m with pmm := r.2 })
      else do
        let mem := fill m.mem r.1 pmmPageSize 0
        let m ← vmmMapPage pmmAllocPage { m with mem := mem, pmm := r.2 } cr3
          pageAddr r.1 vmmMapWrite
        .ok (1, m)

/-- The loop of `SYS_SBRK` over `n` pages from `p` on; the flag is `ok`. -/
def sbrkPages (pml4 : Nat) :
    Nat → Nat → Machine σ → Except Vmm.Panic (Bool × Machine σ)
  | 0, _, m => .ok (true, m)
  | n + 1, p, m =>
      if vmmPagePresent m.mem pml4 p then
        sbrkPages pml4 n (p + pmmPageSize) m
      else
        let r := pmmAllocPage m.pmm
        if r.1 = 0 then
          .ok (false, { m with pmm := r.2 })
        else do
          let mem := fill m.mem r.1 pmmPageSize 0
          let m ← vmmMapPage pmmAllocPage { m with mem := mem, pmm := r.2 }
            pml4 p r.1 vmmMapWrite
          sbrkPages pml4 n (p + pmmPageSize) m

/-- `SYS_SBRK`: the value returned in `rax`, the new break and the machine. -/
def sysSbrk (m : Machine σ) (pml4 oldBrk increment : Nat) :
    Except Vmm.Panic (Nat × Nat × Machine σ) :=
  if 2 ^ 63 ≤ increment then
    .ok (2 ^ 64 - 1, oldBrk, m)
  else do
    let newBrk := (oldBrk + increment) % 2 ^ 64
    let startPage := oldBrk &&& highMask 12
    let endPage := (newBrk + pmmPageSize - 1) % 2 ^ 64 &&& highMask 12
    let (ok, m) ←
      sbrkPages pmmAllocPage pml4 ((endPage - startPage) / pmmPageSize)
        startPage m
    if ok then
      .ok (oldBrk, newBrk, m)
    else
      .ok (2 ^ 64 - 1, oldBrk, m)

/-- The fields of `boot_framebuffer_t` that the mapping uses. -/
structure Framebuffer where
  base : Nat
  size : Nat
  deriving DecidableEq, Repr

/-- `page_count` of `SYS_FB_MAP`. -/
def Framebuffer.pageCount (fb : Framebuffer) : Nat :=
  (fb.size + pmmPageSize - 1) % 2 ^ 64 / pmmPageSize

/-- The loop of `SYS_FB_MAP` over `n` pages from page `i` on. -/
def fbMapPages (fb : Framebuffer) (pml4 : Nat) :
    Nat → Nat → Machine σ → Except Vmm.Panic (Machine σ)
  | 0, _, m => .ok m
  | n + 1, i, m =>
      let vaddr := (userFbVaddr + i * pmmPageSize) % 2 ^ 64
      if vmmPagePresent m.mem pml4 vaddr then
        fbMapPages fb pml4 n (i + 1) m
      else do
        let m ← vmmMapPage pmmAllocPage m pml4 vaddr
          ((fb.base + i * pmmPageSize) % 2 ^ 64) vmmMapWrite
        fbMapPages fb pml4 n (i + 1) m

/-- `SYS_FB_MAP`: the value returned in `rax` and the machine. -/
def sysFbMap (fb : Framebuffer) (m : Machine σ) (pml4 : Nat) :
    Except Vmm.Panic (Nat × Machine σ) := do
  let m ← fbMapPages pmmAllocPage fb pml4 fb.pageCount 0 m
  .ok (userFbVaddr, m)

end Growth

end Elf
end RebornOS
