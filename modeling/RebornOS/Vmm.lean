import RebornOS.ByteStore
import RebornOS.WordBits

/-!
# Model of `vmm.c`

Page tables live in the machine's memory and are read and written there as
little-endian 64-bit entries, at the physical addresses the code computes.
`pmm_alloc_page` is a parameter: a function on an allocator state that returns
an address, 0 for `NULL`.  Loading CR3 is not part of the model; the functions
take the root table as an argument, as the source's do.
-/

namespace RebornOS
namespace Vmm

open ByteStore WordBits

def pmmPageSize : Nat := 4096
def entriesPerTable : Nat := 512
def hugePageSize : Nat := 2 * 1024 * 1024
def gib : Nat := 2 ^ 30
def identityMapGib : Nat := 4
def kernelExecLimit : Nat := 4 * 1024 * 1024

def pagePresent : Nat := 2 ^ 0
def pageWritable : Nat := 2 ^ 1
def pageUser : Nat := 2 ^ 2
def pageHuge : Nat := 2 ^ 7
def pageNx : Nat := 2 ^ 63

/-- `TABLE_ADDR_MASK`. -/
def tableAddrMask : Nat := highMask 12

def vmmMapWrite : Nat := 2 ^ 0
def vmmMapExec : Nat := 2 ^ 1

/-- The ways a function of this file panics. -/
inductive Panic
  /-- `vmm: out of physical memory while building page tables`. -/
  | outOfPhysicalMemory
  /-- `vmm_create_address_space: out of physical memory for the private page`. -/
  | outOfMemoryForPrivatePage
  /-- `vmm_map_page: refusing to map vaddr ... into PML4[0]`. -/
  | mapIntoSharedSlot (vaddr : Nat)
  deriving DecidableEq, Repr

/-- Physical memory, `kernel_pml4` and the page allocator. -/
structure Machine (σ : Type) where
  mem : Store
  kernelPml4 : Nat
  pmm : σ

/-- Zeroed memory, before `vmm_init`. -/
def blank {σ : Type} (s : σ) : Machine σ :=
  { mem := fun _ => 0, kernelPml4 := 0, pmm := s }

/-- `table[i]`. -/
def readEntry (mem : Store) (table i : Nat) : Nat :=
  readLE mem (table + 8 * i) 8

/-- `table[i] = e`. -/
def writeEntry (mem : Store) (table i e : Nat) : Store :=
  writeLE mem (table + 8 * i) 8 e

/-- `PAGE_PRESENT | PAGE_WRITABLE | PAGE_USER`. -/
def tableFlags : Nat := pagePresent ||| pageWritable ||| pageUser

section Tables

variable {σ : Type} (pmmAllocPage : σ → Nat × σ)

/-- `alloc_table`. -/
def allocTable (m : Machine σ) : Except Panic (Nat × Machine σ) :=
  let r := pmmAllocPage m.pmm
  if r.1 = 0 then
    .error .outOfPhysicalMemory
  else
    .ok (r.1, { m with mem := fill m.mem r.1 pmmPageSize 0, pmm := r.2 })

/-- The huge leaf that `vmm_init` writes into entry `i` of directory `g`. -/
def identityEntry (g i : Nat) : Nat :=
  let phys := g * gib + i * hugePageSize
  let flags := pagePresent ||| pageWritable ||| pageHuge
  let flags :=
    if phys < kernelExecLimit then flags ||| pageUser else flags ||| pageNx
  phys ||| flags

/-- The first `n` rounds of the loop over a directory's entries. -/
def fillDirectory (mem : Store) (pd g : Nat) : Nat → Store
  | 0 => mem
  | n + 1 => writeEntry (fillDirectory mem pd g n) pd n (identityEntry g n)

/-- One round of the loop over the gibibytes. -/
def mapGib (m : Machine σ) (pdpt g : Nat) : Except Panic (Machine σ) := do
  let (pd, m) ← allocTable pmmAllocPage m
  let mem := writeEntry m.mem pdpt g (pd ||| tableFlags)
  .ok { m with mem := fillDirectory mem pd g entriesPerTable }

/-- The first `n` rounds of the loop over the gibibytes. -/
def mapGibs (m : Machine σ) (pdpt : Nat) : Nat → Except Panic (Machine σ)
  | 0 => .ok m
  | n + 1 => do
      let m ← mapGibs m pdpt n
      mapGib pmmAllocPage m pdpt n

/-- `vmm_init`. -/
def vmmInit (m : Machine σ) : Except Panic (Machine σ) := do
  let (pml4, m) ← allocTable pmmAllocPage m
  let (pdpt, m) ← allocTable pmmAllocPage m
  let m := { m with mem := writeEntry m.mem pml4 0 (pdpt ||| tableFlags) }
  let m ← mapGibs pmmAllocPage m pdpt identityMapGib
  .ok { m with kernelPml4 := pml4 }

/-- `vmm_create_address_space`. -/
def vmmCreateAddressSpace (m : Machine σ) :
    Except Panic (Nat × Machine σ) := do
  let (pml4, m) ← allocTable pmmAllocPage m
  let shared := readEntry m.mem m.kernelPml4 0
  let m := { m with mem := writeEntry m.mem pml4 0 shared }
  let (pdpt, m) ← allocTable pmmAllocPage m
  let (pd, m) ← allocTable pmmAllocPage m
  let (pt, m) ← allocTable pmmAllocPage m
  let r := pmmAllocPage m.pmm
  if r.1 = 0 then
    .error .outOfMemoryForPrivatePage
  else
    let mem := fill m.mem r.1 pmmPageSize 0
    let mem := writeEntry mem pt 0 (r.1 ||| tableFlags)
    let mem := writeEntry mem pd 0 (pt ||| tableFlags)
    let mem := writeEntry mem pdpt 0 (pd ||| tableFlags)
    let mem := writeEntry mem pml4 1 (pdpt ||| tableFlags)
    .ok (pml4, { m with mem := mem, pmm := r.2 })

/-- The table index at bit position `shift` of an address. -/
def tableIndex (vaddr shift : Nat) : Nat := (vaddr >>> shift) &&& 0x1FF

/--
One of the three identical steps of `vmm_map_page`: allocate the table behind
`table[i]` if there is none, and return its address.
-/
def ensureTable (m : Machine σ) (table i : Nat) :
    Except Panic (Nat × Machine σ) := do
  if readEntry m.mem table i &&& pagePresent = 0 then
    let (page, m) ← allocTable pmmAllocPage m
    let m := { m with mem := writeEntry m.mem table i (page ||| tableFlags) }
    .ok (readEntry m.mem table i &&& tableAddrMask, m)
  else
    .ok (readEntry m.mem table i &&& tableAddrMask, m)

/-- The leaf entry that `vmm_map_page` writes. -/
def leafEntry (paddr flags : Nat) : Nat :=
  let leafFlags := pagePresent ||| pageUser
  let leafFlags :=
    if flags &&& vmmMapWrite ≠ 0 then leafFlags ||| pageWritable else leafFlags
  let leafFlags :=
    if flags &&& vmmMapExec = 0 then leafFlags ||| pageNx else leafFlags
  (paddr &&& tableAddrMask) ||| leafFlags

/-- `vmm_map_page`. -/
def vmmMapPage (m : Machine σ) (pml4Phys vaddr paddr flags : Nat) :
    Except Panic (Machine σ) := do
  if tableIndex vaddr 39 = 0 then
    .error (.mapIntoSharedSlot vaddr)
  else
    let (pdpt, m) ← ensureTable pmmAllocPage m pml4Phys (tableIndex vaddr 39)
    let (pd, m) ← ensureTable pmmAllocPage m pdpt (tableIndex vaddr 30)
    let (pt, m) ← ensureTable pmmAllocPage m pd (tableIndex vaddr 21)
    .ok
      { m with
        mem :=
          writeEntry m.mem pt (tableIndex vaddr 12) (leafEntry paddr flags) }

end Tables

section Queries

/-- `walk_to_leaf`: the address of the leaf entry, if every level is present. -/
def walkToLeaf (mem : Store) (pml4Phys vaddr : Nat) : Option Nat :=
  let e4 := readEntry mem pml4Phys (tableIndex vaddr 39)
  if e4 &&& pagePresent = 0 then
    none
  else
    let pdpt := e4 &&& tableAddrMask
    let e3 := readEntry mem pdpt (tableIndex vaddr 30)
    if e3 &&& pagePresent = 0 then
      none
    else
      let pd := e3 &&& tableAddrMask
      let e2 := readEntry mem pd (tableIndex vaddr 21)
      if e2 &&& pagePresent = 0 then
        none
      else if e2 &&& pageHuge ≠ 0 then
        some (pd + 8 * tableIndex vaddr 21)
      else
        let pt := e2 &&& tableAddrMask
        let e1 := readEntry mem pt (tableIndex vaddr 12)
        if e1 &&& pagePresent = 0 then
          none
        else
          some (pt + 8 * tableIndex vaddr 12)

/-- `vmm_page_present`. -/
def vmmPagePresent (mem : Store) (pml4Phys vaddr : Nat) : Bool :=
  (walkToLeaf mem pml4Phys vaddr).isSome

/-- The checks `vmm_check_range` makes on one page. -/
def pageAllowed
    (mem : Store) (pml4Phys page : Nat) (needWrite : Bool) : Bool :=
  match walkToLeaf mem pml4Phys page with
  | none => false
  | some leaf =>
      let e := readLE mem leaf 8
      if e &&& pageUser = 0 then
        false
      else if needWrite ∧ e &&& pageWritable = 0 then
        false
      else
        true

/-- The loop of `vmm_check_range`; `none` when the fuel runs out. -/
def checkPages (mem : Store) (pml4Phys stop : Nat) (needWrite : Bool) :
    Nat → Nat → Option Bool
  | 0, _ => none
  | fuel + 1, page =>
      if page < stop then
        if pageAllowed mem pml4Phys page needWrite then
          checkPages mem pml4Phys stop needWrite fuel
            ((page + pmmPageSize) % 2 ^ 64)
        else
          some false
      else
        some true

/-- More rounds than there are pages below `2 ^ 64`. -/
def checkFuel : Nat := 2 ^ 52 + 1

/-- `vmm_check_range`. -/
def vmmCheckRange
    (mem : Store) (pml4Phys vaddr len : Nat) (needWrite : Bool) :
    Option Bool :=
  if len = 0 then
    some true
  else if (vaddr + len) % 2 ^ 64 < vaddr then
    some false
  else
    checkPages mem pml4Phys ((vaddr + len) % 2 ^ 64) needWrite checkFuel
      (vaddr &&& highMask 12)

end Queries

end Vmm
end RebornOS
