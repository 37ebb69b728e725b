import RebornOS.ByteStore
import RebornOS.WordBits

/-!
# The kernel heap: `heap_init`, `kmalloc`, `kfree`

A shallow embedding of `kernel/src/heap.c`.  The heap is a fixed 16 MiB region
of physical memory.  Its free list is threaded through that same memory: every
block starts with a 24-byte header

* `size` at offset 0 (8 bytes, usable bytes after the header),
* `free` at offset 8 (a 4-byte `int`, then 4 bytes of padding),
* `next` at offset 16 (an 8-byte pointer, 0 for `NULL`),

so `splitBlock` writes a header into what was payload, and `kfree` edits the
header found 24 bytes below the pointer it is given.

The list walk of `kmalloc` follows pointers, so it is given fuel.  `none` means
that the walk did not end within `loopFuel` steps; it is proved never to happen.
-/

namespace RebornOS
namespace Heap

open ByteStore WordBits

/-- `HEAP_BASE`. -/
def heapBase : Nat := 0x1000000

/-- `HEAP_SIZE`. -/
def heapSize : Nat := 16 * 1024 * 1024

/-- First address after the heap. -/
def heapEnd : Nat := heapBase + heapSize

/-- `HEAP_ALIGN`. -/
def heapAlign : Nat := 16

/-- `sizeof(heap_block_t)`. -/
def headerSize : Nat := 24

/-- Memory together with the list head. -/
structure State where
  mem : Store
  heapHead : Nat

section Fields

/-- `b->size`. -/
def blockSize (m : Store) (b : Nat) : Nat := readLE m b 8

/-- `b->free`. -/
def blockFree (m : Store) (b : Nat) : Nat := readLE m (b + 8) 4

/-- `b->next`. -/
def blockNext (m : Store) (b : Nat) : Nat := readLE m (b + 16) 8

/-- `b->size = v`. -/
def setSize (m : Store) (b v : Nat) : Store := writeLE m b 8 v

/-- `b->free = v`. -/
def setFree (m : Store) (b v : Nat) : Store := writeLE m (b + 8) 4 v

/-- `b->next = v`. -/
def setNext (m : Store) (b v : Nat) : Store := writeLE m (b + 16) 8 v

end Fields

/-- `heap_init`: one free block that covers the whole region. -/
def heapInit (m : Store) : State :=
  let m := setSize m heapBase (heapSize - headerSize)
  let m := setFree m heapBase 1
  let m := setNext m heapBase 0
  ⟨m, heapBase⟩

/-- `split_block`. -/
def splitBlock (m : Store) (block size : Nat) : Store :=
  if blockSize m block < (size + headerSize + heapAlign) % 2 ^ 64 then
    m
  else
    let remainder := (block + headerSize + size) % 2 ^ 64
    let m := setSize m remainder (blockSize m block - size - headerSize)
    let m := setFree m remainder 1
    let m := setNext m remainder (blockNext m block)
    let m := setSize m block size
    setNext m block remainder

/-- `kmalloc`'s rounding: `(size + 15) & ~15` in 64-bit arithmetic. -/
def roundUp (size : Nat) : Nat :=
  (size + (heapAlign - 1)) % 2 ^ 64 &&& highMask 4

/--
The search loop of `kmalloc`, from the block at `b` on.  The answer is the
address of the first free block that is large enough, or 0.
-/
def findFit (m : Store) (size : Nat) : Nat → Nat → Option Nat
  | 0, _ => none
  | fuel + 1, b =>
      if b = 0 then
        some 0
      else if blockFree m b ≠ 0 ∧ size ≤ blockSize m b then
        some b
      else
        findFit m size fuel (blockNext m b)

/-- One more than the number of headers that fit into the region. -/
def loopFuel : Nat := heapSize / headerSize + 1

/-- `kmalloc`; the returned pointer is 0 for `NULL`. -/
def kmalloc (h : State) (size : Nat) : Option (Nat × State) :=
  if size = 0 then
    some (0, h)
  else
    (findFit h.mem (roundUp size) loopFuel h.heapHead).map (fun b =>
      if b = 0 then
        (0, h)
      else
        (b + headerSize,
          { h with mem := setFree (splitBlock h.mem b (roundUp size)) b 0 }))

/-- `kfree`. -/
def kfree (h : State) (ptr : Nat) : State :=
  if ptr = 0 then
    h
  else
    let block := ptr - headerSize
    let m := setFree h.mem block 1
    if blockNext m block ≠ 0 ∧ blockFree m (blockNext m block) ≠ 0 then
      let grown :=
        (blockSize m block +
          (headerSize + blockSize m (blockNext m block))) % 2 ^ 64
      let m := setSize m block grown
      { h with mem := setNext m block (blockNext m (blockNext m block)) }
    else
      { h with mem := m }

/-- The loop of `heap_free_bytes`, from the block at `b` on. -/
def sumFree (m : Store) : Nat → Nat → Nat → Option Nat
  | 0, _, _ => none
  | fuel + 1, b, total =>
      if b = 0 then
        some total
      else if blockFree m b ≠ 0 then
        sumFree m fuel (blockNext m b) ((total + blockSize m b) % 2 ^ 64)
      else
        sumFree m fuel (blockNext m b) total

/-- `heap_free_bytes`. -/
def heapFreeBytes (h : State) : Option Nat :=
  sumFree h.mem loopFuel h.heapHead 0

section FieldRules

variable {m : Store} {b v : Nat}

@[simp] theorem blockSize_setSize (h : v < 2 ^ 64) : blockSize (setSize m b v) b = v :=
  readLE_writeLE_of_lt (by simpa using h)

@[simp] theorem blockFree_setFree (h : v < 2 ^ 32) : blockFree (setFree m b v) b = v :=
  readLE_writeLE_of_lt (by simpa using h)

@[simp] theorem blockNext_setNext (h : v < 2 ^ 64) : blockNext (setNext m b v) b = v :=
  readLE_writeLE_of_lt (by simpa using h)

@[simp] theorem blockSize_setFree_self : blockSize (setFree m b v) b = blockSize m b :=
  readLE_writeLE_of_disjoint (by omega)

@[simp] theorem blockSize_setNext_self : blockSize (setNext m b v) b = blockSize m b :=
  readLE_writeLE_of_disjoint (by omega)

@[simp] theorem blockFree_setSize_self : blockFree (setSize m b v) b = blockFree m b :=
  readLE_writeLE_of_disjoint (by omega)

@[simp] theorem blockFree_setNext_self : blockFree (setNext m b v) b = blockFree m b :=
  readLE_writeLE_of_disjoint (by omega)

@[simp] theorem blockNext_setSize_self : blockNext (setSize m b v) b = blockNext m b :=
  readLE_writeLE_of_disjoint (by omega)

@[simp] theorem blockNext_setFree_self : blockNext (setFree m b v) b = blockNext m b :=
  readLE_writeLE_of_disjoint (by omega)

end FieldRules

end Heap
end RebornOS
