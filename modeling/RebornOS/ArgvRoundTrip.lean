import RebornOS.SystemRuns

/-!
# The argument strings of a new process

`write_argv_blob` packs the strings one behind the other, then the pointer
array, and fills the pointers while it copies.  It writes through physical
addresses, and the pointers it stores are virtual addresses of the child.  The
result is read back through the child's page tables: entry `i` of the array
leads to string `i`.
-/

namespace RebornOS
namespace Elf

open ByteStore WordBits PageWalk Fallible Vmm PagedSpace

variable {σ : Type} {dst i j k phys vaddr : Nat} {argv : List (List UInt8)}

/-- `SYS_EXEC_MAX_ARG_LEN`: a copied string has less bytes, without its NUL. -/
def sysExecMaxArgLen : Nat := 128

/-- Where string `i` starts in the string area. -/
def argOffset (argv : List (List UInt8)) (i : Nat) : Nat :=
  totalStringBytes (argv.take i)

section Layout

@[simp] theorem totalStringBytes_cons
    (arg : List UInt8) (rest : List (List UInt8)) :
    totalStringBytes (arg :: rest) = argLength arg + totalStringBytes rest := by
  simp [totalStringBytes]

@[simp] theorem argOffset_zero
    (argv : List (List UInt8)) : argOffset argv 0 = 0 := by
  rfl

@[simp] theorem argOffset_cons_succ
    (arg : List UInt8) (rest : List (List UInt8)) (i : Nat) :
    argOffset (arg :: rest) (i + 1) = argLength arg + argOffset rest i := by
  simp [argOffset]

/-- A string ends where the next one starts, or before. -/
theorem argOffset_add_le
    (argv : List (List UInt8)) (hij : i < j) (hj : j ≤ argv.length) :
    argOffset argv i + argLength (argv.getD i []) ≤ argOffset argv j := by
  induction argv generalizing i j with
  | nil =>
      simp at hj
      omega
  | cons arg rest ih =>
      obtain ⟨j, rfl⟩ : ∃ k, j = k + 1 := ⟨j - 1, by omega⟩
      rw [argOffset_cons_succ]
      cases i with
      | zero =>
          simp
      | succ i =>
          have hrest := ih (i := i) (j := j) (by omega) (by simpa using hj)
          rw [argOffset_cons_succ, List.getD_cons_succ]
          omega

theorem argOffset_length
    (argv : List (List UInt8)) :
    argOffset argv argv.length = totalStringBytes argv := by
  rw [argOffset, List.take_length]

/-- Every string lies in the string area. -/
theorem argOffset_add_le_total
    (argv : List (List UInt8)) (hi : i < argv.length) :
    argOffset argv i + argLength (argv.getD i []) ≤ totalStringBytes argv := by
  rw [← argOffset_length]
  exact argOffset_add_le argv hi (le_refl _)

/-- The two limits fit: what `SYS_EXEC` admits is never too large. -/
theorem totalStringBytes_le
    {n : Nat} (h : ∀ a ∈ argv, a.length < n) :
    totalStringBytes argv ≤ n * argv.length := by
  induction argv with
  | nil =>
      simp [totalStringBytes]
  | cons arg rest ih =>
      have hfirst : arg.length < n := h arg (by simp)
      have hrest := ih (fun a ha => h a (List.mem_cons_of_mem _ ha))
      rw [totalStringBytes_cons, List.length_cons, Nat.mul_succ]
      unfold argLength
      omega

end Layout

section Copy

variable {ptrArray : Nat}

/-- The loop writes the strings and the pointers, and nothing else. -/
theorem copyArgs_outside
    (argv : List (List UInt8)) {x : Nat} (mem : Store)
    (hstrings : x < dst ∨ dst + totalStringBytes argv ≤ x)
    (hptrs : x < ptrArray + 8 * i ∨ ptrArray + 8 * (i + argv.length) ≤ x) :
    copyArgs ptrArray argv i dst vaddr mem x = mem x := by
  induction argv generalizing i dst vaddr mem with
  | nil =>
      rfl
  | cons arg rest ih =>
      rw [totalStringBytes_cons] at hstrings
      rw [List.length_cons] at hptrs
      rw [copyArgs, ih _ (by omega) (by omega),
        writeLE_outside (by omega), copyIn_outside (by omega)]

/-- String `j` and its NUL, behind the strings before it. -/
theorem copyArgs_string
    (argv : List (List UInt8)) (mem : Store)
    (hfit : dst + totalStringBytes argv ≤ ptrArray) (hj : j < argv.length)
    (hk : k < argLength (argv.getD j [])) :
    copyArgs ptrArray argv i dst vaddr mem (dst + argOffset argv j + k) =
      (argv.getD j []).getD k 0 := by
  induction argv generalizing i j dst vaddr mem with
  | nil =>
      simp at hj
  | cons arg rest ih =>
      rw [totalStringBytes_cons] at hfit
      rw [copyArgs]
      cases j with
      | zero =>
          rw [List.getD_cons_zero] at hk ⊢
          rw [argOffset_zero, Nat.add_zero, copyArgs_outside _ _ (by omega) (by omega),
            writeLE_outside (by omega)]
          unfold copyIn
          rw [if_pos (by omega)]
          congr 1
          omega
      | succ j =>
          rw [List.getD_cons_succ] at hk ⊢
          rw [argOffset_cons_succ, ← Nat.add_assoc]
          exact ih _ (by omega) (by simpa using hj) hk

/-- Pointer `j` is the virtual address of string `j`. -/
theorem copyArgs_pointer
    (argv : List (List UInt8)) (mem : Store)
    (hfit : dst + totalStringBytes argv ≤ ptrArray) (hj : j < argv.length) (hk : k < 8) :
    copyArgs ptrArray argv i dst vaddr mem (ptrArray + 8 * (i + j) + k) =
      UInt8.ofNat ((vaddr + argOffset argv j) / 256 ^ k) := by
  induction argv generalizing i j dst vaddr mem with
  | nil =>
      simp at hj
  | cons arg rest ih =>
      rw [totalStringBytes_cons] at hfit
      rw [copyArgs]
      cases j with
      | zero =>
          rw [argOffset_zero, copyArgs_outside _ _ (by omega) (by omega)]
          unfold writeLE
          rw [if_pos (by omega)]
          congr 3
          omega
      | succ j =>
          have hindex : ptrArray + 8 * (i + (j + 1)) + k =
              ptrArray + 8 * (i + 1 + j) + k := by
            omega
          rw [hindex, argOffset_cons_succ, ← Nat.add_assoc vaddr]
          exact ih _ (by omega) (by simpa using hj)

end Copy

section Blob

/-- The memory after the blob has been written into the top stack page. -/
def argvBlob (mem : Store) (topPagePhys : Nat) (argv : List (List UInt8)) :
    Store :=
  let blobPhys := topPagePhys + (pmmPageSize - blobSize argv)
  let ptrArray := blobPhys + stringAreaBytes argv
  writeLE
    (copyArgs ptrArray argv 0 blobPhys (elfUserStackTop - blobSize argv) mem)
    (ptrArray + 8 * argv.length) 8 0

/-- What `SYS_EXEC` admits passes the loader's limits. -/
theorem blobBytes_le
    (hmax : argv.length ≤ elfArgvMaxArgs)
    (hlen : ∀ a ∈ argv, a.length < sysExecMaxArgLen) :
    blobBytes argv ≤ elfArgvMaxTotalBytes := by
  have htotal := totalStringBytes_le hlen
  unfold blobBytes stringAreaBytes
  unfold elfArgvMaxArgs at hmax
  unfold elfArgvMaxTotalBytes
  unfold sysExecMaxArgLen at htotal
  omega

/-- The sizes of an accepted blob. -/
theorem blob_sizes
    (hblob : blobBytes argv ≤ elfArgvMaxTotalBytes) :
    totalStringBytes argv ≤ stringAreaBytes argv ∧
    stringAreaBytes argv + 8 * (argv.length + 1) ≤ blobSize argv ∧
    blobSize argv ≤ elfArgvMaxTotalBytes ∧
    stringAreaBytes argv % 8 = 0 ∧ blobSize argv % 16 = 0 := by
  unfold elfArgvMaxTotalBytes at hblob ⊢
  unfold blobSize blobBytes stringAreaBytes
  unfold blobBytes stringAreaBytes at hblob
  omega

/-- `write_argv_blob` in closed form. -/
theorem writeArgvBlob_eq
    (hpos : argv.length ≠ 0) (hmax : argv.length ≤ elfArgvMaxArgs)
    (hblob : blobBytes argv ≤ elfArgvMaxTotalBytes) (mem : Store) (phys : Nat) :
    writeArgvBlob mem phys (elfUserStackTop - pmmPageSize) argv =
      .ok
        (argvBlob mem phys argv, elfUserStackTop - blobSize argv,
          elfUserStackTop - blobSize argv + stringAreaBytes argv) := by
  obtain ⟨_, _, hsize, _, _⟩ := blob_sizes hblob
  have hphys :
      elfUserStackTop - blobSize argv - (elfUserStackTop - pmmPageSize) =
        pmmPageSize - blobSize argv := by
    unfold elfArgvMaxTotalBytes at hsize
    unfold elfUserStackTop pmmPageSize
    omega
  unfold writeArgvBlob argvBlob
  rw [if_neg hpos, if_neg (by omega), if_neg (by omega)]
  dsimp only
  rw [hphys]

/-- Nothing outside the blob is written. -/
theorem argvBlob_outside
    (hblob : blobBytes argv ≤ elfArgvMaxTotalBytes) (mem : Store) {x : Nat}
    (hx : x < phys + (pmmPageSize - blobSize argv) ∨ phys + pmmPageSize ≤ x) :
    argvBlob mem phys argv x = mem x := by
  obtain ⟨hstrings, hptrs, hsize, _, _⟩ := blob_sizes hblob
  unfold elfArgvMaxTotalBytes at hsize
  unfold pmmPageSize at hx
  unfold argvBlob pmmPageSize
  rw [writeLE_outside (by omega), copyArgs_outside _ _ (by omega) (by omega)]

theorem argvBlob_string
    (hblob : blobBytes argv ≤ elfArgvMaxTotalBytes) (mem : Store) (hi : i < argv.length)
    (hk : k < argLength (argv.getD i [])) :
    argvBlob mem phys argv
        (phys + (pmmPageSize - blobSize argv) + argOffset argv i + k) =
      (argv.getD i []).getD k 0 := by
  obtain ⟨hstrings, _, _, _, _⟩ := blob_sizes hblob
  have hend := argOffset_add_le_total argv hi
  unfold argvBlob
  rw [writeLE_outside (by omega), copyArgs_string _ _ (by omega) hi hk]

theorem argvBlob_pointer
    (hblob : blobBytes argv ≤ elfArgvMaxTotalBytes) (mem : Store) (hi : i < argv.length)
    (hk : k < 8) :
    argvBlob mem phys argv
        (phys + (pmmPageSize - blobSize argv) + stringAreaBytes argv + 8 * i + k) =
      UInt8.ofNat
        ((elfUserStackTop - blobSize argv + argOffset argv i) / 256 ^ k) := by
  obtain ⟨hstrings, _, _, _, _⟩ := blob_sizes hblob
  have hpointer :=
    @copyArgs_pointer (phys + (pmmPageSize - blobSize argv)) 0 i k
      (elfUserStackTop - blobSize argv)
      (phys + (pmmPageSize - blobSize argv) + stringAreaBytes argv) argv mem
      (by omega) hi hk
  rw [Nat.zero_add] at hpointer
  unfold argvBlob
  rw [writeLE_outside (by omega), hpointer]

theorem argvBlob_null
    (mem : Store) (hk : k < 8) :
    argvBlob mem phys argv
        (phys + (pmmPageSize - blobSize argv) + stringAreaBytes argv +
          8 * argv.length + k) = 0 := by
  unfold argvBlob writeLE
  rw [if_pos (by omega), Nat.zero_div]
  rfl

end Blob

section Delivery

/-- The process finds the byte `b` at `v`. -/
def ByteAt (S : Space (UInt8 × Rights)) (v : Nat) (b : UInt8) : Prop :=
  ∃ rights, S v = some (b, rights)

/-- The process finds the little-endian word `w` at `v`. -/
def WordAt (S : Space (UInt8 × Rights)) (v w : Nat) : Prop :=
  ∀ k, k < 8 → ByteAt S (v + k) (UInt8.ofNat (w / 256 ^ k))

/-- The process finds the NUL-terminated string `arg` at `v`. -/
def StringAt (S : Space (UInt8 × Rights)) (v : Nat) (arg : List UInt8) : Prop :=
  0 ∉ arg ∧ ∀ k, k ≤ arg.length → ByteAt S (v + k) (arg.getD k 0)

/-- The argument vector as the new process finds it. -/
structure ArgvDelivered (S : Space (UInt8 × Rights)) (out : Process)
    (argv : List (List UInt8)) : Prop where
  argc_eq : out.argc = argv.length
  stack_aligned : out.stackTop % 16 = 0
  argv_aligned : out.argvPtr % 8 = 0
  stack_page :
    elfUserStackTop - pmmPageSize ≤ out.stackTop ∧
      out.stackTop < elfUserStackTop
  argv_page :
    elfUserStackTop - pmmPageSize ≤ out.argvPtr ∧
      out.argvPtr + 8 * (argv.length + 1) ≤ elfUserStackTop
  entry :
    ∀ i, i < argv.length →
      WordAt S (out.argvPtr + 8 * i) (out.stackTop + argOffset argv i) ∧
      StringAt S (out.stackTop + argOffset argv i) (argv.getD i [])
  null : WordAt S (out.argvPtr + 8 * argv.length) 0
  strings_apart :
    ∀ i j, i < j → j < argv.length →
      argOffset argv i + argLength (argv.getD i []) ≤ argOffset argv j
  array_apart :
    ∀ i, i < argv.length →
      out.stackTop + argOffset argv i + argLength (argv.getD i []) ≤ out.argvPtr

/-- The blob, read through a mapping of the page it was written to. -/
theorem argvDelivered_of_page
    {S : Space (UInt8 × Rights)} {rights : Rights} {mem : Store} {out : Process}
    (hblob : blobBytes argv ≤ elfArgvMaxTotalBytes) (hnul : ∀ a ∈ argv, 0 ∉ a)
    (hargc : out.argc = argv.length)
    (hstack : out.stackTop = elfUserStackTop - blobSize argv) (hargv : out.argvPtr =
      elfUserStackTop - blobSize argv + stringAreaBytes argv)
    (hpage : ∀ k, k < pmmPageSize →
      S (elfUserStackTop - pmmPageSize + k) =
        some (argvBlob mem phys argv (phys + k), rights)) :
    ArgvDelivered S out argv := by
  obtain ⟨hstrings, hptrs, hsize, h8, h16⟩ := blob_sizes hblob
  have htop : elfUserStackTop = 0x8010000000 := rfl
  have hmax : elfArgvMaxTotalBytes = 3072 := rfl
  have hpageSize : pmmPageSize = 4096 := rfl
  -- a byte of the blob, by its distance from the stack pointer
  have hbyte : ∀ k, k < blobSize argv →
      ByteAt S (out.stackTop + k)
        (argvBlob mem phys argv (phys + (pmmPageSize - blobSize argv) + k)) := by
    intro k hk
    have hat := hpage (pmmPageSize - blobSize argv + k) (by omega)
    rw [← Nat.add_assoc phys] at hat
    refine ⟨rights, ?_⟩
    rw [← hat, hstack]
    congr 1
    omega
  have hargv' : out.argvPtr = out.stackTop + stringAreaBytes argv := by
    rw [hargv, hstack]
  refine
    { argc_eq := hargc
      stack_aligned := by omega
      argv_aligned := by omega
      stack_page := by omega
      argv_page := by omega
      entry := ?_
      null := ?_
      strings_apart := fun i j hij hj => argOffset_add_le argv hij (by omega)
      array_apart := ?_ }
  · intro i hi
    have hend := argOffset_add_le_total argv hi
    refine ⟨?_, ?_, ?_⟩
    · intro k hk
      have hat := hbyte (stringAreaBytes argv + 8 * i + k) (by omega)
      simp only [← Nat.add_assoc] at hat
      rw [argvBlob_pointer hblob mem hi hk, ← hargv', ← hstack] at hat
      exact hat
    · rw [List.getD_eq_getElem?_getD, List.getElem?_eq_getElem hi, Option.getD_some]
      exact hnul _ (List.getElem_mem hi)
    · intro k hk
      have hlength : argLength (argv.getD i []) = (argv.getD i []).length + 1 := rfl
      have hat := hbyte (argOffset argv i + k) (by omega)
      simp only [← Nat.add_assoc] at hat
      rw [argvBlob_string hblob mem hi (by omega)] at hat
      exact hat
  · intro k hk
    have hat := hbyte (stringAreaBytes argv + 8 * argv.length + k) (by omega)
    simp only [← Nat.add_assoc] at hat
    rw [argvBlob_null mem hk, ← hargv'] at hat
    rw [Nat.zero_div]
    exact hat
  · intro i hi
    have hend := argOffset_add_le_total argv hi
    omega

variable {alloc : σ → Nat × σ} {Valid : σ → Prop} {held : σ → Set Nat}
  {fb : Framebuffer} {K : Finset Nat} {s : Spaces σ}

/--
**The argument vector arrives.**  For everything that `SYS_EXEC` admits,
`write_argv_blob` does not panic and writes nothing below the stack pointer it
returns or above the page; and after `elf_load_user_program` the new process
finds its arguments.
-/
theorem argv_round_trip
    (hs : Reachable alloc Valid held fb K s) {cr3 : Nat} (hcr3 : cr3 ∈ s.roots)
    {argv : List (List UInt8)} (hpos : 1 ≤ argv.length)
    (hmax : argv.length ≤ elfArgvMaxArgs)
    (hlen : ∀ a ∈ argv, a.length < sysExecMaxArgLen)
    (hnul : ∀ a ∈ argv, 0 ∉ a) :
    (∀ mem phys, ∃ mem' stackTop argvPtr,
      writeArgvBlob mem phys (elfUserStackTop - pmmPageSize) argv =
        .ok (mem', stackTop, argvPtr) ∧
      ∀ x, mem' x ≠ mem x →
        phys + (stackTop - (elfUserStackTop - pmmPageSize)) ≤ x ∧
          x < phys + pmmPageSize) ∧
    ∀ elfData elfSize out m',
      elfLoadUserProgram alloc s.machine elfData elfSize cr3 argv =
        .ok (out, m') →
      ArgvDelivered (privateSpace m'.mem cr3) out argv := by
  have hblob := blobBytes_le hmax hlen
  have hwrite := writeArgvBlob_eq (show argv.length ≠ 0 by omega) hmax hblob
  constructor
  · intro mem phys
    refine ⟨_, _, _, hwrite mem phys, fun x hx => ?_⟩
    obtain ⟨_, _, hsize, _, _⟩ := blob_sizes hblob
    unfold elfArgvMaxTotalBytes at hsize
    by_contra hnot
    apply hx
    apply argvBlob_outside hblob
    unfold elfUserStackTop pmmPageSize at hnot
    unfold pmmPageSize
    omega
  · intro elfData elfSize out m' hload
    have hf := (FreshPages.allocApart hs.fresh K).toFreshPages
    have hok := hs.systemOk
    obtain ⟨r, rfl⟩ := hok.frames _ hcr3
    obtain ⟨g, hg⟩ := hok.inv
    obtain ⟨m₁, m₂, _, mem, hsegments, hstack, hout, hargc, rfl⟩ :=
      elfLoadUserProgram_eq_ok hload
    obtain ⟨g₁, h₁⟩ := loadSegments_ok hf (by decide) hg hcr3 hsegments
    obtain ⟨p, g₂, rfl, hpage⟩ := loadStack_ok hf (by decide) h₁ hcr3 hstack
    have h₂ := hpage.dataInv h₁
    have hsame := sameOutside_writeArgvBlob hout
    rw [hwrite, Except.ok.injEq, Prod.mk.injEq, Prod.mk.injEq] at hout
    have hbytes : ∀ k, k < pmmPageSize →
        privateSpace mem (r * 4096) (elfUserStackTop - pmmPageSize + k) =
          some (argvBlob m₂.mem (p * 4096) argv (p * 4096 + k),
            mapRights vmmMapWrite) := by
      intro k hk
      unfold pmmPageSize at hk
      have hv : (elfUserStackTop - pmmPageSize + k) / 4096 =
          canonicalForm (elfUserStackTop - pmmPageSize) / 4096 := by
        rw [show canonicalForm (elfUserStackTop - pmmPageSize) =
          elfUserStackTop - pmmPageSize by decide]
        unfold elfUserStackTop pmmPageSize
        omega
      have hoffset : (elfUserStackTop - pmmPageSize + k) % 4096 = k := by
        unfold elfUserStackTop pmmPageSize
        omega
      have hslot : index (elfUserStackTop - pmmPageSize + k) 39 ≠ 0 := by
        rw [index_eq_of_page_eq hv (by decide)]
        exact hpage.canonical.slot
      rw [hout.1, privateSpace_of_ne hslot,
        h₂.translate_write (by decide) hpage.frame.2 hsame hcr3,
        (hpage.translate h₁.inv hcr3).1 _ hv, hoffset]
      rfl
    exact
      argvDelivered_of_page hblob hnul hargc hout.2.1.symm hout.2.2.symm hbytes

/-- The arguments `cat` and `a.txt` for a program without segments. -/
theorem argv_round_trip_cat :
    ∃ s out m',
      bootFile emptyProgram [.process .createAddressSpace] = some s ∧
      elfLoadUserProgram bumpAlloc s.machine 4096 64 90112
          [[99, 97, 116], [97, 46, 116, 120, 116]] = .ok (out, m') ∧
      ArgvDelivered (privateSpace m'.mem 90112) out
        [[99, 97, 116], [97, 46, 116, 120, 116]] := by
  have hrun :
      (bootFile emptyProgram [.process .createAddressSpace]).any (fun s =>
        decide (90112 ∈ s.roots) &&
          (elfLoadUserProgram bumpAlloc s.machine 4096 64 90112
            [[99, 97, 116], [97, 46, 116, 120, 116]]).toOption.any
              (fun _ => true)) = true := by
    decide
  obtain ⟨s, hs, hload⟩ := (Option.any_eq_true _ _).mp hrun
  rw [Bool.and_eq_true, decide_eq_true_eq] at hload
  obtain ⟨⟨out, m'⟩, hload', _⟩ := any_toOption.mp hload.2
  exact
    ⟨s, out, m', hs, hload',
      (argv_round_trip (reachable_of_bootFile hs) hload.1 (by decide) (by decide)
        (by decide) (by decide)).2 _ _ _ _ hload'⟩

end Delivery

end Elf
end RebornOS
