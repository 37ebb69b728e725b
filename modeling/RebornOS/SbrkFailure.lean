import RebornOS.LowMemory
import RebornOS.UserHeap

/-!
# `SYS_SBRK` when memory runs out

The loop takes a frame for every missing page and `vmm_map_page` takes more for
the tables.  When the data page cannot be had, the call returns `-1`; when a
table cannot be had, `alloc_table` panics; and the pages mapped before stay
mapped in either case.  With the real allocator the call fails cleanly exactly
when nothing has been taken before the failure: no page is left at all.
-/

namespace RebornOS
namespace Elf

open ByteStore WordBits PageWalk Fallible LabeledRun Vmm LowMemory Function
open Pmm (pmmAllocPage clearCount CountOk bitmapTest)

variable {s : Pmm.State}

section Counting

/-- `free_pages` counts the clear bits, and page 0 is never handed out. -/
structure Counting (s : Pmm.State) : Prop where
  physical : Physical s
  count : CountOk s.bitmapBits (s.bitmap, s.freePages)
  zero : 0 < s.bitmapBits → bitmapTest s.bitmap 0 = true

theorem counting_of_pmmInit
    {map : List Pmm.Descriptor} {old : Pmm.Bitmap} (hv : Pmm.ValidMap map)
    (hw : Pmm.NoWrap map) (hmap : PhysicalMap map) (hinit : Pmm.pmmInit map old = .ok s) :
    Counting s := by
  obtain ⟨region, hregion, _⟩ := Pmm.pmmInit_eq_ok hinit
  refine ⟨physical_of_pmmInit hmap hinit, Pmm.pmmInit_counted hv hw hinit, ?_⟩
  intro hpos
  by_contra hclear
  have hgood :=
    (Pmm.pmmInit_clear_iff hinit hregion hpos).mp (by simpa using hclear)
  exact hgood.2.2 rfl

/-- An allocation fails without effect, or takes one page from the count. -/
theorem Counting.alloc
    (hs : Counting s) :
    (s.freePages = 0 ∧ pmmAllocPage s = (0, s)) ∨
    ((pmmAllocPage s).1 ≠ 0 ∧
      (pmmAllocPage s).2.freePages + 1 = s.freePages ∧
      Counting (pmmAllocPage s).2) := by
  have hcount : s.freePages = clearCount s.bitmap s.bitmapBits := hs.count
  by_cases hnone : s.freePages = 0
  · refine Or.inl ⟨hnone, Pmm.pmmAllocPage_full (fun p hp => ?_)⟩
    by_contra hset
    have hpos : 0 < clearCount s.bitmap s.bitmapBits :=
      FiniteCount.count_pos_iff.mpr ⟨p, hp, by simpa using hset⟩
    omega
  · obtain ⟨p, hp, hclear⟩ :=
      FiniteCount.count_pos_iff.mp
        (show 0 < clearCount s.bitmap s.bitmapBits by omega)
    obtain ⟨bit, hbit, hfree, halloc⟩ := Pmm.pmmAllocPage_free hp hclear
    have hset := Pmm.clearCount_set hbit hfree
    have hbound : clearCount s.bitmap s.bitmapBits ≤ s.bitmapBits :=
      Nat.count_le _
    have hphysical := hs.physical
    unfold Physical at hphysical
    have hbit0 : bit ≠ 0 := by
      rintro rfl
      rw [hs.zero hbit] at hfree
      cases hfree
    have hnew : (s.freePages + (2 ^ 64 - 1)) % 2 ^ 64 =
        clearCount (Pmm.bitmapSet s.bitmap bit) s.bitmapBits := by
      omega
    refine Or.inr ⟨?_, ?_, ?_⟩
    · rw [halloc]
      unfold Pmm.pageSize
      dsimp only
      omega
    · rw [halloc]
      dsimp only
      omega
    · rw [halloc]
      refine ⟨hs.physical, hnew, fun hpos => ?_⟩
      rw [Pmm.bitmapTest_set, hs.zero hpos, Bool.or_true]

/-- Allocations never give pages back. -/
theorem Counting.iterate
    (hs : Counting s) (k : Nat) :
    Counting ((fun t => (pmmAllocPage t).2)^[k] s) ∧
      ((fun t => (pmmAllocPage t).2)^[k] s).freePages ≤ s.freePages := by
  induction k with
  | zero =>
      exact ⟨hs, le_refl _⟩
  | succ k ih =>
      rw [iterate_succ_apply']
      rcases ih.1.alloc with ⟨_, hnone⟩ | ⟨_, hone, hnext⟩
      · rw [hnone]
        exact ih
      · exact ⟨hnext, by omega⟩

theorem freshPages_counting : FreshPages pmmAllocPage Counting heldFrames :=
  { valid := fun _ hs => (hs.iterate 1).1
    aligned := fun s hs => freshPages_pmm.aligned s hs.physical
    bound := fun s hs => freshPages_pmm.bound s hs.physical
    fresh := fun s hs => freshPages_pmm.fresh s hs.physical
    takes := fun s hs => freshPages_pmm.takes s hs.physical
    keeps := fun s hs => freshPages_pmm.keeps s hs.physical }

end Counting

section Loop

variable {σ : Type} {alloc : σ → Nat × σ} {Valid : σ → Prop}
  {held : σ → Set Nat} {m m' : Machine σ} {roots : Set Nat} {g : Ghost}

/-- One of the `n` pages from `p` on is not mapped. -/
def PageMissing (mem : Store) (cr3 n p : Nat) : Prop :=
  ∃ i, i < n ∧ vmmPagePresent mem cr3 (p + i * pmmPageSize) = false

theorem pageMissing_succ
    {mem : Store} {cr3 n p : Nat} :
    PageMissing mem cr3 (n + 1) p ↔
      vmmPagePresent mem cr3 p = false ∨
        PageMissing mem cr3 n (p + pmmPageSize) := by
  constructor
  · rintro ⟨i, hi, habsent⟩
    cases i with
    | zero =>
        rw [Nat.zero_mul, Nat.add_zero] at habsent
        exact Or.inl habsent
    | succ i =>
        refine Or.inr ⟨i, by omega, ?_⟩
        rw [Nat.succ_mul, Nat.add_comm (i * pmmPageSize), ← Nat.add_assoc] at habsent
        exact habsent
  · rintro (habsent | ⟨i, hi, habsent⟩)
    · exact ⟨0, by omega, by rw [Nat.zero_mul, Nat.add_zero]; exact habsent⟩
    · refine ⟨i + 1, by omega, ?_⟩
      rw [Nat.succ_mul, Nat.add_comm (i * pmmPageSize), ← Nat.add_assoc]
      exact habsent

/-- With nothing left, the first missing page ends the loop without effect. -/
theorem sbrkPages_exhausted
    {cr3 : Nat} (hnull : (alloc m.pmm).1 = 0) (n : Nat) :
    ∀ p, PageMissing m.mem cr3 n p →
      sbrkPages alloc cr3 n p m =
        .ok (false, { m with pmm := (alloc m.pmm).2 }) := by
  induction n with
  | zero =>
      rintro p ⟨i, hi, _⟩
      exact absurd hi (Nat.not_lt_zero i)
  | succ n ih =>
      intro p hmissing
      rw [sbrkPages]
      by_cases hpresent : vmmPagePresent m.mem cr3 p = true
      · rw [if_pos hpresent]
        refine ih _ ((pageMissing_succ.mp hmissing).resolve_left ?_)
        rw [hpresent]
        decide
      · rw [if_neg hpresent]
        dsimp only
        rw [if_pos hnull]

/-- A loop that ends without a panic: how much it has allocated. -/
theorem sbrkPages_allocs
    (hf : FreshPages alloc Valid held) {r : Nat} {ok : Bool} (hr : r ∈ roots)
    (n : Nat) :
    ∀ p m g, DataInv 3 alloc Valid held m roots g →
      sbrkPages alloc (r * 4096) n p m = .ok (ok, m') →
        (ok = true ∧ m' = m) ∨
        (PageMissing m.mem (r * 4096) n p ∧
          ((alloc m.pmm).1 ≠ 0 → ∃ k,
            m'.pmm = (fun s => (alloc s).2)^[k] (alloc m.pmm).2)) := by
  induction n with
  | zero =>
      intro p m g _ hrun
      simp only [sbrkPages, Except.ok.injEq, Prod.mk.injEq] at hrun
      exact Or.inl ⟨hrun.1.symm, hrun.2.symm⟩
  | succ n ih =>
      intro p m g h hrun
      rw [pageMissing_succ]
      rw [sbrkPages] at hrun
      dsimp only at hrun
      split_ifs at hrun with hpresent hnull
      · exact (ih _ m g h hrun).imp_right (fun hrest => ⟨Or.inr hrest.1, hrest.2⟩)
      · have habsent : vmmPagePresent m.mem (r * 4096) p = false := by
          simpa using hpresent
        exact Or.inr ⟨Or.inl habsent, fun hne => absurd hnull hne⟩
      · have habsent : vmmPagePresent m.mem (r * 4096) p = false := by
          simpa using hpresent
        refine Or.inr ⟨Or.inl habsent, fun _ => ?_⟩
        obtain ⟨m₁, hmap, hrun⟩ := bind_eq_ok.mp hrun
        obtain ⟨q, hq, _⟩ := hf.frame h.inv.valid hnull
        rw [hq] at hmap
        obtain ⟨g₁, hm⟩ :=
          mapFresh_ok hf (by decide) h.inv hnull hq (sameOutside_fill m.mem q) hr
            hmap
        obtain ⟨k, hk⟩ := hm.pmm
        rcases ih _ m₁ g₁ (hm.dataInv h) hrun with ⟨_, rfl⟩ | ⟨hmissing, hmore⟩
        · exact ⟨k, hk⟩
        · by_cases hnull₁ : (alloc m₁.pmm).1 = 0
          · rw [sbrkPages_exhausted hnull₁ n _ hmissing, Except.ok.injEq,
              Prod.mk.injEq] at hrun
            refine ⟨1 + k, ?_⟩
            rw [← hrun.2, iterate_add_apply, ← hk]
            rfl
          · obtain ⟨j, hj⟩ := hmore hnull₁
            refine ⟨j + 1 + k, ?_⟩
            rw [hj, iterate_add_apply, ← hk]
            rfl

end Loop

section Failure

/-- The call moves the break, and every byte up to it is mapped. -/
def SbrkSatisfied (m : Machine Pmm.State) (cr3 oldBrk increment : Nat) : Prop :=
  ∃ m', sysSbrk pmmAllocPage m cr3 oldBrk increment =
      .ok (oldBrk, oldBrk + increment, m') ∧
    ∀ v, oldBrk ≤ v → v < oldBrk + increment →
      (translateAddr m'.mem cr3 v).isSome = true

/-- The call returns `-1` and changes nothing that the process can see. -/
def SbrkRefused (m : Machine Pmm.State) (cr3 oldBrk increment : Nat) : Prop :=
  ∃ m', sysSbrk pmmAllocPage m cr3 oldBrk increment =
      .ok (2 ^ 64 - 1, oldBrk, m') ∧
    (∀ v, (translateAddr m'.mem cr3 v).isSome =
      (translateAddr m.mem cr3 v).isSome) ∧
    m'.pmm.freePages = m.pmm.freePages

/-- Some page from the old break to the new one is not mapped. -/
def SbrkMissing (mem : Store) (cr3 oldBrk increment : Nat) : Prop :=
  PageMissing mem cr3
    (((((oldBrk + increment) % 2 ^ 64 + pmmPageSize - 1) % 2 ^ 64 &&&
      highMask 12) - (oldBrk &&& highMask 12)) / pmmPageSize)
    (oldBrk &&& highMask 12)

variable {fb : Framebuffer} {K : Finset Nat} {s : Spaces Pmm.State}

/--
**When `SYS_SBRK` fails cleanly.**  A call that cannot be satisfied returns `-1`
without a trace exactly when no physical page is left and a page is missing:
otherwise the pages it has taken are lost, the kernel has panicked, or the call
has moved the break without mapping the bytes.
-/
theorem sbrk_fails_cleanly_iff
    (hs : Reachable pmmAllocPage Counting heldFrames fb K s) {cr3 : Nat}
    (hcr3 : cr3 ∈ s.roots) {oldBrk increment : Nat}
    (hincrement : increment < 2 ^ 63) :
    (¬ SbrkSatisfied s.machine cr3 oldBrk increment →
      SbrkRefused s.machine cr3 oldBrk increment) ↔
    SbrkSatisfied s.machine cr3 oldBrk increment ∨
      (s.machine.pmm.freePages = 0 ∧
        SbrkMissing s.machine.mem cr3 oldBrk increment) := by
  have hf := (FreshPages.allocApart hs.fresh K).toFreshPages
  have hok := hs.systemOk
  obtain ⟨r, rfl⟩ := hok.frames _ hcr3
  obtain ⟨g, hg⟩ := hok.inv
  have hcounting : Counting s.machine.pmm := hg.inv.valid.1
  constructor
  · intro hclean
    by_cases hsat : SbrkSatisfied s.machine (r * 4096) oldBrk increment
    · exact Or.inl hsat
    · obtain ⟨m', hcall, _, hfree⟩ := hclean hsat
      have hrun := hcall
      unfold sysSbrk at hrun
      rw [if_neg (by omega)] at hrun
      obtain ⟨⟨ok, m₁⟩, hpages, hrun⟩ := bind_eq_ok.mp hrun
      dsimp only at hrun
      split_ifs at hrun with htrue
      · -- a success that looks like a failure is an increment of zero
        simp only [Except.ok.injEq, Prod.mk.injEq] at hrun
        obtain ⟨hret, hsame, rfl⟩ := hrun
        have hzero : increment = 0 := by omega
        refine absurd ⟨m₁, ?_, fun v hlow hhigh => by omega⟩ hsat
        rw [hcall, hzero, Nat.add_zero, hret]
      · simp only [Except.ok.injEq, Prod.mk.injEq] at hrun
        obtain ⟨_, _, rfl⟩ := hrun
        rcases sbrkPages_allocs hf hcr3 _ _ _ g hg hpages with
          ⟨hsuccess, _⟩ | ⟨hmissing, hmore⟩
        · exact absurd hsuccess htrue
        · refine Or.inr ⟨?_, hmissing⟩
          rcases hcounting.alloc with ⟨hnone, _⟩ | ⟨hne, hone, hnext⟩
          · exact hnone
          · obtain ⟨k, hk⟩ := hmore hne
            have hle := (hnext.iterate k).2
            rw [← hk] at hle
            omega
  · rintro (hsat | ⟨hnone, hmissing⟩) hunsat
    · exact absurd hsat hunsat
    · rcases hcounting.alloc with ⟨_, halloc⟩ | ⟨_, hone, _⟩
      · refine ⟨s.machine, ?_, fun v => rfl, rfl⟩
        have hnull : (pmmAllocPage s.machine.pmm).1 = 0 := by rw [halloc]
        have hloop := sbrkPages_exhausted hnull _ _ hmissing
        rw [halloc] at hloop
        unfold sysSbrk
        rw [if_neg (by omega)]
        dsimp only
        rw [hloop]
        rfl
      · omega

/-- Memory of `n` pages from `0x1000` on. -/
def pagesMap (n : Nat) : List Pmm.Descriptor :=
  [{ memType := Pmm.conventional, physicalStart := 0x1000, numberOfPages := n }]

/-- The system on `n` pages of memory, with one process. -/
def bootPages (n : Nat) : Option (Spaces Pmm.State) :=
  (Pmm.pmmInit (pagesMap n) (fun _ => 0#8)).toOption.bind (fun s =>
    (vmmInit pmmAllocPage (blank s)).toOption.bind (fun m =>
        runAll (event pmmAllocPage noFramebuffer ∅) (boot m)
          [.process .createAddressSpace]))

theorem reachable_of_bootPages
    {n : Nat} (hn : n ≤ 2 ^ 20) (h : bootPages n = some s) :
    Reachable pmmAllocPage Counting heldFrames noFramebuffer ∅ s := by
  obtain ⟨s₀, hpmm, h⟩ := Option.bind_eq_some_iff.mp h
  obtain ⟨m₁, hvmm, hrun⟩ := Option.bind_eq_some_iff.mp h
  have hsize : Pmm.pageSize = 4096 := rfl
  have hmem : ∀ d, d ∈ pagesMap n →
      d = { memType := Pmm.conventional, physicalStart := 0x1000,
            numberOfPages := n } :=
    fun d hd => List.mem_singleton.mp hd
  refine
    { fresh := freshPages_counting
      framebuffer := fun x _ hlt => absurd hlt (Nat.not_lt_zero x)
      reached :=
        ⟨_, m₁, _, ?_, fun n hn => absurd hn (Finset.notMem_empty n),
          toOption_eq_some.mp hvmm, hrun⟩ }
  refine counting_of_pmmInit ⟨?_, List.pairwise_singleton _ _⟩ ?_ ?_
    (toOption_eq_some.mp hpmm)
  · intro d hd
    rw [hmem d hd, hsize]
    dsimp only
  · intro d hd _
    rw [hmem d hd, hsize]
    dsimp only
    omega
  · intro d hd _
    rw [hmem d hd, hsize]
    dsimp only
    omega

/-- On 12 pages nothing is left for the heap, and the call fails cleanly. -/
theorem sbrk_fails_cleanly_twelvePages :
    ∃ s, bootPages 12 = some s ∧ s.machine.pmm.freePages = 0 ∧
      (¬ SbrkSatisfied s.machine 32768 userHeapVaddrStart 1 →
        SbrkRefused s.machine 32768 userHeapVaddrStart 1) := by
  have hrun :
      (bootPages 12).any (fun s =>
        decide (32768 ∈ s.roots) && decide (s.machine.pmm.freePages = 0) &&
          !vmmPagePresent s.machine.mem 32768 userHeapVaddrStart) = true := by
    decide
  obtain ⟨s, hs, hstate⟩ := (Option.any_eq_true _ _).mp hrun
  simp only [Bool.and_eq_true, decide_eq_true_eq, Bool.not_eq_true'] at hstate
  obtain ⟨⟨hcr3, hnone⟩, habsent⟩ := hstate
  refine
    ⟨s, hs, hnone,
      (sbrk_fails_cleanly_iff (reachable_of_bootPages (by decide) hs) hcr3
        (by decide)).mpr (Or.inr ⟨hnone, 0, by decide, ?_⟩)⟩
  exact habsent

/--
With one page left the kernel panics while it builds the page table; with three
left, a request for three pages returns `-1` and has used them all.
-/
theorem sbrk_leaves_pages_behind :
    (∃ s, bootPages 13 = some s ∧ s.machine.pmm.freePages = 1 ∧
      sysSbrk pmmAllocPage s.machine 32768 userHeapVaddrStart 1 =
        .error .outOfPhysicalMemory ∧
      ¬ (¬ SbrkSatisfied s.machine 32768 userHeapVaddrStart 1 →
        SbrkRefused s.machine 32768 userHeapVaddrStart 1)) ∧
    ∃ s m', bootPages 15 = some s ∧ s.machine.pmm.freePages = 3 ∧
      sysSbrk pmmAllocPage s.machine 32768 userHeapVaddrStart 12288 =
        .ok (2 ^ 64 - 1, userHeapVaddrStart, m') ∧
      m'.pmm.freePages = 0 ∧
      ¬ (¬ SbrkSatisfied s.machine 32768 userHeapVaddrStart 12288 →
        SbrkRefused s.machine 32768 userHeapVaddrStart 12288) := by
  constructor
  · have hrun :
        (bootPages 13).any (fun s =>
          decide (s.machine.pmm.freePages = 1) &&
            decide (panicOf (sysSbrk pmmAllocPage s.machine 32768
              userHeapVaddrStart 1) = some .outOfPhysicalMemory)) = true := by
      decide
    obtain ⟨s, hs, hstate⟩ := (Option.any_eq_true _ _).mp hrun
    simp only [Bool.and_eq_true, decide_eq_true_eq, panicOf_eq_some] at hstate
    refine ⟨s, hs, hstate.1, hstate.2, fun hclean => ?_⟩
    obtain ⟨m', hcall, _⟩ := hclean (by
      rintro ⟨m', hcall, _⟩
      rw [hstate.2] at hcall
      cases hcall)
    rw [hstate.2] at hcall
    cases hcall
  · have hrun :
        (bootPages 15).any (fun s =>
          decide (s.machine.pmm.freePages = 3) &&
            (sysSbrk pmmAllocPage s.machine 32768 userHeapVaddrStart
              12288).toOption.any (fun r =>
                decide (r.1 = 2 ^ 64 - 1) && decide (r.2.1 = userHeapVaddrStart) &&
                  decide (r.2.2.pmm.freePages = 0))) = true := by
      decide
    obtain ⟨s, hs, hstate⟩ := (Option.any_eq_true _ _).mp hrun
    rw [Bool.and_eq_true, decide_eq_true_eq, any_toOption] at hstate
    obtain ⟨hthree, ⟨rax, brk, m'⟩, hcall, hresult⟩ := hstate
    simp only [Bool.and_eq_true, decide_eq_true_eq] at hresult
    obtain ⟨⟨rfl, rfl⟩, hnone⟩ := hresult
    refine ⟨s, m', hs, hthree, hcall, hnone, fun hclean => ?_⟩
    obtain ⟨m₁, hcall₁, _, hfree⟩ := hclean (by
      rintro ⟨m₁, hcall₁, _⟩
      rw [hcall, Except.ok.injEq, Prod.mk.injEq] at hcall₁
      exact absurd hcall₁.1 (by decide))
    rw [hcall, Except.ok.injEq, Prod.mk.injEq, Prod.mk.injEq] at hcall₁
    rw [← hcall₁.2.2, hnone, hthree] at hfree
    cases hfree

end Failure

end Elf
end RebornOS
