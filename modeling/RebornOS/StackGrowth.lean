import RebornOS.SbrkFailure
import RebornOS.UserRegions

/-!
# Growing the user stack

`exception_handler` passes every page fault to `elf_handle_stack_fault`, which
decides from the fault address, the error code and the privilege level whether a
page of the stack is missing and maps one if so.  Here any sequence of faults
arrives in an address space that the loader, `SYS_SBRK` and the other calls have
built in any way.

A call either changes nothing at all or maps one missing page of the stack
(`answered_of_ok`).  Nothing unmaps a page, so the number of missing pages of the
stack bounds how often the second can happen.
-/

namespace RebornOS
namespace Elf

open ByteStore WordBits PageWalk Fallible LabeledRun Vmm LowMemory
open Pmm (pmmAllocPage)

variable {Valid : Pmm.State → Prop} {held : Pmm.State → Set Nat}
  {m m' : Machine Pmm.State} {r ret : Nat} {s : Spaces Pmm.State}

section Model

/-- A page fault: `cr2`, the error code, and whether `cs` is that of ring 3. -/
structure Fault where
  faultAddr : BitVec 64
  errorCode : BitVec 64
  fromRing3 : Bool

/-- The machine and the answers so far, the last one first. -/
abbrev Handled := Machine Pmm.State × List Nat

/-- One fault under `cr3`; a panic ends the run. -/
def handleFault (cr3 : Nat) (x : Handled) (f : Fault) : Option Handled :=
  (elfHandleStackFault pmmAllocPage x.1 cr3 f.faultAddr.toNat f.errorCode.toNat
    f.fromRing3).toOption.map (fun r => (r.2, r.1 :: x.2))

/-- What the answer `ret` to a fault says, and what the call may change. -/
structure Answered (roots : List Nat) (cr3 : Nat) (m : Machine Pmm.State)
    (f : Fault) (ret : Nat) (m' : Machine Pmm.State) : Prop where
  answer : ret = 0 ∨ ret = 1
  cause :
    ret = 1 →
      f.fromRing3 = true ∧ f.errorCode.toNat &&& pfErrorPresent = 0 ∧
        stackLow ≤ f.faultAddr.toNat / 4096 * 4096 ∧
        f.faultAddr.toNat / 4096 * 4096 < elfUserStackTop
  page :
    ret = 1 → ∀ b, b / 4096 = f.faultAddr.toNat / 4096 →
      translateAddr m.mem cr3 b = none ∧
      ∃ t, translateAddr m'.mem cr3 b = some t ∧
        t.rights = { user := true, writable := true, noExecute := true } ∧
        m'.mem t.phys = 0
  refused :
    ret = 0 →
      (∀ root b, root ∈ roots →
        translateAddr m'.mem root b = translateAddr m.mem root b) ∧
      m'.pmm.freePages = m.pmm.freePages
  kept :
    ∀ root b t, root ∈ roots → translateAddr m.mem root b = some t →
      translateAddr m'.mem root b = some t
  others :
    ∀ root b, root ∈ roots →
      root ≠ cr3 ∨ b / 4096 ≠ f.faultAddr.toNat / 4096 →
        translateAddr m'.mem root b = translateAddr m.mem root b

end Model

variable {f : Fault}

section Call

theorem pageAlignDown_toNat
    (v : BitVec 64) : pageAlignDown v.toNat = v.toNat / 4096 * 4096 :=
  land_highMask v.isLt (by decide)

/-- A call without effect may only answer 0. -/
theorem answered_refused
    (roots : List Nat) (cr3 : Nat) (m : Machine Pmm.State) (f : Fault) :
    Answered roots cr3 m f 0 m where
  answer := Or.inl rfl
  cause h := absurd h (by decide)
  page h := absurd h (by decide)
  refused _ := ⟨fun _ _ _ => rfl, rfl⟩
  kept _ _ _ _ ht := ht
  others _ _ _ _ := rfl

/-- Every call that returns keeps to what its answer says. -/
theorem answered_of_ok
    (hf : FreshPages pmmAllocPage Valid held)
    (hcount : ∀ t, Valid t → Counting t)
    (hframes : ∀ a, a ∈ s.roots → ∃ r, a = r * 4096)
    (hinv : ∃ g, DataInv 3 pmmAllocPage Valid held m (rootFrames s.roots) g)
    (hr : r * 4096 ∈ s.roots)
    (hrun : elfHandleStackFault pmmAllocPage m (r * 4096) f.faultAddr.toNat
      f.errorCode.toNat f.fromRing3 = .ok (ret, m')) :
    Answered s.roots (r * 4096) m f ret m' := by
  obtain ⟨g, hg⟩ := hinv
  rcases elfHandleStackFault_cases hrun with
    ⟨rfl, rfl⟩ | ⟨rfl, hnull, rfl⟩ |
      ⟨rfl, hring, herror, hlow, hhigh, habsent, hne, hmap⟩
  · exact answered_refused _ _ _ _
  · -- the allocator that finds nothing is left as it was
    rcases (hcount _ hg.inv.valid).alloc with ⟨_, hfull⟩ | ⟨hpage, _⟩
    · rw [hfull]
      exact answered_refused _ _ _ _
    · exact absurd hnull hpage
  · rw [pageAlignDown_toNat] at hlow hhigh habsent hmap
    obtain ⟨p, hp, _⟩ := hf.frame hg.inv.valid hne
    rw [hp] at hmap
    obtain ⟨g', hm⟩ :=
      mapFresh_ok hf (by decide) hg.inv hne hp (sameOutside_fill m.mem p) hr hmap
    obtain ⟨hnew, hold⟩ := hm.translate hg.inv hr
    have hone :=
      oneMapped_of_missing hg hr habsent hm.slot hnew
        (fun b hb => hold r b hr (Or.inr hb))
    have hpage : canonicalForm (f.faultAddr.toNat / 4096 * 4096) / 4096 =
        f.faultAddr.toNat / 4096 := by
      rw [canonicalForm_of_canonical, Nat.mul_div_cancel _ (by decide)]
      unfold elfUserStackTop at hhigh
      unfold Canonical
      omega
    rw [hpage] at hnew hold hone
    refine
      { answer := Or.inr rfl
        cause := fun _ => ⟨hring, herror, hlow, hhigh⟩
        page := fun _ b hb => ⟨hone.absent b hb, _, hnew b hb, rfl, ?_⟩
        refused := fun h => absurd h (by decide)
        kept := ?_
        others := ?_ }
    · rw [hm.contents _ (show (p * 4096 + b % 4096) / 4096 = p by omega)]
      exact fill_page m.mem p (Nat.mod_lt b (by decide))
    · intro root b t hroot ht
      obtain ⟨r', rfl⟩ := hframes root hroot
      rw [hold r' b hroot, ht]
      by_contra hsame
      obtain ⟨hrr, hb⟩ := not_or.mp hsame
      rw [not_not.mp hrr, hone.absent b (not_not.mp hb)] at ht
      cases ht
    · intro root b hroot hother
      obtain ⟨r', rfl⟩ := hframes root hroot
      exact hold r' b hroot (hother.imp_left (fun hne h => hne (by rw [h])))

/-- So does every step of a run, with the invariant of the address spaces. -/
theorem handleFault_step
    (hf : FreshPages pmmAllocPage Valid held)
    (hcount : ∀ t, Valid t → Counting t)
    (hframes : ∀ a, a ∈ s.roots → ∃ r, a = r * 4096)
    (hr : r * 4096 ∈ s.roots) (x : Handled) (f : Fault) (y : Handled)
    (hinv : ∃ g, DataInv 3 pmmAllocPage Valid held x.1 (rootFrames s.roots) g)
    (hy : handleFault (r * 4096) x f = some y) :
    (∃ g, DataInv 3 pmmAllocPage Valid held y.1 (rootFrames s.roots) g) ∧
      ∃ ret, y.2 = ret :: x.2 ∧ Answered s.roots (r * 4096) x.1 f ret y.1 := by
  obtain ⟨⟨ret, m'⟩, hrun, rfl⟩ := Option.map_eq_some_iff.mp hy
  rw [toOption_eq_some] at hrun
  have hanswer := answered_of_ok hf hcount hframes hinv hr hrun
  obtain ⟨g, hg⟩ := hinv
  exact ⟨elfHandleStackFault_ok hf (by decide) hg hr hrun, ret, rfl, hanswer⟩

end Call

section Bound

/-- How many pages of the stack are not mapped. -/
def missingPages (mem : Store) (cr3 : Nat) : Nat :=
  Nat.count (fun k => translateAddr mem cr3 (stackLow + k * 4096) = none)
    elfUserStackMaxPages

/-- An answer 1 is one page less to come. -/
theorem Answered.missingPages_le
    {roots : List Nat} {cr3 : Nat} (h : Answered roots cr3 m f ret m')
    (hcr3 : cr3 ∈ roots) (answers : List Nat) :
    (ret :: answers).count 1 + missingPages m'.mem cr3 ≤
      answers.count 1 + missingPages m.mem cr3 := by
  rcases h.answer with rfl | rfl
  · have hsame : missingPages m'.mem cr3 = missingPages m.mem cr3 := by
      refine FiniteCount.count_congr (fun k _ => ?_)
      rw [(h.refused rfl).1 cr3 _ hcr3]
    rw [hsame, List.count_cons_of_ne (by decide)]
  · obtain ⟨_, _, hlow, hhigh⟩ := h.cause rfl
    have hlowval : stackLow = 0x800FFC0000 := rfl
    have htop : elfUserStackTop = 0x8010000000 := rfl
    have hmax : elfUserStackMaxPages = 64 := rfl
    -- the page of the fault is page `k` of the stack
    obtain ⟨k, hk⟩ : ∃ k, f.faultAddr.toNat / 4096 * 4096 = stackLow + k * 4096 :=
      ⟨f.faultAddr.toNat / 4096 - stackLow / 4096, by omega⟩
    have hpage : ∀ i, (stackLow + i * 4096) / 4096 = f.faultAddr.toNat / 4096 ↔
        i = k := by
      intro i
      omega
    obtain ⟨habsent, t, hpresent, _⟩ := h.page rfl _ ((hpage k).mpr rfl)
    have hflip : missingPages m.mem cr3 = missingPages m'.mem cr3 + 1 := by
      refine FiniteCount.count_flip (k := k) (by omega) ?_ habsent ?_
      · intro i _ hik
        rw [h.others cr3 _ hcr3 (Or.inr (fun hi => hik ((hpage i).mp hi)))]
      · rw [hpresent]
        exact Option.some_ne_none t
    rw [List.count_cons_self]
    omega

/-- The answers 1 of a run and the pages still missing never exceed the limit. -/
theorem count_answers_le
    {faults : List Fault} {y : Handled} (hf : FreshPages pmmAllocPage Valid held)
    (hcount : ∀ t, Valid t → Counting t) (hok : SystemOk pmmAllocPage Valid held s)
    (hr : r * 4096 ∈ s.roots)
    (hrun : runAll (handleFault (r * 4096)) (s.machine, []) faults = some y) :
    y.2.count 1 ≤ elfUserStackMaxPages := by
  have hbound := runAll_invariant
    (P := fun x : Handled =>
      (∃ g, DataInv 3 pmmAllocPage Valid held x.1 (rootFrames s.roots) g) ∧
        x.2.count 1 + missingPages x.1.mem (r * 4096) ≤ elfUserStackMaxPages)
    (fun x f y hx hy => ?_) ⟨hok.inv, ?_⟩ hrun
  · exact le_trans (Nat.le_add_right _ _) hbound.2
  · obtain ⟨hinv, ret, hret, hanswer⟩ :=
      handleFault_step hf hcount hok.frames hr x f y hx.1 hy
    rw [hret]
    exact ⟨hinv, (hanswer.missingPages_le hr x.2).trans hx.2⟩
  · rw [List.count_nil, Nat.zero_add]
    exact Nat.count_le _

end Bound

section Runs

variable {fb : Framebuffer} {K : Finset Nat}

/--
**The stack grows within its limits and over nothing.**  In every address space
of every reachable state, however many faults are handled and whatever they are:
every call that returns keeps to its answer (`Answered`), and at most
`ELF_USER_STACK_MAX_PAGES` calls answer 1, each of which adds one page.
-/
theorem stack_growth_confined
    (hs : Reachable pmmAllocPage Counting heldFrames fb K s) {cr3 : Nat}
    (hcr3 : cr3 ∈ s.roots) (faults : List Fault) :
    EveryStep (handleFault cr3)
      (fun x f y => ∃ ret, y.2 = ret :: x.2 ∧
        Answered s.roots cr3 x.1 f ret y.1)
      (s.machine, []) faults ∧
    ∀ m answers, runAll (handleFault cr3) (s.machine, []) faults =
        some (m, answers) →
      answers.count 1 ≤ elfUserStackMaxPages := by
  have hf := (FreshPages.allocApart hs.fresh K).toFreshPages
  have hok := hs.systemOk
  obtain ⟨r, rfl⟩ := hok.frames _ hcr3
  refine ⟨everyStep_of_invariant
    (handleFault_step hf (fun _ ht => ht.1) hok.frames hcr3) hok.inv, ?_⟩
  intro m answers hrun
  exact count_answers_le hf (fun _ ht => ht.1) hok hcr3 hrun

/-- Two faults at one page of a process on 20 pages of memory. -/
theorem stack_growth_confined_twice :
    ∃ s, bootPages 20 = some s ∧
      (runAll (handleFault 32768) (s.machine, [])
        [⟨0x800FFFE123, 6, true⟩, ⟨0x800FFFEFFF, 6, true⟩]).any
          (fun x => x.2 = [0, 1]) = true ∧
      EveryStep (handleFault 32768)
        (fun x f y => ∃ ret, y.2 = ret :: x.2 ∧
          Answered s.roots 32768 x.1 f ret y.1)
        (s.machine, [])
        [⟨0x800FFFE123, 6, true⟩, ⟨0x800FFFEFFF, 6, true⟩] := by
  have hrun :
      (bootPages 20).any (fun s =>
        decide (32768 ∈ s.roots) &&
          (runAll (handleFault 32768) (s.machine, [])
            [⟨0x800FFFE123, 6, true⟩, ⟨0x800FFFEFFF, 6, true⟩]).any
              (fun x => x.2 = [0, 1])) = true := by
    decide
  obtain ⟨s, hs, hstate⟩ := (Option.any_eq_true _ _).mp hrun
  rw [Bool.and_eq_true, decide_eq_true_eq] at hstate
  exact
    ⟨s, hs, hstate.2,
      (stack_growth_confined (reachable_of_bootPages (by decide) hs) hstate.1 _).1⟩

end Runs

end Elf
end RebornOS
