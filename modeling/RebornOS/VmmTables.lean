import RebornOS.Fallible
import RebornOS.PageWalk
import RebornOS.RadixForest
import RebornOS.Vmm

/-!
# Page tables as radix trees

The table entries of the whole memory form one store of nodes in the sense of
`RadixForest`: nodes are page frames, indices are `Fin 512`, and an entry leads
to the frame in its address bits if its present bit is set.  This module
connects the code's accesses to that view (`entries_writeEntry`,
`entries_fill`, `readEntry_eq`) and computes the few entry values that the code
builds.
-/

namespace RebornOS
namespace Vmm

open ByteStore WordBits PageWalk RadixForest

variable {e n paddr : Nat}

/-- The frame an entry leads to. -/
def childOf (e : Nat) : Option Nat :=
  if isPresent e then some (frameOf e) else none

/-- The entry that points to the table in frame `n`. -/
def tableEntry (n : Nat) : Nat := n * 4096 + 7

section Lens

theorem readEntry_eq
    (mem : Store) (n : Nat) (i : Fin 512) :
    readEntry mem (n * 4096) i.val = entries mem n i := by
  rfl

/-- Writing one entry, seen as a store of nodes. -/
theorem entries_writeEntry
    (mem : Store) (n : Nat) (i : Fin 512) (he : e < 2 ^ 64) :
    entries (writeEntry mem (n * 4096) i.val e) =
      setEntry (entries mem) n i e := by
  funext t j
  have hi := i.isLt
  have hj := j.isLt
  unfold entries writeEntry
  by_cases hsame : t = n ∧ j = i
  · obtain ⟨rfl, rfl⟩ := hsame
    rw [readLE_writeLE_of_lt he, setEntry_same]
  · rw [setEntry_of_ne (by tauto)]
    apply readLE_writeLE_of_disjoint
    have hne : t ≠ n ∨ j.val ≠ i.val := by
      by_contra hboth
      push Not at hboth
      exact hsame ⟨hboth.1, Fin.ext hboth.2⟩
    omega

/-- An entry is written inside the frame of its table. -/
theorem writeEntry_of_frame_ne
    (mem : Store) {x : Nat} (i : Fin 512) (e : Nat) (hx : x / 4096 ≠ n) :
    writeEntry mem (n * 4096) i.val e x = mem x := by
  have hi := i.isLt
  rw [writeEntry, writeLE_outside (by omega)]

/-- Clearing one frame, seen as a store of nodes. -/
theorem entries_fill
    (mem : Store) (n : Nat) :
    entries (fill mem (n * 4096) pmmPageSize 0) =
      setNode (entries mem) n (fun _ => 0) := by
  funext t j
  have hj := j.isLt
  have hpage : pmmPageSize = 4096 := rfl
  unfold entries
  by_cases hsame : t = n
  · subst hsame
    rw [setNode_same]
    apply readLE_fill_zero
    · omega
    · omega
  · rw [setNode_of_ne hsame]
    apply readLE_fill_of_disjoint
    omega

/-- Bytes written inside one frame change no entry of another. -/
theorem entries_of_agree
    {mem mem' : Store} {t : Nat} (htn : t ≠ n) (h : ∀ x, x / 4096 ≠ n → mem' x = mem x)
    (j : Fin 512) : entries mem' t j = entries mem t j := by
  have hj := j.isLt
  unfold entries
  apply readLE_congr
  intro x hx hxe
  exact h x (by omega)

end Lens

section Values

theorem testBit_eq (x i : Nat) : x.testBit i = decide (x / 2 ^ i % 2 = 1) :=
  Nat.testBit_eq_decide_div_mod_eq

theorem tableEntry_lt
    (hn : n < 2 ^ 40) : tableEntry n < 2 ^ 64 := by
  unfold tableEntry
  omega

theorem lor_tableFlags
    (n : Nat) : n * 4096 ||| tableFlags = tableEntry n := by
  have hflags : tableFlags = 7 := rfl
  rw [hflags, lor_low_field (k := 12) (by omega) (by decide)]
  rfl

@[simp] theorem isPresent_tableEntry
    (n : Nat) : isPresent (tableEntry n) = true := by
  unfold isPresent tableEntry
  rw [testBit_eq, decide_eq_true_eq]
  omega

@[simp] theorem isLarge_tableEntry
    (n : Nat) : isLarge (tableEntry n) = false := by
  unfold isLarge tableEntry
  rw [testBit_eq, decide_eq_false_iff_not]
  omega

theorem frameOf_tableEntry
    (hn : n < 2 ^ 40) : frameOf (tableEntry n) = n := by
  unfold frameOf tableEntry
  omega

theorem frameOf_mul
    (hn : n < 2 ^ 40) : frameOf (n * 4096) = n := by
  unfold frameOf
  omega

theorem rightsOf_tableEntry
    (hn : n < 2 ^ 40) :
    rightsOf (tableEntry n) =
      { user := true, writable := true, noExecute := false } := by
  unfold rightsOf tableEntry
  simp only [testBit_eq, Rights.mk.injEq, decide_eq_true_eq, decide_eq_false_iff_not]
  omega

theorem childOf_tableEntry
    (hn : n < 2 ^ 40) : childOf (tableEntry n) = some n := by
  unfold childOf
  rw [isPresent_tableEntry, if_pos rfl, frameOf_tableEntry hn]

theorem tableEntry_land_mask
    (hn : n < 2 ^ 40) : tableEntry n &&& tableAddrMask = n * 4096 := by
  unfold tableAddrMask
  rw [land_highMask (tableEntry_lt hn) (by decide)]
  unfold tableEntry
  omega

theorem childOf_eq_none : childOf e = none ↔ isPresent e = false := by
  unfold childOf
  cases isPresent e <;> simp

theorem childOf_of_present
    (h : isPresent e = true) : childOf e = some (frameOf e) := by
  unfold childOf
  rw [h, if_pos rfl]

/-- The code's test of the present bit. -/
theorem land_pagePresent_eq_zero : e &&& pagePresent = 0 ↔ isPresent e = false := by
  have h := land_flag_ne_zero e 0
  unfold isPresent pagePresent
  rw [← Bool.not_eq_true, ← h, not_not]

theorem land_pageHuge_eq_zero : e &&& pageHuge = 0 ↔ isLarge e = false := by
  have h := land_flag_ne_zero e 7
  unfold isLarge pageHuge
  rw [← Bool.not_eq_true, ← h, not_not]

theorem land_pageUser_eq_zero : e &&& pageUser = 0 ↔ (rightsOf e).user = false := by
  have h := land_flag_ne_zero e 2
  unfold rightsOf pageUser
  rw [← Bool.not_eq_true, ← h, not_not]

theorem land_pageWritable_eq_zero :
    e &&& pageWritable = 0 ↔ (rightsOf e).writable = false := by
  have h := land_flag_ne_zero e 1
  unfold rightsOf pageWritable
  rw [← Bool.not_eq_true, ← h, not_not]

/-- The code's index computation is the hardware's. -/
theorem tableIndex_eq
    (v shift : Nat) : tableIndex v shift = (index v shift).val := by
  unfold tableIndex index
  rw [show (0x1FF : Nat) = 2 ^ 9 - 1 from rfl, land_lowMask, Nat.shiftRight_eq_div_pow]
  rfl

/-- The flag bits of a leaf entry of `vmm_map_page`. -/
def leafFlags (flags : Nat) : Nat :=
  5 + (if flags &&& vmmMapWrite ≠ 0 then 2 else 0) +
    (if flags &&& vmmMapExec = 0 then 2 ^ 63 else 0)

/-- A leaf entry in arithmetic form, for a physical address below `2 ^ 52`. -/
theorem leafEntry_eq
    {flags : Nat} (hp : paddr < 2 ^ 52) :
    leafEntry paddr flags = paddr / 4096 * 4096 + leafFlags flags := by
  unfold leafEntry leafFlags tableAddrMask
  dsimp only
  rw [land_highMask (by omega) (by decide)]
  -- the NX bit is above the address bits, the other flags below them
  have hlow : ∀ f, f < 4096 →
      paddr / 2 ^ 12 * 2 ^ 12 ||| f = paddr / 4096 * 4096 + f := by
    intro f hf
    exact lor_low_field (k := 12) (by omega) hf
  have hhigh : ∀ f, f < 4096 →
      paddr / 2 ^ 12 * 2 ^ 12 ||| (f + 2 ^ 63) =
        paddr / 4096 * 4096 + f + 2 ^ 63 := by
    intro f hf
    rw [show f + 2 ^ 63 = 2 ^ 63 ||| f by
        rw [lor_low_field (k := 63) (by decide) (by omega)]; omega,
      Nat.or_comm (2 ^ 63) f, ← Nat.or_assoc, hlow f hf, Nat.or_comm,
      lor_low_field (k := 63) (by decide) (by omega)]
    omega
  have hwx : pagePresent ||| pageUser ||| pageWritable ||| pageNx = 7 + 2 ^ 63 := by
    decide
  have hw : pagePresent ||| pageUser ||| pageWritable = 7 := by decide
  have hx : pagePresent ||| pageUser ||| pageNx = 5 + 2 ^ 63 := by decide
  have hnone : pagePresent ||| pageUser = 5 := by decide
  split_ifs
  · rw [hwx, hhigh 7 (by decide)]
    omega
  · rw [hx, hhigh 5 (by decide)]
    omega
  · rw [hw, hlow 7 (by decide)]
  · rw [hnone, hlow 5 (by decide)]

/-- Every leaf entry is a 64-bit word. -/
theorem leafEntry_lt
    (paddr flags : Nat) : leafEntry paddr flags < 2 ^ 64 := by
  have haddr : paddr &&& tableAddrMask < 2 ^ 64 :=
    Nat.and_lt_two_pow _ (by decide)
  unfold leafEntry
  dsimp only
  apply Nat.or_lt_two_pow haddr
  split_ifs <;> decide

/-- The frame and the rights of a leaf entry. -/
theorem leafEntry_spec
    {flags : Nat} (hp : paddr < 2 ^ 52) :
    isPresent (leafEntry paddr flags) = true ∧
    frameOf (leafEntry paddr flags) = paddr / 4096 ∧
    rightsOf (leafEntry paddr flags) =
      { user := true
        writable := decide (flags &&& vmmMapWrite ≠ 0)
        noExecute := decide (flags &&& vmmMapExec = 0) } := by
  rw [leafEntry_eq hp]
  unfold isPresent frameOf rightsOf leafFlags
  simp only [testBit_eq, Rights.mk.injEq, decide_eq_true_eq, decide_eq_decide]
  split_ifs <;> simp_all <;> omega

/-- The frame of a leaf entry, for every physical address. -/
theorem leafEntry_frame
    (flags : Nat) (hp : paddr < 2 ^ 64) :
    isPresent (leafEntry paddr flags) = true ∧
    frameOf (leafEntry paddr flags) = paddr / 4096 % 2 ^ 40 := by
  have hflags : ∃ f, leafEntry paddr flags = paddr / 2 ^ 12 * 2 ^ 12 ||| f ∧
      f.testBit 0 = true ∧ f >>> 12 % 2 ^ 40 = 0 := by
    unfold leafEntry tableAddrMask
    dsimp only
    rw [land_highMask hp (by decide)]
    split_ifs
    all_goals exact ⟨_, rfl, by decide, by decide⟩
  obtain ⟨f, hentry, hpresent, hnone⟩ := hflags
  constructor
  · unfold isPresent
    rw [hentry, Nat.testBit_or, hpresent, Bool.or_true]
  · unfold frameOf
    rw [hentry, ← Nat.shiftRight_eq_div_pow, Nat.shiftRight_or_distrib,
      Nat.or_mod_two_pow, hnone, Nat.or_zero, Nat.shiftRight_eq_div_pow]
    omega

end Values

end Vmm
end RebornOS
