import RebornOS.ByteStore

/-!
# The x86-64 page walk

This module is independent of the kernel.  It states what the processor does
with a four-level page table (4 KiB, 2 MiB and 1 GiB leaves, `EFER.NXE` set):
the translation of a linear address, and the access rights that result from
the entries along the walk.  User and Writable must be set at every level;
execution is disabled as soon as one level disables it.
-/

namespace RebornOS
namespace PageWalk

open ByteStore

/-- Access rights of an entry, or of a walk. -/
structure Rights where
  user : Bool
  writable : Bool
  noExecute : Bool
  deriving DecidableEq, Repr

/-- Rights that remain after passing two levels. -/
def Rights.meet (a b : Rights) : Rights :=
  { user := a.user && b.user
    writable := a.writable && b.writable
    noExecute := a.noExecute || b.noExecute }

/-- The result of a successful walk. -/
structure Translation where
  phys : Nat
  rights : Rights
  deriving DecidableEq, Repr

/-- Bit 0. -/
def isPresent (e : Nat) : Bool := e.testBit 0

/-- Bit 7, the page-size bit of directory levels. -/
def isLarge (e : Nat) : Bool := e.testBit 7

/-- Bits 2, 1 and 63. -/
def rightsOf (e : Nat) : Rights :=
  { user := e.testBit 2
    writable := e.testBit 1
    noExecute := e.testBit 63 }

/-- Bits 51 to 12. -/
def frameOf (e : Nat) : Nat := e / 2 ^ 12 % 2 ^ 40

/-- Linear addresses whose upper bits are copies of bit 47. -/
def Canonical (v : Nat) : Prop :=
  v < 2 ^ 47 ∨ (2 ^ 64 - 2 ^ 47 ≤ v ∧ v < 2 ^ 64)

instance (v : Nat) : Decidable (Canonical v) :=
  inferInstanceAs (Decidable (_ ∨ _))

/-- The four table indices and the entry they select. -/
def index (v shift : Nat) : Fin 512 :=
  ⟨v / 2 ^ shift % 512, Nat.mod_lt _ (by decide)⟩

/-- A table has an entry 0. -/
instance neZeroEntries : NeZero 512 := ⟨by decide⟩

/-- Entry `i` of the table in page frame `n`. -/
def entries (m : Store) (n : Nat) (i : Fin 512) : Nat :=
  readLE m (n * 4096 + 8 * i.val) 8

/-- A leaf that maps a page of `2 ^ k` bytes. -/
def leaf (k : Nat) (above : Rights) (e v : Nat) : Translation :=
  { phys := e / 2 ^ k % 2 ^ (52 - k) * 2 ^ k + v % 2 ^ k
    rights := above.meet (rightsOf e) }

/-- Translation of the linear address `v` under the root table `cr3`. -/
def translateAddr (m : Store) (cr3 v : Nat) : Option Translation :=
  if ¬ Canonical v then
    none
  else
    let e4 := entries m (frameOf cr3) (index v 39)
    if isPresent e4 = false ∨ isLarge e4 = true then
      none
    else
      let e3 := entries m (frameOf e4) (index v 30)
      if isPresent e3 = false then
        none
      else if isLarge e3 then
        some (leaf 30 (rightsOf e4) e3 v)
      else
        let e2 := entries m (frameOf e3) (index v 21)
        let above := (rightsOf e4).meet (rightsOf e3)
        if isPresent e2 = false then
          none
        else if isLarge e2 then
          some (leaf 21 above e2 v)
        else
          let e1 := entries m (frameOf e2) (index v 12)
          if isPresent e1 = false then
            none
          else
            some (leaf 12 (above.meet (rightsOf e2)) e1 v)

/-- Page frame `n` holds a table of the walk from `cr3`. -/
inductive TableFrame (m : Store) (cr3 : Nat) : Nat → Nat → Prop
  | root : TableFrame m cr3 4 (frameOf cr3)
  | next {level n : Nat} (i : Fin 512)
      (h : TableFrame m cr3 (level + 1) n)
      (hlevel : 0 < level)
      (hpresent : isPresent (entries m n i) = true)
      (hlarge : isLarge (entries m n i) = false) :
      TableFrame m cr3 level (frameOf (entries m n i))

/-- Addresses of one page have the same table indices. -/
theorem index_eq_of_page_eq
    {v w k : Nat} (hpage : v / 4096 = w / 4096) (hk : 12 ≤ k) :
    index v k = index w k := by
  obtain ⟨j, rfl⟩ := Nat.exists_eq_add_of_le hk
  simp only [index, Fin.mk.injEq]
  rw [Nat.pow_add, ← Nat.div_div_eq_div_mul, ← Nat.div_div_eq_div_mul,
    show (2 : Nat) ^ 12 = 4096 from rfl, hpage]

/-- Canonical addresses with the same four indices lie in the same page. -/
theorem page_eq_of_index_eq
    {v w : Nat} (hv : Canonical v) (hw : Canonical w)
    (h4 : index v 39 = index w 39) (h3 : index v 30 = index w 30)
    (h2 : index v 21 = index w 21) (h1 : index v 12 = index w 12) :
    v / 4096 = w / 4096 := by
  simp only [index, Fin.mk.injEq] at h4 h3 h2 h1
  unfold Canonical at hv hw
  omega

end PageWalk
end RebornOS
