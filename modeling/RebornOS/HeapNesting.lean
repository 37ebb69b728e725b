import RebornOS.HeapCallSequences
import Mathlib.Data.List.Chain

/-!
# Nested use of the heap

`kfree` merges a block only with the one after it, so releasing blocks does not
in general bring the old block list back.  It does when every block is released
before the ones allocated earlier, as the self-test in `kmain.c` does for two
blocks: an allocation that has split its block is undone by merging with the
remainder, and one that has not is followed by a block in use, because no two
neighbours are free (`Separated`).

`Nested` is the syntax of the properly nested sequences, and the proof follows
it: `kmalloc` keeps the neighbours apart, what is nested inside leaves the list
that `kmalloc` has left, and `kfree` then undoes `kmalloc`.
-/

namespace RebornOS
namespace Heap

open ByteStore

variable {xs : List Block}

/-- No two neighbouring blocks are both free. -/
def Separated (xs : List Block) : Prop :=
  xs.IsChain (fun x y => ¬ (x.free = true ∧ y.free = true))

/--
A properly nested sequence of calls: nothing, or a `kmalloc` of `size`, a nested
sequence, the `kfree` of what that `kmalloc` has returned, and another one.
-/
inductive Nested where
  | done
  | pair (size : Nat) (inside rest : Nested)

/-- The heap after the sequence; a failed `kmalloc` is matched by `kfree(NULL)`. -/
def Nested.run : Nested → State → Option State
  | .done, h => some h
  | .pair size inside rest, h =>
      (kmalloc h size).bind (fun r =>
        (inside.run r.2).bind (fun h => rest.run (kfree h r.1)))

section Lists

variable {a e p size : Nat} {post pre ys : List Block} {x : Block}

/-- A block in use may stand anywhere. -/
theorem separated_used
    (hx : x.free = false) (hpre : Separated pre) (hpost : Separated post) :
    Separated (pre ++ x :: post) := by
  refine List.isChain_append.mpr ⟨hpre, List.isChain_cons.mpr ⟨?_, hpost⟩, ?_⟩
  · rintro y _ ⟨hfree, _⟩
    rw [hx] at hfree
    cases hfree
  · rintro y _ z hz ⟨_, hfree⟩
    obtain rfl : x = z := by simpa using hz
    rw [hx] at hfree
    cases hfree

theorem Separated.split
    (h : Separated (pre ++ x :: post)) :
    Separated pre ∧ Separated post ∧
      (x.free = true → ∀ y, y ∈ post.head? → y.free = false) := by
  obtain ⟨hpre, hrest, _⟩ := List.isChain_append.mp h
  obtain ⟨hhead, hpost⟩ := List.isChain_cons.mp hrest
  refine ⟨hpre, hpost, fun hx y hy => ?_⟩
  rw [← Bool.not_eq_true]
  exact fun hfree => hhead y hy ⟨hx, hfree⟩

/-- Splitting a free block leaves no two free neighbours. -/
theorem Separated.splitList
    (h : Separated (pre ++ x :: post)) (hx : x.free = true) :
    Separated (pre ++ (splitList x size ++ post)) := by
  obtain ⟨hpre, hpost, hnext⟩ := h.split
  unfold Heap.splitList
  split_ifs
  · exact separated_used rfl hpre hpost
  · refine separated_used rfl hpre (List.isChain_cons.mpr ⟨?_, hpost⟩)
    rintro y hy ⟨_, hfree⟩
    rw [hnext hx y hy] at hfree
    cases hfree

/-- A block that is followed by one in use, or by nothing, merges with nothing. -/
theorem mergeNext_of_used
    (h : ∀ y, y ∈ post.head? → y.free = false) : mergeNext x post = x :: post := by
  cases post with
  | nil =>
      rfl
  | cons y ys =>
      have hy : y.free = false := h y rfl
      rw [mergeNext, hy, if_neg Bool.false_ne_true]

/-- Releasing the block that has been split off brings the old block back. -/
theorem freeList_splitList
    (hpre : ∀ y, y ∈ pre → y.ptr ≠ x.ptr) (hfit : x.Fits size)
    (hnext : ∀ y, y ∈ post.head? → y.free = false) :
    freeList x.ptr (pre ++ (splitList x size ++ post)) = pre ++ x :: post := by
  obtain ⟨hfree, _⟩ := hfit
  have hx : { x with free := true } = x := by rw [← hfree]
  unfold splitList
  split_ifs with hsmall
  · rw [List.singleton_append, freeList_split (x := { x with free := false }) hpre rfl,
      mergeNext_of_used hnext]
    exact congrArg (fun z => pre ++ z :: post) hx
  · -- the sizes add up because the split has left a header and the remainder
    rw [List.cons_append, List.singleton_append,
      freeList_split (x := ⟨x.addr, size, false⟩) hpre rfl, mergeNext, if_pos rfl]
    have hsize : size + (headerSize + (x.size - size - headerSize)) = x.size := by
      unfold heapAlign at hsmall
      omega
    rw [hsize]
    exact congrArg (fun z => pre ++ z :: post) hx

/-- `kfree` undoes the `kmalloc` before it, and `kmalloc` keeps free blocks apart. -/
theorem Separated.freeList_allocList
    (hsep : Separated xs) (ht : Tiles a xs e)
    (h : allocList size xs = some (p, ys)) :
    Separated ys ∧ p ∈ livePtrs ys ∧ freeList p ys = xs := by
  have hlive : p ∈ livePtrs ys := by
    rw [(allocList_livePtrs h).mem_iff]
    exact List.mem_cons_self
  obtain ⟨pre, x, post, rfl, _, hfit, rfl, rfl⟩ := allocList_eq_some h
  refine ⟨hsep.splitList hfit.1, hlive, ?_⟩
  refine freeList_splitList ?_ hfit (hsep.split.2.2 hfit.1)
  intro y hy hyx
  have hlt := (List.pairwise_append.mp ht.pairwise).2.2 y hy x (by simp)
  unfold Block.finish at hlt
  unfold Block.ptr headerSize at hyx
  unfold headerSize at hlt
  omega

end Lists

section FreeBytes

/-- What `heap_free_bytes` adds for a block. -/
def addFree (total : Nat) (x : Block) : Nat :=
  if x.free then (total + x.size) % 2 ^ 64 else total

/-- The loop adds up the blocks of the list; the induction is on the blocks. -/
theorem sumFree_of_headers
    {m : Store} {a : Nat} (ht : Tiles a xs heapEnd) (hh : Headers m xs) (ha : 0 < a)
    (fuel total : Nat) :
    sumFree m (fuel + 1 + xs.length) (nextPtr a) total =
      some (xs.foldl addFree total) := by
  induction xs generalizing a total with
  | nil =>
      have hae : a = heapEnd := ht
      rw [hae, nextPtr, if_pos rfl]
      rfl
  | cons x xs ih =>
      obtain ⟨rfl, hrest⟩ := ht
      have hend := hrest.le
      have hlt : x.addr < heapEnd := by
        unfold Block.finish headerSize at hend
        omega
      obtain ⟨hsize, hfree, hnext⟩ := hh x (by simp)
      have htail :=
        ih hrest (fun y hy => hh y (List.mem_cons_of_mem _ hy))
          (by unfold Block.finish; omega)
      rw [nextPtr_of_lt hlt, List.length_cons, ← Nat.add_assoc, sumFree,
        if_neg (by omega), hfree, hsize, hnext, List.foldl_cons]
      unfold addFree
      cases x.free with
      | false => exact htail total
      | true => exact htail _

/-- `heap_free_bytes` returns, and depends on the block list only. -/
theorem Represents.heapFreeBytes
    {h : State} (hr : Represents h xs) :
    heapFreeBytes h = some (xs.foldl addFree 0) := by
  have hfuel := hr.length_lt_loopFuel
  have hsum :=
    sumFree_of_headers hr.tiles hr.headers (by decide)
      (loopFuel - xs.length - 1) 0
  rw [nextPtr_of_lt (by decide),
    show loopFuel - xs.length - 1 + 1 + xs.length = loopFuel by omega] at hsum
  rw [Heap.heapFreeBytes, hr.head, hsum]

end FreeBytes

/-- A nested sequence leaves the block list that it has found. -/
theorem Nested.run_represents
    (calls : Nested) {h : State} (hr : Represents h xs) (hsep : Separated xs) :
    ∃ h', calls.run h = some h' ∧ Represents h' xs := by
  induction calls generalizing h xs with
  | done =>
      exact ⟨h, rfl, hr⟩
  | pair size inside rest ihInside ihRest =>
      obtain ⟨p, h₁, ys, hk, hr₁, hcase⟩ := hr.kmalloc size
      -- whether the request was served or not, what follows leaves `ys` behind
      have hnest : Separated ys ∧
          ∀ h₂, Represents h₂ ys → Represents (kfree h₂ p) xs := by
        rcases hcase with ⟨rfl, rfl⟩ | ⟨_, halloc⟩
        · refine ⟨hsep, fun h₂ hr₂ => ?_⟩
          rw [kfree, if_pos rfl]
          exact hr₂
        · obtain ⟨hsep₁, hlive, hback⟩ := hsep.freeList_allocList hr.tiles halloc
          refine ⟨hsep₁, fun h₂ hr₂ => ?_⟩
          rw [← hback]
          exact hr₂.kfree hlive
      obtain ⟨h₂, hrun₂, hr₂⟩ := ihInside hr₁ hnest.1
      obtain ⟨h₃, hrun₃, hr₃⟩ := ihRest (hnest.2 h₂ hr₂) hsep
      refine ⟨h₃, ?_, hr₃⟩
      rw [Nested.run, hk, Option.bind_some, hrun₂, Option.bind_some, hrun₃]

/--
**Nested use leaves the heap as it was.**  From every heap whose blocks tile the
region without two free neighbours, every properly nested sequence of `kmalloc`
and `kfree` returns with the same list of blocks and the same number of free
bytes.
-/
theorem nested_calls_restore_blocks
    (h : State) (xs : List Block) (hr : Represents h xs) (hsep : Separated xs)
    (calls : Nested) :
    ∃ h', calls.run h = some h' ∧ Represents h' xs ∧
      heapFreeBytes h' = heapFreeBytes h := by
  obtain ⟨h', hrun, hr'⟩ := calls.run_represents hr hsep
  exact ⟨h', hrun, hr', by rw [hr'.heapFreeBytes, hr.heapFreeBytes]⟩

/-- The self-test of `kmain.c`, with a request that fails in between. -/
theorem nested_calls_restore_self_test :
    ∃ h',
      (Nested.pair 64 (.pair 128 .done (.pair (2 ^ 30) .done .done)) .done).run
          (heapInit (fun _ => 0)) = some h' ∧
        Represents h' [⟨heapBase, heapSize - headerSize, true⟩] ∧
        heapFreeBytes h' = heapFreeBytes (heapInit (fun _ => 0)) :=
  nested_calls_restore_blocks _ _ (represents_heapInit _)
    (List.isChain_singleton _) _

end Heap
end RebornOS
