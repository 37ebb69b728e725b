import RebornOS.Heap

/-!
# The heap as a list of blocks

The abstract model of the kernel heap: an ordered list of blocks that tiles an
address range, first-fit allocation with splitting, and release with forward
coalescing.  Nothing here mentions memory.  `HeapRefinement` proves that the
pointer-chasing code of `heap.c` computes exactly these list operations.
-/

namespace RebornOS
namespace Heap

variable {a e p size : Nat}

/-- One block: its header address, its usable size, and whether it is free. -/
structure Block where
  addr : Nat
  size : Nat
  free : Bool
deriving DecidableEq, Repr

variable {xs ys : List Block} {x : Block}

namespace Block

/-- The pointer handed out for a block. -/
def ptr (x : Block) : Nat := x.addr + headerSize

/-- First address after the block. -/
def finish (x : Block) : Nat := x.addr + headerSize + x.size

@[simp] theorem finish_mk (a size : Nat) (free : Bool) :
    (Block.mk a size free).finish = a + headerSize + size := by
  rfl

/-- A free block that is large enough. -/
def Fits (size : Nat) (x : Block) : Prop := x.free = true ∧ size ≤ x.size

instance (size : Nat) (x : Block) : Decidable (x.Fits size) :=
  inferInstanceAs (Decidable (_ ∧ _))

end Block

/-- The blocks tile the addresses `[a, e)` in order. -/
def Tiles : Nat → List Block → Nat → Prop
  | a, [], e => a = e
  | a, x :: xs, e => x.addr = a ∧ Tiles x.finish xs e

/-- A block turned into an allocated one of the requested size. -/
def splitList (x : Block) (size : Nat) : List Block :=
  if x.size < size + headerSize + heapAlign then
    [{ x with free := false }]
  else
    [⟨x.addr, size, false⟩,
      ⟨x.addr + headerSize + size, x.size - size - headerSize, true⟩]

/-- First-fit allocation. -/
def allocList (size : Nat) : List Block → Option (Nat × List Block)
  | [] => none
  | x :: xs =>
      if x.Fits size then
        some (x.ptr, splitList x size ++ xs)
      else
        (allocList size xs).map (fun r => (r.1, x :: r.2))

/-- Absorb the following block when it is free. -/
def mergeNext (x : Block) : List Block → List Block
  | [] => [x]
  | y :: ys =>
      if y.free then
        { x with size := x.size + (headerSize + y.size) } :: ys
      else
        x :: y :: ys

/-- Release the block whose pointer is `p`. -/
def freeList (p : Nat) : List Block → List Block
  | [] => []
  | x :: xs =>
      if x.ptr = p then
        mergeNext { x with free := true } xs
      else
        x :: freeList p xs

/-- The pointers of the allocated blocks, in address order. -/
def livePtrs (xs : List Block) : List Nat :=
  (xs.filter (fun x => !x.free)).map Block.ptr

section Tiling

theorem Tiles.le
    (h : Tiles a xs e) : a ≤ e := by
  induction xs generalizing a with
  | nil =>
      exact le_of_eq h
  | cons x xs ih =>
      obtain ⟨rfl, hrest⟩ := h
      have hle := ih hrest
      unfold Block.finish at hle
      omega

/-- A tiling of a concatenation meets at a middle address. -/
theorem tiles_append : Tiles a (xs ++ ys) e ↔ ∃ c, Tiles a xs c ∧ Tiles c ys e := by
  induction xs generalizing a with
  | nil =>
      simp [Tiles]
  | cons x xs ih =>
      simp only [List.cons_append, Tiles, ih]
      constructor
      · rintro ⟨ha, c, hxs, hys⟩
        exact ⟨c, ⟨ha, hxs⟩, hys⟩
      · rintro ⟨c, ⟨ha, hxs⟩, hys⟩
        exact ⟨ha, c, hxs, hys⟩

/-- Every block of a tiling lies inside the tiled range. -/
theorem Tiles.mem_bounds
    (h : Tiles a xs e) (hx : x ∈ xs) : a ≤ x.addr ∧ x.finish ≤ e := by
  obtain ⟨pre, post, rfl⟩ := List.append_of_mem hx
  obtain ⟨c, hpre, rfl, hpost⟩ := tiles_append.mp h
  exact ⟨hpre.le, hpost.le⟩

/-- Blocks of a tiling come in address order and do not overlap. -/
theorem Tiles.pairwise
    (h : Tiles a xs e) : xs.Pairwise (fun x y => x.finish ≤ y.addr) := by
  induction xs generalizing a with
  | nil =>
      exact List.Pairwise.nil
  | cons x xs ih =>
      obtain ⟨_, hrest⟩ := h
      refine List.Pairwise.cons ?_ (ih hrest)
      intro y hy
      exact (hrest.mem_bounds hy).1

/-- Splitting a block tiles the same range. -/
theorem tiles_splitList
    (x : Block) (size : Nat) : Tiles x.addr (splitList x size) x.finish := by
  unfold splitList
  split_ifs with hsmall
  · exact ⟨rfl, rfl⟩
  · refine ⟨rfl, rfl, ?_⟩
    simp only [Tiles, Block.finish, headerSize, heapAlign] at hsmall ⊢
    omega

/-- Merging keeps the tiled range. -/
theorem tiles_mergeNext
    (h : Tiles x.finish xs e) : Tiles x.addr (mergeNext x xs) e := by
  cases xs with
  | nil =>
      exact ⟨rfl, h⟩
  | cons y ys =>
      obtain ⟨hy, hrest⟩ := h
      simp only [mergeNext]
      split_ifs with hfree
      · refine ⟨rfl, ?_⟩
        have hend :
            Block.finish { x with size := x.size + (headerSize + y.size) } =
              y.finish := by
          simp only [Block.finish] at hy ⊢
          omega
        rw [hend]
        exact hrest
      · exact ⟨rfl, hy, hrest⟩

end Tiling

section FirstFit

/-- A failed search: no block fits. -/
theorem allocList_eq_none_iff :
    allocList size xs = none ↔ ∀ x, x ∈ xs → ¬ x.Fits size := by
  induction xs with
  | nil =>
      simp [allocList]
  | cons x xs ih =>
      by_cases hfit : x.Fits size
      · simp [allocList, hfit]
      · simp [allocList, hfit, ih]

/-- A successful search splits the list at the first block that fits. -/
theorem allocList_eq_some
    (h : allocList size xs = some (p, ys)) :
    ∃ pre x post,
      xs = pre ++ x :: post ∧
      (∀ y, y ∈ pre → ¬ y.Fits size) ∧
      x.Fits size ∧
      p = x.ptr ∧
      ys = pre ++ (splitList x size ++ post) := by
  induction xs generalizing ys with
  | nil =>
      simp [allocList] at h
  | cons x xs ih =>
      by_cases hfit : x.Fits size
      · simp only [allocList, hfit, if_true, Option.some.injEq, Prod.mk.injEq] at h
        obtain ⟨rfl, rfl⟩ := h
        exact ⟨[], x, xs, rfl, by simp, hfit, rfl, rfl⟩
      · simp only [allocList, hfit, if_false, Option.map_eq_some_iff] at h
        obtain ⟨⟨p', ys'⟩, hrec, heq⟩ := h
        simp only [Prod.mk.injEq] at heq
        obtain ⟨rfl, rfl⟩ := heq
        obtain ⟨pre, z, post, rfl, hpre, hz, hp, rfl⟩ := ih hrec
        refine ⟨x :: pre, z, post, rfl, ?_, hz, hp, rfl⟩
        intro y hy
        rcases List.mem_cons.mp hy with rfl | hy
        · exact hfit
        · exact hpre y hy

/-- Releasing the first block with pointer `p`. -/
theorem freeList_split
    {pre post : List Block} (hpre : ∀ y, y ∈ pre → y.ptr ≠ p) (hx : x.ptr = p) :
    freeList p (pre ++ x :: post) =
      pre ++ mergeNext { x with free := true } post := by
  induction pre with
  | nil =>
      simp [freeList, hx]
  | cons y pre ih =>
      have hy : y.ptr ≠ p := hpre y (by simp)
      have hrest := ih (fun z hz => hpre z (List.mem_cons_of_mem _ hz))
      simp [freeList, hy, hrest]

end FirstFit

section Live

theorem livePtrs_append
    (xs ys : List Block) : livePtrs (xs ++ ys) = livePtrs xs ++ livePtrs ys := by
  simp [livePtrs]

theorem livePtrs_cons_free
    (hx : x.free = true) (xs : List Block) : livePtrs (x :: xs) = livePtrs xs := by
  simp [livePtrs, hx]

theorem livePtrs_cons_used
    (hx : x.free = false) (xs : List Block) :
    livePtrs (x :: xs) = x.ptr :: livePtrs xs := by
  simp [livePtrs, hx]

/-- Splitting turns one free block into one live pointer. -/
theorem livePtrs_splitList
    (x : Block) (size : Nat) : livePtrs (splitList x size) = [x.ptr] := by
  unfold splitList
  split_ifs
  · rfl
  · rfl

/-- A released block contributes no live pointer, merged or not. -/
theorem livePtrs_mergeNext
    (hx : x.free = true) (xs : List Block) :
    livePtrs (mergeNext x xs) = livePtrs xs := by
  cases xs with
  | nil =>
      exact livePtrs_cons_free hx []
  | cons y ys =>
      simp only [mergeNext]
      split_ifs with hy
      · have hmerged :=
          livePtrs_cons_free
            (x := { x with size := x.size + (headerSize + y.size) }) hx ys
        rw [hmerged, livePtrs_cons_free hy]
      · rw [livePtrs_cons_free hx]

/-- Membership in the live pointers. -/
theorem mem_livePtrs : p ∈ livePtrs xs ↔ ∃ x, x ∈ xs ∧ x.free = false ∧ x.ptr = p := by
  simp [livePtrs, and_assoc]

/-- Distinct allocated blocks have distinct pointers. -/
theorem Tiles.livePtrs_nodup
    (h : Tiles a xs e) : (livePtrs xs).Nodup := by
  have hord : (xs.filter (fun x => !x.free)).Pairwise
      (fun x y => x.finish ≤ y.addr) :=
    h.pairwise.filter _
  refine List.Pairwise.map Block.ptr ?_ hord
  intro x y hxy heq
  simp only [Block.finish, Block.ptr, headerSize] at hxy heq
  omega

/-- Allocation adds exactly the returned pointer. -/
theorem allocList_livePtrs
    (h : allocList size xs = some (p, ys)) : (livePtrs ys).Perm (p :: livePtrs xs) := by
  obtain ⟨pre, x, post, rfl, _, hfit, rfl, rfl⟩ := allocList_eq_some h
  rw [livePtrs_append, livePtrs_append, livePtrs_splitList, livePtrs_append,
    livePtrs_cons_free hfit.1]
  exact List.perm_middle

/-- Allocation keeps the tiled range. -/
theorem Tiles.allocList
    (ht : Tiles a xs e) (h : allocList size xs = some (p, ys)) : Tiles a ys e := by
  obtain ⟨pre, x, post, rfl, _, hfit, rfl, rfl⟩ := allocList_eq_some h
  obtain ⟨c, hpre, rfl, hpost⟩ := tiles_append.mp ht
  exact tiles_append.mpr
    ⟨_, hpre, tiles_append.mpr ⟨_, tiles_splitList x size, hpost⟩⟩

/-- Allocation keeps every allocated block. -/
theorem mem_allocList_of_used
    (h : allocList size xs = some (p, ys)) (hx : x ∈ xs) (hused : x.free = false) :
    x ∈ ys := by
  obtain ⟨pre, y, post, rfl, _, hfit, rfl, rfl⟩ := allocList_eq_some h
  have hne : x ≠ y := by
    rintro rfl
    rw [hfit.1] at hused
    cases hused
  rcases List.mem_append.mp hx with hpre | hrest
  · exact List.mem_append_left _ hpre
  · have hpost := (List.mem_cons.mp hrest).resolve_left hne
    exact List.mem_append_right _ (List.mem_append_right _ hpost)

/-- The returned pointer is that of an allocated block of sufficient size. -/
theorem exists_mem_allocList
    (h : allocList size xs = some (p, ys)) :
    ∃ x, x ∈ ys ∧ x.ptr = p ∧ x.free = false ∧ size ≤ x.size := by
  obtain ⟨pre, y, post, rfl, _, hfit, rfl, rfl⟩ := allocList_eq_some h
  have hnew : ∃ x, x ∈ splitList y size ∧
      x.ptr = y.ptr ∧ x.free = false ∧ size ≤ x.size := by
    unfold splitList
    split_ifs
    · exact ⟨_, List.mem_singleton_self _, rfl, rfl, hfit.2⟩
    · exact ⟨_, List.mem_cons_self, rfl, rfl, le_refl size⟩
  obtain ⟨x, hx, hspec⟩ := hnew
  exact ⟨x, List.mem_append_right _ (List.mem_append_left _ hx), hspec⟩

/-- Release keeps every other allocated block. -/
theorem mem_freeList_of_used
    (hx : x ∈ xs) (hused : x.free = false) (hne : x.ptr ≠ p) : x ∈ freeList p xs := by
  induction xs with
  | nil =>
      cases hx
  | cons y ys ih =>
      rw [freeList]
      split_ifs with hy
      · -- `y` is the released block; only a free neighbour is absorbed
        have htail : x ∈ ys := by
          refine (List.mem_cons.mp hx).resolve_left ?_
          rintro rfl
          exact hne hy
        cases ys with
        | nil =>
            cases htail
        | cons z zs =>
            rw [mergeNext]
            split_ifs with hz
            · refine List.mem_cons_of_mem _
                ((List.mem_cons.mp htail).resolve_left ?_)
              rintro rfl
              rw [hused] at hz
              cases hz
            · exact List.mem_cons_of_mem _ htail
      · rcases List.mem_cons.mp hx with rfl | hx
        · exact List.mem_cons_self
        · exact List.mem_cons_of_mem _ (ih hx)

/-- A live pointer splits the tiling at its block. -/
theorem Tiles.exists_split_of_live
    (h : Tiles a xs e) (hp : p ∈ livePtrs xs) :
    ∃ pre x post,
      xs = pre ++ x :: post ∧
      x.free = false ∧
      x.ptr = p ∧
      (∀ y, y ∈ pre → y.ptr ≠ p) := by
  obtain ⟨x, hx, hused, hptr⟩ := mem_livePtrs.mp hp
  obtain ⟨pre, post, rfl⟩ := List.append_of_mem hx
  refine ⟨pre, x, post, rfl, hused, hptr, ?_⟩
  intro y hy hyp
  have hlt := (List.pairwise_append.mp h.pairwise).2.2 y hy x (by simp)
  simp only [Block.finish, Block.ptr, headerSize] at hlt hyp hptr
  omega

/-- Release removes exactly the given pointer. -/
theorem Tiles.freeList_livePtrs
    (h : Tiles a xs e) (hp : p ∈ livePtrs xs) :
    (livePtrs xs).Perm (p :: livePtrs (freeList p xs)) := by
  obtain ⟨pre, x, post, rfl, hused, hptr, hpre⟩ := h.exists_split_of_live hp
  rw [freeList_split hpre hptr, livePtrs_append, livePtrs_append,
    livePtrs_mergeNext rfl, livePtrs_cons_used hused, hptr]
  exact List.perm_middle

/-- Release keeps the tiled range. -/
theorem Tiles.freeList
    (h : Tiles a xs e) (hp : p ∈ livePtrs xs) : Tiles a (freeList p xs) e := by
  obtain ⟨pre, x, post, rfl, _, hptr, hpre⟩ := h.exists_split_of_live hp
  rw [freeList_split hpre hptr]
  obtain ⟨c, hc, rfl, hpost⟩ := tiles_append.mp h
  have hmerge : Tiles x.addr (mergeNext { x with free := true } post) e :=
    tiles_mergeNext (x := { x with free := true }) hpost
  exact tiles_append.mpr ⟨_, hc, hmerge⟩

end Live

end Heap
end RebornOS
