import RebornOS.HeapBlocks
import RebornOS.LabeledRun

/-!
# `heap.c` refines the block list

`Represents h xs` relates memory to the abstract block list: the list tiles the
heap region and every block's header in memory holds its size, its free flag
and, in `next`, its own end address (`NULL` for the last block).

`kmalloc` and `kfree` are proved to compute `allocList` and `freeList` on the
represented list.  The main result then follows every sequence of calls from
`heap_init`.
-/

namespace RebornOS
namespace Heap

open ByteStore WordBits LabeledRun

variable {m : Store} {x : Block} {a e next size : Nat} {xs : List Block} {h : State}

/-- What the `next` field of a block ending at `e` holds. -/
def nextPtr (e : Nat) : Nat := if e = heapEnd then 0 else e

/-- The header fields of `x` in memory. -/
def HeaderIs (m : Store) (x : Block) (next : Nat) : Prop :=
  blockSize m x.addr = x.size ∧
  blockFree m x.addr = (if x.free then 1 else 0) ∧
  blockNext m x.addr = next

/-- Every block of the list has its header in memory. -/
def Headers (m : Store) (xs : List Block) : Prop :=
  ∀ x, x ∈ xs → HeaderIs m x (nextPtr x.finish)

/-- Memory holds exactly the block list `xs`. -/
structure Represents (h : State) (xs : List Block) : Prop where
  head : h.heapHead = heapBase
  tiles : Tiles heapBase xs heapEnd
  headers : Headers h.mem xs

section Headers

/-- A header depends only on its own 24 bytes. -/
theorem HeaderIs.congr
    {m' : Store} (h : HeaderIs m x next)
    (hagree : AgreeOn m m' x.addr (x.addr + headerSize)) : HeaderIs m' x next := by
  obtain ⟨hsize, hfree, hnext⟩ := h
  unfold headerSize at hagree
  refine ⟨?_, ?_, ?_⟩
  · rw [← hsize]
    exact readLE_congr (hagree.mono (by omega) (by omega))
  · rw [← hfree]
    exact readLE_congr (hagree.mono (by omega) (by omega))
  · rw [← hnext]
    exact readLE_congr (hagree.mono (by omega) (by omega))

theorem headers_append
    {ys : List Block} : Headers m (xs ++ ys) ↔ Headers m xs ∧ Headers m ys := by
  unfold Headers
  constructor
  · intro h
    exact
      ⟨fun x hx => h x (List.mem_append_left _ hx),
        fun x hx => h x (List.mem_append_right _ hx)⟩
  · rintro ⟨h₁, h₂⟩ x hx
    rcases List.mem_append.mp hx with hx | hx
    · exact h₁ x hx
    · exact h₂ x hx

/-- Headers inside a range survive when the range is untouched. -/
theorem Headers.congr
    {m' : Store} (h : Headers m xs) (ht : Tiles a xs e) (hagree : AgreeOn m m' a e) :
    Headers m' xs := by
  intro x hx
  obtain ⟨hlo, hhi⟩ := ht.mem_bounds hx
  unfold Block.finish at hhi
  exact (h x hx).congr (hagree.mono hlo (by omega))

end Headers

section Bounds

theorem Tiles.length_le
    (h : Tiles a xs e) : a + xs.length * headerSize ≤ e := by
  induction xs generalizing a with
  | nil =>
      simp only [List.length_nil, Nat.zero_mul]
      exact h.le
  | cons x xs ih =>
      obtain ⟨rfl, hrest⟩ := h
      have hle := ih hrest
      simp only [Block.finish, headerSize, List.length_cons] at hle ⊢
      omega

/-- The walk over the whole list never runs out of fuel. -/
theorem Represents.length_lt_loopFuel
    (hr : Represents h xs) : xs.length < loopFuel := by
  have hle := hr.tiles.length_le
  unfold heapEnd at hle
  have hmul : xs.length * headerSize ≤ heapSize := by omega
  have hdiv : xs.length ≤ heapSize / headerSize :=
    (Nat.le_div_iff_mul_le (by decide)).mpr hmul
  unfold loopFuel
  omega

theorem nextPtr_of_lt
    (ha : a < heapEnd) : nextPtr a = a := by
  unfold nextPtr
  rw [if_neg (by omega)]

end Bounds

section Search

theorem findFit_skip
    (fuel : Nat) (hx : HeaderIs m x next) (haddr : 0 < x.addr) (hfit : ¬ x.Fits size) :
    findFit m size (fuel + 1) x.addr = findFit m size fuel next := by
  obtain ⟨hsize, hfree, hnext⟩ := hx
  have hno : ¬ (blockFree m x.addr ≠ 0 ∧ size ≤ blockSize m x.addr) := by
    rw [hfree, hsize]
    unfold Block.Fits at hfit
    cases hf : x.free <;> simp_all
  rw [findFit, if_neg (by omega), if_neg hno, hnext]

theorem findFit_hit
    {fuel : Nat} (hx : HeaderIs m x next) (haddr : 0 < x.addr) (hfit : x.Fits size) :
    findFit m size (fuel + 1) x.addr = some x.addr := by
  obtain ⟨hsize, hfree, _⟩ := hx
  have hyes : blockFree m x.addr ≠ 0 ∧ size ≤ blockSize m x.addr := by
    rw [hfree, hsize, hfit.1]
    exact ⟨by simp, hfit.2⟩
  rw [findFit, if_neg (by omega), if_pos hyes]

/--
Walking over blocks that do not fit.  The induction is on the skipped blocks;
each one costs a unit of fuel and moves to the address where the next begins.
-/
theorem findFit_skip_all
    (fuel : Nat) (ht : Tiles a xs e) (hh : Headers m xs) (ha : 0 < a) (he : e ≤ heapEnd)
    (hno : ∀ x, x ∈ xs → ¬ x.Fits size) :
    findFit m size (fuel + xs.length) (nextPtr a) =
      findFit m size fuel (nextPtr e) := by
  induction xs generalizing a with
  | nil =>
      have hae : a = e := ht
      rw [hae, List.length_nil, Nat.add_zero]
  | cons x xs ih =>
      obtain ⟨rfl, hrest⟩ := ht
      have hend := hrest.le
      have hlt : x.addr < heapEnd := by
        simp only [Block.finish, headerSize] at hend
        omega
      have hx := hh x (by simp)
      have hstep :=
        findFit_skip (fuel + xs.length) hx ha (hno x (by simp))
      have htail :=
        ih hrest (fun y hy => hh y (List.mem_cons_of_mem _ hy))
          (by unfold Block.finish; omega)
          (fun y hy => hno y (List.mem_cons_of_mem _ hy))
      rw [nextPtr_of_lt hlt, List.length_cons, ← Nat.add_assoc, hstep, htail]

end Search

section Kmalloc

/-- `splitBlock` inside the heap region, where its sums do not wrap. -/
theorem splitBlock_eq
    (hsize : blockSize m x.addr = x.size) (hbound : x.finish ≤ heapEnd)
    (hfit : size ≤ x.size) :
    splitBlock m x.addr size =
      if x.size < size + headerSize + heapAlign then
        m
      else
        let r := x.addr + headerSize + size
        let m₁ := setFree (setSize m r (x.size - size - headerSize)) r 1
        setNext (setSize (setNext m₁ r (blockNext m₁ x.addr)) x.addr size)
          x.addr r := by
  have hH : headerSize = 24 := rfl
  have hA : heapAlign = 16 := rfl
  have hE : heapEnd = 33554432 := rfl
  unfold Block.finish at hbound
  have hwrap : (size + headerSize + heapAlign) % 2 ^ 64 =
      size + headerSize + heapAlign :=
    Nat.mod_eq_of_lt (by omega)
  have hrem : (x.addr + headerSize + size) % 2 ^ 64 =
      x.addr + headerSize + size :=
    Nat.mod_eq_of_lt (by omega)
  unfold splitBlock
  simp only [hwrap, hrem, hsize]

/-- The bytes a successful `kmalloc` writes all lie inside the chosen block. -/
theorem splitBlock_setFree_agree
    (hsize : blockSize m x.addr = x.size) (hbound : x.finish ≤ heapEnd)
    (hfit : size ≤ x.size) (hsep : e ≤ x.addr ∨ x.finish ≤ a) :
    AgreeOn m (setFree (splitBlock m x.addr size) x.addr 0) a e := by
  have hH : headerSize = 24 := rfl
  have hA : heapAlign = 16 := rfl
  intro y hy hye
  rw [splitBlock_eq hsize hbound hfit]
  unfold Block.finish at hsep
  by_cases hsmall : x.size < size + headerSize + heapAlign
  · rw [if_pos hsmall]
    exact writeLE_outside (by omega)
  · rw [if_neg hsmall]
    simp only [setFree, setNext, setSize]
    repeat rw [writeLE_outside (by omega)]

/-- The headers a successful `kmalloc` leaves in the chosen block. -/
theorem headers_splitList
    (hx : HeaderIs m x (nextPtr x.finish)) (hbound : x.finish ≤ heapEnd)
    (hfit : size ≤ x.size) :
    Headers (setFree (splitBlock m x.addr size) x.addr 0)
      (splitList x size) := by
  obtain ⟨hsize, _, hnext⟩ := hx
  have hH : headerSize = 24 := rfl
  have hA : heapAlign = 16 := rfl
  have hE : heapEnd = 33554432 := rfl
  have hend : x.addr + headerSize + x.size ≤ heapEnd := hbound
  rw [splitBlock_eq hsize hbound hfit, splitList]
  by_cases hsmall : x.size < size + headerSize + heapAlign
  · rw [if_pos hsmall, if_pos hsmall]
    intro y hy
    rw [List.mem_singleton.mp hy]
    exact ⟨by simp [hsize], by simp, by simpa [Block.finish] using hnext⟩
  · rw [if_neg hsmall, if_neg hsmall]
    intro y hy
    simp only [List.mem_cons, List.not_mem_nil, or_false] at hy
    rcases hy with rfl | rfl
    · -- the allocated part: its `next` is the remainder
      have hmid : nextPtr (x.addr + headerSize + size) =
          x.addr + headerSize + size :=
        nextPtr_of_lt (by omega)
      refine ⟨?_, by simp, ?_⟩
      · simp only [blockSize_setFree_self, blockSize_setNext_self]
        exact blockSize_setSize (by omega)
      · simp only [blockNext_setFree_self, Block.finish_mk, hmid]
        exact blockNext_setNext (by omega)
    · -- the remainder: it inherits the old `next`
      have hlast :
          Block.finish
              ⟨x.addr + headerSize + size, x.size - size - headerSize, true⟩ =
            x.finish := by
        rw [Block.finish_mk, Block.finish]
        omega
      rw [hlast, ← hnext]
      simp only [blockSize, blockFree, blockNext, setSize, setFree, setNext, HeaderIs]
      refine ⟨?_, ?_, ?_⟩
      · repeat rw [readLE_writeLE_of_disjoint (by omega)]
        exact readLE_writeLE_of_lt (by omega)
      · repeat rw [readLE_writeLE_of_disjoint (by omega)]
        exact readLE_writeLE_of_lt (by simp)
      · rw [readLE_writeLE_of_disjoint (by omega),
          readLE_writeLE_of_disjoint (by omega), readLE_writeLE_of_disjoint (by omega),
          readLE_writeLE_of_lt (readLE_lt _ _ _)]
        repeat rw [readLE_writeLE_of_disjoint (by omega)]

/-- A request that no block can serve leaves the heap alone. -/
theorem Represents.kmalloc_of_none
    (hr : Represents h xs) (hsize : size ≠ 0)
    (hnone : allocList (roundUp size) xs = none) : kmalloc h size = some (0, h) := by
  have hskip :=
    findFit_skip_all (loopFuel - xs.length) hr.tiles hr.headers
      (by decide) (le_refl _) (allocList_eq_none_iff.mp hnone)
  have hfuel := hr.length_lt_loopFuel
  have hsplit : loopFuel - xs.length + xs.length = loopFuel := by omega
  have hone : loopFuel - xs.length = loopFuel - xs.length - 1 + 1 := by omega
  have hlast : findFit h.mem (roundUp size) (loopFuel - xs.length)
      (nextPtr heapEnd) = some 0 := by
    rw [hone, nextPtr, if_pos rfl, findFit, if_pos rfl]
  rw [hsplit, hlast, nextPtr_of_lt (by decide)] at hskip
  rw [kmalloc, if_neg hsize, hr.head, hskip]
  rfl

/-- A request that can be served computes `allocList` on the block list. -/
theorem Represents.kmalloc_of_some
    {ys : List Block} {p : Nat} (hr : Represents h xs) (hsize : size ≠ 0)
    (hsome : allocList (roundUp size) xs = some (p, ys)) :
    ∃ h', kmalloc h size = some (p, h') ∧ Represents h' ys := by
  have hfuel := hr.length_lt_loopFuel
  have htiles := hr.tiles.allocList hsome
  obtain ⟨pre, x, post, rfl, hno, hfit, rfl, rfl⟩ := allocList_eq_some hsome
  obtain ⟨c, hpre, rfl, hpost⟩ := tiles_append.mp hr.tiles
  obtain ⟨hheadPre, hheadX⟩ := headers_append.mp hr.headers
  have hx : HeaderIs h.mem x (nextPtr x.finish) := hheadX x (by simp)
  have hheadPost : Headers h.mem post :=
    fun y hy => hheadX y (List.mem_cons_of_mem _ hy)
  have hbase : heapBase ≤ x.addr := hpre.le
  have hpos : 0 < x.addr := lt_of_lt_of_le (by decide) hbase
  have hbound : x.finish ≤ heapEnd := hpost.le
  have hlt : x.addr < heapEnd := by
    unfold Block.finish at hbound
    have hH : headerSize = 24 := rfl
    omega
  -- the walk skips `pre` and stops at `x`
  have hfind : findFit h.mem (roundUp size) loopFuel heapBase = some x.addr := by
    have hskip :=
      findFit_skip_all (loopFuel - pre.length) hpre hheadPre
        (by decide) (le_of_lt hlt) hno
    simp only [List.length_append, List.length_cons] at hfuel
    have hsplit : loopFuel - pre.length + pre.length = loopFuel := by omega
    have hone : loopFuel - pre.length = loopFuel - pre.length - 1 + 1 := by omega
    rw [hsplit, nextPtr_of_lt (by decide), nextPtr_of_lt hlt, hone,
      findFit_hit hx hpos hfit] at hskip
    exact hskip
  refine
    ⟨{ h with mem := setFree (splitBlock h.mem x.addr (roundUp size)) x.addr 0 },
      ?_, ⟨hr.head, htiles, ?_⟩⟩
  · rw [kmalloc, if_neg hsize, hr.head, hfind, Option.map_some,
      if_neg (by omega), Block.ptr]
  · refine headers_append.mpr ⟨?_, headers_append.mpr ⟨?_, ?_⟩⟩
    · exact hheadPre.congr hpre
        (splitBlock_setFree_agree hx.1 hbound hfit.2 (Or.inl (le_refl _)))
    · exact headers_splitList hx hbound hfit.2
    · exact hheadPost.congr hpost
        (splitBlock_setFree_agree hx.1 hbound hfit.2 (Or.inr (le_refl _)))

end Kmalloc

section Kfree

/-- `kfree` writes only inside the header of the released block. -/
theorem kfree_agree
    (hsep : e ≤ x.addr ∨ x.addr + headerSize ≤ a) :
    AgreeOn h.mem (kfree h x.ptr).mem a e := by
  have hH : headerSize = 24 := rfl
  intro y hy hye
  unfold kfree Block.ptr
  rw [if_neg (by omega), Nat.add_sub_cancel]
  simp only
  split_ifs with hmerge
  · simp only [setFree, setNext, setSize]
    repeat rw [writeLE_outside (by omega)]
  · exact writeLE_outside (by omega)

theorem HeaderIs.setFree
    (h : HeaderIs m x (nextPtr x.finish)) :
    HeaderIs (setFree m x.addr 1) { x with free := true } (nextPtr x.finish) := by
  obtain ⟨hsize, _, hnext⟩ := h
  exact ⟨by simp [hsize], by simp, by simpa using hnext⟩

/-- Without a free block behind the released one, only its flag changes. -/
theorem kfree_mem_of_used
    (hused : blockNext (setFree h.mem x.addr 1) x.addr = 0 ∨
      blockFree (setFree h.mem x.addr 1)
        (blockNext (setFree h.mem x.addr 1) x.addr) = 0) :
    (kfree h x.ptr).mem = setFree h.mem x.addr 1 := by
  have hH : headerSize = 24 := rfl
  unfold kfree Block.ptr
  rw [if_neg (by omega), Nat.add_sub_cancel]
  dsimp only
  rw [if_neg (fun hmerge => hused.elim hmerge.1 hmerge.2)]

/-- With one, the two headers become one. -/
theorem kfree_mem_of_free
    {y : Block} (hsize : blockSize h.mem x.addr = x.size)
    (hnext : blockNext h.mem x.addr = y.addr) (hfree : y.free = true)
    (hy : HeaderIs (setFree h.mem x.addr 1) y (nextPtr y.finish))
    (hapart : x.addr + headerSize ≤ y.addr)
    (hgrown : x.size + (headerSize + y.size) < 2 ^ 64) :
    (kfree h x.ptr).mem =
      setNext
        (setSize (setFree h.mem x.addr 1) x.addr (x.size + (headerSize + y.size)))
        x.addr (nextPtr y.finish) := by
  have hH : headerSize = 24 := rfl
  obtain ⟨hysize, hyfree, hynext⟩ := hy
  have hmerge : y.addr ≠ 0 ∧ blockFree (setFree h.mem x.addr 1) y.addr ≠ 0 := by
    rw [hyfree, hfree]
    exact ⟨by omega, by simp⟩
  have hsame : ∀ v,
      blockNext (setSize (setFree h.mem x.addr 1) x.addr v) y.addr =
        nextPtr y.finish := by
    intro v
    rw [← hynext]
    exact readLE_writeLE_of_disjoint (by omega)
  unfold kfree Block.ptr
  rw [if_neg (by omega), Nat.add_sub_cancel]
  simp only [blockNext_setFree_self, hnext, hmerge, ne_eq, not_false_eq_true, and_self,
    if_true, blockNext_setSize_self, hsame, blockSize_setFree_self, hsize, hysize,
    Nat.mod_eq_of_lt hgrown]

/-- The headers `kfree` leaves from the released block on. -/
theorem headers_mergeNext
    {post : List Block} (hx : HeaderIs h.mem x (nextPtr x.finish))
    (hpost : Tiles x.finish post heapEnd) (hhead : Headers h.mem post) :
    Headers (kfree h x.ptr).mem (mergeNext { x with free := true } post) := by
  have hH : headerSize = 24 := rfl
  have hE : heapEnd = 33554432 := rfl
  have hbound := hpost.le
  have hfinish : x.finish = x.addr + headerSize + x.size := rfl
  have hrest : Headers (kfree h x.ptr).mem post :=
    hhead.congr hpost (kfree_agree (Or.inr (by omega)))
  cases post with
  | nil =>
      have hlast : x.finish = heapEnd := hpost
      have hnull : blockNext (setFree h.mem x.addr 1) x.addr = 0 := by
        rw [blockNext_setFree_self, hx.2.2, hlast, nextPtr, if_pos rfl]
      intro y hy
      rw [kfree_mem_of_used (Or.inl hnull), List.mem_singleton.mp hy]
      exact hx.setFree
  | cons y ys =>
      obtain ⟨hyaddr, hys⟩ := hpost
      have hyend := hys.le
      have hyfinish : y.finish = y.addr + headerSize + y.size := rfl
      have hnext : blockNext h.mem x.addr = y.addr := by
        rw [hx.2.2, ← hyaddr, nextPtr_of_lt (by omega)]
      have hy : HeaderIs (setFree h.mem x.addr 1) y (nextPtr y.finish) :=
        (hhead y (by simp)).congr (agreeOn_writeLE (by omega))
      cases hfree : y.free with
      | false =>
          have hused : blockFree (setFree h.mem x.addr 1)
              (blockNext (setFree h.mem x.addr 1) x.addr) = 0 := by
            rw [blockNext_setFree_self, hnext, hy.2.1, hfree]
            rfl
          have hmerge : mergeNext { x with free := true } (y :: ys) =
              { x with free := true } :: y :: ys := by
            simp [mergeNext, hfree]
          rw [hmerge]
          intro z hz
          rcases List.mem_cons.mp hz with rfl | hz
          · rw [kfree_mem_of_used (Or.inr hused)]
            exact hx.setFree
          · exact hrest z hz
      | true =>
          have hmerge : mergeNext { x with free := true } (y :: ys) =
              { x with size := x.size + (headerSize + y.size), free := true } ::
                ys := by
            simp [mergeNext, hfree]
          have hlast :
              Block.finish
                  { x with
                    size := x.size + (headerSize + y.size), free := true } =
                y.finish := by
            rw [Block.finish_mk]
            omega
          have hnextlt : nextPtr y.finish < 2 ^ 64 := by
            unfold nextPtr
            split_ifs <;> omega
          rw [hmerge]
          intro z hz
          rcases List.mem_cons.mp hz with rfl | hz
          · rw [kfree_mem_of_free hx.1 hnext hfree hy (by omega) (by omega), hlast]
            refine ⟨?_, by simp, blockNext_setNext hnextlt⟩
            rw [blockSize_setNext_self]
            exact blockSize_setSize (by omega)
          · exact hrest z (List.mem_cons_of_mem _ hz)

/-- `kfree` of a live pointer computes `freeList` on the block list. -/
theorem Represents.kfree
    {p : Nat} (hr : Represents h xs) (hp : p ∈ livePtrs xs) :
    Represents (kfree h p) (freeList p xs) := by
  have htiles := hr.tiles.freeList hp
  obtain ⟨pre, x, post, rfl, _, rfl, hpre⟩ := hr.tiles.exists_split_of_live hp
  obtain ⟨c, hc, rfl, hpost⟩ := tiles_append.mp hr.tiles
  obtain ⟨hheadPre, hheadX⟩ := headers_append.mp hr.headers
  have hhead : (Heap.kfree h x.ptr).heapHead = heapBase := by
    rw [← hr.head]
    unfold Heap.kfree
    simp only
    split_ifs <;> rfl
  refine ⟨hhead, htiles, ?_⟩
  rw [freeList_split hpre rfl]
  refine headers_append.mpr ⟨?_, ?_⟩
  · exact hheadPre.congr hc (kfree_agree (Or.inl (le_refl _)))
  · exact
      headers_mergeNext (hheadX x (by simp)) hpost
        (fun y hy => hheadX y (List.mem_cons_of_mem _ hy))

end Kfree

end Heap
end RebornOS
