import RebornOS.HeapRefinement
import Mathlib.Order.CompletePartialOrder

/-!
# Every sequence of heap calls

A client of the heap calls `kmalloc` with any size, calls `kfree` on pointers
it still holds, and stores bytes into the payloads it holds.  The state is
traced together with the list of live pointers: those returned by `kmalloc`
and not yet released.

The invariant is that memory represents some block list whose allocated blocks
are exactly the live pointers.  It holds after `heap_init` and every call
preserves it, so the header chain tiles the heap region in every reachable
state.
-/

namespace RebornOS
namespace Heap

open ByteStore WordBits LabeledRun

variable {h : State} {xs : List Block} {x : Block} {m : Store} {a : Nat}

/-- One call of a client. -/
inductive Call where
  | kmalloc (size : Nat)
  | kfree (ptr : Nat)
  | store (ptr offset : Nat) (byte : UInt8)
deriving DecidableEq

/-- The heap together with the pointers in use. -/
structure Traced where
  heap : State
  live : List Nat

/-- Effect of one call; a client only uses pointers it holds. -/
def call (s : Traced) : Call → Option Traced
  | .kmalloc size =>
      (kmalloc s.heap size).map (fun r =>
        ⟨r.2, if r.1 = 0 then s.live else r.1 :: s.live⟩)
  | .kfree p =>
      if p ∈ s.live then
        some ⟨kfree s.heap p, s.live.erase p⟩
      else
        none
  | .store p offset byte =>
      if p ∈ s.live ∧ offset < blockSize s.heap.mem (p - headerSize) then
        some
          { s with
            heap :=
              { s.heap with mem := fill s.heap.mem (p + offset) 1 byte } }
      else
        none

/-- The state right after `heap_init`. -/
def start (m : Store) : Traced := ⟨heapInit m, []⟩

/-- The trace invariant: the allocated blocks are the live pointers. -/
def TraceInv (s : Traced) : Prop :=
  ∃ xs, Represents s.heap xs ∧ s.live.Perm (livePtrs xs)

/-- `heap_init` leaves one free block. -/
theorem represents_heapInit
    (m : Store) :
    Represents (heapInit m) [⟨heapBase, heapSize - headerSize, true⟩] := by
  refine ⟨rfl, ⟨rfl, rfl⟩, ?_⟩
  intro x hx
  rw [List.mem_singleton.mp hx]
  refine ⟨?_, ?_, ?_⟩
  · simp only [heapInit, blockSize_setNext_self, blockSize_setFree_self]
    exact blockSize_setSize (by decide)
  · simp [heapInit]
  · simp only [heapInit]
    exact blockNext_setNext (by decide)

theorem traceInv_start
    (m : Store) : TraceInv (start m) :=
  ⟨_, represents_heapInit m, List.Perm.refl _⟩

section Steps

variable {s t : Traced}

/--
`kmalloc` always returns: either `NULL` with the heap unchanged, or the pointer
that first fit finds.
-/
theorem Represents.kmalloc
    (hr : Represents h xs) (size : Nat) :
    ∃ p h' ys,
      Heap.kmalloc h size = some (p, h') ∧ Represents h' ys ∧
        ((p = 0 ∧ ys = xs) ∨
          (p ≠ 0 ∧ allocList (roundUp size) xs = some (p, ys))) := by
  by_cases hsize : size = 0
  · exact ⟨0, h, xs, by rw [Heap.kmalloc, if_pos hsize], hr, Or.inl ⟨rfl, rfl⟩⟩
  · cases halloc : allocList (roundUp size) xs with
    | none =>
        exact ⟨0, h, xs, hr.kmalloc_of_none hsize halloc, hr,
          Or.inl ⟨rfl, rfl⟩⟩
    | some r =>
        obtain ⟨p, ys⟩ := r
        obtain ⟨h', hk, hr'⟩ := hr.kmalloc_of_some hsize halloc
        have hpos : p ≠ 0 := by
          obtain ⟨_, x, _, _, _, _, rfl, _⟩ := allocList_eq_some halloc
          unfold Block.ptr headerSize
          omega
        exact ⟨p, h', ys, hk, hr', Or.inr ⟨hpos, rfl⟩⟩

/-- Bytes stored inside the payload of a block touch no header. -/
theorem Represents.store
    (hr : Represents h xs) (hx : x ∈ xs)
    (hsame : ∀ a, a < x.ptr ∨ x.finish ≤ a → m a = h.mem a) :
    Represents { h with mem := m } xs := by
  obtain ⟨pre, post, rfl⟩ := List.append_of_mem hx
  have hH : headerSize = 24 := rfl
  obtain ⟨c, hc, rfl, hpost⟩ := tiles_append.mp hr.tiles
  obtain ⟨hheadPre, hheadX⟩ := headers_append.mp hr.headers
  have hbefore : ∀ a e, e ≤ x.ptr → AgreeOn h.mem m a e := by
    intro a e he y _ hye
    exact hsame y (Or.inl (by omega))
  have hafter : ∀ a e, x.finish ≤ a → AgreeOn h.mem m a e := by
    intro a e ha y hay _
    exact hsame y (Or.inr (by omega))
  refine ⟨hr.head, hr.tiles, headers_append.mpr ⟨?_, ?_⟩⟩
  · exact hheadPre.congr hc (hbefore _ _ (by unfold Block.ptr; omega))
  · intro y hy
    rcases List.mem_cons.mp hy with rfl | hy
    · exact (hheadX y (by simp)).congr (hbefore _ _ (le_refl _))
    · have hpostHeaders : Headers h.mem post :=
        fun z hz => hheadX z (List.mem_cons_of_mem _ hz)
      exact hpostHeaders.congr hpost (hafter _ _ (le_refl _)) y hy

/-- `kmalloc` always returns, and keeps the invariant. -/
theorem TraceInv.kmalloc
    (h : TraceInv s) (size : Nat) :
    ∃ p h', kmalloc s.heap size = some (p, h') ∧
      TraceInv ⟨h', if p = 0 then s.live else p :: s.live⟩ := by
  obtain ⟨xs, hr, hlive⟩ := h
  obtain ⟨p, h', ys, hk, hr', hcase⟩ := hr.kmalloc size
  refine ⟨p, h', hk, ys, hr', ?_⟩
  rcases hcase with ⟨rfl, rfl⟩ | ⟨hpos, halloc⟩
  · simpa using hlive
  · simp only [hpos, if_false]
    exact (hlive.cons p).trans (allocList_livePtrs halloc).symm

/-- Releasing a live pointer keeps the invariant. -/
theorem TraceInv.kfree
    {p : Nat}
    (h : TraceInv s) (hp : p ∈ s.live) : TraceInv ⟨kfree s.heap p, s.live.erase p⟩ := by
  obtain ⟨xs, hr, hlive⟩ := h
  have hmem : p ∈ livePtrs xs := hlive.mem_iff.mp hp
  refine ⟨freeList p xs, hr.kfree hmem, ?_⟩
  have hperm : (s.live).Perm (p :: livePtrs (freeList p xs)) :=
    hlive.trans (hr.tiles.freeList_livePtrs hmem)
  simpa using hperm.erase p

/-- A store into a live payload keeps the invariant. -/
theorem TraceInv.store
    {p offset : Nat} {byte : UInt8}
    (h : TraceInv s) (hp : p ∈ s.live)
    (hoff : offset < blockSize s.heap.mem (p - headerSize)) :
    TraceInv
      { s with
        heap := { s.heap with mem := fill s.heap.mem (p + offset) 1 byte } } := by
  obtain ⟨xs, hr, hlive⟩ := h
  obtain ⟨x, hx, _, rfl⟩ := mem_livePtrs.mp (hlive.mem_iff.mp hp)
  have hsize : offset < x.size := by
    unfold Block.ptr at hoff
    rwa [Nat.add_sub_cancel, (hr.headers x hx).1] at hoff
  refine ⟨xs, hr.store hx ?_, hlive⟩
  intro a ha
  refine fill_outside ?_
  unfold Block.finish at ha
  unfold Block.ptr at ha ⊢
  omega

/-- Every enabled call keeps the invariant. -/
theorem call_preserves
    {c : Call}
    (h : TraceInv s) (hc : call s c = some t) : TraceInv t := by
  cases c with
  | kmalloc size =>
      obtain ⟨p, h', hk, hinv⟩ := h.kmalloc size
      simp only [call, hk, Option.map_some, Option.some.injEq] at hc
      rwa [← hc]
  | kfree p =>
      simp only [call] at hc
      split_ifs at hc with hp
      simp only [Option.some.injEq] at hc
      rw [← hc]
      exact h.kfree hp
  | store p offset byte =>
      simp only [call] at hc
      split_ifs at hc with hp
      simp only [Option.some.injEq] at hc
      rw [← hc]
      exact h.store hp.1 hp.2

end Steps

/-- The blocks met by following `next` from `b` until `NULL`. -/
def Linked (m : Store) : Nat → List Block → Prop
  | b, [] => b = 0
  | b, x :: xs =>
      b ≠ 0 ∧
      x = ⟨b, blockSize m b, decide (blockFree m b ≠ 0)⟩ ∧
      Linked m (blockNext m b) xs

/--
Each block's `next` is its own address plus header plus size, where the next
block starts; the last block has `next` equal to `NULL` and ends with the heap.
-/
def ExactNext (m : Store) : List Block → Prop
  | [] => False
  | [x] => blockNext m x.addr = 0 ∧ x.finish = heapEnd
  | x :: y :: ys =>
      blockNext m x.addr = x.addr + headerSize + x.size ∧
      y.addr = blockNext m x.addr ∧
      ExactNext m (y :: ys)

/-- The payload bytes of a block. -/
def payload (x : Block) : Set Nat := Set.Ico x.ptr x.finish

/-- The header bytes of a block. -/
def header (x : Block) : Set Nat := Set.Ico x.addr x.ptr

/-- The heap's representation invariant, read off the memory. -/
structure HeapTiled (s : Traced) (xs : List Block) : Prop where
  linked : Linked s.heap.mem s.heap.heapHead xs
  head : s.heap.heapHead = heapBase
  exact_next : ExactNext s.heap.mem xs
  live_nodup : s.live.Nodup
  live_perm : s.live.Perm (livePtrs xs)
  payload_disjoint :
    ∀ x y, x ∈ xs → y ∈ xs → x.free = false → y.free = false → x ≠ y →
      Disjoint (payload x) (payload y)
  header_disjoint :
    ∀ x y, x ∈ xs → y ∈ xs → x.free = false →
      Disjoint (payload x) (header y)
  kmalloc_returns : ∀ size, ∃ r, kmalloc s.heap size = some r

section Reading

/-- Headers that tile up to the end of the heap form the `next` chain. -/
theorem linked_of_headers
    (ht : Tiles a xs heapEnd) (hh : Headers m xs) (ha : 0 < a) :
    Linked m (nextPtr a) xs := by
  induction xs generalizing a with
  | nil =>
      have hae : a = heapEnd := ht
      rw [hae, Linked, nextPtr, if_pos rfl]
  | cons x xs ih =>
      obtain ⟨rfl, hrest⟩ := ht
      have hend := hrest.le
      have hlt : x.addr < heapEnd := by
        simp only [Block.finish, headerSize] at hend
        omega
      obtain ⟨hsize, hfree, hnext⟩ := hh x (by simp)
      rw [nextPtr_of_lt hlt]
      refine ⟨by omega, ?_, ?_⟩
      · have hflag : decide (blockFree m x.addr ≠ 0) = x.free := by
          rw [hfree]
          cases x.free <;> simp
        rw [hsize, hflag]
      · rw [hnext]
        exact ih hrest (fun y hy => hh y (List.mem_cons_of_mem _ hy))
          (by unfold Block.finish; omega)

/-- The blocks a heap represents are those met from its head. -/
theorem Represents.linked
    (hr : Represents h xs) : Linked h.mem h.heapHead xs := by
  have hlinked := linked_of_headers hr.tiles hr.headers (by decide)
  rwa [nextPtr_of_lt (by decide), ← hr.head] at hlinked

theorem exactNext_of_headers
    (ht : Tiles a xs heapEnd) (hh : Headers m xs) (hne : xs ≠ []) : ExactNext m xs := by
  induction xs generalizing a with
  | nil =>
      exact absurd rfl hne
  | cons x xs ih =>
      obtain ⟨rfl, hrest⟩ := ht
      obtain ⟨_, _, hnext⟩ := hh x (by simp)
      cases xs with
      | nil =>
          have hlast : x.finish = heapEnd := hrest
          exact ⟨by rw [hnext, hlast, nextPtr, if_pos rfl], hlast⟩
      | cons y ys =>
          have hy : y.addr = x.finish := hrest.1
          have hend := hrest.2.le
          have hlt : x.finish < heapEnd := by
            simp only [Block.finish, headerSize] at hend hy ⊢
            omega
          rw [nextPtr_of_lt hlt] at hnext
          refine ⟨hnext, by rw [hy, hnext], ?_⟩
          exact ih hrest (fun z hz => hh z (List.mem_cons_of_mem _ hz)) (by simp)

end Reading

/-- Two different blocks of a tiling lie one after the other. -/
theorem Tiles.ordered
    {e : Nat} (h : Tiles a xs e) {y : Block} (hx : x ∈ xs) (hy : y ∈ xs) (hne : x ≠ y) :
    x.finish ≤ y.addr ∨ y.finish ≤ x.addr := by
  obtain ⟨pre, post, rfl⟩ := List.append_of_mem hx
  have hpair := List.pairwise_append.mp h.pairwise
  rcases List.mem_append.mp hy with hy | hy
  · exact Or.inr (hpair.2.2 y hy x (by simp))
  · rcases List.mem_cons.mp hy with rfl | hy
    · exact absurd rfl hne
    · exact Or.inl ((List.pairwise_cons.mp hpair.2.1).1 y hy)

/-- **The heap is tiled after every sequence of calls.** -/
theorem heap_tiled_after_calls
    (m : Store) (calls : List Call) (s : Traced)
    (hrun : runAll call (start m) calls = some s) :
    ∃ xs, HeapTiled s xs := by
  have hinv : TraceInv s :=
    runAll_invariant (fun _ _ _ h hc => call_preserves h hc)
      (traceInv_start m) hrun
  have hreturns : ∀ size, ∃ r, kmalloc s.heap size = some r := by
    intro size
    obtain ⟨p, h', hk, _⟩ := hinv.kmalloc size
    exact ⟨_, hk⟩
  obtain ⟨xs, hr, hlive⟩ := hinv
  have hne : xs ≠ [] := by
    rintro rfl
    have hend : heapBase = heapEnd := hr.tiles
    exact absurd hend (by decide)
  have hH : headerSize = 24 := rfl
  refine ⟨xs, hr.linked, hr.head,
    exactNext_of_headers hr.tiles hr.headers hne, ?_, hlive, ?_, ?_, hreturns⟩
  · exact hlive.nodup_iff.mpr hr.tiles.livePtrs_nodup
  · intro x y hx hy _ _ hxy
    rw [Set.disjoint_left]
    rintro z ⟨hz₁, hz₂⟩ ⟨hz₃, hz₄⟩
    have hord := hr.tiles.ordered hx hy hxy
    unfold Block.ptr at hz₁ hz₃
    omega
  · intro x y hx hy _
    rw [Set.disjoint_left]
    rintro z ⟨hz₁, hz₂⟩ ⟨hz₃, hz₄⟩
    by_cases hxy : x = y
    · subst hxy
      omega
    · have hord := hr.tiles.ordered hx hy hxy
      unfold Block.ptr at hz₁ hz₄
      have hfinish : y.finish = y.addr + headerSize + y.size := rfl
      omega

/-- A run that splits twice, stores a byte, releases and merges. -/
theorem heap_tiled_after_two_allocations :
    ∃ s,
      runAll call (start (fun _ => 0))
          [.kmalloc 64, .kmalloc 128, .store (heapBase + 24) 5 7,
            .kfree (heapBase + 112), .kmalloc (2 ^ 64 - 1)] = some s ∧
        ∃ xs, HeapTiled s xs := by
  have hsome :
      (runAll call (start (fun _ => 0))
        [.kmalloc 64, .kmalloc 128, .store (heapBase + 24) 5 7,
          .kfree (heapBase + 112), .kmalloc (2 ^ 64 - 1)]).isSome := by
    decide
  obtain ⟨s, hs⟩ := Option.isSome_iff_exists.mp hsome
  exact ⟨s, hs, heap_tiled_after_calls _ _ s hs⟩

/--
**First fit.**  In every reachable heap `kmalloc` returns: the first block that fits the
rounded request, or `NULL` if none does, and then the heap is as before.
-/
theorem kmalloc_first_fit
    {m : Store} {calls : List Call} {s : Traced} {size : Nat}
    (hrun : runAll call (start m) calls = some s) (hsize : size ≠ 0) :
    ∃ xs p h', Represents s.heap xs ∧ kmalloc s.heap size = some (p, h') ∧
      ((p = 0 ∧ h' = s.heap ∧ ∀ x, x ∈ xs → ¬ x.Fits (roundUp size)) ∨
        ∃ x, x ∈ xs ∧ p = x.ptr ∧ x.Fits (roundUp size) ∧
          ∀ y, y ∈ xs → y.Fits (roundUp size) → x.addr ≤ y.addr) := by
  obtain ⟨xs, hr, -⟩ : TraceInv s :=
    runAll_invariant (fun _ _ _ h hc => call_preserves h hc) (traceInv_start m) hrun
  cases halloc : allocList (roundUp size) xs with
  | none =>
      exact ⟨xs, 0, s.heap, hr, hr.kmalloc_of_none hsize halloc,
        Or.inl ⟨rfl, rfl, allocList_eq_none_iff.mp halloc⟩⟩
  | some r =>
      obtain ⟨h', hk, -⟩ := hr.kmalloc_of_some hsize halloc
      obtain ⟨pre, x, post, rfl, hpre, hfit, hp, -⟩ := allocList_eq_some halloc
      refine ⟨_, r.1, h', hr, hk, Or.inr ⟨x, by simp, hp, hfit, fun y hy hfits => ?_⟩⟩
      have hpair := (List.pairwise_append.mp hr.tiles.pairwise).2.1
      rcases List.mem_append.mp hy with hy | hy
      · exact absurd hfits (hpre y hy)
      · rcases List.mem_cons.mp hy with rfl | hy
        · exact le_refl _
        · have hle := (List.pairwise_cons.mp hpair).1 y hy
          unfold Block.finish at hle
          omega

/-- Two blocks are taken and the first is given back; it serves the next request. -/
theorem kmalloc_first_fit_fragmented :
    ∃ s xs h' x,
      runAll call (start (fun _ => 0))
        [.kmalloc 64, .kmalloc 128, .kfree (heapBase + 24)] = some s ∧
      Represents s.heap xs ∧
      kmalloc s.heap 32 = some (heapBase + 24, h') ∧
      x ∈ xs ∧ x.ptr = heapBase + 24 ∧ x.Fits (roundUp 32) ∧
      ∀ y, y ∈ xs → y.Fits (roundUp 32) → x.addr ≤ y.addr := by
  have hserved :
      (runAll call (start (fun _ => 0))
        [.kmalloc 64, .kmalloc 128, .kfree (heapBase + 24)]).any (fun s =>
          (kmalloc s.heap 32).any (fun r => r.1 = heapBase + 24)) := by
    decide
  obtain ⟨s, hs, hk⟩ := (Option.any_eq_true _ _).mp hserved
  obtain ⟨⟨p, h'⟩, hk, hp⟩ := (Option.any_eq_true _ _).mp hk
  obtain rfl : p = heapBase + 24 := of_decide_eq_true hp
  obtain ⟨xs, p, h'', hr, hk', hfit⟩ := kmalloc_first_fit hs (by decide : 32 ≠ 0)
  obtain ⟨rfl, rfl⟩ : p = heapBase + 24 ∧ h'' = h' := by
    simpa using hk'.symm.trans hk
  rcases hfit with ⟨hnull, -⟩ | ⟨x, hx, hxp, hfits, hfirst⟩
  · exact absurd hnull (by decide)
  · exact ⟨s, xs, h'', x, hs, hr, hk, hx, hxp.symm, hfits, hfirst⟩

section Requests

/-- Where the payload that starts at `p` ends: at the next header, or with the heap. -/
def payloadEnd (m : Store) (p : Nat) : Nat :=
  if blockNext m (p - headerSize) = 0 then heapEnd
  else blockNext m (p - headerSize)

/--
A request for `size` bytes is answered with `NULL` or with a payload of that
length; with `NULL` when the heap is smaller than that.
-/
def Covers (h : State) (size : Nat) : Prop :=
  ∀ p h', kmalloc h size = some (p, h') →
    (p ≠ 0 → p + size ≤ payloadEnd h'.mem p) ∧ (heapSize < size → p = 0)

/-- There is no free block. -/
def AllInUse (h : State) : Prop :=
  ∀ xs, Linked h.mem h.heapHead xs → ∀ x, x ∈ xs → x.free = false

/-- The chain of headers is one list. -/
theorem Linked.unique
    {b : Nat} {ys : List Block} (hx : Linked m b xs) (hy : Linked m b ys) :
    xs = ys := by
  induction xs generalizing b ys with
  | nil =>
      cases ys with
      | nil => rfl
      | cons y ys => exact absurd hx hy.1
  | cons x xs ih =>
      cases ys with
      | nil => exact absurd hy hx.1
      | cons y ys =>
          obtain ⟨_, rfl, hx⟩ := hx
          obtain ⟨_, rfl, hy⟩ := hy
          rw [ih hx hy]

theorem Represents.allInUse_iff
    (hr : Represents h xs) : AllInUse h ↔ ∀ x, x ∈ xs → x.free = false := by
  constructor
  · intro hused
    exact hused xs hr.linked
  · intro hused ys hys
    rw [hys.unique hr.linked]
    exact hused

/-- The payload of a block ends where the block ends. -/
theorem Represents.payloadEnd_ptr
    (hr : Represents h xs) (hx : x ∈ xs) : payloadEnd h.mem x.ptr = x.finish := by
  have hnext := (hr.headers x hx).2.2
  unfold payloadEnd Block.ptr
  rw [Nat.add_sub_cancel, hnext]
  unfold nextPtr
  by_cases hlast : x.finish = heapEnd
  · rw [if_pos hlast, if_pos rfl, hlast]
  · have hpos : x.finish ≠ 0 := by
      unfold Block.finish headerSize
      omega
    rw [if_neg hlast, if_neg hpos]

/-- The rounding of a request in 64 bits. -/
theorem roundUp_eq
    (size : Nat) : roundUp size = (size + 15) % 2 ^ 64 / 16 * 16 := by
  have hlt : (size + 15) % 2 ^ 64 < 2 ^ 64 := Nat.mod_lt _ (by decide)
  unfold roundUp heapAlign
  exact land_highMask hlt (by decide)

/-- A request that is not rounded past the end of the 64-bit range is covered. -/
theorem Represents.covers_of_le
    {size : Nat} (hr : Represents h xs) (hsize : size ≤ 2 ^ 64 - 16) :
    Covers h size := by
  intro p h' hk
  obtain ⟨q, h'', ys, hk', hr', hcase⟩ := hr.kmalloc size
  rw [hk, Option.some.injEq, Prod.mk.injEq] at hk'
  obtain ⟨rfl, rfl⟩ := hk'
  rcases hcase with ⟨rfl, _⟩ | ⟨_, halloc⟩
  · exact ⟨fun hne => absurd rfl hne, fun _ => rfl⟩
  · obtain ⟨x, hx, rfl, _, hfits⟩ := exists_mem_allocList halloc
    obtain ⟨hbase, hend⟩ := hr'.tiles.mem_bounds hx
    have hle : size ≤ x.size := by
      rw [roundUp_eq] at hfits
      omega
    rw [hr'.payloadEnd_ptr hx]
    unfold heapEnd at hend
    unfold Block.finish headerSize at hend ⊢
    unfold Block.ptr headerSize
    exact ⟨fun _ => by omega, fun hlarge => by omega⟩

/-- Without a free block every request fails. -/
theorem Represents.covers_of_used
    (hr : Represents h xs) (hused : ∀ x, x ∈ xs → x.free = false) (size : Nat) :
    Covers h size := by
  intro p h' hk
  obtain ⟨q, h'', ys, hk', _, hcase⟩ := hr.kmalloc size
  rw [hk, Option.some.injEq, Prod.mk.injEq] at hk'
  obtain ⟨rfl, rfl⟩ := hk'
  rcases hcase with ⟨rfl, _⟩ | ⟨_, halloc⟩
  · exact ⟨fun hne => absurd rfl hne, fun _ => rfl⟩
  · obtain ⟨pre, x, post, rfl, _, hfit, _⟩ := allocList_eq_some halloc
    have hx := hused x (by simp)
    rw [hfit.1] at hx
    cases hx

/-- A request that is rounded to 0 is served by any free block. -/
theorem Represents.not_covers_of_wrap
    {size : Nat} (hr : Represents h xs) (hx : x ∈ xs) (hfree : x.free = true)
    (hsize : 2 ^ 64 - 16 < size) (hlt : size < 2 ^ 64) : ¬ Covers h size := by
  intro hcovers
  have hzero : roundUp size = 0 := by
    rw [roundUp_eq]
    omega
  cases halloc : allocList (roundUp size) xs with
  | none =>
      refine allocList_eq_none_iff.mp halloc x hx ⟨hfree, ?_⟩
      rw [hzero]
      exact Nat.zero_le _
  | some r =>
      obtain ⟨p, ys⟩ := r
      obtain ⟨h', hk, _⟩ := hr.kmalloc_of_some (by omega) halloc
      obtain ⟨y, _, hy, _⟩ := exists_mem_allocList halloc
      have hnull := (hcovers p h' hk).2 (by unfold heapSize; omega)
      unfold Block.ptr headerSize at hy
      omega

/--
**When `kmalloc` serves a request in full.**  In every reachable heap, a request
is covered exactly if it does not exceed `2 ^ 64 - 16` bytes or no block is free:
beyond that, rounding it up to a multiple of `HEAP_ALIGN` gives 0.
-/
theorem kmalloc_covers_iff
    (m : Store) (calls : List Call) (s : Traced)
    (hrun : runAll call (start m) calls = some s) (size : Nat)
    (hsize : size < 2 ^ 64) :
    Covers s.heap size ↔ size ≤ 2 ^ 64 - 16 ∨ AllInUse s.heap := by
  obtain ⟨xs, hr, _⟩ : TraceInv s :=
    runAll_invariant (fun _ _ _ h hc => call_preserves h hc)
      (traceInv_start m) hrun
  rw [hr.allInUse_iff]
  constructor
  · intro hcovers
    by_contra hnot
    obtain ⟨hlarge, hfree⟩ := not_or.mp hnot
    simp only [not_forall, Bool.not_eq_false] at hfree
    obtain ⟨x, hx, hfree⟩ := hfree
    exact hr.not_covers_of_wrap hx hfree (by omega) hsize hcovers
  · rintro (hle | hused)
    · exact hr.covers_of_le hle
    · exact hr.covers_of_used hused size

/-- A request for 100 bytes that the block given back is too small for. -/
theorem kmalloc_covers_hundred :
    ∃ s, runAll call (start (fun _ => 0))
        [.kmalloc 64, .kmalloc 128, .kfree (heapBase + 24)] = some s ∧
      Covers s.heap 100 := by
  have hsome :
      (runAll call (start (fun _ => 0))
        [.kmalloc 64, .kmalloc 128, .kfree (heapBase + 24)]).isSome := by
    decide
  obtain ⟨s, hs⟩ := Option.isSome_iff_exists.mp hsome
  exact
    ⟨s, hs, (kmalloc_covers_iff _ _ s hs 100 (by decide)).mpr (Or.inl (by decide))⟩

/-- A request for `2 ^ 64 - 1` bytes is served by a block without payload. -/
theorem kmalloc_undersized :
    runAll call (start (fun _ => 0)) [] = some (start (fun _ => 0)) ∧
      ∃ h', kmalloc (start (fun _ => 0)).heap (2 ^ 64 - 1) =
          some (heapBase + headerSize, h') ∧
        payloadEnd h'.mem (heapBase + headerSize) = heapBase + headerSize ∧
        ¬ Covers (start (fun _ => 0)).heap (2 ^ 64 - 1) := by
  have hserved :
      (kmalloc (start (fun _ => 0)).heap (2 ^ 64 - 1)).any (fun r =>
        r.1 = heapBase + headerSize ∧
          payloadEnd r.2.mem (heapBase + headerSize) = heapBase + headerSize) := by
    decide
  obtain ⟨⟨p, h'⟩, hk, hspec⟩ := (Option.any_eq_true _ _).mp hserved
  obtain ⟨rfl, hend⟩ := of_decide_eq_true hspec
  refine ⟨rfl, h', hk, hend, fun hcovers => ?_⟩
  exact absurd ((hcovers _ _ hk).2 (by decide)) (by decide)

end Requests

end Heap
end RebornOS
