import RebornOS.SchedulerRuns
import RebornOS.HeapCallSequences

/-!
# Kernel stacks and the heap blocks they live in

Every thread runs on a block from `kmalloc`.  When a thread exits, `schedule`
releases that block with `kfree` and only then leaves it with `switch_context`.

The scheduler's state is extended by what no table of the source records: which
thread each live heap block was allocated to, which thread occupies a slot
(slots are reused, so threads are numbered in the order of their creation), and
on which stack a core physically executes.  The stack changes when the stack
pointer register is loaded, not when `current_thread` is written.

In every reachable state a core executes on a block that is allocated to its
thread, except exactly between the two calls above.
-/

namespace RebornOS
namespace Scheduler

open ByteStore LabeledRun Function
open Heap (Block Represents Linked livePtrs)

variable {base c k n p : Nat} {s : System} {threads : Slot → Thread} {heap : Heap.State}
  {m : Store} {next prev u : Slot}

/-- Who a live heap block is allocated to. -/
inductive Owner where
  | thread (id : Nat)
  | other
deriving DecidableEq

variable {owners : List (Nat × Owner)}

/-- The system with the owners of its heap blocks. -/
structure Traced where
  sys : System
  /-- The live heap pointers. -/
  owners : List (Nat × Owner)
  /-- How many threads have been created. -/
  created : Nat
  /-- The number of the thread in a slot. -/
  threadId : Slot → Nat
  /-- Thread and base of the stack a core executes on; `none` while booting. -/
  stack : Nat → Option (Nat × Nat)

variable {t : Traced}

/-- The thread in slot `u` and its stack. -/
def Traced.seat (t : Traced) (u : Slot) : Nat × Nat :=
  (t.threadId u, (t.sys.threads u).stackBase)

/-- Bookkeeping of a `thread_create_ex` that led to `s`. -/
def recordCreate (t : Traced) (s : System) : Traced :=
  match firstUnused t.sys.threads with
  | none => { t with sys := s }
  | some id =>
      { t with
        sys := s
        owners := ((s.threads id).stackBase, .thread t.created) :: t.owners
        created := t.created + 1
        threadId := update t.threadId id t.created }

/--
Bookkeeping of a step that led to `s`.  Other kernel code releases only
pointers that it holds itself (or `NULL`).
-/
def record (t : Traced) (s : System) : Label → Option Traced
  | .create _ _ _ _ _ => some (recordCreate t s)
  | .kmalloc _ size =>
      (Heap.kmalloc t.sys.heap size).map (fun r =>
        { t with
          sys := s
          owners := if r.1 = 0 then t.owners else (r.1, .other) :: t.owners })
  | .kfree _ p =>
      if p = 0 then
        some { t with sys := s }
      else if (p, Owner.other) ∈ t.owners then
        some { t with sys := s, owners := t.owners.erase (p, .other) }
      else
        none
  | .reapStack core =>
      match t.sys.phase core with
      | .reap stack _ =>
          some
            { t with
              sys := s
              owners := t.owners.filter (fun o => o.1 ≠ stack) }
      | _ => none
  | .clearFlag core | .switchTo core =>
      some
        { t with
          sys := s
          stack :=
            update t.stack core
              ((t.sys.currentThread core).map t.seat) }
  | _ => some { t with sys := s }

/-- A step together with its bookkeeping. -/
def call (pf : Platform) (n : Nat) (t : Traced) (l : Label) : Option Traced :=
  (step pf n t.sys l).bind (fun s => record t s l)

/-- The loop of `scheduler_create_idle_threads` with its bookkeeping. -/
def createIdleTraced (pf : Platform) (t : Traced) : Nat → Except Stop Traced
  | 0 => .ok t
  | n + 1 =>
      (createIdleTraced pf t n).bind (fun t =>
        (createIdleThread pf t.sys n).map (recordCreate t))

/-- Booting the scheduler when the heap pointers `live` are already in use. -/
def bootTraced
    (pf : Platform) (n : Nat) (s : System) (live : List Nat) :
    Except Stop Traced :=
  createIdleTraced pf
    ⟨schedulerInit s, live.map (fun p => (p, .other)), 0, fun _ => 0,
      fun _ => none⟩ n

/--
The block a core executes on is in the heap's list, large enough, not free, and
allocated to the thread that the core executes.
-/
def StackAllocated (t : Traced) (c : Nat) : Prop :=
  ∀ id base, t.stack c = some (id, base) →
    ∃ xs x,
      Linked t.sys.heap.mem t.sys.heap.heapHead xs ∧
        x ∈ xs ∧
        x.ptr = base ∧
        x.free = false ∧
        schedulerStackSize ≤ x.size ∧
        (base, Owner.thread id) ∈ t.owners

/-- What a phase says about the stack the core is on. -/
inductive Stage where
  | boot
  | current
  | leaving (prev : Slot)
  | reaping (stack : Nat)
  | discarding

def Phase.stage : Phase → Stage
  | .boot => .boot
  | .running => .current
  | .exiting => .current
  | .reap stack _ => .reaping stack
  | .discard _ => .discarding
  | .jump _ _ => .discarding
  | .release prev _ => .leaving prev
  | .save prev _ _ => .leaving prev
  | .clear prev _ _ => .leaving prev

/-- Between `kfree(zombie_stack)` and the end of `switch_context`. -/
def InWindow (t : Traced) (c : Nat) : Prop :=
  (t.sys.phase c).stage = .discarding ∧ t.stack c ≠ none

/-- The stack a core is on, by stage. -/
def OnStack (t : Traced) (c : Nat) : Stage → Prop
  | .boot => t.stack c = none
  | .current =>
      ∃ u, t.sys.currentThread c = some u ∧ t.stack c = some (t.seat u)
  | .leaving u => t.stack c = some (t.seat u)
  | .reaping stack =>
      ∃ id,
        t.stack c = some (id, stack) ∧
          (stack, Owner.thread id) ∈ t.owners ∧
          ∀ u, (t.sys.threads u).state ≠ .unused → t.threadId u ≠ id
  | .discarding =>
      ∀ id base, t.stack c = some (id, base) →
        id < t.created ∧ (base, Owner.thread id) ∉ t.owners

/-- The heap represents blocks that are exactly the owned ones. -/
def BlocksOwned (heap : Heap.State) (owners : List (Nat × Owner)) : Prop :=
  ∃ xs,
    Represents heap xs ∧
      (owners.map Prod.fst).Perm (livePtrs xs) ∧
      ∀ p id, (p, Owner.thread id) ∈ owners →
        ∃ x, x ∈ xs ∧ x.ptr = p ∧ x.free = false ∧ schedulerStackSize ≤ x.size

/-- The invariant that ties stacks, slots and heap blocks together. -/
structure StackInv (n k : Nat) (t : Traced) : Prop where
  inv : Inv n k t.sys
  blocks : BlocksOwned t.sys.heap t.owners
  /-- The stack of every thread is allocated to it. -/
  slots :
    ∀ u, (t.sys.threads u).state ≠ .unused →
      ((t.sys.threads u).stackBase, Owner.thread (t.threadId u)) ∈ t.owners
  ids :
    ∀ u v, (t.sys.threads u).state ≠ .unused →
      (t.sys.threads v).state ≠ .unused →
      t.threadId u = t.threadId v → u = v
  fresh : ∀ p id, (p, Owner.thread id) ∈ t.owners → id < t.created
  onStack : ∀ c, c < n → OnStack t c (t.sys.phase c).stage
  /-- No two cores are about to release the same block. -/
  reap_injective :
    ∀ c d stack, c < n → d < n →
      (t.sys.phase c).stage = .reaping stack →
      (t.sys.phase d).stage = .reaping stack → c = d

section Blocks

/-- A live pointer has one owner. -/
theorem BlocksOwned.owner_unique
    {o o' : Owner} (h : BlocksOwned heap owners) (ho : (p, o) ∈ owners)
    (ho' : (p, o') ∈ owners) : o = o' := by
  obtain ⟨xs, hr, hlive, _⟩ := h
  have hnodup : (owners.map Prod.fst).Nodup :=
    hlive.nodup_iff.mpr hr.tiles.livePtrs_nodup
  have hpair := List.inj_on_of_nodup_map hnodup ho ho' rfl
  exact congrArg Prod.snd hpair

/-- Allocation for a caller other than the scheduler. -/
theorem BlocksOwned.kmalloc
    (h : BlocksOwned heap owners) (size : Nat) :
    ∃ p heap',
      Heap.kmalloc heap size = some (p, heap') ∧
        BlocksOwned heap'
          (if p = 0 then owners else (p, .other) :: owners) := by
  obtain ⟨xs, hr, hlive, hsize⟩ := h
  obtain ⟨p, heap', ys, hk, hr', hcase⟩ := hr.kmalloc size
  refine ⟨p, heap', hk, ys, hr', ?_⟩
  rcases hcase with ⟨rfl, rfl⟩ | ⟨hpos, halloc⟩
  · exact ⟨hlive, hsize⟩
  · rw [if_neg hpos]
    refine ⟨(hlive.cons p).trans (Heap.allocList_livePtrs halloc).symm, ?_⟩
    intro q id hq
    obtain ⟨x, hx, hptr, hused, hbig⟩ :=
      hsize q id ((List.mem_cons.mp hq).resolve_left (by simp))
    exact ⟨x, Heap.mem_allocList_of_used halloc hx hused, hptr, hused, hbig⟩

/-- Allocation of a thread's stack, with the words of its first frame stored. -/
theorem BlocksOwned.createStack
    {heap' : Heap.State} (id : Nat) (h : BlocksOwned heap owners)
    (hk : Heap.kmalloc heap schedulerStackSize = some (p, heap')) (hp : p ≠ 0)
    (hsame : ∀ a, a < p ∨ p + schedulerStackSize ≤ a → m a = heap'.mem a) :
    BlocksOwned { heap' with mem := m } ((p, .thread id) :: owners) := by
  obtain ⟨xs, hr, hlive, hsize⟩ := h
  obtain ⟨p', heap'', ys, hk', hr', hcase⟩ := hr.kmalloc schedulerStackSize
  rw [hk, Option.some.injEq, Prod.mk.injEq] at hk'
  obtain ⟨rfl, rfl⟩ := hk'
  obtain ⟨_, halloc⟩ := hcase.resolve_left (fun hnull => hp hnull.1)
  have hround : Heap.roundUp schedulerStackSize = schedulerStackSize := by
    decide
  rw [hround] at halloc
  obtain ⟨x, hx, hptr, hused, hbig⟩ := Heap.exists_mem_allocList halloc
  refine ⟨ys, hr'.store hx ?_, ?_, ?_⟩
  · intro a ha
    refine hsame a ?_
    have hfinish : x.finish = x.ptr + x.size := rfl
    omega
  · exact (hlive.cons p).trans (Heap.allocList_livePtrs halloc).symm
  · intro q j hq
    rcases List.mem_cons.mp hq with heq | hq
    · cases heq
      exact ⟨x, hx, hptr, hused, hbig⟩
    · obtain ⟨y, hy, hspec⟩ := hsize q j hq
      exact ⟨y, Heap.mem_allocList_of_used halloc hy hspec.2.1, hspec⟩

/-- Releasing an owned block. -/
theorem BlocksOwned.kfree
    {owners' : List (Nat × Owner)} (h : BlocksOwned heap owners)
    (hperm : (owners.map Prod.fst).Perm (p :: owners'.map Prod.fst))
    (hsub : ∀ o, o ∈ owners' → o ∈ owners) :
    BlocksOwned (Heap.kfree heap p) owners' := by
  obtain ⟨xs, hr, hlive, hsize⟩ := h
  have hmem : p ∈ livePtrs xs :=
    hlive.mem_iff.mp (hperm.mem_iff.mpr List.mem_cons_self)
  have hrest : (owners'.map Prod.fst).Perm (livePtrs (Heap.freeList p xs)) :=
    (List.perm_cons p).mp
      (hperm.symm.trans (hlive.trans (hr.tiles.freeList_livePtrs hmem)))
  have hnodup : (p :: owners'.map Prod.fst).Nodup :=
    hperm.nodup_iff.mp (hlive.nodup_iff.mpr hr.tiles.livePtrs_nodup)
  refine ⟨_, hr.kfree hmem, hrest, ?_⟩
  intro q id hq
  obtain ⟨x, hx, rfl, hused, hbig⟩ := hsize q id (hsub _ hq)
  have hne : x.ptr ≠ p := by
    intro heq
    have hin : x.ptr ∈ owners'.map Prod.fst := List.mem_map_of_mem hq
    rw [heq] at hin
    exact (List.nodup_cons.mp hnodup).1 hin
  exact ⟨x, Heap.mem_freeList_of_used hx hused hne, rfl, hused, hbig⟩

end Blocks

section Reading

theorem StackInv.allocated_of_owner
    {id : Nat} (h : StackInv n k t) (howner : (base, Owner.thread id) ∈ t.owners) :
    ∃ xs x,
      Linked t.sys.heap.mem t.sys.heap.heapHead xs ∧
        x ∈ xs ∧
        x.ptr = base ∧
        x.free = false ∧
        schedulerStackSize ≤ x.size ∧
        (base, Owner.thread id) ∈ t.owners := by
  obtain ⟨xs, hr, _, hsize⟩ := h.blocks
  obtain ⟨x, hx, hptr, hused, hbig⟩ := hsize base id howner
  exact ⟨xs, x, hr.linked, hx, hptr, hused, hbig, howner⟩

/-- The thread that a core is leaving is in use. -/
theorem Inv.used_of_leaving
    (h : Inv n k s) (hc : c < n) (hstage : (s.phase c).stage = .leaving u) :
    (s.threads u).state ≠ .unused := by
  have hpending : (s.phase c).pending = some u := by
    revert hstage
    cases s.phase c <;> simp [Phase.stage, Phase.pending]
  rw [(h.pending c u hc hpending).2.1]
  decide

/--
A core executes on a block that is allocated to its thread, except between the
release of that block and the switch away from it.
-/
theorem StackInv.allocated_iff
    (h : StackInv n k t) (hc : c < n) : StackAllocated t c ↔ ¬ InWindow t c := by
  have hon := h.onStack c hc
  constructor
  · rintro halloc ⟨hstage, hstack⟩
    rw [hstage] at hon
    obtain ⟨⟨id, base⟩, heq⟩ := Option.ne_none_iff_exists'.mp hstack
    obtain ⟨_, _, _, _, _, _, _, howner⟩ := halloc id base heq
    exact (hon id base heq).2 howner
  · intro hout id base hstack
    cases hstage : (t.sys.phase c).stage with
    | boot =>
        rw [hstage, OnStack, hstack] at hon
        cases hon
    | current =>
        rw [hstage] at hon
        obtain ⟨u, hcur, hseat⟩ := hon
        rw [hstack, Option.some.injEq, Traced.seat, Prod.mk.injEq] at hseat
        obtain ⟨rfl, rfl⟩ := hseat
        exact h.allocated_of_owner (h.slots u (h.inv.used_of_current hc hcur))
    | leaving u =>
        rw [hstage, OnStack, hstack, Option.some.injEq, Traced.seat,
          Prod.mk.injEq] at hon
        obtain ⟨rfl, rfl⟩ := hon
        exact h.allocated_of_owner (h.slots u (h.inv.used_of_leaving hc hstage))
    | reaping stack =>
        rw [hstage] at hon
        obtain ⟨id', heq, howner, _⟩ := hon
        rw [hstack, Option.some.injEq, Prod.mk.injEq] at heq
        obtain ⟨rfl, rfl⟩ := heq
        exact h.allocated_of_owner howner
    | discarding =>
        exact absurd ⟨hstage, by rw [hstack]; simp⟩ hout

end Reading

section Preservation

variable {t' : Traced}

/-- The thread on whose stack a core at this stage is. -/
def Seated (s : System) (c : Nat) (stage : Stage) (u : Slot) : Prop :=
  stage = .current ∧ s.currentThread c = some u ∨ stage = .leaving u

theorem Inv.used_of_seated
    (h : Inv n k s) (hc : c < n) (hu : Seated s c (s.phase c).stage u) :
    (s.threads u).state ≠ .unused := by
  rcases hu with ⟨_, hcur⟩ | hstage
  · exact h.used_of_current hc hcur
  · exact h.used_of_leaving hc hstage

/--
What has to stay for a core to be on its stack as before: its thread's seat, the
owner of a block it is about to release, and that a released block is not given
back to the same thread.
-/
theorem OnStack.transfer
    {stage : Stage} (hon : OnStack t c stage) (hstack : t'.stack c = t.stack c)
    (hcurrent : t'.sys.currentThread c = t.sys.currentThread c)
    (hseat : ∀ u, Seated t.sys c stage u → t'.seat u = t.seat u)
    (howned : ∀ base id, stage = .reaping base → (base, Owner.thread id) ∈ t.owners →
      (base, Owner.thread id) ∈ t'.owners ∧
        ∀ u, (t'.sys.threads u).state ≠ .unused → t'.threadId u = id →
          (t.sys.threads u).state ≠ .unused ∧ t.threadId u = id)
    (hgone : ∀ base id, id < t.created → (base, Owner.thread id) ∉ t.owners →
      id < t'.created ∧ (base, Owner.thread id) ∉ t'.owners) : OnStack t' c stage := by
  cases stage with
  | boot =>
      exact hstack.trans hon
  | current =>
      obtain ⟨u, hcur, hu⟩ := hon
      refine ⟨u, hcurrent.trans hcur, ?_⟩
      rw [hstack, hu, hseat u (Or.inl ⟨rfl, hcur⟩)]
  | leaving u =>
      show t'.stack c = some (t'.seat u)
      rw [hseat u (Or.inr rfl)]
      exact hstack.trans hon
  | reaping base =>
      obtain ⟨id, hid, howner, hids⟩ := hon
      obtain ⟨howner', hback⟩ := howned base id rfl howner
      refine ⟨id, hstack.trans hid, howner', fun u hu heq => ?_⟩
      obtain ⟨hold, hidold⟩ := hback u hu heq
      exact hids u hold hidold
  | discarding =>
      intro id base hid
      obtain ⟨hlt, hnot⟩ := hon id base (hstack.symm.trans hid)
      exact hgone base id hlt hnot

/-- If only core `c` changes its phase, no two cores come to release one block. -/
theorem StackInv.reap_injective_of
    {phase : Nat → Phase} (h : StackInv n k t)
    (hother : ∀ d, d ≠ c → phase d = t.sys.phase d)
    (hreap : ∀ base, (phase c).stage = .reaping base →
      ∀ d, d < n → d ≠ c → (t.sys.phase d).stage ≠ .reaping base) :
    ∀ d e base, d < n → e < n → (phase d).stage = .reaping base →
      (phase e).stage = .reaping base → d = e := by
  intro d e base hd he hdr her
  by_cases hdc : d = c
  · by_cases hec : e = c
    · rw [hdc, hec]
    · rw [hother e hec] at her
      subst hdc
      exact absurd her (hreap base hdr e he hec)
  · rw [hother d hdc] at hdr
    by_cases hec : e = c
    · subst hec
      exact absurd hdr (hreap base her d hd hdc)
    · rw [hother e hec] at her
      exact h.reap_injective d e base hd he hdr her

/--
A step of core `c` that leaves the heap and its owners alone.  Slots may only
become unused and keep their stacks; the other cores keep their phases.
-/
theorem StackInv.ofStep
    {stack : Nat → Option (Nat × Nat)} (c : Nat)
    (h : StackInv n k t) (hinv : Inv n k s) (hheap : s.heap = t.sys.heap)
    (hslots : ∀ u, (s.threads u).state ≠ .unused →
      (t.sys.threads u).state ≠ .unused ∧
        (s.threads u).stackBase = (t.sys.threads u).stackBase)
    (hother : ∀ d, d ≠ c →
      s.phase d = t.sys.phase d ∧
        s.currentThread d = t.sys.currentThread d ∧
        stack d = t.stack d)
    (hon : c < n →
      OnStack { t with sys := s, stack := stack } c (s.phase c).stage)
    (hreap : ∀ base, (s.phase c).stage = .reaping base →
      ∀ d, d < n → d ≠ c → (t.sys.phase d).stage ≠ .reaping base) :
    StackInv n k { t with sys := s, stack := stack } := by
  refine ⟨hinv, hheap ▸ h.blocks, ?_, ?_, h.fresh, ?_, ?_⟩
  · intro u hu
    have hold := h.slots u (hslots u hu).1
    rwa [← (hslots u hu).2] at hold
  · intro u v hu hv
    exact h.ids u v (hslots u hu).1 (hslots v hv).1
  · intro d hd
    by_cases hdc : d = c
    · subst hdc
      exact hon hd
    · obtain ⟨hphase, hcur, hstack⟩ := hother d hdc
      have hold := h.onStack d hd
      rw [← hphase] at hold
      refine hold.transfer hstack hcur (fun u hu => ?_)
        (fun base id _ howner => ⟨howner, fun u hu hid => ⟨(hslots u hu).1, hid⟩⟩)
        (fun _ _ hlt hnot => ⟨hlt, hnot⟩)
      have hused := hinv.used_of_seated hd (hu.imp_left (fun hc => ⟨hc.1, hcur.trans hc.2⟩))
      simp only [Traced.seat, (hslots u hused).2]
  · exact h.reap_injective_of (fun d hd => (hother d hd).1) hreap

/-- A heap call by other kernel code: the owners that are threads stay. -/
theorem StackInv.ofHeap
    (h : StackInv n k t) (hblocks : BlocksOwned heap owners) (hthreads : ∀ p id,
      (p, Owner.thread id) ∈ owners ↔ (p, Owner.thread id) ∈ t.owners) :
    StackInv n k
      { t with sys := { t.sys with heap := heap }, owners := owners } := by
  refine ⟨h.inv.congr_memory heap t.sys.exitCodes, hblocks, ?_, h.ids, ?_, ?_,
    h.reap_injective⟩
  · intro u hu
    exact (hthreads _ _).mpr (h.slots u hu)
  · intro p id hp
    exact h.fresh p id ((hthreads p id).mp hp)
  · intro c hc
    exact
      (h.onStack c hc).transfer rfl rfl (fun _ _ => rfl)
        (fun base id _ howner =>
          ⟨(hthreads base id).mpr howner, fun u hu hid => ⟨hu, hid⟩⟩)
        (fun base id hlt hnot => ⟨hlt, fun hin => hnot ((hthreads base id).mp hin)⟩)

/-- The words of the first frame lie inside the new stack. -/
theorem initialFrame_outside_stack
    {trampoline entry arg a : Nat} (ha : a < p ∨ p + schedulerStackSize ≤ a) :
    initialFrame m (p + schedulerStackSize) trampoline entry arg a = m a := by
  have hsize : schedulerStackSize = 16384 := rfl
  exact initialFrame_outside m (by omega) _ _ _ (by omega)

/-- Filling a free slot with a thread on a new stack. -/
theorem StackInv.create
    {count : Nat} {idleTid : Nat → Option Slot} {k' : Nat} (th : Thread)
    (h : StackInv n k t) (hunused : (t.sys.threads u).state = .unused)
    (hk : Heap.kmalloc t.sys.heap schedulerStackSize = some (th.stackBase, heap))
    (hbase : th.stackBase ≠ 0) (hsame : ∀ a,
      a < th.stackBase ∨ th.stackBase + schedulerStackSize ≤ a →
        m a = heap.mem a) (hinv : Inv n k'
      { t.sys.setThread u th with
        heap := { heap with mem := m }
        activeCount := count
        idleTid := idleTid }) :
    StackInv n k'
      { t with
        sys :=
          { t.sys.setThread u th with
            heap := { heap with mem := m }
            activeCount := count
            idleTid := idleTid }
        owners := (th.stackBase, .thread t.created) :: t.owners
        created := t.created + 1
        threadId := update t.threadId u t.created } := by
  have hblocks := h.blocks.createStack t.created hk hbase hsame
  have hsub : ∀ o, o ∈ t.owners →
      o ∈ (th.stackBase, Owner.thread t.created) :: t.owners :=
    fun o ho => List.mem_cons_of_mem _ ho
  have hold : ∀ v, v ≠ u →
      (t.sys.setThread u th).threads v = t.sys.threads v ∧
        update t.threadId u t.created v = t.threadId v :=
    fun v hv => ⟨update_of_ne hv _ _, update_of_ne hv _ _⟩
  have hself : (t.sys.setThread u th).threads u = th ∧
      update t.threadId u t.created u = t.created :=
    ⟨update_self _ _ _, update_self _ _ _⟩
  have hfresh : ∀ v, v ≠ u → (t.sys.threads v).state ≠ .unused →
      t.threadId v < t.created :=
    fun v _ hv => h.fresh _ _ (h.slots v hv)
  refine ⟨hinv, hblocks, ?_, ?_, ?_, ?_, h.reap_injective⟩
  · intro v hv
    change ((t.sys.setThread u th).threads v).state ≠ _ at hv
    show (((t.sys.setThread u th).threads v).stackBase,
      Owner.thread (update t.threadId u t.created v)) ∈ _
    by_cases hvu : v = u
    · subst hvu
      rw [hself.1, hself.2]
      exact List.mem_cons_self
    · rw [(hold v hvu).1] at hv ⊢
      rw [(hold v hvu).2]
      exact hsub _ (h.slots v hv)
  · intro v w hv hw heq
    change ((t.sys.setThread u th).threads v).state ≠ _ at hv
    change ((t.sys.setThread u th).threads w).state ≠ _ at hw
    change update t.threadId u t.created v =
      update t.threadId u t.created w at heq
    by_cases hvu : v = u
    · by_cases hwu : w = u
      · rw [hvu, hwu]
      · subst hvu
        rw [(hold w hwu).1] at hw
        rw [hself.2, (hold w hwu).2] at heq
        have hlt := hfresh w hwu hw
        omega
    · rw [(hold v hvu).1] at hv
      rw [(hold v hvu).2] at heq
      by_cases hwu : w = u
      · subst hwu
        rw [hself.2] at heq
        have hlt := hfresh v hvu hv
        omega
      · rw [(hold w hwu).1] at hw
        rw [(hold w hwu).2] at heq
        exact h.ids v w hv hw heq
  · intro p id hp
    rcases List.mem_cons.mp hp with heq | hp
    · cases heq
      exact Nat.lt_succ_self _
    · exact Nat.lt_succ_of_lt (h.fresh p id hp)
  · intro c hc
    refine (h.onStack c hc).transfer rfl rfl (fun v hv => ?_)
      (fun base id _ howner => ⟨hsub _ howner, fun v hv hid => ?_⟩)
      (fun base id hlt hnot => ⟨Nat.lt_succ_of_lt hlt, fun hin => ?_⟩)
    · -- a thread in use is not in the slot that was free
      have hvu : v ≠ u := by
        rintro rfl
        exact h.inv.used_of_seated hc hv hunused
      simp only [Traced.seat]
      rw [(hold v hvu).1, (hold v hvu).2]
    · change ((t.sys.setThread u th).threads v).state ≠ _ at hv
      change update t.threadId u t.created v = id at hid
      by_cases hvu : v = u
      · subst hvu
        rw [hself.2] at hid
        have hlt := h.fresh base id howner
        omega
      · rw [(hold v hvu).1] at hv
        rw [(hold v hvu).2] at hid
        exact ⟨hv, hid⟩
    · rcases List.mem_cons.mp hin with heq | hin
      · rw [Prod.mk.injEq, Owner.thread.injEq] at heq
        omega
      · exact hnot hin

/--
`kfree(zombie_stack)`: the block of the exited thread is released while the core
still executes on it; every other stack keeps its block.
-/
theorem StackInv.reapStack
    (h : StackInv n k t) (hc : c < n) (hphase : t.sys.phase c = .reap base next)
    (hinv : Inv n k
      ({ t.sys with heap := Heap.kfree t.sys.heap base }.setPhase c
        (.discard next))) :
    StackInv n k
      { t with
        sys :=
          { t.sys with heap := Heap.kfree t.sys.heap base }.setPhase c
            (.discard next)
        owners := t.owners.filter (fun o => o.1 ≠ base) } := by
  have hstage : (t.sys.phase c).stage = .reaping base := by
    rw [hphase]
    rfl
  have hon := h.onStack c hc
  rw [hstage] at hon
  obtain ⟨id, hstack, howner, hids⟩ := hon
  have hmem : ∀ o, o ∈ t.owners.filter (fun o => o.1 ≠ base) ↔
      o ∈ t.owners ∧ o.1 ≠ base := by
    intro o
    simp
  -- every other thread's block differs from the released one
  have hkeep : ∀ p j, (p, Owner.thread j) ∈ t.owners → j ≠ id → p ≠ base := by
    rintro p j hp hj rfl
    have heq := h.blocks.owner_unique hp howner
    exact hj (Owner.thread.inj heq)
  have hphases : ∀ d, d ≠ c →
      update t.sys.phase c (.discard next) d = t.sys.phase d :=
    fun d hd => update_of_ne hd _ _
  refine ⟨hinv, ?_, ?_, h.ids, ?_, ?_, ?_⟩
  · refine h.blocks.kfree ?_ (fun o ho => ((hmem o).mp ho).1)
    obtain ⟨xs, hr, hlive, _⟩ := h.blocks
    have hnodup : (t.owners.map Prod.fst).Nodup :=
      hlive.nodup_iff.mpr hr.tiles.livePtrs_nodup
    have hin : base ∈ t.owners.map Prod.fst := List.mem_map_of_mem howner
    have hfilter : (t.owners.filter (fun o => o.1 ≠ base)).map Prod.fst =
        (t.owners.map Prod.fst).erase base := by
      rw [hnodup.erase_eq_filter, List.filter_map]
      congr 1
      refine List.filter_congr ?_
      intro o _
      by_cases ho : o.1 = base <;> simp [ho]
    rw [hfilter]
    exact List.perm_cons_erase hin
  · intro u hu
    exact (hmem _).mpr ⟨h.slots u hu, hkeep _ _ (h.slots u hu) (hids u hu)⟩
  · intro p j hp
    exact h.fresh p j ((hmem _).mp hp).1
  · intro d hd
    show OnStack _ d (update t.sys.phase c (.discard next) d).stage
    by_cases hdc : d = c
    · subst hdc
      rw [update_self]
      intro j b hj
      change t.stack d = some (j, b) at hj
      rw [hstack, Option.some.injEq, Prod.mk.injEq] at hj
      obtain ⟨rfl, rfl⟩ := hj
      exact ⟨h.fresh _ _ howner, fun hin => ((hmem _).mp hin).2 rfl⟩
    · rw [hphases d hdc]
      refine (h.onStack d hd).transfer rfl rfl (fun _ _ => rfl)
        (fun b j hb hj => ⟨(hmem _).mpr ⟨hj, ?_⟩, fun u hu hid => ⟨hu, hid⟩⟩)
        (fun b j hlt hnot => ⟨hlt, fun hin => hnot ((hmem _).mp hin).1⟩)
      rintro rfl
      exact hdc (h.reap_injective d c _ hd hc hb hstage)
  · refine h.reap_injective_of (c := c) hphases (fun b hb => ?_)
    change (update t.sys.phase c (.discard next) c).stage = _ at hb
    rw [update_self] at hb
    cases hb

/-- Taking over a slot moves no stack. -/
theorem claim_threads :
    ((claim s c next).threads u).state = (s.threads u).state ∧
      ((claim s c next).threads u).stackBase = (s.threads u).stackBase := by
  by_cases hu : u = next
  · subst hu
    simp [claim, Thread.heldBy]
  · simp [claim, hu]

/-- Retiring a slot moves no stack, and leaves the other slots alone. -/
theorem retire_threads
    (hused : ((retire s prev).threads u).state ≠ .unused) :
    u ≠ prev ∧ (retire s prev).threads u = s.threads u := by
  have hne : u ≠ prev := by
    rintro rfl
    simp [retire, Thread.retired] at hused
  exact ⟨hne, update_of_ne hne _ _⟩

/-- A core that has no thread yet takes over its first one. -/
theorem StackInv.first
    (h : StackInv n k t) (hc : c < n) (hphase : t.sys.phase c = .boot) (hinv : Inv n k
      ((loadContext (claim t.sys c next) c next).setPhase c (.discard next))) :
    StackInv n k
      { t with
        sys :=
          (loadContext (claim t.sys c next) c next).setPhase c
            (.discard next) } ∧
      t.stack c = none := by
  have hnone : t.stack c = none := by
    have hon := h.onStack c hc
    rwa [hphase] at hon
  refine ⟨h.ofStep c hinv rfl ?_ ?_ ?_ ?_, hnone⟩
  · intro u hu
    exact ⟨claim_threads.1 ▸ hu, claim_threads.2⟩
  · intro d hd
    simp [loadContext, System.setPhase, claim, hd]
  · intro _
    simp only [System.setPhase, update_self, Phase.stage]
    intro id base hid
    exact absurd (hnone.symm.trans hid) (by simp)
  · simp [System.setPhase, Phase.stage]

section

variable (h : StackInv n k t) (hc : c < n) (hstage : (t.sys.phase c).stage = .current)
  (hcur : t.sys.currentThread c = some prev)
include h hc hstage hcur

/-- A core that runs `prev` is on the stack of `prev`. -/
theorem StackInv.stack_of_current : t.stack c = some (t.seat prev) := by
  have hon := h.onStack c hc
  rw [hstage] at hon
  obtain ⟨u, hu, hstack⟩ := hon
  rw [hcur, Option.some.injEq] at hu
  rwa [hu]

/-- A core leaves a live thread, still on its stack. -/
theorem StackInv.preempt
    (hinv : Inv n k
      ((loadContext (claim t.sys c next) c next).setPhase c
        (.release prev next))) :
    StackInv n k
      { t with
        sys :=
          (loadContext (claim t.sys c next) c next).setPhase c
            (.release prev next) } := by
  refine h.ofStep c hinv rfl ?_ ?_ ?_ ?_
  · intro u hu
    exact ⟨claim_threads.1 ▸ hu, claim_threads.2⟩
  · intro d hd
    simp [loadContext, System.setPhase, claim, hd]
  · intro _
    simp only [System.setPhase, update_self, Phase.stage]
    refine (h.stack_of_current hc hstage hcur).trans ?_
    have hsame : ((claim t.sys c next).threads prev).stackBase =
        (t.sys.threads prev).stackBase :=
      claim_threads.2
    exact congrArg some (Prod.ext rfl hsame.symm)
  · simp [System.setPhase, Phase.stage]

/-- A core retires its zombie, still on the zombie's stack. -/
theorem StackInv.retire
    (hinv : Inv n k
      ((loadContext (retire (claim t.sys c next) prev) c next).setPhase c
        (.reap (t.sys.threads prev).stackBase next))) :
    StackInv n k
      { t with
        sys :=
          (loadContext (retire (claim t.sys c next) prev) c next).setPhase c
            (.reap (t.sys.threads prev).stackBase next) } := by
  have hused := h.inv.used_of_current hc hcur
  have hslots : ∀ u,
      ((Scheduler.retire (claim t.sys c next) prev).threads u).state ≠ .unused →
      u ≠ prev ∧ (t.sys.threads u).state ≠ .unused ∧
        ((Scheduler.retire (claim t.sys c next) prev).threads u).stackBase =
          (t.sys.threads u).stackBase := by
    intro u hu
    obtain ⟨hne, hsame⟩ := retire_threads hu
    rw [hsame] at hu ⊢
    exact ⟨hne, claim_threads.1 ▸ hu, claim_threads.2⟩
  refine h.ofStep c hinv rfl (fun u hu => (hslots u hu).2) ?_ ?_ ?_
  · intro d hd
    simp [loadContext, System.setPhase, Scheduler.retire, claim, hd]
  · intro _
    simp only [System.setPhase, update_self, Phase.stage]
    refine ⟨t.threadId prev, h.stack_of_current hc hstage hcur,
      h.slots prev hused, ?_⟩
    intro u hu hid
    obtain ⟨hne, hu', _⟩ := hslots u hu
    exact hne (h.ids u prev hu' hused hid)
  · intro base hbase d hd _ hreap
    simp only [System.setPhase, update_self, Phase.stage, Stage.reaping.injEq] at hbase
    subst hbase
    -- a core that already reaps this block would share its owner
    have hon := h.onStack d hd
    rw [hreap] at hon
    obtain ⟨id, _, howner, hids⟩ := hon
    have howners := h.blocks.owner_unique howner (h.slots prev hused)
    exact hids prev hused (Owner.thread.inj howners).symm

end

/-- The critical section of `schedule`, once `next` is chosen. -/
theorem StackInv.switchUnderLock
    (h : StackInv n n t) (hc : c < n)
    (hphase : (t.sys.phase c).canCall ∨ t.sys.phase c = .exiting)
    (hnext : Available t.sys c next) :
    StackInv n n { t with sys := switchUnderLock t.sys c next } ∧
      (((switchUnderLock t.sys c next).phase c).stage = .discarding →
        t.stack c = none) := by
  have hinv := h.inv.switchUnderLock hc hphase hnext
  cases hcur : t.sys.currentThread c with
  | none =>
      have hboot := (h.inv.boot c hc).mpr hcur
      simp only [Scheduler.switchUnderLock, hcur] at hinv ⊢
      obtain ⟨hnew, hnone⟩ := h.first hc hboot hinv
      exact ⟨hnew, fun _ => hnone⟩
  | some prev =>
      have hstage : (t.sys.phase c).stage = .current := by
        rcases hphase with (hp | hp) | hp
        · rw [(h.inv.boot c hc).mp hp] at hcur
          cases hcur
        · rw [hp]
          rfl
        · rw [hp]
          rfl
      simp only [Scheduler.switchUnderLock, hcur] at hinv ⊢
      by_cases hz : (t.sys.threads prev).state = .zombie
      · have hbase : ((claim t.sys c next).threads prev).stackBase ≠ 0 := by
          rw [claim_threads.2]
          exact h.inv.stack prev (by rw [hz]; decide)
        rw [if_pos hz, if_neg hbase, claim_threads.2] at hinv ⊢
        refine ⟨h.retire hc hstage hcur hinv, ?_⟩
        simp [System.setPhase, Phase.stage]
      · rw [if_neg hz] at hinv ⊢
        refine ⟨h.preempt hc hstage hcur hinv, ?_⟩
        simp [System.setPhase, Phase.stage]

/-- A thread marks itself `ZOMBIE` and stays on its stack. -/
theorem StackInv.exit
    {exitCodes : Nat → Int} (h : StackInv n k t) (hc : c < n)
    (hphase : t.sys.phase c = .running) (hcur : t.sys.currentThread c = some u)
    (hinv : Inv n k
      ((({ t.sys with exitCodes := exitCodes } : System).setThread u
        (t.sys.threads u).exited).setPhase c .exiting)) :
    StackInv n k
      { t with
        sys :=
          (({ t.sys with exitCodes := exitCodes } : System).setThread u
            (t.sys.threads u).exited).setPhase c .exiting } := by
  have hstage : (t.sys.phase c).stage = .current := by
    rw [hphase]
    rfl
  have hused := h.inv.used_of_current hc hcur
  have hbase : ∀ v,
      (update t.sys.threads u (t.sys.threads u).exited v).stackBase =
        (t.sys.threads v).stackBase := by
    intro v
    by_cases hv : v = u
    · subst hv
      simp [Thread.exited]
    · simp [hv]
  refine h.ofStep c hinv rfl ?_ ?_ ?_ ?_
  · intro v hv
    refine ⟨?_, hbase v⟩
    by_cases hvu : v = u
    · subst hvu
      exact hused
    · simpa [System.setThread, System.setPhase, hvu] using hv
  · intro d hd
    simp [System.setThread, System.setPhase, hd]
  · intro _
    simp only [System.setPhase, update_self, Phase.stage]
    refine ⟨u, hcur, (h.stack_of_current hc hstage hcur).trans ?_⟩
    exact congrArg some (Prod.ext rfl (hbase u).symm)
  · simp [System.setPhase, Phase.stage]

/-- A step inside a switch: only the phase and saved words of slots change. -/
theorem StackInv.ofPhase
    {p : Phase} (h : StackInv n k t) (hc : c < n)
    (hstage : p.stage = (t.sys.phase c).stage) (hreap : ∀ base, p.stage ≠ .reaping base)
    (hslots : ∀ u,
      (threads u).state = (t.sys.threads u).state ∧
        (threads u).stackBase = (t.sys.threads u).stackBase)
    (hinv : Inv n k ({ t.sys with threads := threads }.setPhase c p)) :
    StackInv n k
      { t with sys := { t.sys with threads := threads }.setPhase c p } := by
  refine h.ofStep c hinv rfl ?_ ?_ ?_ ?_
  · intro u hu
    exact ⟨(hslots u).1 ▸ hu, (hslots u).2⟩
  · intro d hd
    simp [System.setPhase, hd]
  · intro _
    have hon := h.onStack c hc
    rw [← hstage] at hon
    simp only [System.setPhase, update_self]
    exact
      hon.transfer rfl rfl (fun u _ => Prod.ext rfl (hslots u).2)
        (fun base _ hbase => absurd hbase (hreap base))
        (fun _ _ hlt hnot => ⟨hlt, hnot⟩)
  · intro base hb
    simp only [System.setPhase, update_self] at hb
    exact absurd hb (hreap base)

/-- The stack pointer is loaded: the core is on the stack of its thread. -/
theorem StackInv.land
    (h : StackInv n k t) (hcur : t.sys.currentThread c = some next) (hslots : ∀ u,
      (threads u).state = (t.sys.threads u).state ∧
        (threads u).stackBase = (t.sys.threads u).stackBase)
    (hinv : Inv n k ({ t.sys with threads := threads }.setPhase c .running)) :
    StackInv n k
      { t with
        sys := { t.sys with threads := threads }.setPhase c .running
        stack :=
          update t.stack c ((t.sys.currentThread c).map t.seat) } := by
  refine h.ofStep c hinv rfl ?_ ?_ ?_ ?_
  · intro u hu
    exact ⟨(hslots u).1 ▸ hu, (hslots u).2⟩
  · intro d hd
    simp [System.setPhase, hd]
  · intro _
    simp only [System.setPhase, update_self, Phase.stage]
    refine ⟨next, hcur, ?_⟩
    simp only [update_self, hcur, Option.map_some]
    exact congrArg some (Prod.ext rfl (hslots next).2.symm)
  · simp [System.setPhase, Phase.stage]

end Preservation

end Scheduler
end RebornOS
