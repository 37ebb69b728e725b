import RebornOS.Heap
import RebornOS.ElfLoader

/-!
# The scheduler: `scheduler.c` and `context_switch.S`

A shallow embedding of the thread table and of everything that moves a core
from one thread to another.  Each section of `scheduler.c` that runs under
`scheduler_lock` is one function on the whole system; the code that follows the
release of the lock is cut into the single memory accesses other cores can
observe:

* `kfree(zombie_stack)`;
* the read of `threads[next].rsp`;
* the store of the old `rsp` and, after it, the store of `-1` to
  `running_on_core` in `switch_context_release`.

`Phase` records how far a core has come.  A core index is a natural number, the
index `-1` of the source is `none`, and a thread slot is an element of `Slot`.
Thread names are left out: no decision reads them.
-/

namespace RebornOS
namespace Scheduler

open ByteStore Function

/-- `SCHEDULER_MAX_THREADS`. -/
def schedulerMaxThreads : Nat := 32

/-- `SCHEDULER_STACK_SIZE`. -/
def schedulerStackSize : Nat := 16 * 1024

/-- An index into `threads[]`. -/
abbrev Slot := Fin schedulerMaxThreads

instance neZeroSlots : NeZero schedulerMaxThreads := ⟨by decide⟩

/-- `thread_state_t`. -/
inductive ThreadState where
  | unused
  | active
  | zombie
deriving DecidableEq, Repr

/-- `thread_t`. -/
structure Thread where
  rsp : Nat
  cr3 : Nat
  kernelStackTop : Nat
  stackBase : Nat
  state : ThreadState
  runningOnCore : Option Nat
  heapBrk : Nat
  exitCodeOut : Nat
  isIdle : Bool

namespace Thread

/-- `running_on_core = core`. -/
def heldBy (th : Thread) (core : Nat) : Thread :=
  { th with runningOnCore := some core }

/-- `running_on_core = -1`. -/
def released (th : Thread) : Thread :=
  { th with runningOnCore := none }

/-- `state = THREAD_ZOMBIE`. -/
def exited (th : Thread) : Thread :=
  { th with state := .zombie }

/-- `state = THREAD_UNUSED; running_on_core = -1`. -/
def retired (th : Thread) : Thread :=
  { th with state := .unused, runningOnCore := none }

end Thread

/-- How far a core has come in `schedule`, `scheduler_start` or an exit. -/
inductive Phase where
  /-- Still on its own boot stack, no thread picked up yet. -/
  | boot
  /-- Executing its current thread. -/
  | running
  /-- In `thread_exit_code`, after the slot was marked `ZOMBIE`. -/
  | exiting
  /-- Lock released; about to call `kfree(zombie_stack)`. -/
  | reap (stack : Nat) (next : Slot)
  /-- About to call `switch_context(&discard_rsp[core], threads[next].rsp)`. -/
  | discard (next : Slot)
  /-- Inside `switch_context`, with the value read from `threads[next].rsp`. -/
  | jump (next : Slot) (rsp : Nat)
  /-- About to call `switch_context_release`. -/
  | release (prev next : Slot)
  /-- Inside `switch_context_release`, before `mov %rsp, (%rdi)`. -/
  | save (prev next : Slot) (rsp : Nat)
  /-- Inside `switch_context_release`, before `movl $-1, (%rdx)`. -/
  | clear (prev next : Slot) (rsp : Nat)
deriving DecidableEq

namespace Phase

/-- The preempted thread whose context this core has not yet given up. -/
def pending : Phase → Option Slot
  | release prev _ => some prev
  | save prev _ _ => some prev
  | clear prev _ _ => some prev
  | _ => none

/-- The thread this core is on its way to. -/
def target : Phase → Option Slot
  | reap _ next => some next
  | discard next => some next
  | jump next _ => some next
  | release _ next => some next
  | save _ next _ => some next
  | clear _ next _ => some next
  | _ => none

/-- A core that executes ordinary kernel code. -/
def canCall (p : Phase) : Prop := p = boot ∨ p = running

instance (p : Phase) : Decidable p.canCall :=
  inferInstanceAs (Decidable (_ ∨ _))

end Phase

/--
The shared tables of `scheduler.c`, the kernel heap, the cells that exit code
pointers point to, and for each core its `CR3`, its `TSS.RSP0` and its phase.
-/
structure System where
  threads : Slot → Thread
  activeCount : Nat
  currentThread : Nat → Option Slot
  idleTid : Nat → Option Slot
  heap : Heap.State
  exitCodes : Nat → Int
  cr3 : Nat → Nat
  rsp0 : Nat → Nat
  phase : Nat → Phase

/-- Addresses that the linker and `vmm_init` fix. -/
structure Platform where
  threadTrampoline : Nat
  idleLoop : Nat
  kernelCr3 : Nat

/-- Why the machine stops. -/
inductive Stop where
  /-- `thread_create: too many threads`. -/
  | tooManyThreads
  /-- `thread_create: kmalloc failed`. -/
  | stackAllocFailed
  /-- `scheduler_start: no threads created`. -/
  | noThreadsCreated
  /-- `thread_exit_code: called with no current thread`. -/
  | noCurrentThread
  /-- `threads[-1]` would be accessed. -/
  | noSlot
  /-- The list walk of `kmalloc` does not end. -/
  | heapLoop
deriving DecidableEq

namespace System

/-- `threads[t] = th`. -/
def setThread (s : System) (t : Slot) (th : Thread) : System :=
  { s with threads := update s.threads t th }

def setPhase (s : System) (core : Nat) (p : Phase) : System :=
  { s with phase := update s.phase core p }

end System

/-- `scheduler_init`. -/
def schedulerInit (s : System) : System :=
  { s with
    threads := fun t => (s.threads t).retired
    activeCount := 0
    currentThread := fun _ => none
    idleTid := fun _ => none
    phase := fun _ => .boot }

/-- The scan of `thread_create_ex` for a free slot. -/
def firstUnused (threads : Slot → Thread) : Option Slot :=
  (List.finRange schedulerMaxThreads).find?
    (fun t => (threads t).state = .unused)

/-- The seven words below `top` that the first switch into a thread pops. -/
def initialFrame
    (mem : Store) (top trampoline entry arg : Nat) : Store :=
  let m := writeLE mem (top - 8) 8 trampoline
  let m := writeLE m (top - 16) 8 0
  let m := writeLE m (top - 24) 8 entry
  let m := writeLE m (top - 32) 8 arg
  let m := writeLE m (top - 40) 8 0
  let m := writeLE m (top - 48) 8 0
  writeLE m (top - 56) 8 0

/-- The frame is all that changes. -/
theorem initialFrame_outside
    (m : Store) {top a : Nat} (htop : 56 ≤ top) (tramp entry arg : Nat)
    (ha : a < top - 56 ∨ top ≤ a) : initialFrame m top tramp entry arg a = m a := by
  unfold initialFrame
  rw [writeLE_outside (by omega), writeLE_outside (by omega),
    writeLE_outside (by omega), writeLE_outside (by omega), writeLE_outside (by omega),
    writeLE_outside (by omega), writeLE_outside (by omega)]

/-- The thread that `thread_create_ex` builds on the block at `stack`. -/
def newThread (stack cr3 exitCodeOut : Nat) : Thread where
  rsp := stack + schedulerStackSize - 56
  cr3 := cr3
  kernelStackTop := stack + schedulerStackSize
  stackBase := stack
  state := .active
  runningOnCore := none
  heapBrk := Elf.userHeapVaddrStart
  exitCodeOut := exitCodeOut
  isIdle := false

/-- `thread_create_ex`. -/
def threadCreateEx
    (pf : Platform) (s : System) (entry arg cr3 exitCodeOut : Nat) :
    Except Stop (Slot × System) :=
  match firstUnused s.threads with
  | none => .error .tooManyThreads
  | some id =>
      match Heap.kmalloc s.heap schedulerStackSize with
      | none => .error .heapLoop
      | some (stack, heap) =>
          if stack = 0 then
            .error .stackAllocFailed
          else
            let mem :=
              initialFrame heap.mem (stack + schedulerStackSize)
                pf.threadTrampoline entry arg
            let s := s.setThread id (newThread stack cr3 exitCodeOut)
            .ok (id,
              { s with
                heap := { heap with mem := mem }
                activeCount := (s.activeCount + 1) % 2 ^ 32 })

/-- The body of the loop of `scheduler_create_idle_threads`. -/
def createIdleThread
    (pf : Platform) (s : System) (core : Nat) :
    Except Stop System :=
  (threadCreateEx pf s pf.idleLoop 0 pf.kernelCr3 0).map (fun r =>
    let s := r.2.setThread r.1 { r.2.threads r.1 with isIdle := true }
    { s with idleTid := update s.idleTid core (some r.1) })

/-- `scheduler_create_idle_threads(n)`. -/
def schedulerCreateIdleThreads
    (pf : Platform) (s : System) : Nat → Except Stop System
  | 0 => .ok s
  | n + 1 =>
      (schedulerCreateIdleThreads pf s n).bind (fun s =>
        createIdleThread pf s n)

/-- The condition under which `next_ready_after` picks a slot. -/
def Thread.Ready (th : Thread) : Prop :=
  th.state = .active ∧ th.runningOnCore = none ∧ th.isIdle = false

instance (th : Thread) : Decidable th.Ready :=
  inferInstanceAs (Decidable (_ ∧ _ ∧ _))

/-- The `int` value of a slot index, `-1` for `none`. -/
def slotIndex : Option Slot → Int
  | none => -1
  | some t => t.val

/-- `(start + i) % SCHEDULER_MAX_THREADS`, with the negative remainder fixed. -/
def slotAfter (start : Int) (i : Nat) : Slot :=
  ⟨((start + i) % (schedulerMaxThreads : Int)).toNat, by
    have hmod := Int.emod_lt_of_pos (start + i)
      (b := (schedulerMaxThreads : Int)) (by decide)
    have hnonneg := Int.emod_nonneg (start + i)
      (b := (schedulerMaxThreads : Int)) (by decide)
    omega⟩

/-- `next_ready_after`. -/
def nextReadyAfter (threads : Slot → Thread) (start : Option Slot) :
    Option Slot :=
  ((List.range schedulerMaxThreads).map
    (fun i => slotAfter (slotIndex start) (i + 1))).find?
      (fun t => (threads t).Ready)

/-- `prev_is_zombie`. -/
def prevIsZombie (s : System) (core : Nat) : Prop :=
  ∃ t, s.currentThread core = some t ∧ (s.threads t).state = .zombie

instance (s : System) (core : Nat) : Decidable (prevIsZombie s core) :=
  match h : s.currentThread core with
  | none => isFalse (by rintro ⟨t, ht, _⟩; rw [h] at ht; cases ht)
  | some t =>
      decidable_of_iff ((s.threads t).state = .zombie)
        ⟨fun ht => ⟨t, h, ht⟩, by
          rintro ⟨t', ht', hz⟩
          rw [h] at ht'
          cases ht'
          exact hz⟩

/-- What `schedule` decides under the lock. -/
inductive Decision where
  /-- Return and keep running the current thread. -/
  | stay
  /-- Switch to the slot with this index. -/
  | switchTo (next : Option Slot)
deriving DecidableEq

/-- The choice of `next` in `schedule`. -/
def scheduleDecision (s : System) (core : Nat) : Decision :=
  if ¬ prevIsZombie s core ∧ s.activeCount ≤ 1 then
    .stay
  else
    match nextReadyAfter s.threads (s.currentThread core) with
    | some next => .switchTo (some next)
    | none =>
        if prevIsZombie s core then
          .switchTo (s.idleTid core)
        else
          .stay

/-- `current_thread[core] = next; threads[next].running_on_core = core`. -/
def claim (s : System) (core : Nat) (next : Slot) : System :=
  { s with
    currentThread := update s.currentThread core (some next)
    threads :=
      update s.threads next ((s.threads next).heldBy core) }

/-- The slot of a zombie becomes reusable. -/
def retire (s : System) (prev : Slot) : System :=
  { s with
    threads := update s.threads prev (s.threads prev).retired
    activeCount := (s.activeCount + (2 ^ 32 - 1)) % 2 ^ 32 }

/-- `vmm_load_cr3` and `tss_set_kernel_stack` for the chosen thread. -/
def loadContext (s : System) (core : Nat) (next : Slot) : System :=
  { s with
    cr3 := update s.cr3 core (s.threads next).cr3
    rsp0 := update s.rsp0 core (s.threads next).kernelStackTop }

/-- The part of `schedule` under the lock, once `next` is chosen. -/
def switchUnderLock (s : System) (core : Nat) (next : Slot) : System :=
  let claimed := claim s core next
  match s.currentThread core with
  | none => (loadContext claimed core next).setPhase core (.discard next)
  | some prev =>
      if (s.threads prev).state = .zombie then
        let stack := (claimed.threads prev).stackBase
        (loadContext (retire claimed prev) core next).setPhase core
          (if stack = 0 then .release prev next else .reap stack next)
      else
        (loadContext claimed core next).setPhase core (.release prev next)

/-- `schedule`, up to the release of the lock. -/
def schedule (s : System) (core : Nat) : Except Stop System :=
  match scheduleDecision s core with
  | .stay => .ok s
  | .switchTo none => .error .noSlot
  | .switchTo (some next) => .ok (switchUnderLock s core next)

/-- The choice of `first` in `scheduler_start`. -/
def startChoice (s : System) (core : Nat) : Option Slot :=
  (nextReadyAfter s.threads none).or (s.idleTid core)

/-- `scheduler_start`, up to the release of the lock. -/
def schedulerStart (s : System) (core : Nat) : Except Stop System :=
  if s.activeCount = 0 then
    .error .noThreadsCreated
  else
    match startChoice s core with
    | none => .error .noSlot
    | some first =>
        .ok ((loadContext (claim s core first) core first).setPhase core
          (.discard first))

/-- `thread_exit_code`, up to its call of `schedule`. -/
def threadExitCode (s : System) (core : Nat) (code : Int) :
    Except Stop System :=
  match s.currentThread core with
  | none => .error .noCurrentThread
  | some tid =>
      let out := (s.threads tid).exitCodeOut
      let s :=
        { s with
          exitCodes :=
            if out = 0 then s.exitCodes
            else update s.exitCodes out code }
      .ok ((s.setThread tid (s.threads tid).exited).setPhase core .exiting)

/-- Everything a core can do next. -/
inductive Label where
  /-- `thread_create`, `thread_create_process` or `thread_create_process_arg`. -/
  | create (core entry arg cr3 exitCodeOut : Nat)
  | schedule (core : Nat)
  | start (core : Nat)
  | exit (core : Nat) (code : Int)
  | reapStack (core : Nat)
  | readRsp (core : Nat)
  | saveRsp (core rsp : Nat)
  | clearFlag (core : Nat)
  | switchTo (core : Nat)
  | kmalloc (core size : Nat)
  | kfree (core ptr : Nat)
deriving DecidableEq

/-- The core that takes a step. -/
def Label.core : Label → Nat
  | create core _ _ _ _ => core
  | schedule core => core
  | start core => core
  | exit core _ => core
  | reapStack core => core
  | readRsp core => core
  | saveRsp core _ => core
  | clearFlag core => core
  | switchTo core => core
  | kmalloc core _ => core
  | kfree core _ => core

/-- A thread that may call `thread_exit_code`: idle threads never do. -/
def mayExit (s : System) (core : Nat) : Prop :=
  s.phase core = .running ∧
    ∀ t, s.currentThread core = some t → (s.threads t).isIdle = false

instance (s : System) (core : Nat) : Decidable (mayExit s core) :=
  match h : s.currentThread core with
  | none =>
      decidable_of_iff (s.phase core = .running) (by simp [mayExit, h])
  | some t =>
      decidable_of_iff
        (s.phase core = .running ∧ (s.threads t).isIdle = false)
        (by simp [mayExit, h])

/--
One atomic step of one core.  A label is not enabled when the core's phase does
not allow it, and a step that stops the machine has no successor.
-/
def act (pf : Platform) (s : System) : Label → Option System
  | .create core entry arg cr3 exitCodeOut =>
      if (s.phase core).canCall then
        ((threadCreateEx pf s entry arg cr3 exitCodeOut).map Prod.snd).toOption
      else
        none
  | .schedule core =>
      if (s.phase core).canCall ∨ s.phase core = .exiting then
        (schedule s core).toOption
      else
        none
  | .start core =>
      if s.phase core = .boot then (schedulerStart s core).toOption else none
  | .exit core code =>
      if mayExit s core then (threadExitCode s core code).toOption else none
  | .reapStack core =>
      match s.phase core with
      | .reap stack next =>
          some
            ({ s with heap := Heap.kfree s.heap stack }.setPhase core
              (.discard next))
      | _ => none
  | .readRsp core =>
      match s.phase core with
      | .discard next =>
          some (s.setPhase core (.jump next (s.threads next).rsp))
      | .release prev next =>
          some (s.setPhase core (.save prev next (s.threads next).rsp))
      | _ => none
  | .saveRsp core rsp =>
      match s.phase core with
      | .save prev next new =>
          some
            ((s.setThread prev { s.threads prev with rsp := rsp }).setPhase
              core (.clear prev next new))
      | _ => none
  | .clearFlag core =>
      match s.phase core with
      | .clear prev _ _ =>
          some
            ((s.setThread prev (s.threads prev).released).setPhase core
              .running)
      | _ => none
  | .switchTo core =>
      match s.phase core with
      | .jump _ _ => some (s.setPhase core .running)
      | _ => none
  | .kmalloc core size =>
      if (s.phase core).canCall then
        (Heap.kmalloc s.heap size).map (fun r => { s with heap := r.2 })
      else
        none
  | .kfree core ptr =>
      if (s.phase core).canCall then
        some { s with heap := Heap.kfree s.heap ptr }
      else
        none

/-- A step of the machine with `n` cores. -/
def step (pf : Platform) (n : Nat) (s : System) (l : Label) : Option System :=
  if l.core < n then act pf s l else none

/-- `scheduler_init` and `scheduler_create_idle_threads(n)`. -/
def boot (pf : Platform) (n : Nat) (s : System) : Except Stop System :=
  schedulerCreateIdleThreads pf (schedulerInit s) n

end Scheduler
end RebornOS
