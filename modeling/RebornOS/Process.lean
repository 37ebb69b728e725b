import RebornOS.SchedulerRuns

/-!
# Spawning, waiting and exiting: `process.c` and `thread_exit_code`

The scheduler model executes `thread_exit_code` in one step and knows nothing of
the threads that wait for a child.  This module cuts both into the accesses other
cores can interleave with:

* `process_spawn_args_and_wait` enters with a local `exit_code`, creates the
  child, and then alternates between the unlocked poll `thread_is_alive(tid)`
  and a call of `schedule`;
* `thread_exit_code` reads the index of its core, reads `current_thread[core]`,
  writes through `exit_code_out`, and only then disables interrupts and marks
  the slot `ZOMBIE`.

What a thread holds in its registers and in its frame between two such accesses
belongs to the thread and not to the core, so it is kept per slot (`Task`): a
preempted thread may go on with it on another core.  The kernel's remaining
steps are those of the scheduler model.
-/

namespace RebornOS
namespace Process

open Scheduler LabeledRun Function

/-- `thread_is_alive`. -/
def threadIsAlive (s : System) (tid : Int) : Bool :=
  if h : 0 ≤ tid ∧ tid < (schedulerMaxThreads : Int) then
    (s.threads ⟨tid.toNat, by omega⟩).state = .active
  else
    false

theorem threadIsAlive_slot
    (s : System) (t : Slot) :
    threadIsAlive s (t.val : Int) = decide ((s.threads t).state = .active) := by
  have ht : (0 : Int) ≤ (t.val : Int) ∧ (t.val : Int) < (schedulerMaxThreads : Int) :=
    ⟨Int.natCast_nonneg _, Int.ofNat_lt.mpr t.isLt⟩
  unfold threadIsAlive
  rw [dif_pos ht]
  rfl

/-- How far the thread in a slot has come in the functions of this module. -/
inductive Task where
  /-- Anywhere else. -/
  | other
  /-- `process_spawn_args_and_wait`, with `exit_code` at `cell`, before the spawn. -/
  | spawning (cell : Nat)
  /-- In the wait loop, before `thread_is_alive(tid)`. -/
  | polling (cell : Nat) (tid : Slot)
  /-- In the wait loop, before `schedule()`. -/
  | yielding (cell : Nat) (tid : Slot)
  /-- `thread_exit_code(code)` has read `core`. -/
  | exitCore (masked : Bool) (code : Int) (core : Nat)
  /-- It has read `tid`. -/
  | exitTid (masked : Bool) (code : Int) (tid : Slot)
  /-- It has delivered the exit code. -/
  | exitSent (masked : Bool) (tid : Slot)
  /-- It has marked the slot and only calls `schedule()` from now on. -/
  | exitLoop
deriving DecidableEq

namespace Task

/-- Interrupts were disabled on entry to `thread_exit_code`. -/
def masked : Task → Bool
  | exitCore masked _ _ => masked
  | exitTid masked _ _ => masked
  | exitSent masked _ => masked
  | _ => false

/-- The address of `exit_code` in the frame of `process_spawn_args_and_wait`. -/
def cell : Task → Option Nat
  | spawning cell => some cell
  | polling cell _ => some cell
  | yielding cell _ => some cell
  | _ => none

/-- The slot whose end the wait loop is waiting for. -/
def awaits : Task → Option Slot
  | polling _ tid => some tid
  | yielding _ tid => some tid
  | _ => none

/-- The core index that `thread_exit_code` has read. -/
def index : Task → Option Nat
  | exitCore _ _ core => some core
  | _ => none

/-- The slot that `thread_exit_code` is about to end. -/
def ending : Task → Option Slot
  | exitTid _ _ tid => some tid
  | exitSent _ tid => some tid
  | _ => none

end Task

/-- The scheduler, the progress of every thread, and what its last wait returned. -/
structure Machine where
  sys : System
  task : Slot → Task
  result : Slot → Int

namespace Machine

def setTask (m : Machine) (t : Slot) (task : Task) : Machine :=
  { m with task := update m.task t task }

@[simp] theorem setTask_task_self
    (m : Machine) (t : Slot) (task : Task) : (m.setTask t task).task t = task :=
  update_self _ _ _

/-- The task of the thread a core executes. -/
def taskOn (m : Machine) (core : Nat) : Task :=
  match m.sys.currentThread core with
  | none => .other
  | some t => m.task t

/-- The thread that executes on `core` outside the scheduler. -/
def caller (m : Machine) (core : Nat) : Option Slot :=
  if m.sys.phase core = .running then m.sys.currentThread core else none

/-- The same for `thread_exit_code`, which idle threads never call. -/
def exitCaller (m : Machine) (core : Nat) : Option Slot :=
  if mayExit m.sys core then m.sys.currentThread core else none

/-- `cell` is the address of no local variable of a live frame. -/
def FreshCell (m : Machine) (cell : Nat) : Prop :=
  cell ≠ 0 ∧ ∀ t, (m.task t).cell ≠ some cell

instance (m : Machine) (cell : Nat) : Decidable (m.FreshCell cell) :=
  inferInstanceAs (Decidable (_ ∧ _))

/-- `*cell = code`. -/
def store (m : Machine) (cell : Nat) (code : Int) : Machine :=
  { m with
    sys :=
      { m.sys with exitCodes := update m.sys.exitCodes cell code } }

/-- `thread_create_ex`; the new thread starts from its entry point. -/
def createThread
    (pf : Platform) (m : Machine) (entry arg cr3 exitCodeOut : Nat) :
    Option (Slot × Machine) :=
  match threadCreateEx pf m.sys entry arg cr3 exitCodeOut with
  | .error _ => none
  | .ok (id, s) =>
      some (id, { m with sys := s, task := update m.task id .other })

end Machine

/-- Everything that can happen next. -/
inductive Event where
  /-- A step of the scheduler or the heap. -/
  | kernel (l : Label)
  /-- `thread_create`, `thread_create_process` or `process_spawn_args`. -/
  | create (core entry arg cr3 : Nat)
  /-- `int64_t exit_code = 0`, in a frame where it has the address `cell`. -/
  | enterWait (core cell : Nat)
  /-- `process_spawn_args_ex` creates the child. -/
  | spawn (core entry arg cr3 : Nat)
  /-- `process_spawn_args_ex` finds no program. -/
  | spawnFails (core : Nat)
  | poll (core : Nat)
  | yield (core : Nat)
  | exitIndex (core : Nat) (masked : Bool) (code : Int)
  | exitRead (core : Nat)
  | exitWrite (core : Nat)
  | exitMark (core : Nat)
deriving DecidableEq

/-- The core that takes a step. -/
def Event.core : Event → Nat
  | kernel l => l.core
  | create core _ _ _ => core
  | enterWait core _ => core
  | spawn core _ _ _ => core
  | spawnFails core => core
  | poll core => core
  | yield core => core
  | exitIndex core _ _ => core
  | exitRead core => core
  | exitWrite core => core
  | exitMark core => core

/--
The steps of the scheduler model that a core may take on top of its thread's
task.  A timer interrupt calls `schedule` unless interrupts are disabled; thread
creation and exit are replaced by the events above.
-/
def allowed (m : Machine) : Label → Bool
  | .create _ _ _ _ _ => false
  | .exit _ _ => false
  | .schedule core => !(m.taskOn core).masked
  | .kmalloc core _ => m.taskOn core = .other
  | .kfree core _ => m.taskOn core = .other
  | _ => true

/-- `(int)exit_code`. -/
def toInt (code : Int) : Int := code.bmod (2 ^ 32)

/-- `process_spawn_args_and_wait` as the thread `t` executes it. -/
def processSpawnArgsAndWait
    (pf : Platform) (m : Machine) (t : Slot) : Task → Event → Option Machine
  | .other, .enterWait _ cell =>
      if m.FreshCell cell then
        some ((m.store cell 0).setTask t (.spawning cell))
      else
        none
  | .spawning cell, .spawn _ entry arg cr3 =>
      (m.createThread pf entry arg cr3 cell).map (fun r =>
        r.2.setTask t (.polling cell r.1))
  | .spawning _, .spawnFails _ =>
      some
        ({ m with result := update m.result t (-1) }.setTask t .other)
  | .polling cell tid, .poll _ =>
      if threadIsAlive m.sys tid.val then
        some (m.setTask t (.yielding cell tid))
      else
        some
          ({ m with
            result :=
              update m.result t (toInt (m.sys.exitCodes cell)) }.setTask
                t .other)
  | .yielding cell tid, .yield core =>
      (Scheduler.schedule m.sys core).toOption.map (fun s =>
        { m with sys := s }.setTask t (.polling cell tid))
  | _, _ => none

/-- `thread_exit_code` as the thread `t` executes it. -/
def threadExitCode
    (m : Machine) (t : Slot) : Task → Event → Option Machine
  | .other, .exitIndex core masked code =>
      some (m.setTask t (.exitCore masked code core))
  | .exitCore masked code core, .exitRead _ =>
      -- without a current thread this is the panic
      (m.sys.currentThread core).map (fun tid =>
        m.setTask t (.exitTid masked code tid))
  | .exitTid masked code tid, .exitWrite _ =>
      let out := (m.sys.threads tid).exitCodeOut
      some
        ((if out = 0 then m else m.store out code).setTask t
          (.exitSent masked tid))
  | .exitSent _ tid, .exitMark core =>
      some
        ({ m with
          sys :=
            (m.sys.setThread tid (m.sys.threads tid).exited).setPhase core
              .exiting }.setTask t .exitLoop)
  | _, _ => none

/-- One step of one core. -/
def act (pf : Platform) (m : Machine) : Event → Option Machine
  | .kernel l =>
      if allowed m l then
        (Scheduler.act pf m.sys l).map (fun s => { m with sys := s })
      else
        none
  | .create core entry arg cr3 =>
      if (m.sys.phase core).canCall ∧ m.taskOn core = .other then
        (m.createThread pf entry arg cr3 0).map Prod.snd
      else
        none
  | .exitIndex core masked code =>
      (m.exitCaller core).bind (fun t =>
        threadExitCode m t (m.task t) (.exitIndex core masked code))
  | .exitRead core =>
      (m.exitCaller core).bind (fun t =>
        threadExitCode m t (m.task t) (.exitRead core))
  | .exitWrite core =>
      (m.exitCaller core).bind (fun t =>
        threadExitCode m t (m.task t) (.exitWrite core))
  | .exitMark core =>
      (m.exitCaller core).bind (fun t =>
        threadExitCode m t (m.task t) (.exitMark core))
  | e =>
      (m.caller e.core).bind (fun t =>
        processSpawnArgsAndWait pf m t (m.task t) e)

/-- A step of the machine with `n` cores. -/
def step (pf : Platform) (n : Nat) (m : Machine) (e : Event) : Option Machine :=
  if e.core < n then act pf m e else none

/-- No thread is in any of the functions when the scheduler has booted. -/
def booted (s : System) : Machine where
  sys := s
  task := fun _ => .other
  result := fun _ => 0

end Process
end RebornOS
