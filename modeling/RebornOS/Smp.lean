import RebornOS.HeapCallSequences
import RebornOS.LabeledRun

/-!
# Starting the application processors: `smp.c` and `ap_trampoline.S`

The boot core starts one processor after the other.  For each it fills a mailbox
of global variables, sends the startup interrupts, and waits for a counter to
change or for a timeout.  A started processor reads the mailbox (`ap_stack_top`
in `lm64_entry`, `ap_core_index` in `ap_entry`), loads the task state segment of
its index, and increments the counter.

How long a processor takes is not bounded, so each access is a step of its own,
and a processor may take its steps after the boot core has given up on it and has
filled the mailbox for the next one.

`ap_cr3` and `ap_entry_point` are the same for all and left out.
-/

namespace RebornOS
namespace Smp

open LabeledRun Function

variable {bsp : Nat}

/-- `SMP_MAX_CPUS`. -/
def smpMaxCpus : Nat := 16

/-- `AP_STACK_SIZE`. -/
def apStackSize : Nat := 16 * 1024

/-- How far the boot core has come in the loop of `smp_init`, and after it. -/
inductive BootStage where
  /-- At the head of the loop, with the rest of `apic_ids`. -/
  | loop (rest : List Nat)
  /-- `ap_stack_top` is set for `id`. -/
  | stackStored (id : Nat) (rest : List Nat)
  /-- `ap_core_index` is set for `id`. -/
  | indexStored (id : Nat) (rest : List Nat)
  /-- `before = ap_started_count`. -/
  | sampled (id : Nat) (rest : List Nat) (before : Nat)
  /-- The startup interrupts are sent; in the loop `while (ap_started_count == before)`. -/
  | spinning (id : Nat) (rest : List Nat) (before : Nat)
  /-- Out of that loop, before the last look at the counter. -/
  | leaving (id : Nat) (rest : List Nat) (before : Nat)
  /-- `smp_signal_scheduler_ready` was called. -/
  | signalled
  /-- In `scheduler_start`. -/
  | joined
deriving DecidableEq

/-- How far an application processor has come. -/
inductive ApStage where
  | off
  /-- The startup interrupt has arrived. -/
  | started
  /-- `rsp` is loaded from `ap_stack_top`. -/
  | onStack (top : Nat)
  /-- `my_index` is read and its task state segment is loaded. -/
  | indexed (top index : Nat)
  /-- `ap_started_count` is incremented; waiting for `scheduler_ready`. -/
  | counted (top index : Nat)
  /-- In `scheduler_start`. -/
  | joined (top index : Nat)
deriving DecidableEq

/-- The globals of `smp.c`, the heap, and the progress of every core. -/
structure State where
  heap : Heap.State
  apStackTop : Nat
  apCoreIndex : Nat
  apStartedCount : Nat
  cpuCount : Nat
  coreApicIds : Nat → Nat
  schedulerReady : Bool
  boot : BootStage
  /-- The application processors, by APIC id. -/
  ap : Nat → ApStage

variable {s s' : State}

/-- `smp_current_cpu_index` on the core with APIC id `id`. -/
def smpCurrentCpuIndex (s : State) (id : Nat) : Nat :=
  ((List.range s.cpuCount).find? (fun i => s.coreApicIds i = id)).getD 0

/-- `core_apic_ids[cpu_count] = id; cpu_count++`. -/
def addCore (s : State) (id : Nat) : State :=
  { s with
    coreApicIds := update s.coreApicIds s.cpuCount id
    cpuCount := s.cpuCount + 1 }

/-- The next step of the boot core; a null stack and an index out of bounds stop it. -/
def bootStep (bsp : Nat) (s : State) : Option State :=
  match s.boot with
  | .loop [] =>
      some { s with schedulerReady := true, boot := .signalled }
  | .loop (id :: rest) =>
      if id = bsp then
        some { s with boot := .loop rest }
      else
        (Heap.kmalloc s.heap apStackSize).bind (fun r =>
          if r.1 = 0 then
            none
          else
            some
              { s with
                heap := r.2
                apStackTop := r.1 + apStackSize
                boot := .stackStored id rest })
  | .stackStored id rest =>
      some { s with apCoreIndex := s.cpuCount, boot := .indexStored id rest }
  | .indexStored id rest =>
      some { s with boot := .sampled id rest s.apStartedCount }
  | .sampled id rest before =>
      some
        { s with
          ap := update s.ap id .started
          boot := .spinning id rest before }
  | .spinning id rest before =>
      if s.apStartedCount = before then
        none
      else
        some { s with boot := .leaving id rest before }
  | .leaving id rest before =>
      if s.apStartedCount = before then
        some { s with boot := .loop rest }
      else if s.cpuCount < smpMaxCpus then
        some { addCore s id with boot := .loop rest }
      else
        none
  | .signalled => some { s with boot := .joined }
  | .joined => none

/-- The boot core runs into its timeout. -/
def giveUp (s : State) : Option State :=
  match s.boot with
  | .spinning id rest before =>
      if s.apStartedCount = before then
        some { s with boot := .leaving id rest before }
      else
        none
  | _ => none

/-- The next step of the application processor `id`. -/
def apStep (s : State) (id : Nat) : Option State :=
  match s.ap id with
  | .off => none
  | .started =>
      some { s with ap := update s.ap id (.onStack s.apStackTop) }
  | .onStack top =>
      if s.apCoreIndex < smpMaxCpus then
        some { s with ap := update s.ap id (.indexed top s.apCoreIndex) }
      else
        none
  | .indexed top index =>
      some
        { s with
          apStartedCount := (s.apStartedCount + 1) % 2 ^ 32
          ap := update s.ap id (.counted top index) }
  | .counted top index =>
      if s.schedulerReady then
        some { s with ap := update s.ap id (.joined top index) }
      else
        none
  | .joined _ _ => none

/-- Who takes the next step. -/
inductive Event where
  | boot
  | giveUp
  | ap (id : Nat)
deriving DecidableEq

def step (bsp : Nat) (s : State) : Event → Option State
  | .boot => bootStep bsp s
  | .giveUp => giveUp s
  | .ap id => apStep s id

/--
`smp_init` after `acpi_find_local_apic_ids`, which keeps the first `SMP_MAX_CPUS`
of the enabled local APICs that the MADT lists.
-/
def smpInit (heap : Heap.State) (bsp : Nat) (madt : List Nat) : State where
  heap := heap
  apStackTop := 0
  apCoreIndex := 0
  apStartedCount := 0
  cpuCount := 1
  coreApicIds := update (fun _ => 0) 0 bsp
  schedulerReady := false
  boot := .loop (madt.take smpMaxCpus)
  ap := fun _ => .off

/-- What no variable of the source records: for which processor a value was meant. -/
structure History where
  /-- The stack that was allocated for a processor. -/
  stackTop : Nat → Option Nat
  /-- The index that was assigned to a processor. -/
  assigned : Nat → Option Nat
  /-- Whose stack is in `ap_stack_top`. -/
  stackOwner : Option Nat
  /-- Whose index is in `ap_core_index`. -/
  indexOwner : Option Nat
  /-- Whose stack a processor has read. -/
  stackFrom : Nat → Option Nat
  /-- Whose index a processor has read. -/
  indexFrom : Nat → Option Nat

def initialHistory : History where
  stackTop := fun _ => none
  assigned := fun _ => none
  stackOwner := none
  indexOwner := none
  stackFrom := fun _ => none
  indexFrom := fun _ => none

def recordBoot (s' : State) (h : History) : History :=
  match s'.boot with
  | .stackStored id _ =>
      { h with
        stackTop := update h.stackTop id (some s'.apStackTop)
        stackOwner := some id }
  | .indexStored id _ =>
      { h with
        assigned := update h.assigned id (some s'.apCoreIndex)
        indexOwner := some id }
  | _ => h

def recordAp (s' : State) (id : Nat) (h : History) : History :=
  match s'.ap id with
  | .onStack _ =>
      { h with stackFrom := update h.stackFrom id h.stackOwner }
  | .indexed _ _ =>
      { h with indexFrom := update h.indexFrom id h.indexOwner }
  | _ => h

/-- The history after a step to `s'`. -/
def record (_ : State) (e : Event) (s' : State) (h : History) : History :=
  match e with
  | .boot => recordBoot s' h
  | .giveUp => h
  | .ap id => recordAp s' id h

/-- What a step does. -/
inductive Move (bsp : Nat) (s : State) (h : History) :
    Event → State → History → Prop
  | signal
      (hboot : s.boot = .loop []) :
      Move bsp s h .boot { s with schedulerReady := true, boot := .signalled } h
  | join
      (hboot : s.boot = .signalled) :
      Move bsp s h .boot { s with boot := .joined } h
  | skip {rest : List Nat}
      (hboot : s.boot = .loop (bsp :: rest)) :
      Move bsp s h .boot { s with boot := .loop rest } h
  | storeStack {id p : Nat} {rest : List Nat} {heap : Heap.State}
      (hboot : s.boot = .loop (id :: rest)) (hid : id ≠ bsp)
      (hk : Heap.kmalloc s.heap apStackSize = some (p, heap)) (hp : p ≠ 0) :
      Move bsp s h .boot
        { s with
          heap := heap
          apStackTop := p + apStackSize
          boot := .stackStored id rest }
        { h with
          stackTop := update h.stackTop id (some (p + apStackSize))
          stackOwner := some id }
  | storeIndex {id : Nat} {rest : List Nat}
      (hboot : s.boot = .stackStored id rest) :
      Move bsp s h .boot
        { s with apCoreIndex := s.cpuCount, boot := .indexStored id rest }
        { h with
          assigned := update h.assigned id (some s.cpuCount)
          indexOwner := some id }
  | sample {id : Nat} {rest : List Nat}
      (hboot : s.boot = .indexStored id rest) :
      Move bsp s h .boot { s with boot := .sampled id rest s.apStartedCount } h
  | sendStartup {id before : Nat} {rest : List Nat}
      (hboot : s.boot = .sampled id rest before) :
      Move bsp s h .boot
        { s with
          ap := update s.ap id .started
          boot := .spinning id rest before }
        h
  | see {id before : Nat} {rest : List Nat}
      (hboot : s.boot = .spinning id rest before) (hseen : s.apStartedCount ≠ before) :
      Move bsp s h .boot { s with boot := .leaving id rest before } h
  | timeout {id before : Nat} {rest : List Nat}
      (hboot : s.boot = .spinning id rest before) (hunseen : s.apStartedCount = before) :
      Move bsp s h .giveUp { s with boot := .leaving id rest before } h
  | drop {id before : Nat} {rest : List Nat}
      (hboot : s.boot = .leaving id rest before) (hunseen : s.apStartedCount = before) :
      Move bsp s h .boot { s with boot := .loop rest } h
  | credit {id before : Nat} {rest : List Nat}
      (hboot : s.boot = .leaving id rest before) (hseen : s.apStartedCount ≠ before)
      (hmax : s.cpuCount < smpMaxCpus) :
      Move bsp s h .boot { addCore s id with boot := .loop rest } h
  | readStack {id : Nat}
      (hap : s.ap id = .started) :
      Move bsp s h (.ap id)
        { s with ap := update s.ap id (.onStack s.apStackTop) }
        { h with stackFrom := update h.stackFrom id h.stackOwner }
  | readIndex {id top : Nat}
      (hap : s.ap id = .onStack top) :
      Move bsp s h (.ap id)
        { s with ap := update s.ap id (.indexed top s.apCoreIndex) }
        { h with indexFrom := update h.indexFrom id h.indexOwner }
  | count {id top index : Nat}
      (hap : s.ap id = .indexed top index) :
      Move bsp s h (.ap id)
        { s with
          apStartedCount := (s.apStartedCount + 1) % 2 ^ 32
          ap := update s.ap id (.counted top index) }
        h
  | enter {id top index : Nat}
      (hap : s.ap id = .counted top index) (hready : s.schedulerReady = true) :
      Move bsp s h (.ap id)
        { s with ap := update s.ap id (.joined top index) } h

theorem move_of_bootStep
    (h : History) (hstep : bootStep bsp s = some s') :
    Move bsp s h .boot s' (recordBoot s' h) := by
  unfold bootStep at hstep
  split at hstep
  case h_1 hboot =>
    cases hstep
    exact .signal hboot
  case h_2 id rest hboot =>
    split_ifs at hstep with hid
    · cases hstep
      subst hid
      exact .skip hboot
    · obtain ⟨⟨p, heap⟩, hk, hstep⟩ := Option.bind_eq_some_iff.mp hstep
      split_ifs at hstep with hp
      cases hstep
      exact .storeStack hboot hid hk hp
  case h_3 hboot =>
    cases hstep
    exact .storeIndex hboot
  case h_4 hboot =>
    cases hstep
    exact .sample hboot
  case h_5 hboot =>
    cases hstep
    exact .sendStartup hboot
  case h_6 hboot =>
    split_ifs at hstep with hseen
    cases hstep
    exact .see hboot hseen
  case h_7 hboot =>
    split_ifs at hstep with hunseen hmax
    · cases hstep
      exact .drop hboot hunseen
    · cases hstep
      exact .credit hboot hunseen hmax
  case h_8 hboot =>
    cases hstep
    exact .join hboot
  case h_9 =>
    cases hstep

theorem move_of_apStep
    {id : Nat} (h : History) (hstep : apStep s id = some s') :
    Move bsp s h (.ap id) s' (recordAp s' id h) := by
  unfold apStep at hstep
  split at hstep
  case h_1 =>
    cases hstep
  case h_2 hap =>
    cases hstep
    simpa [recordAp] using Move.readStack hap
  case h_3 hap =>
    split_ifs at hstep
    cases hstep
    simpa [recordAp] using Move.readIndex hap
  case h_4 hap =>
    cases hstep
    simpa [recordAp] using Move.count hap
  case h_5 hap =>
    split_ifs at hstep with hready
    cases hstep
    simpa [recordAp] using Move.enter hap hready
  case h_6 =>
    cases hstep

theorem move_of_giveUp
    (h : History) (hstep : giveUp s = some s') : Move bsp s h .giveUp s' h := by
  unfold giveUp at hstep
  split at hstep
  case h_1 hboot =>
    split_ifs at hstep with hunseen
    cases hstep
    exact .timeout hboot hunseen
  case h_2 =>
    cases hstep

theorem move_of_step
    {x y : State × History} {e : Event}
    (hstep : withHistory (step bsp) record x e = some y) :
    Move bsp x.1 x.2 e y.1 y.2 := by
  obtain ⟨hs, hy⟩ := withHistory_eq_some.mp hstep
  rw [hy]
  cases e with
  | boot =>
      exact move_of_bootStep x.2 hs
  | giveUp =>
      exact move_of_giveUp x.2 hs
  | ap id =>
      exact move_of_apStep x.2 hs

/-- What a core in `scheduler_start` runs on; `none` is the boot stack. -/
structure Identity where
  stackTop : Option Nat
  tss : Nat
deriving DecidableEq

/-- The cores that have reached `scheduler_start`. -/
def identity (bsp : Nat) (s : State) (id : Nat) : Option Identity :=
  if id = bsp then
    if s.boot = .joined then some ⟨none, 0⟩ else none
  else
    match s.ap id with
    | .joined top index => some ⟨some top, index⟩
    | _ => none

/-- Two stacks do not overlap.  The boot stack is not part of the heap. -/
def Apart : Option Nat → Option Nat → Prop
  | some top, some top' => top + apStackSize ≤ top' ∨ top' + apStackSize ≤ top
  | none, none => False
  | _, _ => True

/-- Every core in `scheduler_start` has an identity of its own. -/
structure OwnIdentities (bsp : Nat) (s : State) (h : History) : Prop where
  /-- A processor runs under the index that it was assigned. -/
  assigned :
    ∀ a i, identity bsp s a = some i → a ≠ bsp → h.assigned a = some i.tss
  index :
    ∀ a i, identity bsp s a = some i → smpCurrentCpuIndex s a = i.tss
  cpu :
    ∀ a b i j, identity bsp s a = some i → identity bsp s b = some j → a ≠ b →
      smpCurrentCpuIndex s a ≠ smpCurrentCpuIndex s b
  tss :
    ∀ a b i j, identity bsp s a = some i → identity bsp s b = some j → a ≠ b →
      i.tss ≠ j.tss
  stack :
    ∀ a b i j, identity bsp s a = some i → identity bsp s b = some j → a ≠ b →
      Apart i.stackTop j.stackTop

end Smp
end RebornOS
