import RebornOS.LabeledRun
import RebornOS.Scheduler
import RebornOS.StackMachine

/-!
# Context switches, instruction by instruction

`switch_context` and `switch_context_release` push the callee-saved registers,
store the stack pointer, load another thread's and pop its registers; the first
switch into a thread pops the frame that `thread_create_ex` wrote.  Here the two
routines are the instruction lists of `context_switch.S`, run on registers and
memory, and the frame is the one of `threadCreateEx`.

The instruction pointer is a register, so that `call` pushes it and `ret` pops it.

* `saveRestore_spec` is what either routine does to registers and memory.
* `SavedInv`: in memory below its saved stack pointer, every suspended thread has
  its registers.
* `contexts_preserved` is the result about all sequences of switches.
-/

namespace RebornOS
namespace ContextSwitch

open ByteStore StackMachine LabeledRun Scheduler Function

variable {τ κ : Type} {flag slot : Nat} {next prev t u : τ} {c : κ} {ret : BitVec 64}
  {m : Store}

section Code

inductive Reg
  | rip
  | rsp
  | rbp
  | rbx
  | r12
  | r13
  | r14
  | r15
  | rdi
  | rsi
  | rdx
deriving DecidableEq

/-- The instructions of the two routines. -/
inductive Instr
  | push (r : Reg)
  | pop (r : Reg)
  /-- `mov %src, (%ptr)`. -/
  | store (src ptr : Reg)
  /-- `movl $-1, (%ptr)`. -/
  | storeMinusOne (ptr : Reg)
  /-- `mov %src, %dst`. -/
  | mov (src dst : Reg)
  | ret

def exec (x : View Reg) : Instr → View Reg
  | .push r => push .rsp x r
  | .pop r => pop .rsp x r
  | .store src ptr =>
      { x with mem := writeLE x.mem (x.regs ptr).toNat 8 (x.regs src).toNat }
  | .storeMinusOne ptr =>
      { x with mem := writeLE x.mem (x.regs ptr).toNat 4 (2 ^ 32 - 1) }
  | .mov src dst => { x with regs := update x.regs dst (x.regs src) }
  | .ret => pop .rsp x .rip

def run (code : List Instr) (x : View Reg) : View Reg := code.foldl exec x

/-- `switch_context`. -/
def switchContext : List Instr :=
  [.push .rbp, .push .rbx, .push .r12, .push .r13, .push .r14, .push .r15,
    .store .rsp .rdi,
    .mov .rsi .rsp,
    .pop .r15, .pop .r14, .pop .r13, .pop .r12, .pop .rbx, .pop .rbp,
    .ret]

/-- `switch_context_release`. -/
def switchContextRelease : List Instr :=
  [.push .rbp, .push .rbx, .push .r12, .push .r13, .push .r14, .push .r15,
    .store .rsp .rdi,
    .storeMinusOne .rdx,
    .mov .rsi .rsp,
    .pop .r15, .pop .r14, .pop .r13, .pop .r12, .pop .rbx, .pop .rbp,
    .ret]

/-- A call with three arguments; `ret` is the address behind the call. -/
def call (code : List Instr) (rdi rsi rdx ret : BitVec 64) (x : View Reg) : View Reg :=
  let regs := update (update (update
    (update x.regs .rdi rdi) .rsi rsi) .rdx rdx) .rip ret
  run code (push .rsp ⟨regs, x.mem⟩ .rip)

/--
`thread_trampoline`: the entry point it calls and the argument in `rdi`, or
nothing if it goes to `thread_trampoline_null_entry_panic`.
-/
def threadTrampoline (regs : Reg → BitVec 64) : Option (BitVec 64 × BitVec 64) :=
  if regs .rbx = 0 then none else some (regs .rbx, regs .r12)

end Code

variable {x y : View Reg} {f : Reg → BitVec 64}

section Threads

variable (τ κ : Type)

/-- Where the threads' stacks and the variables of the scheduler lie. -/
structure Layout where
  /-- `threads[t].stack_base`. -/
  stackBase : τ → Nat
  /-- `&threads[t].rsp`. -/
  rspSlot : τ → Nat
  /-- `&threads[t].running_on_core`. -/
  flagSlot : τ → Nat
  /-- `&discard_rsp[core]`. -/
  discardSlot : κ → Nat
  /-- The code that a core runs before its first thread. -/
  boot : κ → τ
  boot_injective : Injective boot
  stack_lt : ∀ t, stackBase t + schedulerStackSize < 2 ^ 64
  rsp_lt : ∀ t, rspSlot t < 2 ^ 64
  flag_lt : ∀ t, flagSlot t < 2 ^ 64
  discard_lt : ∀ c, discardSlot c < 2 ^ 64
  stacks_apart : ∀ t u, t ≠ u →
    stackBase t + schedulerStackSize ≤ stackBase u ∨
      stackBase u + schedulerStackSize ≤ stackBase t
  rsp_apart : ∀ t u, t ≠ u → rspSlot t + 8 ≤ rspSlot u ∨ rspSlot u + 8 ≤ rspSlot t
  rsp_stack : ∀ t u, rspSlot t + 8 ≤ stackBase u ∨
    stackBase u + schedulerStackSize ≤ rspSlot t
  flag_stack : ∀ t u, flagSlot t + 4 ≤ stackBase u ∨
    stackBase u + schedulerStackSize ≤ flagSlot t
  flag_rsp : ∀ t u, flagSlot t + 4 ≤ rspSlot u ∨ rspSlot u + 8 ≤ flagSlot t
  discard_stack : ∀ c u, discardSlot c + 8 ≤ stackBase u ∨
    stackBase u + schedulerStackSize ≤ discardSlot c
  discard_rsp : ∀ c u, discardSlot c + 8 ≤ rspSlot u ∨ rspSlot u + 8 ≤ discardSlot c

/-- What is known of a thread; a suspended one had these registers when it called. -/
inductive Status
  | unused
  | running
  | created (entry arg : BitVec 64)
  | suspended (regs : Reg → BitVec 64)

/-- All cores and all threads. -/
structure Machine where
  mem : Store
  regs : κ → Reg → BitVec 64
  current : κ → τ
  status : τ → Status

variable {τ κ}

/-- The registers that a switch into the thread has to restore. -/
def Status.saved (trampoline : BitVec 64) (top : Nat) : Status → Option (Reg → BitVec 64)
  | .unused => none
  | .running => none
  | .created entry arg =>
      some (fun r =>
        match r with
        | .rip => trampoline
        | .rsp => BitVec.ofNat 64 top
        | .rbx => entry
        | .r12 => arg
        | _ => 0)
  | .suspended regs => some regs

inductive Label (τ κ : Type)
  /-- The running code computes: any registers. -/
  | compute (c : κ) (regs : Reg → BitVec 64)
  /-- It stores a byte on its own stack. -/
  | store (c : κ) (a : Nat) (b : UInt8)
  /-- It calls one of the routines to suspend itself and go on with `next`. -/
  | switch (c : κ) (release : Bool) (next : τ) (ret : BitVec 64)
  /-- It calls `switch_context` with `&discard_rsp[core]`, never to go on. -/
  | abandon (c : κ) (next : τ) (ret : BitVec 64)
  /-- `thread_create_ex`. -/
  | create (t : τ) (entry arg : BitVec 64)

variable [DecidableEq τ] [DecidableEq κ] (L : Layout τ κ) (trampoline : BitVec 64)

def Layout.stackTop (t : τ) : Nat := L.stackBase t + schedulerStackSize

/-- A thread that can be switched to. -/
def Status.Waiting : Status → Prop
  | .created _ _ => True
  | .suspended _ => True
  | _ => False

instance (x : Status) : Decidable x.Waiting := by
  cases x <;> unfold Status.Waiting <;> infer_instance

/-- The stack pointer is on the thread's stack, with room for the seven words. -/
def Layout.OnStack (t : τ) (rsp : BitVec 64) : Prop :=
  L.stackBase t + 56 ≤ rsp.toNat ∧ rsp.toNat ≤ L.stackTop t

instance (t : τ) (rsp : BitVec 64) : Decidable (L.OnStack t rsp) :=
  inferInstanceAs (Decidable (_ ∧ _))

/-- The call of a routine on core `c`, and what becomes of the calling thread. -/
def switchTo (s : Machine τ κ) (c : κ) (code : List Instr) (slot : Nat) (next : τ)
    (ret : BitVec 64) (left : Status) : Machine τ κ :=
  let prev := s.current c
  let y := call code (BitVec.ofNat 64 slot)
    (BitVec.ofNat 64 (readLE s.mem (L.rspSlot next) 8))
    (BitVec.ofNat 64 (L.flagSlot prev)) ret ⟨s.regs c, s.mem⟩
  { mem := y.mem
    regs := update s.regs c y.regs
    current := update s.current c next
    status := update (update s.status prev left) next .running }

/-- One step of the machine. -/
def step (s : Machine τ κ) : Label τ κ → Option (Machine τ κ)
  | .compute c regs => some { s with regs := update s.regs c regs }
  | .store c a b =>
      if L.stackBase (s.current c) ≤ a ∧ a < L.stackTop (s.current c) then
        some { s with mem := update s.mem a b }
      else
        none
  | .switch c release next ret =>
      if (s.status next).Waiting ∧ L.OnStack (s.current c) (s.regs c .rsp) then
        some (switchTo L s c (if release then switchContextRelease else switchContext)
          (L.rspSlot (s.current c)) next ret
          (.suspended (update (s.regs c) .rip ret)))
      else
        none
  | .abandon c next ret =>
      if (s.status next).Waiting ∧ L.OnStack (s.current c) (s.regs c .rsp) then
        some (switchTo L s c switchContext (L.discardSlot c) next ret .unused)
      else
        none
  | .create t entry arg =>
      match s.status t with
      | .unused =>
          some
            { s with
              mem := writeLE
                (initialFrame s.mem (L.stackTop t) trampoline.toNat entry.toNat arg.toNat)
                (L.rspSlot t) 8 (L.stackTop t - 56)
              status := update s.status t (.created entry arg) }
      | _ => none

/-- Every core runs its boot code. -/
def start [Fintype κ] (mem : Store) (regs : κ → Reg → BitVec 64) : Machine τ κ where
  mem := mem
  regs := regs
  current := L.boot
  status := fun t => if ∃ c, L.boot c = t then .running else .unused

end Threads

variable {l : Label τ κ}

section Specification

variable (trampoline : BitVec 64)

/-- `rbp`, `rbx`, `r12` to `r15`, the stack pointer and the return address. -/
def preserved : List Reg := [.rbp, .rbx, .r12, .r13, .r14, .r15, .rsp, .rip]

/-- What a step that switches to a thread does to the core's registers. -/
structure SwitchOk (s : Machine τ κ) (_ : Label τ κ) (s' : Machine τ κ) : Prop where
  /-- A suspended thread gets back what it had when it called. -/
  resumed : ∀ c t regs, s.status t = .suspended regs → s'.current c = t →
    ∀ r, r ∈ preserved → s'.regs c r = regs r
  /-- A new thread starts in `thread_trampoline`, which calls its entry point. -/
  first : ∀ c t entry arg, s.status t = .created entry arg → s'.current c = t →
    s'.regs c .rip = trampoline ∧ s'.regs c .rbx = entry ∧ s'.regs c .r12 = arg ∧
      threadTrampoline (s'.regs c) = if entry = 0 then none else some (entry, arg)

end Specification

section Routines

variable {newRsp : Nat}

/-- The registers in the order of the words in memory, the lowest first. -/
def frameRegs : List Reg := [.r15, .r14, .r13, .r12, .rbx, .rbp, .rip]

/-- What a call of one of the routines leaves in memory. -/
structure Saved (x : View Reg) (slot flag : Nat) (ret : BitVec 64) (m : Store) :
    Prop where
  words : WordsAt m ((x.regs .rsp).toNat - 56)
    (frameRegs.map (update x.regs .rip ret))
  pointer : readLE m slot 8 = (x.regs .rsp).toNat - 56
  outside : ∀ a, (a < (x.regs .rsp).toNat - 56 ∨ (x.regs .rsp).toNat ≤ a) →
    (a < slot ∨ slot + 8 ≤ a) → (a < flag ∨ flag + 4 ≤ a) → m a = x.mem a

/-- The routine with the store to `release_flag` or without it. -/
def routine (release : Bool) : List Instr :=
  if release then switchContextRelease else switchContext

/-- The arguments of the call. -/
def callRegs (x : View Reg) (rdi rsi rdx ret : BitVec 64) : Reg → BitVec 64 :=
  update (update (update
    (update x.regs .rdi rdi) .rsi rsi) .rdx rdx) .rip ret

/-- What the routines do between saving and restoring. -/
def exchangeStacks (release : Bool) : List Instr :=
  .store .rsp .rdi ::
    (if release then [.storeMinusOne .rdx, .mov .rsi .rsp] else [.mov .rsi .rsp])

theorem routine_eq
    (release : Bool) :
    routine release =
      [Reg.rbp, .rbx, .r12, .r13, .r14, .r15].map Instr.push ++ exchangeStacks release ++
        ([Reg.r15, .r14, .r13, .r12, .rbx, .rbp].map Instr.pop ++ [Instr.ret]) := by
  cases release with
  | false =>
      rfl
  | true =>
      rfl

theorem run_append
    (code code' : List Instr) (x : View Reg) :
    run (code ++ code') x = run code' (run code x) :=
  List.foldl_append

theorem run_save
    (x : View Reg) :
    run ([Reg.rbp, .rbx, .r12, .r13, .r14, .r15].map .push) (push .rsp x .rip) =
      pushAll .rsp frameRegs.reverse x :=
  rfl

theorem run_restore
    (x : View Reg) :
    run ([Reg.r15, .r14, .r13, .r12, .rbx, .rbp].map .pop ++ [.ret]) x =
      popAll .rsp frameRegs x :=
  rfl

/-- Either routine is: save, exchange the stacks, restore. -/
theorem call_routine
    (release : Bool) (rdi rsi rdx : BitVec 64) :
    call (routine release) rdi rsi rdx ret x =
      popAll .rsp frameRegs
        (run (exchangeStacks release)
          (pushAll .rsp frameRegs.reverse ⟨callRegs x rdi rsi rdx ret, x.mem⟩)) := by
  rw [← run_save, ← run_restore, ← run_append, ← run_append, ← List.append_assoc,
    ← routine_eq]
  rfl

/-- The new stack pointer is the second argument. -/
theorem regs_exchangeStacks
    (release : Bool) (y : View Reg) :
    (run (exchangeStacks release) y).regs =
      update y.regs .rsp (y.regs .rsi) := by
  cases release with
  | false =>
      rfl
  | true =>
      rfl

/-- After the exchange the caller's registers are saved. -/
theorem saved_exchangeStacks
    (release : Bool) (hrdi : (y.regs .rdi).toNat = slot)
    (hrdx : (y.regs .rdx).toNat = flag)
    (hpointer : (y.regs .rsp).toNat = (x.regs .rsp).toNat - 56)
    (hwords : WordsAt y.mem ((x.regs .rsp).toNat - 56)
      (frameRegs.map (update x.regs .rip ret)))
    (hout : ∀ a, (a < (x.regs .rsp).toNat - 56 ∨ (x.regs .rsp).toNat ≤ a) →
      y.mem a = x.mem a) (hrsp : 56 ≤ (x.regs .rsp).toNat)
    (hslotF : slot + 8 ≤ (x.regs .rsp).toNat - 56 ∨ (x.regs .rsp).toNat ≤ slot)
    (hflagF : flag + 4 ≤ (x.regs .rsp).toNat - 56 ∨ (x.regs .rsp).toNat ≤ flag)
    (hflagS : release = true → flag + 4 ≤ slot ∨ slot + 8 ≤ flag) :
    Saved x slot flag ret (run (exchangeStacks release) y).mem := by
  have hbound : (x.regs .rsp).toNat - 56 < 256 ^ 8 :=
    lt_of_le_of_lt (Nat.sub_le _ _) (lt_of_lt_of_eq (x.regs .rsp).isLt (by norm_num))
  have hstored : Saved x slot flag ret
      (writeLE y.mem slot 8 ((x.regs .rsp).toNat - 56)) := by
    refine ⟨hwords.congr (fun b hb hlt => ?_), readLE_writeLE_of_lt hbound,
      fun a ha hs _ => ?_⟩
    · change b < (x.regs .rsp).toNat - 56 + 56 at hlt
      exact writeLE_outside (by omega)
    · rw [writeLE_outside (by omega)]
      exact hout a ha
  cases release with
  | false =>
      show Saved x slot flag ret (writeLE y.mem (y.regs .rdi).toNat 8 (y.regs .rsp).toNat)
      rw [hrdi, hpointer]
      exact hstored
  | true =>
      show Saved x slot flag ret
        (writeLE (writeLE y.mem (y.regs .rdi).toNat 8 (y.regs .rsp).toNat)
          (y.regs .rdx).toNat 4 (2 ^ 32 - 1))
      rw [hrdi, hrdx, hpointer]
      have hapart := hflagS rfl
      refine ⟨hstored.words.congr (fun b hb hlt => ?_), ?_, fun a ha hs hf => ?_⟩
      · change b < (x.regs .rsp).toNat - 56 + 56 at hlt
        exact writeLE_outside (by omega)
      · rw [readLE_writeLE_of_disjoint (by omega)]
        exact hstored.pointer
      · rw [writeLE_outside (by omega)]
        exact hstored.outside a ha hs hf

/--
What a call of either routine does: the caller's registers are saved, and those
of `f`, which were saved at `newRsp`, are restored.
-/
theorem saveRestore_spec
    {release : Bool}
    (hy : y = call (routine release) (BitVec.ofNat 64 slot) (BitVec.ofNat 64 newRsp)
      (BitVec.ofNat 64 flag) ret x) (hrsp : 56 ≤ (x.regs .rsp).toNat)
    (hslot : slot < 2 ^ 64) (hflag : flag < 2 ^ 64)
    (hslotF : slot + 8 ≤ (x.regs .rsp).toNat - 56 ∨ (x.regs .rsp).toNat ≤ slot)
    (hflagF : flag + 4 ≤ (x.regs .rsp).toNat - 56 ∨ (x.regs .rsp).toNat ≤ flag)
    (hflagS : release = true → flag + 4 ≤ slot ∨ slot + 8 ≤ flag)
    (hnew : newRsp + 56 < 2 ^ 64)
    (hwords : ∀ m, Saved x slot flag ret m → WordsAt m newRsp (frameRegs.map f)) :
    Saved x slot flag ret y.mem ∧ (∀ r, r ∈ frameRegs → y.regs r = f r) ∧
      (y.regs .rsp).toNat = newRsp + 56 := by
  rw [call_routine] at hy
  have hpushed :=
    pushAll_spec Reg.rsp frameRegs.reverse
      ⟨callRegs x (BitVec.ofNat 64 slot) (BitVec.ofNat 64 newRsp) (BitVec.ofNat 64 flag)
        ret, x.mem⟩ [] (by decide) hrsp trivial
  generalize pushAll Reg.rsp frameRegs.reverse
    ⟨callRegs x (BitVec.ofNat 64 slot) (BitVec.ofNat 64 newRsp) (BitVec.ofNat 64 flag) ret,
      x.mem⟩ = z at hy hpushed
  have hpointer : (z.regs .rsp).toNat = (x.regs .rsp).toNat - 56 := hpushed.pointer
  have hrdi : (z.regs .rdi).toNat = slot := by
    rw [hpushed.regs .rdi (by decide)]
    exact Nat.mod_eq_of_lt hslot
  have hrdx : (z.regs .rdx).toNat = flag := by
    rw [hpushed.regs .rdx (by decide)]
    exact Nat.mod_eq_of_lt hflag
  have hrsi : (z.regs .rsi).toNat = newRsp := by
    rw [hpushed.regs .rsi (by decide)]
    exact Nat.mod_eq_of_lt (by omega)
  have hsaved : Saved x slot flag ret (run (exchangeStacks release) z).mem :=
    saved_exchangeStacks release hrdi hrdx hpointer (hpointer ▸ hpushed.words)
      hpushed.outside hrsp hslotF hflagF hflagS
  have hstart : ((run (exchangeStacks release) z).regs .rsp).toNat = newRsp := by
    rw [regs_exchangeStacks, update_self, hrsi]
  have hpopped := popAll_spec Reg.rsp frameRegs (run (exchangeStacks release) z) f
    (by decide) (by decide) (by rw [hstart]; exact hwords _ hsaved)
    (by rw [hstart]; exact hnew)
  rw [← hy] at hpopped
  refine ⟨?_, hpopped.restored, ?_⟩
  · rw [hpopped.mem]
    exact hsaved
  · rw [hpopped.pointer, hstart]
    rfl

end Routines

section Invariant

variable {L : Layout τ κ} {trampoline : BitVec 64} {s s' : Machine τ κ}

/-- The thread's registers `f` are in memory, where its slot says. -/
structure SavedAt (L : Layout τ κ) (m : Store) (t : τ) (f : Reg → BitVec 64) :
    Prop where
  onStack : L.OnStack t (f .rsp)
  pointer : readLE m (L.rspSlot t) 8 = (f .rsp).toNat - 56
  words : WordsAt m ((f .rsp).toNat - 56) (frameRegs.map f)

/-- Running threads are on one core, and the others have their registers in memory. -/
structure SavedInv (L : Layout τ κ) (trampoline : BitVec 64) (s : Machine τ κ) :
    Prop where
  running : ∀ c, s.status (s.current c) = .running
  injective : Injective s.current
  saved : ∀ t f, (s.status t).saved trampoline (L.stackTop t) = some f →
    SavedAt L s.mem t f

/-- A thread's saved registers depend only on its stack and its slot. -/
theorem SavedAt.congr
    {m' : Store} (h : SavedAt L m t f)
    (hstack : ∀ a, L.stackBase t ≤ a → a < L.stackTop t → m' a = m a)
    (hslot : ∀ a, L.rspSlot t ≤ a → a < L.rspSlot t + 8 → m' a = m a) :
    SavedAt L m' t f := by
  obtain ⟨⟨hlow, htop⟩, hpointer, hwords⟩ := h
  refine ⟨⟨hlow, htop⟩, ?_, hwords.congr (fun b hb hlt => ?_)⟩
  · rw [← hpointer]
    exact readLE_congr hslot
  · change b < (f .rsp).toNat - 56 + 56 at hlt
    exact hstack b (by omega) (by omega)

/-- Unless a core goes on with another thread, there is nothing to restore. -/
theorem SavedInv.switchOk_of_current
    (h : SavedInv L trampoline s) (hcurrent : s'.current = s.current) :
    SwitchOk trampoline s l s' where
  resumed c t regs hstatus hc := by
    rw [hcurrent] at hc
    have hrun := h.running c
    rw [hc, hstatus] at hrun
    cases hrun
  first c t entry arg hstatus hc := by
    rw [hcurrent] at hc
    have hrun := h.running c
    rw [hc, hstatus] at hrun
    cases hrun

theorem SavedInv.ne_current
    (h : SavedInv L trampoline s)
    (hf : (s.status t).saved trampoline (L.stackTop t) = some f) (c : κ) :
    t ≠ s.current c := by
  rintro rfl
  rw [h.running c] at hf
  cases hf

theorem SavedInv.store
    (h : SavedInv L trampoline s) {a : Nat} {b : UInt8}
    (ha : L.stackBase (s.current c) ≤ a ∧ a < L.stackTop (s.current c)) :
    SavedInv L trampoline { s with mem := update s.mem a b } where
  running := h.running
  injective := h.injective
  saved t f hf := by
    have hstacks := L.stacks_apart t (s.current c) (h.ne_current hf c)
    have hslot := L.rsp_stack t (s.current c)
    unfold Layout.stackTop at ha
    refine (h.saved t f hf).congr (fun y hy hlt => ?_) (fun y hy hlt => ?_)
    · unfold Layout.stackTop at hlt
      exact update_of_ne (by omega) _ _
    · exact update_of_ne (by omega) _ _

/-- The frame that `thread_create_ex` builds has the words in the right order. -/
theorem wordsAt_initialFrame
    (m : Store) {top : Nat} (htop : 56 ≤ top) (tramp entry arg : BitVec 64) :
    WordsAt (initialFrame m top tramp.toNat entry.toNat arg.toNat) (top - 56)
      [0, 0, 0, arg, entry, 0, tramp] := by
  unfold initialFrame
  refine WordsAt.cons (w := 0) ?_
  rw [show top - 56 + 8 = top - 48 by omega]
  refine WordsAt.cons (w := 0) ?_
  rw [show top - 48 + 8 = top - 40 by omega]
  refine WordsAt.cons (w := 0) ?_
  rw [show top - 40 + 8 = top - 32 by omega]
  refine WordsAt.cons ?_
  rw [show top - 32 + 8 = top - 24 by omega]
  refine WordsAt.cons ?_
  rw [show top - 24 + 8 = top - 16 by omega]
  refine WordsAt.cons (w := 0) ?_
  rw [show top - 16 + 8 = top - 8 by omega]
  exact WordsAt.cons trivial

/-- A call on one thread's stack leaves the registers of the others where they are. -/
theorem SavedAt.of_saved
    {g : Reg → BitVec 64} (h : SavedAt L x.mem u g) (hne : u ≠ prev)
    (hon : L.OnStack prev (x.regs .rsp))
    (hslotStack : ∀ u, slot + 8 ≤ L.stackBase u ∨ L.stackTop u ≤ slot)
    (hslotRsp : slot + 8 ≤ L.rspSlot u ∨ L.rspSlot u + 8 ≤ slot)
    (hsaved : Saved x slot (L.flagSlot prev) ret m) : SavedAt L m u g := by
  have hstacks := L.stacks_apart u prev hne
  have hslot := hslotStack u
  have hflagStack := L.flag_stack prev u
  have hflagRsp := L.flag_rsp prev u
  have hrspStack := L.rsp_stack u prev
  obtain ⟨hlow, htop⟩ := hon
  unfold Layout.stackTop at htop hslot
  refine h.congr (fun a ha hlt => ?_) (fun a ha hlt => ?_)
  · unfold Layout.stackTop at hlt
    exact hsaved.outside a (by omega) (by omega) (by omega)
  · exact hsaved.outside a (by omega) (by omega) (by omega)

/-- The caller's own registers, when the pointer went to its slot. -/
theorem savedAt_caller
    (hon : L.OnStack prev (x.regs .rsp)) (hsaved : Saved x (L.rspSlot prev) flag ret m) :
    SavedAt L m prev (update x.regs .rip ret) where
  onStack := hon
  pointer := hsaved.pointer
  words := hsaved.words

/-- The thread that a core goes on with has its registers back. -/
theorem SavedInv.switchOk_of_restored
    [DecidableEq κ] (h : SavedInv L trampoline s)
    (hf : (s.status next).saved trampoline (L.stackTop next) = some f)
    (hcurrent : s'.current = update s.current c next)
    (hregs : ∀ r, r ∈ preserved → s'.regs c r = f r) : SwitchOk trampoline s l s' := by
  have hwho : ∀ c' t, s'.current c' = t → (s.status t) ≠ .running → c' = c ∧ t = next := by
    intro c' t hc hwaiting
    rw [hcurrent] at hc
    by_cases hcc : c' = c
    · rw [hcc, update_self] at hc
      exact ⟨hcc, hc.symm⟩
    · rw [update_of_ne hcc] at hc
      exact absurd (hc ▸ h.running c') hwaiting
  constructor
  · intro c' t regs hstatus hc r hr
    obtain ⟨rfl, rfl⟩ := hwho c' t hc (by rw [hstatus]; nofun)
    rw [hstatus] at hf
    cases hf
    exact hregs r hr
  · intro c' t entry arg hstatus hc
    obtain ⟨rfl, rfl⟩ := hwho c' t hc (by rw [hstatus]; nofun)
    rw [hstatus] at hf
    cases hf
    have hrbx : s'.regs c' .rbx = entry := hregs .rbx (by decide)
    have hr12 : s'.regs c' .r12 = arg := hregs .r12 (by decide)
    refine ⟨hregs .rip (by decide), hrbx, hr12, ?_⟩
    unfold threadTrampoline
    rw [hrbx, hr12]

theorem exists_saved
    {x : Status} (h : x.Waiting) (trampoline : BitVec 64) (top : Nat) :
    ∃ f, x.saved trampoline top = some f := by
  cases x with
  | unused =>
      exact absurd h id
  | running =>
      exact absurd h id
  | created entry arg =>
      exact ⟨_, rfl⟩
  | suspended regs =>
      exact ⟨_, rfl⟩

/-- The registers of a new thread are in the frame that `thread_create_ex` builds. -/
theorem savedAt_created
    (m : Store) (t : τ) (entry arg : BitVec 64)
    (hf : (Status.created entry arg).saved trampoline (L.stackTop t) = some f) :
    SavedAt L
      (writeLE (initialFrame m (L.stackTop t) trampoline.toNat entry.toNat arg.toNat)
        (L.rspSlot t) 8 (L.stackTop t - 56)) t f := by
  cases hf
  have htop : L.stackTop t = L.stackBase t + 16384 := rfl
  have hlt : L.stackBase t + 16384 < 2 ^ 64 := L.stack_lt t
  have hslot : L.rspSlot t + 8 ≤ L.stackBase t ∨ L.stackTop t ≤ L.rspSlot t :=
    L.rsp_stack t t
  have hrsp : (BitVec.ofNat 64 (L.stackTop t)).toNat = L.stackTop t :=
    Nat.mod_eq_of_lt (by omega)
  refine ⟨⟨?_, ?_⟩, ?_, ?_⟩
  · show L.stackBase t + 56 ≤ (BitVec.ofNat 64 (L.stackTop t)).toNat
    omega
  · show (BitVec.ofNat 64 (L.stackTop t)).toNat ≤ L.stackTop t
    omega
  · show readLE (writeLE _ _ 8 _) _ 8 = (BitVec.ofNat 64 (L.stackTop t)).toNat - 56
    rw [hrsp]
    exact readLE_writeLE_of_lt (by omega)
  · show WordsAt _ ((BitVec.ofNat 64 (L.stackTop t)).toNat - 56)
      [0, 0, 0, arg, entry, 0, trampoline]
    rw [hrsp]
    refine (wordsAt_initialFrame m (by omega) trampoline entry arg).congr
      (fun b hb hlt => ?_)
    change b < L.stackTop t - 56 + 56 at hlt
    exact writeLE_outside (by omega)

/-- The frame of a new thread and its slot are apart from what the others have saved. -/
theorem SavedAt.create
    (h : SavedAt L m u f) (hu : u ≠ t) (tramp entry arg : Nat) :
    SavedAt L
      (writeLE (initialFrame m (L.stackTop t) tramp entry arg) (L.rspSlot t) 8
        (L.stackTop t - 56)) u f := by
  have htop : L.stackTop t = L.stackBase t + 16384 := rfl
  have hsize : schedulerStackSize = 16384 := rfl
  have hstacks := L.stacks_apart u t hu
  have hslots := L.rsp_apart u t hu
  have hslotT := L.rsp_stack t u
  have hslotU := L.rsp_stack u t
  refine h.congr (fun a ha hlt => ?_) (fun a ha hlt => ?_)
  · unfold Layout.stackTop at hlt
    rw [writeLE_outside (by omega)]
    exact initialFrame_outside _ (by omega) _ _ _ (by omega)
  · rw [writeLE_outside (by omega)]
    exact initialFrame_outside _ (by omega) _ _ _ (by omega)

/-- A core that goes on with a waiting thread does not take another core's. -/
theorem SavedInv.injective_update
    [DecidableEq κ] (h : SavedInv L trampoline s)
    (hf : (s.status next).saved trampoline (L.stackTop next) = some f) (c : κ) :
    Injective (update s.current c next) := by
  intro c₁ c₂ heq
  by_cases h₁ : c₁ = c
  · by_cases h₂ : c₂ = c
    · rw [h₁, h₂]
    · rw [h₁, update_self, update_of_ne h₂] at heq
      exact absurd heq (h.ne_current hf c₂)
  · by_cases h₂ : c₂ = c
    · rw [h₂, update_self, update_of_ne h₁] at heq
      exact absurd heq.symm (h.ne_current hf c₁)
    · rw [update_of_ne h₁, update_of_ne h₂] at heq
      exact h.injective heq

variable [DecidableEq τ]

theorem savedInv_start
    [Fintype κ] (L : Layout τ κ) (mem : Store) (regs : κ → Reg → BitVec 64) :
    SavedInv L trampoline (start L mem regs) where
  running c := if_pos ⟨c, rfl⟩
  injective := L.boot_injective
  saved t f hf := by
    change (if ∃ c, L.boot c = t then Status.running else Status.unused).saved _ _ = _ at hf
    split_ifs at hf
    · cases hf
    · cases hf

theorem SavedInv.create
    (h : SavedInv L trampoline s) {entry arg : BitVec 64}
    (hunused : s.status t = .unused) :
    SavedInv L trampoline
      { s with
        mem := writeLE
          (initialFrame s.mem (L.stackTop t) trampoline.toNat entry.toNat arg.toNat)
          (L.rspSlot t) 8 (L.stackTop t - 56)
        status := update s.status t (.created entry arg) } := by
  refine ⟨fun c => ?_, h.injective, fun u f hf => ?_⟩
  · have hne : s.current c ≠ t := by
      intro heq
      have hrun := h.running c
      rw [heq, hunused] at hrun
      cases hrun
    show update s.status t _ (s.current c) = _
    rw [update_of_ne hne]
    exact h.running c
  · change (update s.status t (.created entry arg) u).saved _ _ = some f at hf
    by_cases hu : u = t
    · subst hu
      rw [update_self] at hf
      exact savedAt_created s.mem u entry arg hf
    · rw [update_of_ne hu] at hf
      exact (h.saved u f hf).create hu _ _ _

variable [DecidableEq κ]

theorem SavedInv.running_update
    (h : SavedInv L trampoline s)
    (hf : (s.status next).saved trampoline (L.stackTop next) = some f) (c : κ)
    (left : Status) (c' : κ) :
    update (update s.status (s.current c) left) next .running
      (update s.current c next c') = .running := by
  by_cases hc : c' = c
  · rw [hc, update_self, update_self]
  · rw [update_of_ne hc, update_of_ne (Ne.symm (h.ne_current hf c')),
      update_of_ne (fun heq => hc (h.injective heq))]
    exact h.running c'

/-- What a call of a routine on core `c` does to all threads, and to the core. -/
theorem SavedInv.switchTo
    (h : SavedInv L trampoline s) (release : Bool) (ret : BitVec 64) (left : Status)
    (hf : (s.status next).saved trampoline (L.stackTop next) = some f)
    (hon : L.OnStack (s.current c) (s.regs c .rsp)) (hslot : slot < 2 ^ 64)
    (hslotStack : ∀ u, slot + 8 ≤ L.stackBase u ∨ L.stackTop u ≤ slot)
    (hslotRsp : ∀ u, u ≠ s.current c →
      slot + 8 ≤ L.rspSlot u ∨ L.rspSlot u + 8 ≤ slot) (hflagS : release = true →
      L.flagSlot (s.current c) + 4 ≤ slot ∨ slot + 8 ≤ L.flagSlot (s.current c))
    (hleft : ∀ g, left.saved trampoline (L.stackTop (s.current c)) = some g →
      g = update (s.regs c) .rip ret ∧ slot = L.rspSlot (s.current c)) :
    SavedInv L trampoline (switchTo L s c (routine release) slot next ret left) ∧
      ∀ r, r ∈ preserved →
        (switchTo L s c (routine release) slot next ret left).regs c r = f r := by
  have hnext := h.saved next f hf
  have hothers : ∀ m, Saved ⟨s.regs c, s.mem⟩ slot (L.flagSlot (s.current c)) ret m →
      ∀ u g, (s.status u).saved trampoline (L.stackTop u) = some g → SavedAt L m u g :=
    fun m hm u g hg =>
      SavedAt.of_saved (x := ⟨s.regs c, s.mem⟩) (h.saved u g hg) (h.ne_current hg c) hon
        hslotStack (hslotRsp u (h.ne_current hg c)) hm
  have hnextRsp : readLE s.mem (L.rspSlot next) 8 + 56 = (f .rsp).toNat := by
    have hlow := hnext.onStack.1
    rw [hnext.pointer]
    omega
  have hrspLt := (f .rsp).isLt
  have hwords : ∀ m, Saved ⟨s.regs c, s.mem⟩ slot (L.flagSlot (s.current c)) ret m →
      WordsAt m (readLE s.mem (L.rspSlot next) 8) (frameRegs.map f) := by
    intro m hm
    rw [hnext.pointer]
    exact (hothers m hm next f hf).words
  have hslotOwn := hslotStack (s.current c)
  have hflagOwn := L.flag_stack (s.current c) (s.current c)
  have hon' := hon
  obtain ⟨hlow, htop⟩ := hon'
  unfold Layout.stackTop at htop hslotOwn
  dsimp only [ContextSwitch.switchTo]
  generalize hy : call (routine release) (BitVec.ofNat 64 slot)
    (BitVec.ofNat 64 (readLE s.mem (L.rspSlot next) 8))
    (BitVec.ofNat 64 (L.flagSlot (s.current c))) ret ⟨s.regs c, s.mem⟩ = y
  obtain ⟨hsaved, hregs, hrsp⟩ :=
    saveRestore_spec hy.symm (by dsimp only; omega) hslot (L.flag_lt (s.current c))
      (by dsimp only; omega) (by dsimp only; omega) hflagS (by omega) hwords
  refine
    ⟨⟨h.running_update hf c left, h.injective_update hf c, fun u g hg => ?_⟩,
      fun r hr => ?_⟩
  · change (update (update s.status (s.current c) left) next .running
      u).saved _ _ = some g at hg
    show SavedAt L y.mem u g
    by_cases hu : u = next
    · rw [hu, update_self] at hg
      cases hg
    · rw [update_of_ne hu] at hg
      by_cases hprev : u = s.current c
      · subst hprev
        rw [update_self] at hg
        obtain ⟨rfl, rfl⟩ := hleft g hg
        exact savedAt_caller (x := ⟨s.regs c, s.mem⟩) hon hsaved
      · rw [update_of_ne hprev] at hg
        exact hothers y.mem hsaved u g hg
  · show update s.regs c y.regs c r = f r
    rw [update_self]
    by_cases hr' : r = .rsp
    · subst hr'
      exact BitVec.eq_of_toNat_eq (hrsp.trans hnextRsp)
    · refine hregs r ?_
      revert hr hr'
      cases r <;> decide

/-- Every step keeps the invariant and restores what was saved. -/
theorem SavedInv.step
    (h : SavedInv L trampoline s)
    (hstep : ContextSwitch.step L trampoline s l = some s') :
    SavedInv L trampoline s' ∧ SwitchOk trampoline s l s' := by
  cases l with
  | compute c regs =>
      cases hstep
      exact ⟨⟨h.running, h.injective, h.saved⟩, h.switchOk_of_current rfl⟩
  | store c a b =>
      simp only [ContextSwitch.step] at hstep
      split_ifs at hstep with ha
      cases hstep
      exact ⟨h.store ha, h.switchOk_of_current rfl⟩
  | create t entry arg =>
      simp only [ContextSwitch.step] at hstep
      split at hstep
      · rename_i hunused
        cases hstep
        exact ⟨h.create hunused, h.switchOk_of_current rfl⟩
      · cases hstep
  | switch c release next ret =>
      obtain ⟨⟨hwaiting, hon⟩, hnext⟩ := Option.ite_none_right_eq_some.mp hstep
      cases hnext
      obtain ⟨f, hf⟩ := exists_saved hwaiting trampoline (L.stackTop next)
      obtain ⟨hinv, hregs⟩ :=
        h.switchTo release ret (.suspended (update (s.regs c) .rip ret)) hf hon
          (L.rsp_lt (s.current c)) (fun u => L.rsp_stack (s.current c) u)
          (fun u hu => L.rsp_apart (s.current c) u (Ne.symm hu))
          (fun _ => L.flag_rsp (s.current c) (s.current c))
          (fun g hg => ⟨(Option.some.inj hg).symm, rfl⟩)
      exact ⟨hinv, h.switchOk_of_restored hf rfl hregs⟩
  | abandon c next ret =>
      obtain ⟨⟨hwaiting, hon⟩, hnext⟩ := Option.ite_none_right_eq_some.mp hstep
      cases hnext
      obtain ⟨f, hf⟩ := exists_saved hwaiting trampoline (L.stackTop next)
      obtain ⟨hinv, hregs⟩ :=
        h.switchTo false ret .unused hf hon (L.discard_lt c)
          (fun u => L.discard_stack c u) (fun u _ => L.discard_rsp c u) nofun nofun
      exact ⟨hinv, h.switchOk_of_restored hf rfl hregs⟩

/--
**Context switches preserve every thread's registers.**  For threads on disjoint
stacks and every sequence of switches by any number of cores, with arbitrary
computations and stores to the running threads' own stacks in between: a thread
that is switched back to has its callee-saved registers, its stack pointer and its
return address again, and the first switch into a new thread reaches
`thread_trampoline` with its entry point and its argument.
-/
theorem contexts_preserved
    [Fintype κ] (L : Layout τ κ) (trampoline : BitVec 64) (mem : Store)
    (regs : κ → Reg → BitVec 64) (labels : List (Label τ κ)) :
    EveryStep (ContextSwitch.step L trampoline) (SwitchOk trampoline)
      (start L mem regs) labels := by
  refine everyStep_of_invariant (I := SavedInv L trampoline) (fun s l s' h hstep => ?_)
    (savedInv_start L mem regs)
  exact h.step hstep

end Invariant

section Example

/-- One core with its boot code and two threads. -/
def smallLayout : Layout (Fin 3) (Fin 1) where
  stackBase t := 65536 + 16384 * t
  rspSlot t := 4096 + 16 * t
  flagSlot t := 4104 + 16 * t
  discardSlot _ := 8192
  boot _ := 0
  boot_injective _ _ _ := Subsingleton.elim _ _
  stack_lt t := by unfold schedulerStackSize; omega
  rsp_lt t := by omega
  flag_lt t := by omega
  discard_lt _ := by norm_num
  stacks_apart t u hne := by unfold schedulerStackSize; omega
  rsp_apart t u hne := by omega
  rsp_stack t u := by unfold schedulerStackSize; omega
  flag_stack t u := by unfold schedulerStackSize; omega
  flag_rsp t u := by omega
  discard_stack _ u := by unfold schedulerStackSize; omega
  discard_rsp _ u := by omega

/-- Thread 1 starts, is preempted by thread 2 with `r15 = 9`, and comes back. -/
theorem contexts_preserved_small :
    ∃ labels s,
      runAll (step smallLayout 1000) (start smallLayout (fun _ => 0) (fun _ _ => 70000))
        labels = some s ∧
      s.regs 0 .r15 = 9 ∧ s.regs 0 .rsp = 90000 ∧ s.regs 0 .rip = 12 ∧
      EveryStep (step smallLayout 1000) (SwitchOk 1000)
        (start smallLayout (fun _ => 0) (fun _ _ => 70000)) labels := by
  have hrun :
      (runAll (step smallLayout 1000) (start smallLayout (fun _ => 0) (fun _ _ => 70000))
        [.create 1 5 7, .create 2 6 8, .abandon 0 1 11,
          .compute 0 (fun r => if r = .r15 then 9 else 90000),
          .switch 0 true 2 12, .store 0 98304 255, .switch 0 false 1 13]).any
        (fun s => s.regs 0 .r15 = 9 ∧ s.regs 0 .rsp = 90000 ∧ s.regs 0 .rip = 12) := by
    decide
  obtain ⟨s, hs, hregs⟩ := (Option.any_eq_true _ _).mp hrun
  obtain ⟨hr15, hrsp, hrip⟩ := of_decide_eq_true hregs
  exact ⟨_, s, hs, hr15, hrsp, hrip, contexts_preserved smallLayout 1000 _ _ _⟩

end Example

end ContextSwitch
end RebornOS
