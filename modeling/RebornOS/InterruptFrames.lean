import RebornOS.StackMachine

/-!
# Interrupt entry and exit, instruction by instruction

When an interrupt is delivered, the CPU pushes what `iretq` needs later, and for
some vectors an error code.  The stub of the vector (`kernel/src/isr_stubs.S`)
pushes a zero where the CPU has not pushed an error code, and the vector; the common
stub pushes the other registers, calls `interrupt_dispatch` with a pointer to what
lies on the stack, and undoes all of it.
-/

namespace RebornOS
namespace InterruptFrames

open ByteStore StackMachine Function

variable {v : Nat} {e : BitVec 64}

section Machine

inductive Reg
  | rip
  | cs
  | rflags
  | rsp
  | ss
  | rax
  | rbx
  | rcx
  | rdx
  | rsi
  | rdi
  | rbp
  | r8
  | r9
  | r10
  | r11
  | r12
  | r13
  | r14
  | r15
deriving DecidableEq

/-- The vectors for which the CPU pushes an error code. -/
def pushesError (v : Nat) : Bool := v ∈ [8, 10, 11, 12, 13, 14, 17, 21, 29, 30]

/-- The vectors whose stub is an `ISR_ERR`. -/
def isrErr (v : Nat) : Bool := v ∈ [8, 10, 11, 12, 13, 14, 17, 21, 29, 30]

/-- What the CPU finds in the gate of a vector and in the task state segment. -/
structure Gate where
  /-- `TSS.RSP0`. -/
  rsp0 : BitVec 64
  selector : BitVec 64
  offset : BitVec 64

/-- The code segment of ring 3. -/
def FromRing3 (x : View Reg) : Prop := (x.regs .cs).toNat % 4 = 3

instance (x : View Reg) : Decidable (FromRing3 x) := inferInstanceAs (Decidable (_ = _))

/-- Where the CPU starts to push: the kernel's stack or the current one, aligned. -/
def frameTop (rsp0 : BitVec 64) (x : View Reg) : BitVec 64 :=
  (if FromRing3 x then rsp0 else x.regs .rsp) &&& ~~~15#64

/-- What the CPU pushes, in its order. -/
def cpuPushes (v : Nat) (e : BitVec 64) (regs : Reg → BitVec 64) : List (BitVec 64) :=
  [regs .ss, regs .rsp, regs .rflags, regs .cs, regs .rip] ++ if pushesError v then [e] else []

/-- The delivery through an interrupt gate, which clears the flags TF, IF, NT, RF and VM. -/
def deliver (g : Gate) (v : Nat) (e : BitVec 64) (x : View Reg) : View Reg :=
  let y := pushWords .rsp (cpuPushes v e x.regs)
    { x with regs := update x.regs .rsp (frameTop g.rsp0 x) }
  { y with
    regs := update (update (update (update y.regs
      .ss (if FromRing3 x then 0 else x.regs .ss)) .rip g.offset) .cs g.selector)
      .rflags (x.regs .rflags &&& ~~~0x34300#64) }

/-- The registers in the order in which `isr_common_stub` pushes them. -/
def saved : List Reg :=
  [.rax, .rbx, .rcx, .rdx, .rsi, .rdi, .rbp, .r8, .r9, .r10, .r11, .r12, .r13, .r14, .r15]

/-- `ISR_ERR` pushes the vector, `ISR_NOERR` a zero before it. -/
def stubPushes (v : Nat) : List (BitVec 64) :=
  (if isrErr v then [] else [0]) ++ [BitVec.ofNat 64 v]

/-- `isr_stub_v`. -/
def isrStub (v : Nat) (x : View Reg) : View Reg := pushWords .rsp (stubPushes v) x

/-- `isr_common_stub` up to the call; a `push` changes no register but `rsp`. -/
def isrCommonStub (x : View Reg) : View Reg :=
  let y := pushWords .rsp (saved.map x.regs) x
  { y with regs := update y.regs .rdi (y.regs .rsp) }

/-- From the interrupt to the call. -/
def entry (g : Gate) (v : Nat) (e : BitVec 64) (x : View Reg) : View Reg :=
  isrCommonStub (isrStub v (deliver g v e x))

def iretq (x : View Reg) : View Reg :=
  let word k := BitVec.ofNat 64 (readLE x.mem ((x.regs .rsp).toNat + 8 * k) 8)
  { x with
    regs := update (update (update (update
      (update x.regs .rip (word 0)) .cs (word 1)) .rflags (word 2)) .rsp (word 3))
      .ss (word 4) }

/-- `isr_common_stub` from the call on. -/
def leave (x : View Reg) : View Reg :=
  let y := popAll .rsp saved.reverse x
  iretq { y with regs := update y.regs .rsp (y.regs .rsp + 16) }

end Machine

variable {regs : Reg → BitVec 64}

section Frame

/-- The fields of `interrupt_frame_t`, and the two words behind it. -/
inductive Field
  | reg (r : Reg)
  | vector
  | errorCode
deriving DecidableEq

/-- `interrupt_frame_t`; every field has eight bytes. -/
def layout : List Field :=
  [.reg .r15, .reg .r14, .reg .r13, .reg .r12, .reg .r11, .reg .r10, .reg .r9, .reg .r8,
    .reg .rbp, .reg .rdi, .reg .rsi, .reg .rdx, .reg .rcx, .reg .rbx, .reg .rax,
    .vector, .errorCode, .reg .rip, .reg .cs, .reg .rflags]

/-- The structure at an address. -/
def frameAt (m : Store) (a : Nat) (f : Field) : Nat := readLE m (a + 8 * layout.idxOf f) 8

/-- What the fields should be for an interrupt with these registers. -/
def frameOf (v : Nat) (e : BitVec 64) (regs : Reg → BitVec 64) : Field → BitVec 64
  | .reg r => regs r
  | .vector => BitVec.ofNat 64 v
  | .errorCode => if pushesError v then e else 0

/-- All words on the stack, the lowest first. -/
def frameWords (v : Nat) (e : BitVec 64) (regs : Reg → BitVec 64) : List (BitVec 64) :=
  (layout ++ [Field.reg .rsp, .reg .ss]).map (frameOf v e regs)

variable {m : Store} {a : Nat}

theorem frameAt_of_words
    (h : WordsAt m a (frameWords v e regs)) {f : Field} (hf : f ∈ layout) :
    frameAt m a f = (frameOf v e regs f).toNat := by
  refine h.get ?_
  rw [frameWords, List.getElem?_map, List.getElem?_append_left (List.idxOf_lt_length_of_mem hf),
    List.getElem?_idxOf hf]
  rfl

/-- The words above the saved registers. -/
def highWords (v : Nat) (e : BitVec 64) (regs : Reg → BitVec 64) : List (BitVec 64) :=
  [BitVec.ofNat 64 v, if pushesError v then e else 0, regs .rip, regs .cs, regs .rflags,
    regs .rsp, regs .ss]

theorem frameWords_eq :
    frameWords v e regs = saved.reverse.map regs ++ highWords v e regs :=
  rfl

end Frame

section Entry

variable {g : Gate} {x : View Reg}

/-- The words of the CPU, with those of the stub, are what lies above the registers. -/
theorem highWords_eq
    (regs : Reg → BitVec 64) :
    (stubPushes v).reverse ++ ((cpuPushes v e regs).reverse ++ []) = highWords v e regs := by
  show ((if pushesError v then [] else [0]) ++ [BitVec.ofNat 64 v]).reverse ++ _ = _
  unfold highWords cpuPushes
  split <;> rfl

/-- The delivery, for a stack with room. -/
theorem delivered
    (hroom : 176 ≤ (frameTop g.rsp0 x).toNat) :
    Stacked .rsp (frameTop g.rsp0 x).toNat ((cpuPushes v e x.regs).reverse ++ []) x.mem
        (deliver g v e x) ∧
      ∀ r, r ∈ saved → (deliver g v e x).regs r = x.regs r := by
  have hstart : Stacked Reg.rsp (frameTop g.rsp0 x).toNat [] x.mem
      { x with regs := update x.regs .rsp (frameTop g.rsp0 x) } :=
    ⟨by simp, trivial, fun _ _ => rfl⟩
  obtain ⟨hpushed, hregs⟩ := hstart.pushWords (cpuPushes v e x.regs)
    (by unfold cpuPushes; split <;> simp <;> omega)
  refine ⟨⟨hpushed.pointer, hpushed.words, hpushed.outside⟩, fun r hr => ?_⟩
  have hne : ∀ q, q ∉ saved → r ≠ q := fun q hq heq => hq (heq ▸ hr)
  unfold deliver
  dsimp only
  rw [update_of_ne (hne .rflags (by decide)), update_of_ne (hne .cs (by decide)),
    update_of_ne (hne .rip (by decide)), update_of_ne (hne .ss (by decide)),
    hregs r (hne .rsp (by decide))]
  exact update_of_ne (hne .rsp (by decide)) _ _

/-- The entry gives `interrupt_dispatch` a pointer to the frame. -/
theorem entered
    (hroom : 176 ≤ (frameTop g.rsp0 x).toNat) :
    Stacked .rsp (frameTop g.rsp0 x).toNat (frameWords v e x.regs) x.mem (entry g v e x) ∧
      (entry g v e x).regs .rdi = (entry g v e x).regs .rsp := by
  obtain ⟨hdel, hsaved⟩ := delivered (g := g) (v := v) (e := e) hroom
  unfold entry
  generalize deliver g v e x = d at hdel hsaved ⊢
  have hlen : (highWords v e x.regs).length = 7 := rfl
  have hparts := congrArg List.length (highWords_eq (v := v) (e := e) x.regs)
  rw [hlen, List.length_append, List.length_reverse] at hparts
  obtain ⟨hstub, hregs⟩ := hdel.pushWords (stubPushes v) (by rw [hparts]; omega)
  rw [highWords_eq, ← isrStub] at hstub
  rw [← isrStub] at hregs
  generalize isrStub v d = y at hstub hregs ⊢
  obtain ⟨hall, -⟩ := hstub.pushWords (saved.map y.regs)
    (by rw [hlen]; show 8 * (15 + 7) ≤ _; omega)
  have hmap : (saved.map y.regs).reverse = saved.reverse.map x.regs := by
    rw [← List.map_reverse]
    refine List.map_congr_left (fun r hr => ?_)
    have hr := List.mem_reverse.mp hr
    rw [hregs r (by rintro rfl; simp [saved] at hr), hsaved r hr]
  rw [hmap, ← frameWords_eq] at hall
  unfold isrCommonStub
  generalize pushWords Reg.rsp (saved.map y.regs) y = z at hall ⊢
  have hsp : update z.regs .rdi (z.regs .rsp) .rsp = z.regs .rsp :=
    update_of_ne (by decide) _ _
  have hrdi : update z.regs .rdi (z.regs .rsp) .rdi = z.regs .rsp :=
    update_self _ _ _
  exact ⟨⟨hsp ▸ hall.pointer, hsp ▸ hall.words, hall.outside⟩, hrdi.trans hsp.symm⟩

end Entry

section Exit

variable {z : View Reg}

/-- The exit takes every register from the frame. -/
theorem leave_regs
    (hroom : (z.regs .rsp).toNat + 176 < 2 ^ 64)
    (h : WordsAt z.mem (z.regs .rsp).toNat (frameWords v e regs)) :
    (leave z).regs = regs ∧ (leave z).mem = z.mem := by
  rw [frameWords_eq, wordsAt_append] at h
  have hpop := popAll_spec Reg.rsp saved.reverse z regs (by decide) (by decide) h.1
    (by show _ + 8 * 15 < _; omega)
  unfold leave
  dsimp only
  generalize popAll Reg.rsp saved.reverse z = y at hpop ⊢
  have hpointer : (y.regs .rsp + 16).toNat = (z.regs .rsp).toNat + 136 := by
    have hp : (y.regs .rsp).toNat = (z.regs .rsp).toNat + 8 * 15 := hpop.pointer
    bv_omega
  have hword : ∀ k w, (highWords v e regs)[k + 2]? = some w →
      BitVec.ofNat 64 (readLE z.mem ((z.regs .rsp).toNat + 136 + 8 * k) 8) = w := by
    intro k w hk
    have hget := h.2.get hk
    have haddr : (z.regs .rsp).toNat + 8 * (saved.reverse.map regs).length + 8 * (k + 2) =
        (z.regs .rsp).toNat + 136 + 8 * k := by
      show (z.regs .rsp).toNat + 8 * 15 + 8 * (k + 2) = _
      omega
    rw [haddr] at hget
    rw [hget]
    simp
  refine ⟨funext (fun r => ?_), hpop.mem⟩
  simp only [iretq, update_self, hpointer, hpop.mem]
  rw [hword 0 _ rfl, hword 1 _ rfl, hword 2 _ rfl, hword 3 _ rfl, hword 4 _ rfl]
  cases r with
  | ss => simp
  | rsp => simp
  | rflags => simp
  | cs => simp
  | rip => simp
  | _ => simpa using hpop.restored _ (by decide)

end Exit

section Transparency

variable {g : Gate} {x : View Reg}

/-- A handler that leaves the frame alone, except for the saved `rax`. -/
structure Handled (rax : BitVec 64) (y z : View Reg) : Prop where
  pointer : z.regs .rsp = y.regs .rsp
  frame : ∀ a, (y.regs .rsp).toNat ≤ a → a < (y.regs .rsp).toNat + 176 →
    a < (y.regs .rsp).toNat + 112 ∨ (y.regs .rsp).toNat + 120 ≤ a → z.mem a = y.mem a
  rax : readLE z.mem ((y.regs .rsp).toNat + 112) 8 = rax.toNat

/-- The words of the frame after the handler. -/
theorem Handled.words
    {rax : BitVec 64} {y z : View Reg} (h : Handled rax y z)
    (hwords : WordsAt y.mem (y.regs .rsp).toNat (frameWords v e regs)) :
    WordsAt z.mem (y.regs .rsp).toNat
      (frameWords v e (update regs .rax rax)) := by
  have hlen : (saved.tail.reverse.map regs).length = 14 := rfl
  have hbefore : frameWords v e regs =
    saved.tail.reverse.map regs ++ (regs .rax :: highWords v e regs) := rfl
  have hafter : frameWords v e (update regs .rax rax) =
    saved.tail.reverse.map regs ++ (rax :: highWords v e regs) := rfl
  rw [hbefore, wordsAt_append, hlen] at hwords
  rw [hafter, wordsAt_append, hlen]
  refine ⟨hwords.1.congr (fun a ha hlt => ?_), h.rax, hwords.2.2.congr (fun a ha hlt => ?_)⟩
  · rw [hlen] at hlt
    exact h.frame a ha (by omega) (Or.inl (by omega))
  · have hhigh : (highWords v e regs).length = 7 := rfl
    exact h.frame a (by omega) (by omega) (Or.inr (by omega))

/--
**Interrupts.**  For every vector, `interrupt_dispatch` gets a pointer to the
`interrupt_frame_t` of the interrupted registers, and only the stack below the
top has changed.  If it leaves the frame alone, except for `rax`, the interrupted
code goes on with its registers and that `rax`.
-/
theorem interrupt_transparent
    (hroom : 176 ≤ (frameTop g.rsp0 x).toNat) :
    (∀ f, f ∈ layout →
        frameAt (entry g v e x).mem ((entry g v e x).regs .rdi).toNat f =
          (frameOf v e x.regs f).toNat) ∧
      (∀ a, a + 176 < (frameTop g.rsp0 x).toNat ∨ (frameTop g.rsp0 x).toNat ≤ a →
        (entry g v e x).mem a = x.mem a) ∧
      ∀ rax z, Handled rax (entry g v e x) z →
        (leave z).regs = update x.regs .rax rax ∧ (leave z).mem = z.mem := by
  obtain ⟨hentered, hargument⟩ := entered (g := g) (v := v) hroom
  refine ⟨fun f hf => ?_, hentered.outside, fun rax z hz => ?_⟩
  · rw [hargument]
    exact frameAt_of_words hentered.words hf
  · have hwords := hz.words hentered.words
    have hpointer : _ + 8 * 22 = _ := hentered.pointer
    have htop := (frameTop g.rsp0 x).isLt
    rw [← hz.pointer] at hwords
    exact leave_regs (by rw [hz.pointer]; omega) hwords

/-- A thread of ring 3, which runs into a page fault. -/
def sampleView : View Reg := ⟨fun _ => 0x23, fun _ => 0⟩

theorem interrupt_transparent_page_fault :
    176 ≤ (frameTop 0x8000 sampleView).toNat ∧
      ∀ rax z, Handled rax (entry ⟨0x8000, 8, 0x100000⟩ 14 6 sampleView) z →
        (leave z).regs = update sampleView.regs .rax rax ∧
          (leave z).mem = z.mem := by
  have hroom : 176 ≤ (frameTop 0x8000 sampleView).toNat := by decide
  exact ⟨hroom, (interrupt_transparent hroom).2.2⟩

end Transparency

end InterruptFrames
end RebornOS
