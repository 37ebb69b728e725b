import RebornOS.BootMemory
import RebornOS.LabeledRun
import RebornOS.LowMemory
import RebornOS.RingQueue

/-!
# The receive ring of the network card

`e1000_init` gives the card a ring of eight descriptors, each with a page for a
frame.  The card fills the descriptor at `RDH` while `RDH` differs from `RDT`;
`e1000_poll_receive` looks at the descriptor behind `rx_tail`, copies the frame,
clears the descriptor's status and hands it back by writing `RDT`.

Descriptors and buffers lie in memory at their real offsets.  A poll is not one
step: the card may receive a frame between any two of its actions.  The state
also records which frames the card accepted, with the slot it wrote each to, and
what the polls returned.

* `e1000Init`, `cardReceive` and the poll's actions are the model.
* `RxInv` says how memory, registers and record belong together; `step_rxInv` is
  the step lemma.
* `receive_ring_exact` is the result about all interleavings.
-/

namespace RebornOS
namespace E1000

open ByteStore BootMemory Pmm LowMemory LabeledRun Function Fallible

variable {mem mem' : Store} {a left maxLen ring : Nat} {buf : Nat → Nat}

section Model

/-- `RX_DESC_COUNT`. -/
def rxDescCount : Nat := 8

/-- `TX_DESC_COUNT`. -/
def txDescCount : Nat := 8

/-- `E1000_BUF_SIZE`. -/
def e1000BufSize : Nat := 2048

/-- `sizeof(e1000_rx_desc_t)`, which is `sizeof(e1000_tx_desc_t)`. -/
def descSize : Nat := 16

/-- A frame on the wire is not empty, and the card's buffers are large enough. -/
structure Frame where
  bytes : List UInt8
  nonempty : 0 < bytes.length
  fits : bytes.length ≤ e1000BufSize

/-- An accepted frame with the descriptor that the card filled. -/
structure Filled where
  slot : Nat
  frame : Frame

/-- What a poll returns: the frame's length and the bytes that were copied. -/
structure Received where
  maxLen : Nat
  len : Nat
  bytes : List UInt8

/-- How far the poll that holds `e1000_rx_lock` has come. -/
inductive Phase
  | idle
  | ready (maxLen : Nat)
  | copied (r : Received)
  | cleared (r : Received)
  | advanced (r : Received)

structure Driver where
  mem : Store
  rxRing : Nat
  rxTail : Nat
  rdbal : Nat
  rdh : Nat
  rdt : Nat
  phase : Phase
  accepted : List Filled
  returned : List Received

/-- The fields of descriptor `i` of the ring at `ring`. -/
def descAddr (mem : Store) (ring i : Nat) : Nat := readLE mem (ring + descSize * i) 8

def descLength (mem : Store) (ring i : Nat) : Nat :=
  readLE mem (ring + descSize * i + 8) 2

def descStatus (mem : Store) (ring i : Nat) : Nat :=
  readLE mem (ring + descSize * i + 12) 1

/-- `desc->status & DESC_STATUS_DD`. -/
def Done (mem : Store) (ring i : Nat) : Prop := descStatus mem ring i % 2 = 1

instance (mem : Store) (ring i : Nat) : Decidable (Done mem ring i) :=
  inferInstanceAs (Decidable (_ = _))

inductive Panic
  /-- `panic("e1000: out of physical memory for the descriptor rings")`. -/
  | noRings
  /-- `panic("e1000: out of physical memory for an RX buffer")`. -/
  | noRxBuffer
  /-- `panic("e1000: out of physical memory for a TX buffer")`. -/
  | noTxBuffer
  /-- A ring is not in the identity-mapped range, and `memset` faults. -/
  | pageFault

/-- The loop that gives every descriptor of a ring its buffer. -/
def initBuffers (panic : Panic) (ring : Nat) :
    Nat → Nat → Store × Pmm.State → Except Panic (Store × Pmm.State)
  | 0, _, m => .ok m
  | n + 1, i, m =>
      if (pmmAllocPage m.2).1 = 0 then
        .error panic
      else
        initBuffers panic ring n (i + 1)
          (writeLE (writeLE m.1 (ring + descSize * i) 8 (pmmAllocPage m.2).1)
            (ring + descSize * i + 12) 1 0, (pmmAllocPage m.2).2)

/-- `e1000_init`, as far as the rings and the receive registers are concerned. -/
def e1000Init (mem : Store) (pmm : Pmm.State) : Except Panic Driver :=
  let rx := pmmAllocPage pmm
  let tx := pmmAllocPage rx.2
  if rx.1 = 0 ∨ tx.1 = 0 then
    .error .noRings
  else if identityLimit < rx.1 + pageSize ∨ identityLimit < tx.1 + pageSize then
    .error .pageFault
  else do
    let cleared := fill (fill mem rx.1 pageSize 0) tx.1 pageSize 0
    let m ← initBuffers .noRxBuffer rx.1 rxDescCount 0 (cleared, tx.2)
    let m ← initBuffers .noTxBuffer tx.1 txDescCount 0 m
    .ok
      { mem := m.1
        rxRing := rx.1
        rxTail := rxDescCount - 1
        rdbal := rx.1 % 2 ^ 32
        rdh := 0
        rdt := rxDescCount - 1
        phase := .idle
        accepted := []
        returned := [] }

/-- The card fills descriptor `i` and the buffer it names, and sets `DD`. -/
def fillDesc (mem : Store) (ring i : Nat) (f : Frame) (flags : Fin 128) : Store :=
  writeLE
    (writeLE
      (copyIn mem (descAddr mem ring i) f.bytes.length (fun j => f.bytes.getD j 0))
      (ring + descSize * i + 8) 2 f.bytes.length)
    (ring + descSize * i + 12) 1 (2 * flags + 1)

/--
A frame arrives.  The card drops it if `RDH` has come to `RDT`; otherwise it
fills the descriptor at `RDH`, sets `DD` (with the other status bits `flags`) and
advances `RDH`.
-/
def cardReceive (f : Frame) (flags : Fin 128) (s : Driver) : Driver :=
  if s.rdh = s.rdt then
    s
  else
    { s with
      mem := fillDesc s.mem s.rdbal s.rdh f flags
      rdh := (s.rdh + 1) % rxDescCount
      accepted := s.accepted ++ [⟨s.rdh, f⟩] }

/-- The descriptor that a poll looks at. -/
def Driver.next (s : Driver) : Nat := (s.rxTail + 1) % rxDescCount

/-- The bytes of memory that the ring and its buffers take up. -/
def Driver.InRing (s : Driver) (a : Nat) : Prop :=
  (s.rxRing ≤ a ∧ a < s.rxRing + descSize * rxDescCount) ∨
    ∃ i, i < rxDescCount ∧ descAddr s.mem s.rxRing i ≤ a ∧
      a < descAddr s.mem s.rxRing i + e1000BufSize

instance (s : Driver) (a : Nat) : Decidable (s.InRing a) :=
  inferInstanceAs (Decidable (_ ∨ _))

inductive Event
  | frame (f : Frame) (flags : Fin 128)
  | call (maxLen : Nat)
  | copy
  | clear
  | advance
  | handBack
  /-- The rest of the kernel stores a byte, the copy in the caller's buffer included. -/
  | store (a : Nat) (b : UInt8)

/-- One action of the card, of the poll in progress, or of the rest of the kernel. -/
def step (s : Driver) : Event → Option Driver
  | .frame f flags => some (cardReceive f flags s)
  | .call maxLen =>
      match s.phase with
      | .idle =>
          if Done s.mem s.rxRing s.next then
            some { s with phase := .ready maxLen }
          else
            some { s with returned := s.returned ++ [⟨maxLen, 0, []⟩] }
      | _ => none
  | .copy =>
      match s.phase with
      | .ready maxLen =>
          let len := descLength s.mem s.rxRing s.next
          let copyLen := if len < maxLen then len else maxLen
          let addr := descAddr s.mem s.rxRing s.next
          -- a buffer that is not mapped is a page fault in ring 0
          if 0 < copyLen ∧ identityLimit < addr + copyLen then
            none
          else
            some
              { s with
                phase := .copied
                  ⟨maxLen, len, (List.range copyLen).map (fun i => s.mem (addr + i))⟩ }
      | _ => none
  | .clear =>
      match s.phase with
      | .copied r =>
          some
            { s with
              mem := writeLE s.mem (s.rxRing + descSize * s.next + 12) 1 0
              phase := .cleared r }
      | _ => none
  | .advance =>
      match s.phase with
      | .cleared r => some { s with rxTail := s.next, phase := .advanced r }
      | _ => none
  | .handBack =>
      match s.phase with
      | .advanced r =>
          some { s with rdt := s.rxTail, phase := .idle, returned := s.returned ++ [r] }
      | _ => none
  | .store a b =>
      if s.InRing a then none else some { s with mem := update s.mem a b }

end Model

variable {s : Driver} {p : Phase} {r : Received} {e : Event}

section Specification

/-- The polls that returned a frame. -/
def Driver.received (s : Driver) : List Received :=
  s.returned.filter (fun r => r.len ≠ 0)

/-- The frames that no poll has returned yet. -/
def Driver.unread (s : Driver) : List Filled := s.accepted.drop s.received.length

/-- A poll returned this frame, cut to its `max_len`. -/
def Delivers (r : Received) (x : Filled) : Prop :=
  r.len = x.frame.bytes.length ∧ r.bytes = x.frame.bytes.take r.maxLen

/-- What one action leads to, and what it must not do. -/
structure StepOk (s : Driver) (e : Event) (t : Driver) : Prop where
  /-- The frames returned are the first frames accepted, in order and each once. -/
  inOrder : List.Forall₂ Delivers t.received (t.accepted.take t.received.length)
  /-- At most `RX_DESC_COUNT - 1` frames are unread. -/
  bound : t.unread.length ≤ rxDescCount - 1
  /-- A poll returns 0 only if there is nothing to return. -/
  empty : ∀ maxLen bytes, t.returned = s.returned ++ [⟨maxLen, 0, bytes⟩] → s.unread = []
  /-- The card does not write a descriptor that is still unread. -/
  apart : ∀ f flags, e = .frame f flags → s.rdh ≠ s.rdt →
    ∀ x, x ∈ s.unread → x.slot ≠ s.rdh

end Specification

section Slots

variable {i w : Nat} {x : Filled} {f : Frame} {flags : Fin 128}

/-- The ring and the buffers do not overlap. -/
structure Layout (ring : Nat) (buf : Nat → Nat) : Prop where
  apart : ∀ i, i < rxDescCount →
    buf i + e1000BufSize ≤ ring ∨ ring + descSize * rxDescCount ≤ buf i
  disjoint : ∀ i j, i < rxDescCount → j < rxDescCount → i ≠ j →
    buf i + e1000BufSize ≤ buf j ∨ buf j + e1000BufSize ≤ buf i

/-- The descriptor and its buffer hold the frame. -/
structure HoldsFrame (mem : Store) (ring : Nat) (buf : Nat → Nat) (i : Nat)
    (x : Filled) : Prop where
  slot : x.slot = i
  length : descLength mem ring i = x.frame.bytes.length
  bytes : ∀ j, j < x.frame.bytes.length → mem (buf i + j) = x.frame.bytes.getD j 0

/-- Descriptor `i`, its status apart, and its buffer are the same. -/
structure SameFrame (mem mem' : Store) (ring : Nat) (buf : Nat → Nat) (i : Nat) :
    Prop where
  desc : AgreeOn mem mem' (ring + descSize * i) (ring + descSize * i + 12)
  bytes : AgreeOn mem mem' (buf i) (buf i + e1000BufSize)

theorem sameFrame_of
    (hdesc : ∀ y, ring + 16 * i ≤ y → y < ring + 16 * i + 12 → mem' y = mem y)
    (hbytes : ∀ y, buf i ≤ y → y < buf i + e1000BufSize → mem' y = mem y) :
    SameFrame mem mem' ring buf i :=
  ⟨hdesc, hbytes⟩

theorem SameFrame.descAddr
    (h : SameFrame mem mem' ring buf i) : descAddr mem' ring i = descAddr mem ring i :=
  readLE_congr (h.desc.mono (le_refl _) (by omega))

theorem SameFrame.holds
    (h : SameFrame mem mem' ring buf i) (hx : HoldsFrame mem ring buf i x) :
    HoldsFrame mem' ring buf i x where
  slot := hx.slot
  length := by
    rw [← hx.length]
    exact readLE_congr (h.desc.mono (by omega) (by omega))
  bytes j hj := by
    have hfits := x.frame.fits
    rw [← hx.bytes j hj]
    exact h.bytes (buf i + j) (by omega) (by omega)

theorem done_congr
    (h : mem' (ring + descSize * i + 12) = mem (ring + descSize * i + 12)) :
    Done mem' ring i ↔ Done mem ring i := by
  unfold Done descStatus
  simp only [readLE, h]

/-- A byte outside the ring and the buffers. -/
theorem sameFrame_update
    {b : UInt8} (hi : i < rxDescCount)
    (hring : ¬ (ring ≤ a ∧ a < ring + descSize * rxDescCount))
    (hbuf : ¬ (buf i ≤ a ∧ a < buf i + e1000BufSize)) :
    SameFrame mem (update mem a b) ring buf i ∧
      update mem a b (ring + descSize * i + 12) =
        mem (ring + descSize * i + 12) := by
  unfold rxDescCount descSize at *
  refine ⟨sameFrame_of (fun y hy hlt => ?_) (fun y hy hlt => ?_), ?_⟩
  · exact update_of_ne (by omega) _ _
  · exact update_of_ne (by omega) _ _
  · exact update_of_ne (by omega) _ _

/-- Clearing a status byte changes no frame, and no other status. -/
theorem sameFrame_clear
    (hL : Layout ring buf) (hi : i < rxDescCount) (hw : w < rxDescCount) :
    SameFrame mem (writeLE mem (ring + descSize * w + 12) 1 0) ring buf i := by
  have hapart := hL.apart i hi
  unfold rxDescCount descSize at *
  exact sameFrame_of (agreeOn_writeLE (by omega)) (agreeOn_writeLE (by omega))

theorem status_clear
    (hne : i ≠ w) :
    writeLE mem (ring + descSize * w + 12) 1 0 (ring + descSize * i + 12) =
      mem (ring + descSize * i + 12) := by
  unfold descSize
  exact writeLE_outside (by omega)

theorem not_done_clear :
    ¬ Done (writeLE mem (ring + descSize * w + 12) 1 0) ring w := by
  unfold Done descStatus
  rw [readLE_writeLE_same]
  decide

/-- Filling a descriptor leaves the others alone. -/
theorem sameFrame_fillDesc
    (f : Frame) (flags : Fin 128) (hL : Layout ring buf) (haddr : descAddr mem ring w = buf w)
    (hi : i < rxDescCount) (hw : w < rxDescCount) (hne : i ≠ w) :
    SameFrame mem (fillDesc mem ring w f flags) ring buf i ∧
      fillDesc mem ring w f flags (ring + descSize * i + 12) =
        mem (ring + descSize * i + 12) := by
  have hfits := f.fits
  have hbufs := hL.disjoint i w hi hw hne
  have hapart := hL.apart i hi
  have hapart' := hL.apart w hw
  -- a byte that none of the three writes touches
  have hkeep : ∀ y, (y < buf w ∨ buf w + e1000BufSize ≤ y) →
      (y < ring + descSize * w + 8 ∨ ring + descSize * w + 13 ≤ y) →
      fillDesc mem ring w f flags y = mem y := by
    intro y hbuf hdesc
    unfold fillDesc
    rw [writeLE_outside (by omega), writeLE_outside (by omega),
      copyIn_outside (by omega)]
  unfold rxDescCount descSize at *
  refine ⟨sameFrame_of (fun y hy hlt => ?_) (fun y hy hlt => ?_), ?_⟩
  · exact hkeep y (by omega) (by omega)
  · exact hkeep y (by omega) (by omega)
  · exact hkeep _ (by omega) (by omega)

/-- The descriptor that is filled keeps its address. -/
theorem descAddr_fillDesc
    (hL : Layout ring buf) (haddr : descAddr mem ring w = buf w)
    (hw : w < rxDescCount) : descAddr (fillDesc mem ring w f flags) ring w = buf w := by
  have hfits := f.fits
  have hapart := hL.apart w hw
  unfold fillDesc
  rw [haddr, ← haddr]
  unfold rxDescCount at *
  unfold descAddr at haddr ⊢
  unfold descSize at *
  rw [readLE_writeLE_of_disjoint (by omega), readLE_writeLE_of_disjoint (by omega)]
  refine readLE_congr (fun y hy hlt => copyIn_outside ?_)
  omega

theorem done_fillDesc : Done (fillDesc mem ring w f flags) ring w := by
  unfold Done descStatus fillDesc
  rw [readLE_writeLE_of_lt (by omega)]
  omega

theorem holds_fillDesc
    (hL : Layout ring buf) (haddr : descAddr mem ring w = buf w)
    (hw : w < rxDescCount) :
    HoldsFrame (fillDesc mem ring w f flags) ring buf w ⟨w, f⟩ where
  slot := rfl
  length := by
    have hfits := f.fits
    unfold e1000BufSize at hfits
    unfold descLength fillDesc
    rw [readLE_writeLE_of_disjoint (by omega), readLE_writeLE_of_lt (by omega)]
  bytes j hj := by
    change j < f.bytes.length at hj
    have hfits := f.fits
    have hapart := hL.apart w hw
    unfold fillDesc
    rw [haddr]
    unfold rxDescCount descSize at *
    rw [writeLE_outside (by omega), writeLE_outside (by omega)]
    unfold copyIn
    rw [if_pos (by omega), Nat.add_sub_cancel_left]

/-- What a poll copies out of a descriptor is the frame, cut to `max_len`. -/
theorem delivers_copy
    (hx : HoldsFrame mem ring buf i x) (maxLen : Nat) :
    Delivers
      ⟨maxLen, descLength mem ring i,
        (List.range
          (if descLength mem ring i < maxLen then descLength mem ring i
            else maxLen)).map (fun j => mem (buf i + j))⟩ x := by
  refine ⟨hx.length, ?_⟩
  rw [hx.length]
  dsimp only
  have hmin : (if x.frame.bytes.length < maxLen then x.frame.bytes.length else maxLen) =
      min maxLen x.frame.bytes.length := by
    split_ifs <;> omega
  rw [hmin]
  refine List.ext_getElem (by simp) (fun j hj hj' => ?_)
  have hlt : j < x.frame.bytes.length := by
    simp only [List.length_take] at hj'
    omega
  simp only [List.getElem_map, List.getElem_range, List.getElem_take]
  rw [hx.bytes j hlt, List.getD_eq_getElem?_getD, List.getElem?_eq_getElem hlt]
  rfl

end Slots

section Invariant

variable {t : Driver}

/-- Whether the poll in progress has cleared the status of its descriptor. -/
def Phase.taken : Phase → Nat
  | .cleared _ => 1
  | .advanced _ => 1
  | _ => 0

/-- Whether it has advanced `rx_tail`. -/
def Phase.moved : Phase → Nat
  | .advanced _ => 1
  | _ => 0

/-- What the poll in progress knows of the first unread frame. -/
def Phase.Pending (entered : List Filled) (left : Nat) : Phase → Prop
  | .idle => True
  | .ready _ => left < entered.length
  | .copied r => ∃ x, entered[left]? = some x ∧ Delivers r x
  | .cleared r => ∃ x, entered[left]? = some x ∧ Delivers r x
  | .advanced r => ∃ x, entered[left]? = some x ∧ Delivers r x

/--
After `left` frames have been returned: frame number `k` is in descriptor
`k % RX_DESC_COUNT`, and the descriptors with `DD` set are those of the frames
that no poll has taken out.
-/
structure RxInv (buf : Nat → Nat) (left : Nat) (s : Driver) : Prop where
  layout : Layout s.rxRing buf
  rdbal : s.rdbal = s.rxRing
  addrs : ∀ i, i < rxDescCount → descAddr s.mem s.rxRing i = buf i
  queue : RingQueue rxDescCount (HoldsFrame s.mem s.rxRing buf) s.accepted
    left
  rdh : s.rdh = s.accepted.length % rxDescCount
  rdt : s.rdt = (left + (rxDescCount - 1)) % rxDescCount
  rxTail : s.rxTail =
    (left + (rxDescCount - 1) + s.phase.moved) % rxDescCount
  done : ∀ k, left ≤ k → k < left + rxDescCount →
    (Done s.mem s.rxRing (k % rxDescCount) ↔
      left + s.phase.taken ≤ k ∧ k < s.accepted.length)
  pending : s.phase.Pending s.accepted left
  inOrder : List.Forall₂ Delivers s.received (s.accepted.take left)

theorem mod_lt_count
    (k : Nat) : k % rxDescCount < rxDescCount :=
  Nat.mod_lt k (by decide)

/-- Until `rx_tail` moves, a poll looks at the first unread frame's descriptor. -/
theorem RxInv.next
    (h : RxInv buf left s) (hmoved : s.phase.moved = 0) :
    s.next = left % rxDescCount := by
  unfold Driver.next
  rw [h.rxTail, hmoved, Nat.add_zero, Nat.mod_add_mod,
    show left + (rxDescCount - 1) + 1 = left + rxDescCount from rfl, Nat.add_mod_right]

/-- Memory may change elsewhere. -/
theorem RxInv.setMem
    (h : RxInv buf left s)
    (hsame : ∀ i, i < rxDescCount → SameFrame s.mem mem' s.rxRing buf i ∧
      mem' (s.rxRing + descSize * i + 12) = s.mem (s.rxRing + descSize * i + 12)) :
    RxInv buf left { s with mem := mem' } :=
  { h with
    addrs := fun i hi => (hsame i hi).1.descAddr.trans (h.addrs i hi)
    queue := h.queue.mono (fun k _ _ _ hx => (hsame _ (mod_lt_count k)).1.holds hx)
    done := fun k hk hlt =>
      (done_congr (hsame _ (mod_lt_count k)).2).trans (h.done k hk hlt) }

/-- The card has room exactly while fewer than `RX_DESC_COUNT - 1` are unread. -/
theorem RxInv.room
    (h : RxInv buf left s) (hne : s.rdh ≠ s.rdt) :
    s.accepted.length < left + (rxDescCount - 1) := by
  have hfull := h.queue.full_iff
  have hroom := h.queue.room
  rw [← h.rdh, ← h.rdt] at hfull
  unfold rxDescCount at *
  have hlt := mt hfull.mpr hne
  omega

/-- A frame that is being taken out is there. -/
theorem RxInv.taken_le
    (h : RxInv buf left s) : left + s.phase.taken ≤ s.accepted.length := by
  have hleft := h.queue.left_le
  have hpending := h.pending
  have hthere : (∃ r, ∃ x, s.accepted[left]? = some x ∧ Delivers r x) →
      left + 1 ≤ s.accepted.length := by
    rintro ⟨_, x, hx, _⟩
    exact (List.getElem?_eq_some_iff.mp hx).1
  cases hphase : s.phase with
  | idle =>
      exact hleft
  | ready maxLen =>
      exact hleft
  | copied r =>
      exact hleft
  | cleared r =>
      rw [hphase] at hpending
      exact hthere ⟨r, hpending⟩
  | advanced r =>
      rw [hphase] at hpending
      exact hthere ⟨r, hpending⟩

theorem Phase.Pending.append
    {entered : List Filled} (x : Filled) (h : p.Pending entered left) :
    p.Pending (entered ++ [x]) left := by
  have hkeep : ∀ r,
      (∃ y, entered[left]? = some y ∧ Delivers r y) →
      ∃ y, (entered ++ [x])[left]? = some y ∧ Delivers r y := by
    rintro r ⟨y, hy, hr⟩
    refine ⟨y, ?_, hr⟩
    rw [List.getElem?_append_left (List.getElem?_eq_some_iff.mp hy).1]
    exact hy
  cases p with
  | idle =>
      trivial
  | ready maxLen =>
      unfold Phase.Pending at h ⊢
      rw [List.length_append]
      omega
  | copied r =>
      exact hkeep r h
  | cleared r =>
      exact hkeep r h
  | advanced r =>
      exact hkeep r h

/-- The card's step. -/
theorem RxInv.cardReceive
    (h : RxInv buf left s) (f : Frame) (flags : Fin 128) :
    RxInv buf left (cardReceive f flags s) := by
  unfold E1000.cardReceive
  split_ifs with hstop
  · exact h
  have hroom := h.room hstop
  have hleft := h.queue.left_le
  have hslot : s.rdh < rxDescCount := h.rdh ▸ mod_lt_count _
  have haddr := h.addrs s.rdh hslot
  have hother := fun i (hi : i < rxDescCount) (hne : i ≠ s.rdh) =>
    sameFrame_fillDesc f flags h.layout haddr hi hslot hne
  rw [h.rdbal]
  refine
    { layout := h.layout
      rdbal := rfl
      addrs := fun i hi => ?_
      queue := ?_
      rdh := ?_
      rdt := h.rdt
      rxTail := h.rxTail
      done := fun k hk hlt => ?_
      pending := h.pending.append _
      inOrder := ?_ }
  · by_cases hi' : i = s.rdh
    · subst hi'
      exact descAddr_fillDesc h.layout haddr hi
    · exact (hother i hi hi').1.descAddr.trans (h.addrs i hi)
  · have hkept : RingQueue rxDescCount
        (HoldsFrame (fillDesc s.mem s.rxRing s.rdh f flags) s.rxRing buf) s.accepted
        left :=
      h.queue.mono (fun k x hk hx hold => by
        have hne := h.queue.slot_ne hk (List.getElem?_eq_some_iff.mp hx).1
        rw [← h.rdh] at hne
        exact (hother _ (mod_lt_count k) hne).1.holds hold)
    exact hkept.enter hroom (h.rdh ▸ holds_fillDesc h.layout haddr hslot)
  · show (s.rdh + 1) % rxDescCount = (s.accepted ++ [_]).length % rxDescCount
    rw [h.rdh, Nat.mod_add_mod, List.length_append, List.length_singleton]
  · show Done (fillDesc s.mem s.rxRing s.rdh f flags) s.rxRing (k % rxDescCount) ↔
      left + s.phase.taken ≤ k ∧ k < (s.accepted ++ [_]).length
    rw [List.length_append, List.length_singleton]
    have htaken := h.taken_le
    by_cases hka : k = s.accepted.length
    · rw [hka, ← h.rdh]
      exact iff_of_true done_fillDesc ⟨htaken, Nat.lt_succ_self _⟩
    · have hne : k % rxDescCount ≠ s.rdh := by
        rw [h.rdh, Ne, RingQueue.slot_eq_iff hk hlt hleft h.queue.room]
        exact hka
      rw [done_congr (hother _ (mod_lt_count k) hne).2, h.done k hk hlt]
      omega
  · show List.Forall₂ Delivers s.received ((s.accepted ++ [_]).take left)
    rw [List.take_append_of_le_length hleft]
    exact h.inOrder

/-- The first unread descriptor has `DD` set exactly if a frame is unread. -/
theorem RxInv.done_next
    (h : RxInv buf left s) (hidle : s.phase = .idle) :
    Done s.mem s.rxRing s.next ↔ left < s.accepted.length := by
  rw [h.next (by rw [hidle]; rfl), h.done _ (le_refl _) (by unfold rxDescCount; omega),
    hidle]
  exact and_iff_right (le_refl _)

/-- The poll goes on without touching the ring. -/
theorem RxInv.setPhase
    (h : RxInv buf left s) (hmoved : p.moved = s.phase.moved)
    (htaken : p.taken = s.phase.taken) (hpending : p.Pending s.accepted left) :
    RxInv buf left { s with phase := p } :=
  { h with
    rxTail := by
      rw [hmoved]
      exact h.rxTail
    done := by
      rw [htaken]
      exact h.done
    pending := hpending }

theorem RxInv.ready
    (h : RxInv buf left s) (hidle : s.phase = .idle) (maxLen : Nat)
    (hdone : Done s.mem s.rxRing s.next) :
    RxInv buf left { s with phase := .ready maxLen } :=
  h.setPhase (by rw [hidle]; rfl) (by rw [hidle]; rfl) ((h.done_next hidle).mp hdone)

/-- A poll that returns 0 leaves the record of frames as it is. -/
theorem received_zero
    (s : Driver) (maxLen : Nat) (bytes : List UInt8) :
    Driver.received { s with returned := s.returned ++ [Received.mk maxLen 0 bytes] } =
      s.received := by
  simp [Driver.received, List.filter_append]

theorem RxInv.returnZero
    (h : RxInv buf left s) (maxLen : Nat) :
    RxInv buf left { s with returned := s.returned ++ [⟨maxLen, 0, []⟩] } :=
  { h with
    inOrder := by
      rw [received_zero]
      exact h.inOrder }

theorem RxInv.copied
    (h : RxInv buf left s) (hphase : s.phase = .ready maxLen) :
    RxInv buf left
      { s with
        phase := .copied
          ⟨maxLen, descLength s.mem s.rxRing s.next,
            (List.range
              (if descLength s.mem s.rxRing s.next < maxLen then
                descLength s.mem s.rxRing s.next else maxLen)).map
              (fun i => s.mem (descAddr s.mem s.rxRing s.next + i))⟩ } := by
  have hlt : left < s.accepted.length := by
    have hp := h.pending
    rwa [hphase] at hp
  have hget := List.getElem?_eq_getElem hlt
  have hslot : s.next < rxDescCount := mod_lt_count _
  rw [h.addrs s.next hslot]
  refine h.setPhase (by rw [hphase]; rfl) (by rw [hphase]; rfl) ⟨_, hget, ?_⟩
  refine delivers_copy ?_ maxLen
  rw [h.next (by rw [hphase]; rfl)]
  exact h.queue.holds _ _ (le_refl _) hget

theorem RxInv.cleared
    (h : RxInv buf left s) (hphase : s.phase = .copied r) :
    RxInv buf left
      { s with
        mem := writeLE s.mem (s.rxRing + descSize * s.next + 12) 1 0
        phase := .cleared r } := by
  have hslot : s.next < rxDescCount := mod_lt_count _
  have hsame : ∀ i, i < rxDescCount →
      SameFrame s.mem (writeLE s.mem (s.rxRing + descSize * s.next + 12) 1 0) s.rxRing
        buf i :=
    fun i hi => sameFrame_clear h.layout hi hslot
  have hnext := h.next (by rw [hphase]; rfl)
  refine
    { h with
      addrs := fun i hi => (hsame i hi).descAddr.trans (h.addrs i hi)
      queue := h.queue.mono (fun k _ _ _ hx => (hsame _ (mod_lt_count k)).holds hx)
      rxTail := by have ht := h.rxTail; rwa [hphase] at ht
      done := fun k hk hlt => ?_
      pending := by have hp := h.pending; rwa [hphase] at hp }
  show Done (writeLE s.mem (s.rxRing + descSize * s.next + 12) 1 0) s.rxRing
      (k % rxDescCount) ↔ left + 1 ≤ k ∧ k < s.accepted.length
  by_cases hkr : k = left
  · rw [hkr, ← hnext]
    exact iff_of_false not_done_clear (by omega)
  · have hne : k % rxDescCount ≠ s.next := by
      rw [hnext, Ne, RingQueue.slot_eq_iff hk hlt (le_refl _)
        (by unfold rxDescCount; omega)]
      exact hkr
    have hd := h.done k hk hlt
    rw [hphase] at hd
    rw [done_congr (status_clear hne), hd]
    show left + 0 ≤ k ∧ _ ↔ _
    omega

theorem RxInv.advanced
    (h : RxInv buf left s) (hphase : s.phase = .cleared r) :
    RxInv buf left { s with rxTail := s.next, phase := .advanced r } :=
  { h with
    rxTail := by
      show s.next = (left + (rxDescCount - 1) + 1) % rxDescCount
      unfold Driver.next
      rw [h.rxTail, hphase, Nat.mod_add_mod]
      rfl
    done := by have hd := h.done; rwa [hphase] at hd
    pending := by have hp := h.pending; rwa [hphase] at hp }

/-- The frame that a poll returns is the first unread one. -/
theorem RxInv.handBack
    (h : RxInv buf left s) (hphase : s.phase = .advanced r) :
    r.len ≠ 0 ∧
      RxInv buf (left + 1)
        { s with rdt := s.rxTail, phase := .idle, returned := s.returned ++ [r] } := by
  have hp := h.pending
  rw [hphase] at hp
  obtain ⟨x, hx, hr⟩ := hp
  have hlt := (List.getElem?_eq_some_iff.mp hx).1
  have hlen : r.len ≠ 0 := by
    have hpos := x.frame.nonempty
    rw [hr.1]
    omega
  have htail := h.rxTail
  have hdone := h.done
  rw [hphase] at htail hdone
  have htail' : s.rxTail = (left + 1 + (rxDescCount - 1)) % rxDescCount := by
    rw [htail, Nat.add_right_comm]
    rfl
  refine ⟨hlen, ?_⟩
  refine
    { layout := h.layout
      rdbal := h.rdbal
      addrs := h.addrs
      queue := h.queue.leave hlt
      rdh := h.rdh
      rdt := htail'
      rxTail := htail'
      done := fun k hk hlt' => ?_
      pending := trivial
      inOrder := ?_ }
  · show Done s.mem s.rxRing (k % rxDescCount) ↔ left + 1 + 0 ≤ k ∧ k < s.accepted.length
    by_cases hlast : k < left + rxDescCount
    · exact hdone k (by omega) hlast
    · -- the descriptor that was just handed back
      have hk8 : k = left + rxDescCount := by omega
      have hroom := h.queue.room
      rw [hk8, Nat.add_mod_right, hdone _ (le_refl _) (by unfold rxDescCount; omega)]
      show left + 1 ≤ _ ∧ _ ↔ _
      omega
  · have hreceived : Driver.received
        { s with rdt := s.rxTail, phase := .idle, returned := s.returned ++ [r] } =
          s.received ++ [r] := by
      simp [Driver.received, List.filter_append, hlen]
    rw [hreceived, List.take_add_one, hx]
    exact List.rel_append h.inOrder (List.Forall₂.cons hr .nil)

/-- What each action does, and what it needs. -/
inductive Action (s : Driver) : Event → Driver → Prop
  | frame (f : Frame) (flags : Fin 128) : Action s (.frame f flags) (cardReceive f flags s)
  | ready (maxLen : Nat) (hphase : s.phase = .idle) (hdone : Done s.mem s.rxRing s.next) :
      Action s (.call maxLen) { s with phase := .ready maxLen }
  | returnZero (maxLen : Nat) (hphase : s.phase = .idle)
      (hdone : ¬ Done s.mem s.rxRing s.next) :
      Action s (.call maxLen) { s with returned := s.returned ++ [⟨maxLen, 0, []⟩] }
  | copied (maxLen : Nat) (hphase : s.phase = .ready maxLen) :
      Action s .copy
        { s with
          phase := .copied
            ⟨maxLen, descLength s.mem s.rxRing s.next,
              (List.range
                (if descLength s.mem s.rxRing s.next < maxLen then
                  descLength s.mem s.rxRing s.next else maxLen)).map
                (fun i => s.mem (descAddr s.mem s.rxRing s.next + i))⟩ }
  | cleared (r : Received) (hphase : s.phase = .copied r) :
      Action s .clear
        { s with
          mem := writeLE s.mem (s.rxRing + descSize * s.next + 12) 1 0
          phase := .cleared r }
  | advanced (r : Received) (hphase : s.phase = .cleared r) :
      Action s .advance { s with rxTail := s.next, phase := .advanced r }
  | handBack (r : Received) (hphase : s.phase = .advanced r) :
      Action s .handBack
        { s with rdt := s.rxTail, phase := .idle, returned := s.returned ++ [r] }
  | store (a : Nat) (b : UInt8) (hout : ¬ s.InRing a) :
      Action s (.store a b) { s with mem := update s.mem a b }

theorem action_of_step
    (hstep : step s e = some t) : Action s e t := by
  cases e with
  | frame f flags =>
      cases hstep
      exact .frame f flags
  | call maxLen =>
      cases hphase : s.phase with
      | idle =>
          simp only [step, hphase] at hstep
          split_ifs at hstep with hdone
          · cases hstep
            exact .ready maxLen hphase hdone
          · cases hstep
            exact hphase ▸ .returnZero maxLen hphase hdone
      | _ =>
          simp [step, hphase] at hstep
  | copy =>
      cases hphase : s.phase with
      | ready maxLen =>
          simp only [step, hphase] at hstep
          obtain ⟨_, ht⟩ := Option.ite_none_left_eq_some.mp hstep
          cases ht
          exact .copied maxLen hphase
      | _ =>
          simp [step, hphase] at hstep
  | clear =>
      cases hphase : s.phase with
      | copied r =>
          simp only [step, hphase] at hstep
          cases hstep
          exact .cleared r hphase
      | _ =>
          simp [step, hphase] at hstep
  | advance =>
      cases hphase : s.phase with
      | cleared r =>
          simp only [step, hphase] at hstep
          cases hstep
          exact .advanced r hphase
      | _ =>
          simp [step, hphase] at hstep
  | handBack =>
      cases hphase : s.phase with
      | advanced r =>
          simp only [step, hphase] at hstep
          cases hstep
          exact .handBack r hphase
      | _ =>
          simp [step, hphase] at hstep
  | store a b =>
      simp only [step] at hstep
      split_ifs at hstep with hin
      cases hstep
      exact .store a b hin

/-- Every action keeps the invariant. -/
theorem step_rxInv
    (h : RxInv buf left s) (hstep : step s e = some t) :
    ∃ left', RxInv buf left' t := by
  cases action_of_step hstep with
  | frame f flags =>
      exact ⟨left, h.cardReceive f flags⟩
  | ready maxLen hphase hdone =>
      exact ⟨left, h.ready hphase maxLen hdone⟩
  | returnZero maxLen hphase hdone =>
      exact ⟨left, h.returnZero maxLen⟩
  | copied maxLen hphase =>
      exact ⟨left, h.copied hphase⟩
  | cleared r hphase =>
      exact ⟨left, h.cleared hphase⟩
  | advanced r hphase =>
      exact ⟨left, h.advanced hphase⟩
  | handBack r hphase =>
      exact ⟨left + 1, (h.handBack hphase).2⟩
  | store a b hout =>
      refine ⟨left, h.setMem (fun i hi => ?_)⟩
      unfold Driver.InRing at hout
      rw [not_or, not_exists] at hout
      refine sameFrame_update hi hout.1 (fun hbuf => hout.2 i ⟨hi, ?_⟩)
      rw [h.addrs i hi]
      exact hbuf

/-- The frames returned are as many as `left` says. -/
theorem RxInv.count
    (h : RxInv buf left s) : s.received.length = left := by
  rw [h.inOrder.length_eq, List.length_take, min_eq_left h.queue.left_le]

@[simp] theorem cardReceive_returned
    (f : Frame) (flags : Fin 128) (s : Driver) :
    (cardReceive f flags s).returned = s.returned := by
  unfold cardReceive
  split_ifs
  · rfl
  · rfl

/-- An action that returns 0 finds nothing unread. -/
theorem RxInv.empty_of_zero
    {bytes : List UInt8} (h : RxInv buf left s) (hstep : step s e = some t)
    (hzero : t.returned = s.returned ++ [⟨maxLen, 0, bytes⟩]) :
    left = s.accepted.length := by
  cases action_of_step hstep with
  | returnZero m hphase hdone =>
      have hleft := h.queue.left_le
      rw [h.done_next hphase] at hdone
      omega
  | handBack r hphase =>
      have hr := List.append_cancel_left hzero
      rw [List.cons.injEq] at hr
      exact absurd (by rw [hr.1]) (h.handBack hphase).1
  | _ =>
      -- the other actions return nothing
      simp at hzero

/-- What every action from a state with the invariant does. -/
theorem RxInv.stepOk
    (h : RxInv buf left s) (hstep : step s e = some t) : StepOk s e t := by
  obtain ⟨left', h'⟩ := step_rxInv h hstep
  have hroom := h'.queue.room
  have hcount := h.count
  refine
    { inOrder := ?_
      bound := ?_
      empty := fun maxLen bytes hzero => ?_
      apart := fun f flags _ hne x hx => ?_ }
  · rw [h'.count]
    exact h'.inOrder
  · unfold Driver.unread
    rw [h'.count, List.length_drop]
    omega
  · unfold Driver.unread
    rw [hcount, h.empty_of_zero hstep hzero, List.drop_length]
  · unfold Driver.unread at hx
    rw [hcount] at hx
    obtain ⟨j, hj⟩ := List.mem_iff_getElem?.mp hx
    rw [List.getElem?_drop] at hj
    have hslot := (h.queue.holds (left + j) x (by omega) hj).slot
    rw [hslot, h.rdh]
    exact h.queue.slot_ne (by omega) (List.getElem?_eq_some_iff.mp hj).1

end Invariant

section Init

variable {panic : Panic}

/-- What the loop over the descriptors `i` to `i + n - 1` has done. -/
structure BuffersOk (ring i n : Nat) (m m' : Store × Pmm.State) : Prop where
  physical : Physical m'.2
  keeps : heldFrames m.2 ⊆ heldFrames m'.2
  outside : ∀ y, y < ring + 16 * i ∨ ring + 16 * (i + n) ≤ y → m'.1 y = m.1 y
  aligned : ∀ k, i ≤ k → k < i + n → descAddr m'.1 ring k % 4096 = 0
  fresh : ∀ k, i ≤ k → k < i + n → descAddr m'.1 ring k / 4096 ∉ heldFrames m.2
  distinct : ∀ k l, i ≤ k → k < l → l < i + n →
    descAddr m'.1 ring k / 4096 ≠ descAddr m'.1 ring l / 4096
  clear : ∀ k, i ≤ k → k < i + n → ¬ Done m'.1 ring k

theorem initBuffers_ok
    (n : Nat) :
    ∀ i m m', Physical m.2 → initBuffers panic ring n i m = .ok m' →
      BuffersOk ring i n m m' := by
  induction n with
  | zero =>
      intro i m m' hp hrun
      cases hrun
      exact
        { physical := hp
          keeps := fun _ h => h
          outside := fun _ _ => rfl
          aligned := fun k hk hlt => by omega
          fresh := fun k hk hlt => by omega
          distinct := fun k l hk hkl hlt => by omega
          clear := fun k hk hlt => by omega }
  | succ n ih =>
      intro i m m' hp hrun
      have hf := freshPages_pmm
      rw [initBuffers] at hrun
      split_ifs at hrun with hnull
      have hrest := ih (i + 1) _ m' (hf.valid m.2 hp) hrun
      have hbound := hf.bound m.2 hp
      -- the descriptor written in this round keeps its address and status
      have haddr : descAddr m'.1 ring i = (pmmAllocPage m.2).1 := by
        unfold descAddr descSize
        rw [readLE_congr (fun y hy hlt => hrest.outside y (Or.inl (by omega)))]
        unfold descSize
        rw [readLE_writeLE_of_disjoint (by omega), readLE_writeLE_of_lt (by omega)]
      have hstatus : ¬ Done m'.1 ring i := by
        rw [done_congr (hrest.outside _ (Or.inl (by unfold descSize; omega)))]
        exact not_done_clear
      have hcases : ∀ k, i ≤ k → k = i ∨ i + 1 ≤ k := by
        intro k hk
        omega
      refine
        { physical := hrest.physical
          keeps := (hf.keeps m.2 hp).trans hrest.keeps
          outside := fun y hy => ?_
          aligned := fun k hk hlt => ?_
          fresh := fun k hk hlt => ?_
          distinct := fun k l hk hkl hlt => ?_
          clear := fun k hk hlt => ?_ }
      · rw [hrest.outside y (by omega)]
        dsimp only [descSize]
        rw [writeLE_outside (by omega), writeLE_outside (by omega)]
      · rcases hcases k hk with rfl | hk'
        · rw [haddr]
          exact hf.aligned m.2 hp
        · exact hrest.aligned k hk' (by omega)
      · rcases hcases k hk with rfl | hk'
        · rw [haddr]
          exact hf.fresh m.2 hp hnull
        · exact fun hheld => hrest.fresh k hk' (by omega) (hf.keeps m.2 hp hheld)
      · rcases hcases k hk with rfl | hk'
        · intro heq
          rw [haddr] at heq
          exact hrest.fresh l (by omega) (by omega) (heq ▸ hf.takes m.2 hp hnull)
        · exact hrest.distinct k l hk' hkl (by omega)
      · rcases hcases k hk with rfl | hk'
        · exact hstatus
        · exact hrest.clear k hk' (by omega)

/-- Different pages do not overlap. -/
theorem pages_apart
    {b : Nat} (ha : a % 4096 = 0) (hb : b % 4096 = 0) (hne : a / 4096 ≠ b / 4096) :
    a + 4096 ≤ b ∨ b + 4096 ≤ a := by
  omega

/-- The buffers of a ring in an allocated page do not overlap it or one another. -/
theorem BuffersOk.layout
    {m m' : Store × Pmm.State} (h : BuffersOk ring 0 rxDescCount m m')
    (hring : ring % 4096 = 0) (hheld : ring / 4096 ∈ heldFrames m.2) :
    Layout ring (descAddr m'.1 ring) := by
  have haligned : ∀ i, i < rxDescCount → descAddr m'.1 ring i % 4096 = 0 :=
    fun i hi => h.aligned i (Nat.zero_le i) (by omega)
  refine ⟨fun i hi => ?_, fun i j hi hj hne => ?_⟩
  · have hne : descAddr m'.1 ring i / 4096 ≠ ring / 4096 := by
      intro heq
      refine h.fresh i (Nat.zero_le i) (by omega) ?_
      rw [heq]
      exact hheld
    have hapart := pages_apart (haligned i hi) hring hne
    unfold e1000BufSize descSize rxDescCount
    omega
  · have hpages : descAddr m'.1 ring i / 4096 ≠ descAddr m'.1 ring j / 4096 := by
      rcases lt_or_gt_of_ne hne with hij | hij
      · exact h.distinct i j (Nat.zero_le i) hij (by omega)
      · exact (h.distinct j i (Nat.zero_le j) hij (by omega)).symm
    have hapart := pages_apart (haligned i hi) (haligned j hj) hpages
    unfold e1000BufSize
    omega

/-- `e1000_init` establishes the invariant. -/
theorem rxInv_init
    {pmm : Pmm.State} (hp : Physical pmm) (hinit : e1000Init mem pmm = .ok s) :
    ∃ buf, RxInv buf 0 s := by
  have hf := freshPages_pmm
  simp only [e1000Init] at hinit
  split_ifs at hinit with hnull hmapped
  rw [not_or] at hnull hmapped
  obtain ⟨m₁, hrx, hinit⟩ := bind_eq_ok.mp hinit
  obtain ⟨m₂, htx, hinit⟩ := bind_eq_ok.mp hinit
  cases hinit
  have hp₁ := hf.valid pmm hp
  have hrxOk := initBuffers_ok rxDescCount 0 _ m₁ (hf.valid _ hp₁) hrx
  have htxOk := initBuffers_ok txDescCount 0 _ m₂ hrxOk.physical htx
  have hringA := hf.aligned pmm hp
  have hringHeld := hf.takes pmm hp hnull.1
  have hrings := pages_apart hringA (hf.aligned _ hp₁)
    (fun heq => hf.fresh _ hp₁ hnull.2 (heq ▸ hringHeld))
  -- the second loop does not touch the receive ring
  have hsame : ∀ y, (pmmAllocPage pmm).1 ≤ y → y < (pmmAllocPage pmm).1 + 128 →
      m₂.1 y = m₁.1 y := by
    intro y hy hlt
    refine htxOk.outside y ?_
    unfold txDescCount
    omega
  refine ⟨descAddr m₁.1 (pmmAllocPage pmm).1, ?_⟩
  refine
    { layout := hrxOk.layout hringA (hf.keeps _ hp₁ hringHeld)
      rdbal := ?_
      addrs := fun i hi => ?_
      queue := RingQueue.empty (by decide)
      rdh := rfl
      rdt := rfl
      rxTail := rfl
      done := fun k _ hk => ?_
      pending := trivial
      inOrder := List.Forall₂.nil }
  · have hlimit : identityLimit = 2 ^ 32 := rfl
    have hsize : pageSize = 4096 := rfl
    show (pmmAllocPage pmm).1 % 2 ^ 32 = (pmmAllocPage pmm).1
    exact Nat.mod_eq_of_lt (by omega)
  · unfold rxDescCount at hi
    dsimp only [descAddr, descSize]
    exact readLE_congr (fun y hy hlt => hsame y (by omega) (by omega))
  · show Done m₂.1 (pmmAllocPage pmm).1 (k % rxDescCount) ↔ _ ∧ k < 0
    have hslot := mod_lt_count k
    refine iff_of_false ?_ (by omega)
    rw [done_congr (hsame _ (by omega)
      (by unfold rxDescCount at hslot ⊢; unfold descSize; omega))]
    exact hrxOk.clear _ (Nat.zero_le _) (by omega)

end Init

/--
**The receive ring loses, duplicates and reorders nothing.**  After `e1000_init`,
whatever frames arrive between the actions of the polls: the frames returned are
the first of the accepted frames, in order, each once and cut to `max_len`; a
poll returns 0 only if none is unread; the card writes no descriptor that is
unread; and at most `RX_DESC_COUNT - 1` frames are unread.
-/
theorem receive_ring_exact
    {mem : Store} {pmm : Pmm.State} {s : Driver} (hp : Physical pmm)
    (hinit : e1000Init mem pmm = .ok s) (events : List Event) :
    EveryStep step StepOk s events := by
  obtain ⟨buf, hstart⟩ := rxInv_init hp hinit
  refine everyStep_of_invariant
    (I := fun s => ∃ buf left, RxInv buf left s) (fun s e t h hstep => ?_)
    ⟨buf, 0, hstart⟩
  obtain ⟨buf, left, h⟩ := h
  obtain ⟨left', h'⟩ := step_rxInv h hstep
  exact ⟨⟨buf, left', h'⟩, h.stepOk hstep⟩

/-- An allocator with 63 free pages. -/
def freePages : Pmm.State where
  bitmap := fun i => if i = 0 then 1#8 else 0#8
  bitmapAddr := 0
  bitmapBits := 64
  freePages := 63
  searchHint := 1

/-- A frame arrives and is polled, and the next poll finds nothing. -/
def oneFrame : List Event :=
  [.frame ⟨[1, 2, 3], by decide, by decide⟩ 1, .call 2, .copy, .clear, .advance,
    .handBack, .call 2]

theorem receive_ring_exact_one_frame :
    Physical freePages ∧
      ∃ s, (e1000Init (fun _ => 0) freePages).toOption = some s ∧
        EveryStep step StepOk s oneFrame ∧
        (runAll step s oneFrame).any
          (fun t => t.returned.map (fun r => (r.len, r.bytes)) = [(3, [1, 2]), (0, [])]) := by
  have hok : (e1000Init (fun _ => 0) freePages).toOption.any (fun s =>
      (runAll step s oneFrame).any
        (fun t => t.returned.map (fun r => (r.len, r.bytes)) = [(3, [1, 2]), (0, [])])) := by
    decide
  obtain ⟨s, hs, hrun⟩ := (Option.any_eq_true _ _).mp hok
  have hp : Physical freePages := by
    show 64 ≤ 2 ^ 40
    decide
  exact ⟨hp, s, hs, receive_ring_exact hp (toOption_eq_some.mp hs) _, hrun⟩

end E1000
end RebornOS
