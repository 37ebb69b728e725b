import RebornOS.ByteStore
import RebornOS.LabeledRun
import RebornOS.RingQueue

/-!
# The keyboard buffer

The interrupt handler and `keyboard_inject_char` push characters into a ring of
`KEYBOARD_BUFFER_SIZE` slots, and `keyboard_read_char` takes them out.  Each call
runs with interrupts off, so a run is a list of calls.

A `Log` follows a run from outside: it notes a character as accepted when
`buf_head` moved, and the reply of every read.  The ring then holds the accepted
characters that have not been returned, in slots that `RingQueue` numbers.  For
its readers the buffer is the list `Fifo.replies` takes characters from.
-/

namespace RebornOS
namespace Keyboard

open ByteStore LabeledRun Function

variable {c : UInt8} {rest : List UInt8}

section Model

/-- `KEYBOARD_BUFFER_SIZE`. -/
def keyboardBufferSize : Nat := 64

/-- `scancode_to_ascii`; zero means no printable character. -/
def scancodeToAscii : List UInt8 :=
  [ -- 0x00: none, ESC, 1 to 0, -, =, backspace
    0, 0, 0x31, 0x32, 0x33, 0x34, 0x35, 0x36, 0x37, 0x38, 0x39, 0x30, 0x2D, 0x3D, 0x08,
    -- 0x0F: tab, qwertyuiop, [, ], newline
    0x09, 0x71, 0x77, 0x65, 0x72, 0x74, 0x79, 0x75, 0x69, 0x6F, 0x70, 0x5B, 0x5D, 0x0A,
    -- 0x1D: left control, asdfghjkl, semicolon, quote, backquote
    0, 0x61, 0x73, 0x64, 0x66, 0x67, 0x68, 0x6A, 0x6B, 0x6C, 0x3B, 0x27, 0x60,
    -- 0x2A: left shift, backslash, zxcvbnm, comma, dot, slash
    0, 0x5C, 0x7A, 0x78, 0x63, 0x76, 0x62, 0x6E, 0x6D, 0x2C, 0x2E, 0x2F,
    -- 0x36: right shift, *, left alt, space
    0, 0x2A, 0, 0x20]

/-- The static variables of the driver. -/
structure State where
  buffer : Store
  bufHead : Nat
  bufTail : Nat

/-- The variables before the first call. -/
def State.start : State where
  buffer := fun _ => 0
  bufHead := 0
  bufTail := 0

/-- `buffer_push`. -/
def bufferPush (s : State) (c : UInt8) : State :=
  let next := (s.bufHead + 1) % keyboardBufferSize
  if next = s.bufTail then
    s
  else
    { s with buffer := update s.buffer s.bufHead c, bufHead := next }

/-- `keyboard_irq_handler`, with the scancode it reads from the data port. -/
def keyboardIrqHandler (s : State) (scancode : UInt8) : State :=
  if scancode &&& 0x80 ≠ 0 then
    s
  else if scancode.toNat < scancodeToAscii.length then
    let c := scancodeToAscii.getD scancode.toNat 0
    if c ≠ 0 then bufferPush s c else s
  else
    s

/-- `keyboard_read_char`. -/
def keyboardReadChar (s : State) : Int × State :=
  if s.bufTail ≠ s.bufHead then
    ((s.buffer s.bufTail).toNat,
      { s with bufTail := (s.bufTail + 1) % keyboardBufferSize })
  else
    (-1, s)

/-- `keyboard_inject_char`. -/
def keyboardInjectChar (s : State) (c : UInt8) : State :=
  bufferPush s c

/-- The calls that use the buffer. -/
inductive Call where
  | irq (scancode : UInt8)
  | inject (c : UInt8)
  | read
deriving DecidableEq

/-- The character that a scancode stands for. -/
def scancodeChar (scancode : UInt8) : Option UInt8 :=
  (scancodeToAscii[scancode.toNat]?).filter (fun c => c ≠ 0)

/-- The character that a call pushes. -/
def Call.char : Call → Option UInt8
  | .irq scancode => scancodeChar scancode
  | .inject c => some c
  | .read => none

theorem Call.ne_read_of_char
    {call : Call} (h : call.char = some c) : call ≠ .read := by
  rintro rfl
  cases h

/-- What a call does to the variables. -/
def State.call (s : State) : Call → State
  | .irq scancode => keyboardIrqHandler s scancode
  | .inject c => keyboardInjectChar s c
  | .read => (keyboardReadChar s).2

/-- Break codes have bit 7 and lie outside the table. -/
theorem keyboardIrqHandler_eq
    (s : State) (scancode : UInt8) :
    keyboardIrqHandler s scancode =
      (scancodeChar scancode).elim s (bufferPush s) := by
  have hlen : scancodeToAscii.length = 58 := rfl
  have hbit : ∀ n < 58, UInt8.ofNat n &&& 0x80 = 0 := by
    decide
  unfold keyboardIrqHandler scancodeChar
  by_cases hlt : scancode.toNat < scancodeToAscii.length
  · have hmake := hbit scancode.toNat (hlen ▸ hlt)
    rw [UInt8.ofNat_toNat] at hmake
    rw [if_neg (not_not_intro hmake), if_pos hlt, List.getD_eq_getElem?_getD,
      List.getElem?_eq_getElem hlt, Option.getD_some]
    by_cases hc : scancodeToAscii[scancode.toNat] = 0
    · simp [hc, Option.filter]
    · simp [hc, Option.filter]
  · rw [List.getElem?_eq_none (Nat.not_lt.mp hlt), if_neg hlt, ite_self]
    rfl

/-- A call that pushes a character runs `buffer_push` with it. -/
theorem State.call_of_char
    {s : State} {call : Call} (h : call.char = some c) :
    s.call call = bufferPush s c := by
  cases call with
  | irq scancode =>
      have hchar : scancodeChar scancode = some c := h
      rw [State.call, keyboardIrqHandler_eq, hchar, Option.elim_some]
  | inject d =>
      obtain rfl : d = c := Option.some.inj h
      rfl
  | read =>
      cases h

end Model

section Logs

/-- The variables together with what a run has shown so far. -/
structure Log where
  state : State
  accepted : List UInt8
  replies : List Int

namespace Log

/-- Before the first call. -/
def start : Log := ⟨State.start, [], []⟩

/-- The characters that were returned: `-1` says that there was none. -/
def returned (l : Log) : List Int := l.replies.filter (fun r => r ≠ -1)

/-- The accepted characters that have not been returned. -/
def unread (l : Log) : List UInt8 := l.accepted.drop l.returned.length

/-- One call: a character is accepted if `buf_head` moves past its slot. -/
def step (l : Log) (call : Call) : Option Log :=
  let s := l.state.call call
  some
    { state := s
      accepted :=
        if s.bufHead = l.state.bufHead then l.accepted
        else l.accepted ++ [s.buffer l.state.bufHead]
      replies :=
        if call = .read then l.replies ++ [(keyboardReadChar l.state).1]
        else l.replies }

end Log

/-- The characters as `keyboard_read_char` returns them. -/
def charValues (cs : List UInt8) : List Int :=
  cs.map (fun c => (c.toNat : Int))

/-- What a bounded queue does in one call. -/
structure StepOk (l : Log) (call : Call) (l' : Log) : Prop where
  inOrder : l'.returned = charValues (l'.accepted.take l'.returned.length)
  dropped_iff : call.char.isSome →
    (l'.accepted = l.accepted ↔ l.unread.length = keyboardBufferSize - 1)
  kept : ∀ c, call.char = some c →
    l'.unread = if l'.accepted = l.accepted then l.unread else l.unread ++ [c]
  accepted_of_not_push : call.char = none → l'.accepted = l.accepted
  replies_of_not_read : call ≠ .read → l'.replies = l.replies
  read : call = .read → ∃ r, l'.replies = l.replies ++ [r] ∧
    (r = -1 ↔ l.unread = [])

end Logs

section Moves

/-- The state after `c` was stored. -/
def Log.accept (l : Log) (c : UInt8) : Log where
  state :=
    { l.state with
      buffer := update l.state.buffer l.state.bufHead c
      bufHead := (l.state.bufHead + 1) % keyboardBufferSize }
  accepted := l.accepted ++ [c]
  replies := l.replies

/-- The state after a read that found nothing. -/
def Log.noChar (l : Log) : Log :=
  { l with replies := l.replies ++ [-1] }

/-- The state after a read that returned `c`. -/
def Log.take (l : Log) (c : UInt8) : Log where
  state := { l.state with bufTail := (l.state.bufTail + 1) % keyboardBufferSize }
  accepted := l.accepted
  replies := l.replies ++ [(c.toNat : Int)]

/-- All that a call can do. -/
inductive Move (l : Log) : Call → Log → Prop
  | silent {call : Call} :
      call.char = none → call ≠ .read → Move l call l
  | drop {call : Call} {c : UInt8} :
      call.char = some c → l.unread.length = keyboardBufferSize - 1 → Move l call l
  | accept {call : Call} {c : UInt8} :
      call.char = some c → l.unread.length < keyboardBufferSize - 1 →
      Move l call (l.accept c)
  | noChar :
      l.unread = [] → Move l .read l.noChar
  | take {c : UInt8} {rest : List UInt8} :
      l.unread = c :: rest → Move l .read (l.take c)

/-- The ring holds the accepted characters that were not returned. -/
structure Queued (l : Log) : Prop where
  ring : RingQueue keyboardBufferSize (fun slot c => l.state.buffer slot = c)
    l.accepted l.returned.length
  head : l.state.bufHead = l.accepted.length % keyboardBufferSize
  tail : l.state.bufTail = l.returned.length % keyboardBufferSize
  inOrder : l.returned = charValues (l.accepted.take l.returned.length)

variable {l l' : Log} {call : Call}

theorem Log.unread_length (l : Log) :
    l.unread.length = l.accepted.length - l.returned.length := by
  rw [unread, List.length_drop]

@[simp] theorem Log.returned_accept : (l.accept c).returned = l.returned := by
  rfl

@[simp] theorem Log.returned_noChar : l.noChar.returned = l.returned := by
  simp [noChar, returned]

@[simp] theorem Log.returned_take :
    (l.take c).returned = l.returned ++ [(c.toNat : Int)] := by
  have hne : (c.toNat : Int) ≠ -1 := by
    omega
  simp [take, returned, hne]

/-- An accepted character queues up behind the others. -/
theorem Queued.unread_accept
    (h : Queued l) : (l.accept c).unread = l.unread ++ [c] := by
  have hle := h.ring.left_le
  rw [Log.unread, Log.returned_accept]
  exact List.drop_append_of_le_length hle

@[simp] theorem Log.unread_noChar : l.noChar.unread = l.unread := by
  simp only [unread, returned_noChar]
  rfl

/-- The first unread character comes after the returned ones. -/
theorem Log.getElem?_of_unread
    (h : l.unread = c :: rest) : l.accepted[l.returned.length]? = some c := by
  rw [← List.head?_drop]
  exact congrArg List.head? h

/-- A returned character was the first of the unread ones. -/
theorem Log.unread_take
    (h : l.unread = c :: rest) : (l.take c).unread = rest := by
  have hdrop : l.accepted.drop (l.returned.length + 1) = (l.unread).drop 1 := by
    rw [unread, List.drop_drop]
  simp only [unread, returned_take, List.length_append, List.length_singleton]
  rw [h] at hdrop
  exact hdrop

theorem Queued.start : Queued Log.start where
  ring := RingQueue.empty (by decide)
  head := rfl
  tail := rfl
  inOrder := rfl

section

variable (h : Queued l)
include h

/-- `buffer_push` finds the ring full when one slot is left. -/
theorem Queued.full_iff :
    (l.state.bufHead + 1) % keyboardBufferSize = l.state.bufTail ↔
      l.unread.length = keyboardBufferSize - 1 := by
  have hle := h.ring.left_le
  rw [h.head, h.tail, Nat.mod_add_mod, h.ring.full_iff_succ, l.unread_length]
  omega

/-- `keyboard_read_char` finds the ring empty when nothing is unread. -/
theorem Queued.empty_iff : l.state.bufTail = l.state.bufHead ↔ l.unread = [] := by
  have hle := h.ring.left_le
  rw [h.head, h.tail, h.ring.empty_iff, ← List.length_eq_zero_iff, l.unread_length]
  omega

/-- The slot at `buf_tail` holds the first unread character. -/
theorem Queued.buffer_tail
    (hunread : l.unread = c :: rest) : l.state.buffer l.state.bufTail = c := by
  rw [h.tail]
  exact h.ring.holds _ _ (le_refl _) (Log.getElem?_of_unread hunread)

/-- A push either changes nothing or stores its character. -/
theorem Queued.bufferPush_eq
    (c : UInt8) :
    bufferPush l.state c =
      if l.unread.length = keyboardBufferSize - 1 then l.state
      else (l.accept c).state := by
  simp only [bufferPush, h.full_iff]
  rfl

/-- A read returns the first unread character. -/
theorem Queued.keyboardReadChar_eq
    (hunread : l.unread = c :: rest) :
    keyboardReadChar l.state = ((c.toNat : Int), (l.take c).state) := by
  have hne : l.state.bufTail ≠ l.state.bufHead := by
    rw [Ne, h.empty_iff, hunread]
    exact List.cons_ne_nil _ _
  rw [keyboardReadChar, if_pos hne, h.buffer_tail hunread]
  rfl

/-- A read of an empty buffer. -/
theorem Queued.keyboardReadChar_of_nil
    (hunread : l.unread = []) : keyboardReadChar l.state = (-1, l.state) := by
  rw [keyboardReadChar, if_neg (not_not_intro (h.empty_iff.mpr hunread))]

/-- `buf_head` moves when a character is stored. -/
theorem Queued.head_ne : (l.accept c).state.bufHead ≠ l.state.bufHead := by
  simp only [Log.accept, keyboardBufferSize, h.head]
  omega

/-- Every step is one of the moves. -/
theorem move_of_step
    (hstep : l.step call = some l') : Move l call l' := by
  obtain rfl := Option.some.inj hstep
  cases hchar : call.char with
  | some c =>
      have hread := Call.ne_read_of_char hchar
      by_cases hfull : l.unread.length = keyboardBufferSize - 1
      · simp only [State.call_of_char hchar, h.bufferPush_eq, if_pos hfull,
          if_neg hread, if_true]
        exact Move.drop hchar hfull
      · have hslot : (l.accept c).state.buffer l.state.bufHead = c :=
          update_self ..
        have hroom := h.ring.room
        have hlen := l.unread_length
        simp only [State.call_of_char hchar, h.bufferPush_eq, if_neg hfull,
          if_neg hread, if_neg h.head_ne, hslot]
        exact Move.accept hchar (by omega)
  | none =>
      cases call with
      | irq scancode =>
          have hsame : l.state.call (.irq scancode) = l.state := by
            have hnone : scancodeChar scancode = none := hchar
            rw [State.call, keyboardIrqHandler_eq, hnone, Option.elim_none]
          simp only [hsame, if_true, reduceCtorEq, if_false]
          exact Move.silent hchar nofun
      | inject c =>
          cases hchar
      | read =>
          cases hunread : l.unread with
          | nil =>
              have hread := h.keyboardReadChar_of_nil hunread
              simp only [State.call, hread, if_true]
              exact Move.noChar hunread
          | cons c rest =>
              have hread := h.keyboardReadChar_eq hunread
              have hhead : (l.take c).state.bufHead = l.state.bufHead := rfl
              simp only [State.call, hread, hhead, if_true]
              exact Move.take hunread

/-- Storing a character uses a slot that holds no unread one. -/
theorem Queued.accept
    (hroom : l.unread.length < keyboardBufferSize - 1) : Queued (l.accept c) where
  ring := by
    have hle := h.ring.left_le
    rw [l.unread_length] at hroom
    refine (h.ring.mono (fun k x hk hx hold => ?_)).enter (by omega) ?_
    · have hlt : k < l.accepted.length := (List.getElem?_eq_some_iff.mp hx).1
      have hslot : k % keyboardBufferSize ≠ l.state.bufHead :=
        h.head ▸ h.ring.slot_ne hk hlt
      exact (update_of_ne hslot ..).trans hold
    · rw [← h.head]
      exact update_self ..
  head := by
    simp only [Log.accept, h.head, List.length_append, List.length_singleton,
      Nat.mod_add_mod]
  tail := h.tail
  inOrder := by
    rw [Log.returned_accept]
    exact h.inOrder.trans
      (congrArg charValues (List.take_append_of_le_length h.ring.left_le).symm)

/-- Returning the first unread character. -/
theorem Queued.take
    (hunread : l.unread = c :: rest) : Queued (l.take c) := by
  have hlt : l.returned.length < l.accepted.length := by
    have hlen := l.unread_length
    rw [hunread, List.length_cons] at hlen
    omega
  have hlen : (l.take c).returned.length = l.returned.length + 1 := by
    rw [Log.returned_take, List.length_append, List.length_singleton]
  exact
    { ring := by
        rw [hlen]
        exact h.ring.leave hlt
      head := h.head
      tail := by
        rw [hlen, Log.take, h.tail, Nat.mod_add_mod]
      inOrder := by
        rw [hlen, Log.returned_take]
        have htake : l.accepted.take (l.returned.length + 1) =
            l.accepted.take l.returned.length ++ [c] := by
          rw [List.take_add_one, Log.getElem?_of_unread hunread, Option.toList_some]
        change l.returned ++ [(c.toNat : Int)] =
          charValues (l.accepted.take (l.returned.length + 1))
        rw [htake, charValues, List.map_append, ← charValues, ← h.inOrder]
        rfl }

/-- Every move keeps the queue. -/
theorem Queued.move
    (hmove : Move l call l') : Queued l' := by
  cases hmove with
  | silent =>
      exact h
  | drop =>
      exact h
  | accept _ hroom =>
      exact h.accept hroom
  | noChar =>
      exact
        { ring := Log.returned_noChar (l := l) ▸ h.ring
          head := h.head
          tail := Log.returned_noChar (l := l) ▸ h.tail
          inOrder := Log.returned_noChar (l := l) ▸ h.inOrder }
  | take hunread =>
      exact h.take hunread

end

/-- The conditions on a call that pushes `c`. -/
theorem StepOk.of_push
    (hchar : call.char = some c)
    (hinOrder : l'.returned = charValues (l'.accepted.take l'.returned.length))
    (hdropped : l'.accepted = l.accepted ↔ l.unread.length = keyboardBufferSize - 1)
    (hkept : l'.unread = if l'.accepted = l.accepted then l.unread else l.unread ++ [c])
    (hreplies : l'.replies = l.replies) : StepOk l call l' where
  inOrder := hinOrder
  dropped_iff _ := hdropped
  kept d hd := by
    obtain rfl : c = d := Option.some.inj (hchar.symm.trans hd)
    exact hkept
  accepted_of_not_push hnone := by
    rw [hchar] at hnone
    cases hnone
  replies_of_not_read _ := hreplies
  read hcall := absurd hcall (Call.ne_read_of_char hchar)

/-- The conditions on a read. -/
theorem StepOk.of_read
    {r : Int} (hinOrder : l'.returned = charValues (l'.accepted.take l'.returned.length))
    (haccepted : l'.accepted = l.accepted) (hreply : l'.replies = l.replies ++ [r])
    (hempty : r = -1 ↔ l.unread = []) : StepOk l .read l' where
  inOrder := hinOrder
  dropped_iff hpush := by cases hpush
  kept c hpush := by cases hpush
  accepted_of_not_push _ := haccepted
  replies_of_not_read hne := absurd rfl hne
  read _ := ⟨r, hreply, hempty⟩

/-- Every move is one of a bounded queue. -/
theorem Queued.stepOk
    (h : Queued l) (hmove : Move l call l') : StepOk l call l' := by
  have hnext := (h.move hmove).inOrder
  cases hmove with
  | silent hchar hread =>
      exact
        { inOrder := hnext
          dropped_iff := by simp [hchar]
          kept := by simp [hchar]
          accepted_of_not_push := fun _ => rfl
          replies_of_not_read := fun _ => rfl
          read := fun hcall => absurd hcall hread }
  | drop hchar hfull =>
      exact StepOk.of_push hchar hnext (iff_of_true rfl hfull) (if_pos rfl).symm rfl
  | accept hchar hroom =>
      rename_i c
      have hne : l.accepted ++ [c] ≠ l.accepted := by simp
      refine StepOk.of_push hchar hnext (iff_of_false hne hroom.ne) ?_ rfl
      rw [h.unread_accept]
      exact (if_neg hne).symm
  | noChar hunread =>
      exact StepOk.of_read hnext rfl rfl (iff_of_true rfl hunread)
  | take hunread =>
      rename_i c rest
      have hreply : (c.toNat : Int) ≠ -1 := by
        omega
      have hsome : l.unread ≠ [] := by
        rw [hunread]
        exact List.cons_ne_nil _ _
      exact StepOk.of_read hnext rfl rfl (iff_of_false hreply hsome)

end Moves

section Queue

/-- The replies to the reads of a run, for any implementation of the calls. -/
def repliesOf {σ : Type} (next : σ → Call → σ) (reply : σ → Int) :
    σ → List Call → List Int
  | _, [] => []
  | s, call :: calls =>
      (if call = .read then [reply s] else []) ++
        repliesOf next reply (next s call) calls

namespace Fifo

/-- A queue of at most `KEYBOARD_BUFFER_SIZE - 1` characters. -/
def call (q : List UInt8) (call : Call) : List UInt8 :=
  if call = .read then q.tail
  else if q.length = keyboardBufferSize - 1 then q
  else q ++ call.char.toList

/-- What a read of the queue returns. -/
def reply (q : List UInt8) : Int :=
  (q.head?.map (fun c => (c.toNat : Int))).getD (-1)

end Fifo

variable {l l' : Log} {call : Call}

/-- The unread characters change as the queue does. -/
theorem Move.unread_eq
    (h : Queued l) (hmove : Move l call l') : l'.unread = Fifo.call l.unread call := by
  cases hmove with
  | silent hchar hread =>
      simp [Fifo.call, hchar, hread]
  | drop hchar hfull =>
      have hread := Call.ne_read_of_char hchar
      rw [Fifo.call, if_neg hread, if_pos hfull]
  | accept hchar hroom =>
      have hread := Call.ne_read_of_char hchar
      rw [h.unread_accept, Fifo.call, if_neg hread, if_neg hroom.ne, hchar,
        Option.toList_some]
  | noChar hunread =>
      rw [Log.unread_noChar, hunread]
      rfl
  | take hunread =>
      rw [Log.unread_take hunread, hunread]
      rfl

/-- A read returns what the queue would. -/
theorem Queued.reply_eq
    (h : Queued l) : (keyboardReadChar l.state).1 = Fifo.reply l.unread := by
  cases hunread : l.unread with
  | nil =>
      rw [h.keyboardReadChar_of_nil hunread]
      rfl
  | cons c rest =>
      rw [h.keyboardReadChar_eq hunread]
      rfl

/-- From a queued state on, the replies are those of the queue. -/
theorem Queued.replies_eq
    (h : Queued l) (calls : List Call) :
    repliesOf State.call (fun s => (keyboardReadChar s).1) l.state calls =
      repliesOf Fifo.call Fifo.reply l.unread calls := by
  induction calls generalizing l with
  | nil =>
      rfl
  | cons call calls ih =>
      obtain ⟨l', hstep⟩ : ∃ l', l.step call = some l' := ⟨_, rfl⟩
      have hmove := move_of_step h hstep
      have hstate : l'.state = l.state.call call :=
        congrArg Log.state (Option.some.inj hstep).symm
      rw [repliesOf, repliesOf, h.reply_eq, ← hmove.unread_eq h, ← hstate,
        ih (h.move hmove)]

/-- **The buffer is a bounded queue.**  In every run of pushes and reads, the
characters returned are the accepted ones in order, a push is dropped if and only
if the queue is full, and a read returns `-1` if and only if nothing is unread.
The replies are those of a list of at most `KEYBOARD_BUFFER_SIZE - 1`
characters. -/
theorem keyboard_boundedFifo
    (calls : List Call) :
    EveryStep Log.step StepOk Log.start calls ∧
      repliesOf State.call (fun s => (keyboardReadChar s).1) State.start calls =
        repliesOf Fifo.call Fifo.reply [] calls := by
  constructor
  · refine everyStep_of_invariant (I := Queued) ?_ Queued.start
    intro l call l' h hstep
    have hmove := move_of_step h hstep
    exact ⟨h.move hmove, h.stepOk hmove⟩
  · exact Queued.start.replies_eq calls

end Queue

end Keyboard
end RebornOS
