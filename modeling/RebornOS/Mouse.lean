import Mathlib.Tactic

/-!
# The mouse decoder

The mouse sends packets of three bytes, one interrupt a byte.
`mouse_irq_handler` groups the bytes it gets by threes and drops a group whose
first byte does not have the bit that a flag byte always has.

* `synced_run`: from a packet boundary on, every packet moves the pointer as the
  packet says.
* `pointer_on_screen`: whatever the bytes are, the pointer stays on the screen.
* `never_resynchronises`: a dropped group is three bytes as well, so a decoder
  that has lost the boundary does not find it again.
-/

namespace RebornOS
namespace Mouse

section Model

/-- The part of `boot_framebuffer_t` that the handler reads. -/
structure Screen where
  width : Nat
  height : Nat

/-- The position and the buttons. -/
structure Pointer where
  x : Int
  y : Int
  buttons : UInt8
deriving DecidableEq

/-- The static variables of `mouse.c`. -/
structure State where
  pointer : Pointer
  packet : Nat → UInt8
  packetIndex : Nat

/-- A value converted to `int32_t`. -/
def int32 (v : Int) : Int := v.bmod (2 ^ 32)

/-- `PACKET_ALWAYS_ONE`. -/
def packetAlwaysOne : UInt8 := 8

/-- `PACKET_X_SIGN`. -/
def packetXSign : UInt8 := 16

/-- `PACKET_Y_SIGN`. -/
def packetYSign : UInt8 := 32

/-- `PACKET_LEFT_BTN | PACKET_RIGHT_BTN | PACKET_MIDDLE_BTN`. -/
def packetButtons : UInt8 := 7

/-- A movement with its sign bit. -/
def delta (flags sign data : UInt8) : Int :=
  if flags &&& sign = 0 then data.toNat else data.toNat - 256

/-- The two comparisons that keep a coordinate on a screen of the given size. -/
def clamp (size : Nat) (v : Int) : Int :=
  let v := if v < 0 then 0 else v
  if 0 < size ∧ int32 size ≤ v then int32 (int32 size - 1) else v

/-- The rest of the handler once three bytes are there. -/
def decode (fb : Screen) (flags dx dy : UInt8) (p : Pointer) : Pointer :=
  if flags &&& packetAlwaysOne = 0 then
    p
  else
    { buttons := flags &&& packetButtons
      x := clamp fb.width (int32 (p.x + delta flags packetXSign dx))
      y := clamp fb.height (int32 (p.y - delta flags packetYSign dy)) }

/-- `mouse_irq_handler` with `data` in the data port. -/
def mouseIrqHandler (fb : Screen) (s : State) (data : UInt8) : State :=
  let packet := Function.update s.packet s.packetIndex data
  if s.packetIndex + 1 < 3 then
    { s with packet := packet, packetIndex := s.packetIndex + 1 }
  else
    { pointer := decode fb (packet 0) (packet 1) (packet 2) s.pointer
      packet := packet
      packetIndex := 0 }

/-- The handler runs once for every byte. -/
def handleBytes (fb : Screen) : State → List UInt8 → State :=
  List.foldl (mouseIrqHandler fb)

/-- A packet as the mouse sends it. -/
structure Packet where
  flags : UInt8
  dx : UInt8
  dy : UInt8
  alwaysOne : flags &&& packetAlwaysOne ≠ 0

def Packet.bytes (p : Packet) : List UInt8 := [p.flags, p.dx, p.dy]

/-- The bytes of a sequence of packets. -/
def stream (packets : List Packet) : List UInt8 := packets.flatMap Packet.bytes

/-- What a packet means. -/
def Packet.move (fb : Screen) (q : Pointer) (p : Packet) : Pointer :=
  { buttons := p.flags &&& packetButtons
    x := clamp fb.width (int32 (q.x + delta p.flags packetXSign p.dx))
    y := clamp fb.height (int32 (q.y - delta p.flags packetYSign p.dy)) }

end Model

variable {fb : Screen} {s : State}

section Boundaries

theorem length_stream
    (packets : List Packet) : (stream packets).length = 3 * packets.length := by
  induction packets with
  | nil =>
      rfl
  | cons p packets ih =>
      rw [stream, List.flatMap_cons, List.length_append, ← stream, ih, List.length_cons]
      show 3 + _ = _
      omega

/-- The handler counts the bytes modulo three, whatever they are. -/
theorem packetIndex_handler
    (fb : Screen) (hs : s.packetIndex < 3) (data : UInt8) :
    (mouseIrqHandler fb s data).packetIndex = (s.packetIndex + 1) % 3 := by
  unfold mouseIrqHandler
  split_ifs with hlt
  · exact (Nat.mod_eq_of_lt hlt).symm
  · rw [show s.packetIndex + 1 = 3 by omega]

theorem packetIndex_run
    (bytes : List UInt8) :
    ∀ s, s.packetIndex < 3 →
      (handleBytes fb s bytes).packetIndex = (s.packetIndex + bytes.length) % 3 := by
  induction bytes with
  | nil =>
      intro s hs
      exact (Nat.mod_eq_of_lt hs).symm
  | cons data bytes ih =>
      intro s hs
      have hone := packetIndex_handler fb hs data
      have hrest := ih (mouseIrqHandler fb s data) (by omega)
      show (handleBytes fb (mouseIrqHandler fb s data) bytes).packetIndex = _
      rw [hrest, hone, Nat.mod_add_mod, List.length_cons]
      congr 1
      omega

end Boundaries

section Synchronised

/-- A packet that begins at a boundary is decoded, and ends at one. -/
theorem handle_packet
    (fb : Screen) (hs : s.packetIndex = 0) (p : Packet) :
    (handleBytes fb s p.bytes).packetIndex = 0 ∧
      (handleBytes fb s p.bytes).pointer = p.move fb s.pointer := by
  obtain ⟨pointer, packet, index⟩ := s
  change index = 0 at hs
  subst hs
  refine ⟨rfl, ?_⟩
  show decode fb p.flags p.dx p.dy pointer = _
  unfold decode
  rw [if_neg p.alwaysOne]
  rfl

/-- **A synchronised decoder follows the mouse.** -/
theorem synced_run
    (packets : List Packet) :
    ∀ s, s.packetIndex = 0 →
      (handleBytes fb s (stream packets)).packetIndex = 0 ∧
        (handleBytes fb s (stream packets)).pointer =
          packets.foldl (Packet.move fb) s.pointer := by
  induction packets with
  | nil =>
      intro s hs
      exact ⟨hs, rfl⟩
  | cons p packets ih =>
      intro s hs
      obtain ⟨hindex, hpointer⟩ := handle_packet fb hs p
      have hsplit : handleBytes fb s (stream (p :: packets)) =
          handleBytes fb (handleBytes fb s p.bytes) (stream packets) :=
        List.foldl_append
      rw [hsplit, List.foldl_cons, ← hpointer]
      exact ih _ hindex

end Synchronised

section OnScreen

/-- A screen whose size `int32_t` can hold. -/
structure Screen.Proper (fb : Screen) : Prop where
  width_pos : 0 < fb.width
  width_lt : fb.width < 2 ^ 31
  height_pos : 0 < fb.height
  height_lt : fb.height < 2 ^ 31

/-- The pointer is on the screen. -/
def Pointer.On (fb : Screen) (p : Pointer) : Prop :=
  (0 ≤ p.x ∧ p.x < fb.width) ∧ 0 ≤ p.y ∧ p.y < fb.height

theorem clamp_range
    {size : Nat} (hpos : 0 < size) (hlt : size < 2 ^ 31) (v : Int) :
    0 ≤ clamp size v ∧ clamp size v < size := by
  have hsize : int32 size = size := by
    unfold int32
    exact Int.bmod_eq_of_le_mul_two (by omega) (by omega)
  have hlast : int32 ((size : Int) - 1) = size - 1 := by
    unfold int32
    exact Int.bmod_eq_of_le_mul_two (by omega) (by omega)
  unfold clamp
  rw [hsize, hlast]
  dsimp only
  split_ifs <;> omega

/-- **The pointer stays on the screen**, for every sequence of bytes. -/
theorem pointer_on_screen
    (hfb : fb.Proper) (bytes : List UInt8) :
    ∀ s, s.pointer.On fb → (handleBytes fb s bytes).pointer.On fb := by
  induction bytes with
  | nil =>
      intro s hs
      exact hs
  | cons data bytes ih =>
      intro s hs
      refine ih (mouseIrqHandler fb s data) ?_
      unfold mouseIrqHandler decode
      dsimp only
      split_ifs
      · exact hs
      · exact hs
      · exact ⟨clamp_range hfb.width_pos hfb.width_lt _,
          clamp_range hfb.height_pos hfb.height_lt _⟩

theorem pointer_on_screen_vga :
    (handleBytes ⟨640, 480⟩ ⟨⟨320, 240, 0⟩, fun _ => 0, 0⟩ [24, 1, 255]).pointer.On ⟨640, 480⟩ :=
  pointer_on_screen ⟨by decide, by decide, by decide, by decide⟩ _ _ ⟨by decide, by decide⟩

end OnScreen

section Desynchronised

/--
**A decoder that has lost the boundary does not find it again.**  After one or two
stray bytes, at every packet boundary of every stream the handler is in the middle
of a group, so that no packet is decoded from its own flag byte on.
-/
theorem never_resynchronises
    (fb : Screen) {s : State} (hs : s.packetIndex = 0) {stray : List UInt8}
    (hstray : stray.length = 1 ∨ stray.length = 2) (packets : List Packet) (n : Nat) :
    (handleBytes fb s (stray ++ stream (packets.take n))).packetIndex ≠ 0 := by
  rw [packetIndex_run _ s (by omega), hs, List.length_append, length_stream]
  omega

/-- The state at boot. -/
def start : State := ⟨⟨0, 0, 0⟩, fun _ => 0, 0⟩

/-- A movement by one pixel to the right. -/
def right : Packet := ⟨8, 1, 0, by decide⟩

theorem never_resynchronises_right :
    start.packetIndex = 0 ∧ [(8 : UInt8)].length = 1 ∧
      (handleBytes ⟨640, 480⟩ start ([8] ++ stream ([right, right, right].take 2))).packetIndex
        ≠ 0 :=
  ⟨rfl, rfl, never_resynchronises ⟨640, 480⟩ rfl (Or.inl rfl) [right, right, right] 2⟩

/--
One stray byte in front of any number of movements to the right: the decoder is
one byte off at every boundary, and takes a movement for a flag byte.
-/
theorem stray_byte_desynchronises :
    (∀ n, (handleBytes ⟨640, 480⟩ start
        (1 :: stream (List.replicate n right))).packetIndex = 1) ∧
      (handleBytes ⟨640, 480⟩ start (1 :: stream [right, right, right])).pointer =
        ⟨0, 0, 0⟩ := by
  constructor
  · intro n
    rw [packetIndex_run _ start (by decide), List.length_cons, length_stream,
      List.length_replicate]
    show (0 + (3 * n + 1)) % 3 = 1
    omega
  · decide

end Desynchronised

end Mouse
end RebornOS
