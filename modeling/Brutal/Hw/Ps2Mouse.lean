import Brutal.Window.Server
import Mathlib.Data.Nat.Bitwise
import Mathlib.Data.List.Chain
import Mathlib.Algebra.Order.Ring.Int

/-!
# The PS/2 mouse

`libs/hw/ps2/mouse.c`: packets of three or four bytes are put together and decoded, and for each one
an event is delivered whose type says what the mouse did.  The window server moves the cursor for
the events of type `mouseMove` only.
-/

namespace Brutal.Hw

open Math Window

/-- `MSBTN_LEFT` -/
def msbtnLeft : UInt8 := (1 : UInt8) <<< 0

/-- `MSBTN_MIDDLE` -/
def msbtnMiddle : UInt8 := (1 : UInt8) <<< 1

/-- `MSBTN_RIGHT` -/
def msbtnRight : UInt8 := (1 : UInt8) <<< 2

/-- The state of a `Ps2Mouse` that its packets change. -/
structure Ps2Mouse where
  cycle : ℕ
  buf : ℕ → UInt8
  wheel : Bool
  prev : UiMouseEvent

/-- The state that `ps2_mouse_init` leaves. -/
def ps2MouseInit (wheel : Bool) : Ps2Mouse :=
  ⟨0, fun _ ↦ 0, wheel, ⟨⟨0, 0⟩, ⟨0, 0⟩, ⟨0, 0⟩, 0⟩⟩

/-- `ps2_mouse_event_type`.  The length of a vector is positive when its square is. -/
def ps2MouseEventType (prev next : UiMouseEvent) : UiEventType :=
  if next.buttons > prev.buttons then .mouseDown
  else if next.buttons < prev.buttons then .mouseUp
  else if mVec2fLenSquared prev.offset > 0 then .mouseMove
  else if mVec2fLenSquared prev.scroll > 0 then .mouseScroll
  else .ignore

/-- `ps2_mouse_handle_packed`, with the event that it delivers. -/
def ps2MouseHandlePacked (self : Ps2Mouse) : Ps2Mouse × UiEvent :=
  let buf := self.buf
  let offx : ℤ := (buf 1).toNat
  let offx := if offx ≠ 0 ∧ buf 0 &&& ((1 : UInt8) <<< 4) ≠ 0 then offx - 0x100 else offx
  let offy : ℤ := (buf 2).toNat
  let offy := if offy ≠ 0 ∧ buf 0 &&& ((1 : UInt8) <<< 5) ≠ 0 then offy - 0x100 else offy
  let scroll := if self.wheel then (buf 3).toBitVec.toInt else 0
  let event : UiMouseEvent := {
    position := ⟨0, 0⟩
    offset := ⟨offx, -offy⟩
    scroll := ⟨0, scroll⟩
    buttons := (if (buf 0 >>> 0) &&& 1 ≠ 0 then msbtnLeft else 0) |||
      (if (buf 0 >>> 1) &&& 1 ≠ 0 then msbtnRight else 0) |||
        (if (buf 0 >>> 2) &&& 1 ≠ 0 then msbtnMiddle else 0) }
  ({ self with cycle := 0, prev := event }, ⟨ps2MouseEventType self.prev event, false, event⟩)

/-- `ps2_mouse_handle_packet`, with the events that it delivers. -/
def ps2MouseHandlePacket (self : Ps2Mouse) (packet : UInt8) : Ps2Mouse × List UiEvent :=
  let store (i : ℕ) : Ps2Mouse := { self with buf := Function.update self.buf i packet }
  match self.cycle with
  | 0 => if packet &&& 8 ≠ 0 then ({ store 0 with cycle := 1 }, []) else (store 0, [])
  | 1 => ({ store 1 with cycle := 2 }, [])
  | 2 =>
    if self.wheel then ({ store 2 with cycle := 3 }, [])
    else
      let (self, event) := ps2MouseHandlePacked (store 2)
      (self, [event])
  | 3 =>
    let (self, event) := ps2MouseHandlePacked (store 3)
    (self, [event])
  | _ => (self, [])

/-- Bytes that come in one after the other. -/
def feed (self : Ps2Mouse) : List UInt8 → Ps2Mouse × List UiEvent
  | [] => (self, [])
  | byte :: rest =>
    let (self, events) := ps2MouseHandlePacket self byte
    let (self, later) := feed self rest
    (self, events ++ later)

/-- A complete packet; only a mouse with a wheel sends the last byte. -/
structure Packet where
  status : UInt8
  dx : UInt8
  dy : UInt8
  dz : UInt8
  marked : status.toNat.testBit 3 = true

namespace Packet

def bytes (wheel : Bool) (packet : Packet) : List UInt8 :=
  if wheel then [packet.status, packet.dx, packet.dy, packet.dz]
  else [packet.status, packet.dx, packet.dy]

/-- A byte and its sign, in two's complement. -/
def signed (byte : UInt8) (sign : Bool) : ℤ := byte.toNat - if sign then 256 else 0

def signX (packet : Packet) : Bool := packet.status.toNat.testBit 4

def signY (packet : Packet) : Bool := packet.status.toNat.testBit 5

/-- The movement that the packet encodes, with the y axis of the screen. -/
def offset (packet : Packet) : MVec2f ℤ :=
  ⟨signed packet.dx packet.signX, -signed packet.dy packet.signY⟩

/-- The turn of the wheel that the packet encodes. -/
def scroll (wheel : Bool) (packet : Packet) : MVec2f ℤ :=
  ⟨0, if wheel then signed packet.dz (packet.dz.toNat.testBit 7) else 0⟩

/-- The buttons that the packet says are down. -/
def left (packet : Packet) : Bool := packet.status.toNat.testBit 0

def right (packet : Packet) : Bool := packet.status.toNat.testBit 1

def middle (packet : Packet) : Bool := packet.status.toNat.testBit 2

def SameButtons (packet other : Packet) : Prop :=
  packet.left = other.left ∧ packet.right = other.right ∧ packet.middle = other.middle

/-- The packet encodes a movement. -/
def Moves (packet : Packet) : Prop := packet.offset ≠ ⟨0, 0⟩

/-- The packet encodes the movement -256, whose byte is zero. -/
def Farthest (packet : Packet) : Prop :=
  packet.dx = 0 ∧ packet.signX = true ∨ packet.dy = 0 ∧ packet.signY = true

end Packet

/-- The event says what the packet encodes; when the buttons are those of the packet before and the
mouse moved, it has the type that says so, and the cursor follows. -/
structure Decodes (wheel : Bool) (before : Option Packet) (packet : Packet) (event : UiEvent) :
    Prop where
  offset : event.mouse.offset = packet.offset
  scroll : event.mouse.scroll = packet.scroll wheel
  left : event.mouse.buttons &&& msbtnLeft ≠ 0 ↔ packet.left = true
  right : event.mouse.buttons &&& msbtnRight ≠ 0 ↔ packet.right = true
  middle : event.mouse.buttons &&& msbtnMiddle ≠ 0 ↔ packet.middle = true
  moves : ∀ other ∈ before, other.SameButtons packet → packet.Moves → event.type = .mouseMove ∧
    ∀ server, (wmServerDispatch server event).server.mouse =
      mRectfClampVec2 server.display (mVec2fAdd server.mouse packet.offset)

/-- There is one event for each packet, and each says what its packet encodes. -/
def DecodesAll (wheel : Bool) : Option Packet → List Packet → List UiEvent → Prop
  | _, [], [] => True
  | before, packet :: packets, event :: events =>
    Decodes wheel before packet event ∧ DecodesAll wheel (some packet) packets events
  | _, _, _ => False

variable {self : Ps2Mouse} {packet before : Packet} {byte mask shift : UInt8} {i : ℕ}

theorem and_ne_zero_iff (hmask : mask.toNat = 2 ^ i) :
    byte &&& mask ≠ 0 ↔ byte.toNat.testBit i = true := by
  rw [Ne, ← UInt8.toNat_inj, UInt8.toNat_and, hmask, Nat.and_two_pow]
  cases byte.toNat.testBit i <;> simp

theorem shiftRight_and_one_ne_zero_iff (hshift : shift.toNat = i) (hi : i < 8) :
    (byte >>> shift) &&& 1 ≠ 0 ↔ byte.toNat.testBit i = true := by
  have hone : (1 : UInt8).toNat = 2 ^ 0 := rfl
  rw [and_ne_zero_iff hone, UInt8.toNat_shiftRight, Nat.testBit_shiftRight, hshift,
    Nat.mod_eq_of_lt hi, Nat.add_zero]

theorem toInt_eq_signed (byte : UInt8) :
    byte.toBitVec.toInt = Packet.signed byte (byte.toNat.testBit 7) := by
  have hmsb : byte.toBitVec.msb = byte.toNat.testBit 7 := BitVec.msb_eq_getLsbD_last _
  rw [Packet.signed, BitVec.toInt_eq_msb_cond, hmsb]
  split
  next => rfl
  next => exact (Int.sub_zero _).symm

namespace Packet

/-- The movement that is decoded. -/
def decodedStep (byte : UInt8) (sign : Bool) : ℤ := if byte = 0 then 0 else signed byte sign

/-- What is decoded from a packet. -/
def decoded (wheel : Bool) (packet : Packet) : UiMouseEvent where
  position := ⟨0, 0⟩
  offset := ⟨decodedStep packet.dx packet.signX, -decodedStep packet.dy packet.signY⟩
  scroll := packet.scroll wheel
  buttons := (if packet.left then msbtnLeft else 0) ||| (if packet.right then msbtnRight else 0) |||
    (if packet.middle then msbtnMiddle else 0)

/-- The decoded movement is the encoded one, unless it is the farthest one. -/
theorem decoded_offset_iff {wheel : Bool} :
    (packet.decoded wheel).offset = packet.offset ↔ ¬ packet.Farthest := by
  have hstep : ∀ (byte : UInt8) (sign : Bool),
      decodedStep byte sign = signed byte sign ↔ ¬ (byte = 0 ∧ sign = true) := by
    intro byte sign
    rw [decodedStep]
    split
    next hzero =>
      subst hzero
      cases sign <;> simp [signed]
    next hne => simp [hne]
  rw [decoded, offset, MVec2f.mk.injEq, hstep, neg_inj, hstep, Farthest, not_or]

theorem SameButtons.decoded_buttons {wheel : Bool} (h : before.SameButtons packet) :
    (before.decoded wheel).buttons = (packet.decoded wheel).buttons := by
  obtain ⟨hleft, hright, hmiddle⟩ := h
  rw [decoded, decoded, hleft, hright, hmiddle]

end Packet

/-- The bytes of a packet in the buffer are decoded. -/
theorem ps2MouseHandlePacked_eq (hstatus : self.buf 0 = packet.status)
    (hdx : self.buf 1 = packet.dx) (hdy : self.buf 2 = packet.dy)
    (hdz : self.wheel = true → self.buf 3 = packet.dz) :
    ps2MouseHandlePacked self = ({ self with cycle := 0, prev := packet.decoded self.wheel },
      ⟨ps2MouseEventType self.prev (packet.decoded self.wheel), false,
        packet.decoded self.wheel⟩) := by
  have hstep : ∀ (byte : UInt8) {mask : UInt8} {i : ℕ}, mask.toNat = 2 ^ i →
      (if (byte.toNat : ℤ) ≠ 0 ∧ packet.status &&& mask ≠ 0 then (byte.toNat : ℤ) - 0x100
        else byte.toNat) = Packet.decodedStep byte (packet.status.toNat.testBit i) := by
    intro byte mask i hmask
    have hzero : (byte.toNat : ℤ) = 0 ↔ byte = 0 := by
      rw [← UInt8.toNat_inj]
      exact Int.natCast_eq_zero
    simp only [and_ne_zero_iff hmask, Packet.decodedStep, Packet.signed, Ne, hzero]
    by_cases hbyte : byte = 0
    · simp [hbyte]
    · by_cases hsign : packet.status.toNat.testBit i = true <;> simp [hbyte, hsign]
  have hscroll : (if self.wheel then (self.buf 3).toBitVec.toInt else 0) =
      (packet.scroll self.wheel).y := by
    rw [Packet.scroll]
    by_cases hwheel : self.wheel = true
    · rw [if_pos hwheel, if_pos hwheel, hdz hwheel, toInt_eq_signed]
    · rw [if_neg hwheel, if_neg hwheel]
  have hbutton : ∀ {shift : UInt8} {i : ℕ} (button : UInt8), shift.toNat = i → i < 8 →
      (if (packet.status >>> shift) &&& 1 ≠ 0 then button else 0) =
        if packet.status.toNat.testBit i then button else 0 := by
    intro shift i button hshift hi
    simp only [shiftRight_and_one_ne_zero_iff hshift hi]
  rw [ps2MouseHandlePacked]
  rw [hscroll, hstatus, hdx, hdy, hstep packet.dx (i := 4) rfl, hstep packet.dy (i := 5) rfl,
    hbutton msbtnLeft (i := 0) rfl (by decide), hbutton msbtnRight (i := 1) rfl (by decide),
    hbutton msbtnMiddle (i := 2) rfl (by decide)]
  rfl

/-- A complete packet gives one event, and the next packet starts after it. -/
theorem feed_bytes (hcycle : self.cycle = 0) (packet : Packet) :
    ∃ self' : Ps2Mouse, feed self (packet.bytes self.wheel) =
        (self', [⟨ps2MouseEventType self.prev (packet.decoded self.wheel), false,
          packet.decoded self.wheel⟩]) ∧
      self'.cycle = 0 ∧ self'.wheel = self.wheel ∧ self'.prev = packet.decoded self.wheel := by
  have hmarked : packet.status &&& 8 ≠ 0 := (and_ne_zero_iff (i := 3) rfl).mpr packet.marked
  obtain ⟨cycle, buf, wheel, prev⟩ := self
  cases hcycle
  have hfirst : ps2MouseHandlePacket ⟨0, buf, wheel, prev⟩ packet.status =
      (⟨1, Function.update buf 0 packet.status, wheel, prev⟩, []) := if_pos hmarked
  let three := Function.update (Function.update (Function.update buf 0 packet.status) 1 packet.dx)
    2 packet.dy
  cases wheel with
  | false =>
    have hlast := @ps2MouseHandlePacked_eq ⟨2, three, false, prev⟩ packet
      rfl rfl rfl nofun
    refine ⟨⟨0, three, false, packet.decoded false⟩, ?_, rfl, rfl, rfl⟩
    simp only [Packet.bytes, Bool.false_eq_true, if_false, feed, hfirst]
    exact congrArg (fun result : Ps2Mouse × UiEvent ↦ (result.1, [result.2])) hlast
  | true =>
    have hlast := @ps2MouseHandlePacked_eq ⟨3, Function.update three 3 packet.dz, true, prev⟩
      packet rfl rfl rfl fun _ ↦ rfl
    refine ⟨⟨0, Function.update three 3 packet.dz, true, packet.decoded true⟩, ?_, rfl, rfl, rfl⟩
    simp only [Packet.bytes, if_true, feed, hfirst]
    exact congrArg (fun result : Ps2Mouse × UiEvent ↦ (result.1, [result.2])) hlast

theorem feed_append (self : Ps2Mouse) (first second : List UInt8) :
    feed self (first ++ second) = ((feed (feed self first).1 second).1,
      (feed self first).2 ++ (feed (feed self first).1 second).2) := by
  induction first generalizing self with
  | nil => rfl
  | cons byte rest ih => simp only [List.cons_append, feed, ih, List.append_assoc]

theorem mVec2fLenSquared_pos_iff {vec : MVec2f ℤ} : mVec2fLenSquared vec > 0 ↔ vec ≠ ⟨0, 0⟩ := by
  obtain ⟨x, y⟩ := vec
  rw [mVec2fLenSquared, Ne, MVec2f.mk.injEq]
  constructor
  · rintro h ⟨rfl, rfl⟩
    exact absurd h (by decide)
  · intro h
    rcases not_and_or.mp h with hx | hy
    · exact Int.add_pos_of_pos_of_nonneg (mul_self_pos.mpr hx) (mul_self_nonneg y)
    · exact Int.add_pos_of_nonneg_of_pos (mul_self_nonneg x) (mul_self_pos.mpr hy)

/-- With the same buttons as before, the event says that the mouse moved exactly when the event
before did have a movement. -/
theorem ps2MouseEventType_eq_mouseMove {prev next : UiMouseEvent}
    (hbuttons : prev.buttons = next.buttons) :
    ps2MouseEventType prev next = .mouseMove ↔ prev.offset ≠ ⟨0, 0⟩ := by
  have hless : ¬ next.buttons < next.buttons := UInt8.lt_irrefl _
  rw [ps2MouseEventType, hbuttons, if_neg hless, if_neg hless, ← mVec2fLenSquared_pos_iff]
  split
  next hmoved => simp [hmoved]
  next hmoved => split <;> simp [hmoved]

/-- What the packet before has to be like for a packet to be decoded rightly. -/
def MovesBefore (before packet : Packet) : Prop :=
  before.SameButtons packet → packet.Moves → before.Moves

theorem decoded_button {wheel : Bool} :
    ((packet.decoded wheel).buttons &&& msbtnLeft ≠ 0 ↔ packet.left = true) ∧
      ((packet.decoded wheel).buttons &&& msbtnRight ≠ 0 ↔ packet.right = true) ∧
        ((packet.decoded wheel).buttons &&& msbtnMiddle ≠ 0 ↔ packet.middle = true) := by
  have hflags : ∀ left right middle : Bool,
      let buttons := (if left then msbtnLeft else 0) ||| (if right then msbtnRight else 0) |||
        (if middle then msbtnMiddle else 0)
      (buttons &&& msbtnLeft ≠ 0 ↔ left = true) ∧ (buttons &&& msbtnRight ≠ 0 ↔ right = true) ∧
        (buttons &&& msbtnMiddle ≠ 0 ↔ middle = true) := by decide
  exact hflags packet.left packet.right packet.middle

/-- An event is right exactly when the packet does not encode the farthest movement and the packet
before allows it. -/
theorem decodes_iff {wheel : Bool} {last : Option Packet} {prev : UiMouseEvent}
    (hprev : ∀ other ∈ last, prev = other.decoded wheel ∧ ¬ other.Farthest) :
    Decodes wheel last packet ⟨ps2MouseEventType prev (packet.decoded wheel), false,
        packet.decoded wheel⟩ ↔
      ¬ packet.Farthest ∧ ∀ other ∈ last, MovesBefore other packet := by
  have htype : ∀ other ∈ last, other.SameButtons packet →
      (ps2MouseEventType prev (packet.decoded wheel) = .mouseMove ↔ other.Moves) := by
    intro other hother hsame
    obtain ⟨rfl, hnear⟩ := hprev other hother
    rw [ps2MouseEventType_eq_mouseMove hsame.decoded_buttons, Packet.decoded_offset_iff.mpr hnear]
    rfl
  constructor
  · intro h
    refine ⟨Packet.decoded_offset_iff.mp h.offset, fun other hother hsame hmoves ↦ ?_⟩
    exact (htype other hother hsame).mp (h.moves other hother hsame hmoves).1
  · rintro ⟨hnear, hbefore⟩
    have hoffset := (@Packet.decoded_offset_iff packet wheel).mpr hnear
    obtain ⟨hleft, hright, hmiddle⟩ := @decoded_button packet wheel
    refine ⟨hoffset, rfl, hleft, hright, hmiddle, fun other hother hsame hmoves ↦ ?_⟩
    have hmove := (htype other hother hsame).mpr (hbefore other hother hsame hmoves)
    refine ⟨hmove, fun server ↦ ?_⟩
    rw [wmServerDispatch_mouse, if_pos hmove, hoffset]

theorem decodesAll_feed_iff {wheel : Bool} {last : Option Packet} (packets : List Packet)
    (hcycle : self.cycle = 0) (hwheel : self.wheel = wheel)
    (hprev : ∀ other ∈ last, self.prev = other.decoded wheel ∧ ¬ other.Farthest) :
    DecodesAll wheel last packets (feed self (packets.flatMap (Packet.bytes wheel))).2 ↔
      (∀ packet ∈ packets, ¬ packet.Farthest) ∧
        (last.toList ++ packets).IsChain MovesBefore := by
  induction packets generalizing self last with
  | nil => cases last <;> simp [DecodesAll, feed]
  | cons packet packets ih =>
    obtain ⟨self', hfeed, hcycle', hwheel', hprev'⟩ := feed_bytes hcycle packet
    subst hwheel
    rw [List.flatMap_cons, feed_append, hfeed, List.singleton_append, DecodesAll, decodes_iff hprev]
    have hchain : (last.toList ++ packet :: packets).IsChain MovesBefore ↔
        (∀ other ∈ last, MovesBefore other packet) ∧
          ((some packet).toList ++ packets).IsChain MovesBefore := by
      cases last with
      | none => simp
      | some other => simp [List.isChain_cons_cons]
    rw [hchain, List.forall_mem_cons]
    constructor
    · rintro ⟨⟨hnear, hbefore⟩, hrest⟩
      obtain ⟨hnear', hchain'⟩ := (ih hcycle' hwheel' (by simpa using ⟨hprev', hnear⟩)).mp hrest
      exact ⟨⟨hnear, hnear'⟩, hbefore, hchain'⟩
    · rintro ⟨⟨hnear, hnear'⟩, hbefore, hchain'⟩
      exact ⟨⟨hnear, hbefore⟩,
        (ih hcycle' hwheel' (by simpa using ⟨hprev', hnear⟩)).mpr ⟨hnear', hchain'⟩⟩

/-- Every packet of a sequence is decoded rightly exactly when none encodes the farthest movement
and every packet that moves with the buttons of the packet before it comes after one that moved. -/
theorem ps2Mouse_decodes_iff (wheel : Bool) (packets : List Packet) :
    DecodesAll wheel none packets
        (feed (ps2MouseInit wheel) (packets.flatMap (Packet.bytes wheel))).2 ↔
      (∀ packet ∈ packets, ¬ packet.Farthest) ∧ packets.IsChain fun before packet ↦
        before.SameButtons packet → packet.Moves → before.Moves :=
  decodesAll_feed_iff packets rfl rfl nofun

/-- The first movement after the mouse was at rest does not move the cursor. -/
theorem ps2Mouse_decodes_fails :
    ¬ ∀ (wheel : Bool) (packets : List Packet), DecodesAll wheel none packets
      (feed (ps2MouseInit wheel) (packets.flatMap (Packet.bytes wheel))).2 := by
  intro h
  have hmoving : Packet.Moves ⟨8, 5, 0, 0, rfl⟩ := by
    rw [Packet.Moves]
    decide
  obtain ⟨-, hmoves, -⟩ := h false [⟨8, 0, 0, 0, rfl⟩, ⟨8, 5, 0, 0, rfl⟩]
  have hmove := (hmoves.moves ⟨8, 0, 0, 0, rfl⟩ rfl ⟨rfl, rfl, rfl⟩ hmoving).1
  exact absurd hmove (by decide)

end Brutal.Hw
