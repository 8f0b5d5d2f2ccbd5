import Andino.Library.CArith

/-!
# Quadrature encoders and their interrupts

Both encoders are decoded in pin-change interrupts. The static side of that is
modelled as it stands: `attach` stores one callback per port, `Encoder::begin`
hands out the two static callbacks in order of registration, and a callback
reaches its encoder through `instances_`. The decoder reads both channels into
the low bits of `state_` and looks the last four bits up in `kTicksDelta`.
-/
namespace AndinoFirmware

open CArith

structure Encoder where
  state : UInt8 := 0
  count : Int := 0
  deriving DecidableEq, Repr

/-- The levels of channel B and channel A. -/
structure Sample where
  b : Bool
  a : Bool
  deriving DecidableEq, Repr

namespace Encoder

variable (t : Target)

def kTicksDelta : List Int := [0, 1, -1, 0, -1, 0, 0, 1, 1, 0, 0, -1, 0, -1, 1, 0]

def read (e : Encoder) : Int := e.count

def reset (e : Encoder) : Encoder := { e with count := 0 }

/-- `(channel_b->read() << 1) | channel_a->read()`. -/
def bits (s : Sample) : UInt8 := (if s.b then 2 else 0) ||| (if s.a then 1 else 0)

def callback (e : Encoder) (s : Sample) : Encoder :=
  let state := (e.state <<< 2) ||| bits s
  { state := state, count := t.long (e.count + kTicksDelta.getD (state &&& 0x0F).toNat 0) }

/-- The net effect of any number of interrupts on the count. -/
def move (e : Encoder) (ticks : Int) : Encoder := { e with count := t.long (e.count + ticks) }

end Encoder

/-! ## Interrupt dispatch -/

/-- The pin-change interrupt requests 0, 1 and 2, of the ports B, C and D. -/
inductive Port where
  | B | C | D
  deriving DecidableEq, Repr

/-- `digitalPinToPort` of the ATmega328P. -/
def digitalPinToPort (pin : Nat) : Option Port :=
  if pin < 8 then some .D else if pin < 14 then some .B else if pin < 20 then some .C else none

/-- `digitalPinToBitMask` of the ATmega328P. -/
def digitalPinToBitMask (pin : Nat) : UInt8 :=
  1 <<< UInt8.ofNat (if pin < 8 then pin else if pin < 14 then pin - 8 else pin - 14)

/-- The index a port's registers and callback are stored under. -/
def Port.index : Port → UInt8
  | .B => 0
  | .C => 1
  | .D => 2

inductive Side where
  | left | right
  deriving DecidableEq, Repr

namespace Hw

def kLeftEncoderChannelAGpioPin : Nat := 2
def kLeftEncoderChannelBGpioPin : Nat := 3
def kRightEncoderChannelAGpioPin : Nat := 16
def kRightEncoderChannelBGpioPin : Nat := 17

end Hw

def channelAPin : Side → Nat
  | .left => Hw.kLeftEncoderChannelAGpioPin
  | .right => Hw.kRightEncoderChannelAGpioPin

def channelBPin : Side → Nat
  | .left => Hw.kLeftEncoderChannelBGpioPin
  | .right => Hw.kRightEncoderChannelBGpioPin

/-- The two encoder objects with the static state that leads interrupts to them. -/
structure Encoders where
  encoder : Side → Encoder
  pcmsk : Port → UInt8
  pcicr : UInt8
  callbacks : Port → Option (Fin 2)
  instances : Fin 2 → Option Side
  instanceCount : Nat

namespace Encoders

variable (t : Target)

def initial : Encoders := ⟨fun _ => {}, fun _ => 0, 0, fun _ => none, fun _ => none, 0⟩

def set (e : Encoders) (s : Side) (v : Encoder) : Encoders :=
  { e with encoder := fun i => if i = s then v else e.encoder i }

/-- `InterruptInArduino::attach`. -/
def attach (e : Encoders) (pin : Nat) (callback : Fin 2) : Encoders :=
  match digitalPinToPort pin with
  | none => e
  | some port =>
    { e with
      pcmsk := fun p => if p = port then e.pcmsk p ||| digitalPinToBitMask pin else e.pcmsk p
      pcicr := e.pcicr ||| (1 <<< port.index)
      callbacks := fun p => if p = port then some callback else e.callbacks p }

/-- `Encoder::begin`; at most two instances are registered. -/
def begin (e : Encoders) (s : Side) : Encoders :=
  if h : e.instanceCount < 2 then
    let k : Fin 2 := ⟨e.instanceCount, h⟩
    let e := (e.attach (channelAPin s) k).attach (channelBPin s) k
    { e with
      instances := fun i => if i = k then some s else e.instances i
      instanceCount := e.instanceCount + 1 }
  else e

/-- The encoder part of `App::setup`. -/
def setup : Encoders := (initial.begin .left).begin .right

/-- `callback_0` and `callback_1`. -/
def callback (e : Encoders) (k : Fin 2) (level : Nat → Bool) : Encoders :=
  match e.instances k with
  | none => e
  | some s => e.set s ((e.encoder s).callback t ⟨level (channelBPin s), level (channelAPin s)⟩)

/-- The interrupt service routine of a port, with the pin levels it finds. -/
def isr (e : Encoders) (port : Port) (level : Nat → Bool) : Encoders :=
  match e.callbacks port with
  | none => e
  | some k => e.callback t k level

end Encoders

end AndinoFirmware
