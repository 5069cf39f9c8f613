import SvanVoice.Library.BinaryFloat
import SvanVoice.Model.System

/-!
# The same program in floats

The other models compute with exact rationals. Here are the places where the program rounds:
`dds_publisher.py` computes in `float`, the double of Python, and stores the axes in an array of
`np.float32`, and the limits of `subscriber.cpp` are `float` constants. Everything else is
comparison, sign and copying, which are exact. The velocity of a state is read as it is in
`Model.State`, and so it is the same in both models; the limits of the publisher and of the bridge
are rounded here, each to its own format.

`F32.ofBits` reads a `float` from its bits as they lie in a message, and `F32.toBits` writes one. A
zero's sign is not modelled: both zeros read as zero.

`Link.step32` is the link with the rounding publisher and the rounding bridge, otherwise line by
line the step of the exact link.
-/

set_option autoImplicit false

namespace SvanVoice

/-- `float` of C++ and `np.float32`. -/
def binary32 : BinaryFloat := ⟨24, -149, Nat.succ_pos 23⟩

/-- `float` of Python. -/
def binary64 : BinaryFloat := ⟨53, -1074, Nat.succ_pos 52⟩

/-! ## One float -/

/-- The first power of two past the largest `float`. -/
def overflow32 : ℚ := 2 ^ 128

/-- A rational as a `float`: the nearest one, or an infinity where that is past the largest. -/
def round32 (q : ℚ) : WithBot (WithTop ℚ) :=
  if overflow32 ≤ binary32.round q then ((⊤ : WithTop ℚ) : WithBot (WithTop ℚ))
  else if binary32.round q ≤ -overflow32 then ⊥
  else ((binary32.round q : WithTop ℚ) : WithBot (WithTop ℚ))

/-- A number as a `float`. -/
def roundNumber : WithBot (WithTop ℚ) → WithBot (WithTop ℚ) :=
  WithBot.recBotCoe ⊥ (WithTop.recTopCoe ((⊤ : WithTop ℚ) : WithBot (WithTop ℚ)) round32)

/-- A value as a `float`. -/
def F32.round (v : F32) : F32 := v.map roundNumber

/-- The bits of infinity: the number of the value that would follow the largest. -/
def infinityBits : ℕ := 255 * 2 ^ 23

/-- The `float` with the given bits. -/
def F32.ofBits (b : BitVec 32) : F32 :=
  let k := b.toNat % 2 ^ 31
  let value := binary32.magnitude k
  if k < infinityBits then F32.ofRat (if b.msb then -value else value)
  else if k = infinityBits then
    .num (if b.msb then ⊥ else ((⊤ : WithTop ℚ) : WithBot (WithTop ℚ)))
  else .nan

/-- The bits of a sign and the number of a magnitude. -/
def signed (negative : Bool) (k : ℕ) : BitVec 32 :=
  BitVec.ofNat 32 ((if negative then 2 ^ 31 else 0) + k)

/-- The bits of the `float` nearest to a value; those of NaN are the quiet one's. -/
def F32.toBits : F32 → BitVec 32
  | .nan => signed false (infinityBits + 2 ^ 22)
  | .num x =>
    WithBot.recBotCoe (signed true infinityBits)
      (WithTop.recTopCoe (signed false infinityBits) fun q =>
        signed (decide (q < 0)) (min (binary32.code |q|) infinityBits)) x

/-! ## The publisher -/

/-- `round(float(v), 2)`, the double nearest to the two decimals. -/
def velocityOf64 (v : Option ℚ) : ℚ := binary64.round (velocityOf v)

/-- The axes of a frame. The limits are literals, and the array holds `np.float32`. -/
def axesOf32 (state : StateDict) (noise : ℚ) : Vector F32 6 :=
  let vx := velocityOf64 state.xVelocity
  let vy := velocityOf64 state.yVelocity
  let wz := velocityOf64 state.yawVelocity
  let limX := binary64.round (1 / 2)
  let limY := binary64.round (2 / 5)
  let limW := binary64.round (4 / 5)
  let axes : Vector F32 6 := .replicate 6 (F32.ofRat 0)
  let axes :=
    if state.modeOr = 4 then
      ((axes.setIfInBounds 1 (F32.ofRat (-clip vx (-limX) limX)).round).setIfInBounds 0
        (F32.ofRat (-clip vy (-limY) limY)).round).setIfInBounds 3
          (F32.ofRat (-clip wz (-limW) limW)).round
    else axes
  axes.setIfInBounds 5 (F32.ofRat noise).round

/-- `publish_movement`. -/
def DDSPublisher.publishMovement32 (p : DDSPublisher) (state : StateDict) (noise : ℚ) :
    DDSPublisher × JoyData :=
  let mode := state.modeOr
  let axes := axesOf32 state noise
  let p := p.track mode
  if 0 < p.buttonHoldTicks then
    ({ p with buttonHoldTicks := p.buttonHoldTicks - 1 }, ⟨50, axes, pressed mode⟩)
  else (p, ⟨50, axes, .replicate 12 0⟩)

/-! ## The bridge -/

/-- `MAX_VX`, `MAX_VY` and `MAX_WZ`: `0.5f`, `0.4f` and `0.8f`. -/
def maxVx32 : ℚ := binary32.round maxVx
def maxVy32 : ℚ := binary32.round maxVy
def maxWz32 : ℚ := binary32.round maxWz

/-- The velocity a message asks for, clamped. -/
def clampedAxes32 (msg : JoyData) : Velocity where
  vx := clamp msg.rawVx (F32.ofRat (-maxVx32)) (F32.ofRat maxVx32)
  vy := clamp msg.rawVy (F32.ofRat (-maxVy32)) (F32.ofRat maxVy32)
  wz := clamp msg.rawWz (F32.ofRat (-maxWz32)) (F32.ofRat maxWz32)

namespace Loop

/-- One sample of a batch. -/
def processSample32 (b : Loop) (sample : Sample) (now : Int) : Loop :=
  if sample.valid then
    let b := { b with lastMsgTime := now, watchdogFired := false }
    (b.enter (requestedMode b.lastMode sample.data)).drive (clampedAxes32 sample.data)
  else b

/-- The loop after one unit. -/
def event32 (b : Loop) : Event → Loop
  | .sample s now => b.processSample32 s now
  | .check now => b.watchdogCheck now

/-- The loop after a list of units. -/
def run32 (b : Loop) (es : List Event) : Loop := es.foldl event32 b

end Loop

/-! ## The link -/

/-- One step of the link. -/
def Link.step32 (l : Link) : LinkAction → Option Link
  | .publish snapshot noise =>
    let (publisher, frame) := l.publisher.publishMovement32 snapshot noise
    some { l with publisher, sent := l.sent ++ [(snapshot, frame)] }
  | .boot now => some { l with bridge := .boot now }
  | .deliver k now =>
    (l.sent[k]?).map fun f => { l with bridge := l.bridge.processSample32 ⟨true, f.2⟩ now }
  | .invalid data now => some { l with bridge := l.bridge.processSample32 ⟨false, data⟩ now }
  | .check now => some { l with bridge := l.bridge.watchdogCheck now }

end SvanVoice
