import SvanVoice.Library.Rounding
import SvanVoice.Library.Unordered
import SvanVoice.Model.State
import Mathlib.Order.WithBot

/-!
# The publisher (`dds_publisher.py`, `JoyData.idl`)

`publish_movement` turns one robot state into one joystick frame. The axes carry the velocities of
a state in mode 4, with their signs turned over, and are zero in every other mode. The buttons
carry mode changes only: a change of the mode since the last frame starts a press that is held for
ten frames, and a frame in the hold sets the button of its own mode, if that mode has one.

A frame's axes are `F32`: the rationals with both infinities and NaN. The publisher writes
rationals only; what the bridge reads may be any of them. The logging at the end of
`publish_movement` reads nothing the frame depends on and is left out.
-/

set_option autoImplicit false

namespace SvanVoice

/-- A `float`, its rounding aside: a rational, an infinity or NaN. -/
abbrev F32 := WithNaN (WithBot (WithTop ℚ))

/-- The float of a rational. -/
def F32.ofRat (q : ℚ) : F32 := .num ((q : WithTop ℚ) : WithBot (WithTop ℚ))

/-- One joystick message. -/
structure JoyData where
  priority : UInt8
  axes : Vector F32 6
  buttons : Vector UInt8 12
  deriving DecidableEq

/-! The entries the bridge reads, under its names for them. -/

def JoyData.rawVy (msg : JoyData) : F32 := msg.axes[0]
def JoyData.rawVx (msg : JoyData) : F32 := msg.axes[1]
def JoyData.rawWz (msg : JoyData) : F32 := msg.axes[3]

def JoyData.btnSleep (msg : JoyData) : UInt8 := msg.buttons[0]
def JoyData.btnStand (msg : JoyData) : UInt8 := msg.buttons[1]
def JoyData.btnMove (msg : JoyData) : UInt8 := msg.buttons[2]

/-- The publisher's fields. `last_mode` does not exist before the first change. -/
structure DDSPublisher where
  lastMode : Option Int := none
  buttonHoldTicks : Nat := 0
  deriving DecidableEq

/-- `getattr(self, 'last_mode', -1)`. -/
def DDSPublisher.lastModeOr (p : DDSPublisher) : Int := p.lastMode.getD (-1)

/-- The number of frames a button is held. -/
def holdFrames : Nat := 10

/-- `np.clip(v, lo, hi)`. -/
def clip (v lo hi : ℚ) : ℚ := min (max v lo) hi

/-- `state_dict.get("mode", 1)`. -/
def StateDict.modeOr (state : StateDict) : Int := state.mode.getD 1

/-- `round(float(v), 2)` of a velocity, zero where the key is absent. -/
def velocityOf (v : Option ℚ) : ℚ := Rounding.roundTo 2 (v.getD 0)

/-- The axes of a frame, the noise on the last. -/
def axesOf (state : StateDict) (noise : ℚ) : Vector F32 6 :=
  let vx := velocityOf state.xVelocity
  let vy := velocityOf state.yVelocity
  let wz := velocityOf state.yawVelocity
  let axes : Vector F32 6 := .replicate 6 (F32.ofRat 0)
  let axes :=
    if state.modeOr = 4 then
      ((axes.set 1 (F32.ofRat (-clip vx (-1 / 2) (1 / 2)))).set 0
        (F32.ofRat (-clip vy (-2 / 5) (2 / 5)))).set 3 (F32.ofRat (-clip wz (-4 / 5) (4 / 5)))
    else axes
  axes.set 5 (F32.ofRat noise)

/-- The mode tracking: a changed mode is remembered and its hold starts. -/
def DDSPublisher.track (p : DDSPublisher) (mode : Int) : DDSPublisher :=
  if mode ≠ p.lastModeOr then { lastMode := some mode, buttonHoldTicks := holdFrames } else p

/-- The buttons of a frame in the hold: the one of its mode. -/
def pressed (mode : Int) : Vector UInt8 12 :=
  let buttons : Vector UInt8 12 := .replicate 12 0
  if mode = 0 then buttons.set 0 1
  else if mode = 1 then buttons.set 1 1
  else if mode = 4 then buttons.set 2 1
  else buttons

/-- One frame, and the publisher after it. -/
def DDSPublisher.publishMovement (p : DDSPublisher) (state : StateDict) (noise : ℚ) :
    DDSPublisher × JoyData :=
  let mode := state.modeOr
  let axes := axesOf state noise
  let p := p.track mode
  if 0 < p.buttonHoldTicks then
    ({ p with buttonHoldTicks := p.buttonHoldTicks - 1 }, ⟨50, axes, pressed mode⟩)
  else (p, ⟨50, axes, .replicate 12 0⟩)

end SvanVoice
