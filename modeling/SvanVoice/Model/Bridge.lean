import SvanVoice.Library.Trace
import SvanVoice.Model.Publisher

/-!
# The bridge (`subscriber.cpp`)

The bridge reads joystick frames and commands the robot through the SDK. Its loop state is the four
locals of `main` that outlive an iteration, and `calls` is the log of what the SDK was told, oldest
first: the robot sees nothing else. `processSample` is the body of the loop over one batch,
`watchdogCheck` the end of an iteration, `controlLoop` the `while`, `main` the whole program with
its exits. Times are readings of the steady clock, in nanoseconds.

What the outside supplies is explicit: whether initialisation succeeds, what each `reader.take()`
returns or that it throws, and every clock reading. The list of passes ends where the loop
condition reads `g_running` as cleared.

An `Event` is one unit of an iteration's work, a sample or the check. A list of events is a run of
the loop cut anywhere between two units, so a law of all lists of events is a law of the loop after
every sample and after every iteration.
-/

set_option autoImplicit false

namespace SvanVoice

/-! ## Constants -/

def maxVx : ℚ := 1 / 2
def maxVy : ℚ := 2 / 5
def maxWz : ℚ := 4 / 5

/-- `WATCHDOG_MS`, 500 milliseconds. -/
def watchdogMs : Int := 500000000

def modeSleep : Int := 0
def modeStand : Int := 1
def modeMove : Int := 4

/-! ## The SDK -/

/-- The arguments of `joystick.setVelocity`. -/
structure Velocity where
  vx : F32
  vy : F32
  wz : F32
  deriving DecidableEq

/-- `setVelocity(0.0f, 0.0f, 0.0f)`. -/
def Velocity.zero : Velocity := ⟨F32.ofRat 0, F32.ofRat 0, F32.ofRat 0⟩

/-- A call into the SDK. -/
inductive SdkCall where
  | setMode (mode : Int)
  | setVelocity (v : Velocity)
  | shutdown
  deriving DecidableEq

def SdkCall.mode? : SdkCall → Option Int
  | .setMode mode => some mode
  | _ => none

def SdkCall.velocity? : SdkCall → Option Velocity
  | .setVelocity v => some v
  | _ => none

/-- The last mode passed to `setMode`. -/
def modeSet (calls : List SdkCall) : Option Int := Trace.latest SdkCall.mode? calls

/-- The last velocity passed to `setVelocity`, if any was. -/
def velocitySet (calls : List SdkCall) : Option Velocity := Trace.latest SdkCall.velocity? calls

/-- The last velocity passed is zero, or none was passed. -/
def Still (calls : List SdkCall) : Prop := ∀ v, velocitySet calls = some v → v = .zero

/-! ## The loop -/

/-- A sample of a batch: whether its info says it is valid, and its data. -/
structure Sample where
  valid : Bool
  data : JoyData
  deriving DecidableEq

/-- The state of the control loop, with the log of SDK calls. -/
structure Loop where
  lastMsgTime : Int
  lastMode : Int := modeStand
  watchdogFired : Bool := false
  calls : List SdkCall := [.setMode modeStand]
  deriving DecidableEq

/-- `clamp`. -/
def clamp (v lo hi : F32) : F32 := .stdMax lo (.stdMin hi v)

/-- The velocity a message asks for, clamped. -/
def clampedAxes (msg : JoyData) : Velocity where
  vx := clamp msg.rawVx (F32.ofRat (-maxVx)) (F32.ofRat maxVx)
  vy := clamp msg.rawVy (F32.ofRat (-maxVy)) (F32.ofRat maxVy)
  wz := clamp msg.rawWz (F32.ofRat (-maxWz)) (F32.ofRat maxWz)

/-- The mode a message asks for, the current one where no button is set. -/
def requestedMode (lastMode : Int) (msg : JoyData) : Int :=
  if msg.btnSleep = 1 then modeSleep
  else if msg.btnStand = 1 then modeStand
  else if msg.btnMove = 1 then modeMove
  else lastMode

namespace Loop

/-- The loop before its first iteration. The robot was set to STAND at boot. -/
def boot (now : Int) : Loop := { lastMsgTime := now }

/-- `joystick.setMode(mode); last_mode = mode`, on a transition only. -/
def enter (b : Loop) (mode : Int) : Loop :=
  if mode ≠ b.lastMode then { b with lastMode := mode, calls := b.calls ++ [.setMode mode] } else b

/-- The velocity is sent in MOVE only. -/
def drive (b : Loop) (v : Velocity) : Loop :=
  if b.lastMode = modeMove then { b with calls := b.calls ++ [.setVelocity v] } else b

/-- One sample of a batch; `now` is the reading taken when it is valid. -/
def processSample (b : Loop) (sample : Sample) (now : Int) : Loop :=
  if sample.valid then
    let b := { b with lastMsgTime := now, watchdogFired := false }
    (b.enter (requestedMode b.lastMode sample.data)).drive (clampedAxes sample.data)
  else b

/-- The watchdog fires at this reading. -/
def fires (b : Loop) (now : Int) : Bool := watchdogMs < now - b.lastMsgTime && !b.watchdogFired

/-- The end of an iteration. -/
def watchdogCheck (b : Loop) (now : Int) : Loop :=
  if b.fires now then
    { b with
      watchdogFired := true
      calls := b.calls ++ [.setMode modeStand, .setVelocity .zero]
      lastMode := modeStand }
  else b

/-- One iteration over a batch; each sample comes with its clock reading. -/
def pass (b : Loop) (samples : List (Sample × Int)) (now : Int) : Loop :=
  (samples.foldl (fun b s => b.processSample s.1 s.2) b).watchdogCheck now

end Loop

/-! ## Events -/

/-- One unit of an iteration: a sample with its clock reading, or the check at the end. -/
inductive Event where
  | sample (s : Sample) (now : Int)
  | check (now : Int)
  deriving DecidableEq

/-- The loop after one unit. -/
def Loop.event (b : Loop) : Event → Loop
  | .sample s now => b.processSample s now
  | .check now => b.watchdogCheck now

/-- The loop after a list of units. -/
def Loop.run (b : Loop) (es : List Event) : Loop := es.foldl Loop.event b

/-- The units of one iteration. -/
def passEvents (samples : List (Sample × Int)) (now : Int) : List Event :=
  samples.map (fun s => .sample s.1 s.2) ++ [.check now]

/-! ## The program -/

/-- What the outside supplies to one iteration: what `reader.take()` returns, `none` where it
throws, and the reading of the check. -/
structure Pass where
  taken : Option (List (Sample × Int))
  now : Int

/-- What the outside supplies to `main`. `reader` is the first clock reading once participant,
topic and reader are constructed, `none` where one of them throws. -/
structure Environment where
  commInit : Bool
  joystickInit : Bool
  reader : Option Int
  passes : List Pass

/-- The `while`: the loop state where it is left, and whether by an exception. -/
def controlLoop (b : Loop) : List Pass → Loop × Bool
  | [] => (b, false)
  | p :: ps =>
    match p.taken with
    | none => (b, true)
    | some samples => controlLoop (b.pass samples p.now) ps

/-- The calls of a clean shutdown. -/
def shutdownCalls : List SdkCall := [.setVelocity .zero, .setMode modeSleep, .shutdown]

/-- `main`: the exit code, and the log of SDK calls. -/
def main (env : Environment) : Int × List SdkCall :=
  if !env.commInit then (1, [])
  else if !env.joystickInit then (1, [])
  else
    match env.reader with
    | none => (1, [.setMode modeStand])
    | some now =>
      match controlLoop (.boot now) env.passes with
      | (b, true) => (1, b.calls)
      | (b, false) => (0, b.calls ++ shutdownCalls)

end SvanVoice
