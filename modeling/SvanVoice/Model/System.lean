import SvanVoice.Model.Brain
import SvanVoice.Model.Bridge

/-!
# The three processes together

`Link` is the publisher, the topic and the bridge. The topic is every frame written so far, each
with the state it was published from; a frame's number is its place there. A delivery names a frame
by number, so frames may be lost, delayed, reordered or delivered twice; nothing else is ever
delivered as valid. The bridge may be started again at any time. Its steps are the units of its
loop, a sample or a check, so a run of the link cuts the loop's batches anywhere.

`System` adds the brain as its threads schedule it, and the heartbeat thread, which copies the
state under the lock and publishes the copy later, any steps of the other threads in between.
-/

set_option autoImplicit false

namespace SvanVoice

/-! ## The link -/

/-- Publisher, topic and bridge. -/
structure Link where
  publisher : DDSPublisher := {}
  sent : List (StateDict × JoyData) := []
  bridge : Loop

inductive LinkAction where
  /-- `publish_movement` writes the next frame -/
  | publish (snapshot : StateDict) (noise : ℚ)
  /-- a bridge process reaches its loop -/
  | boot (now : Int)
  /-- frame `k` is processed as a valid sample -/
  | deliver (k : Nat) (now : Int)
  /-- a sample that is not valid is skipped -/
  | invalid (data : JoyData) (now : Int)
  /-- the end of an iteration -/
  | check (now : Int)
  deriving DecidableEq

namespace Link

/-- A fresh publisher, and a bridge booted at a reading of the clock. -/
def init (start : Int) : Link := { bridge := .boot start }

/-- One step of the link. -/
def step (l : Link) : LinkAction → Option Link
  | .publish snapshot noise =>
    let (publisher, frame) := l.publisher.publishMovement snapshot noise
    some { l with publisher, sent := l.sent ++ [(snapshot, frame)] }
  | .boot now => some { l with bridge := .boot now }
  | .deliver k now =>
    (l.sent[k]?).map fun f => { l with bridge := l.bridge.processSample ⟨true, f.2⟩ now }
  | .invalid data now => some { l with bridge := l.bridge.processSample ⟨false, data⟩ now }
  | .check now => some { l with bridge := l.bridge.watchdogCheck now }

end Link

/-! ## The whole -/

/-- The brain, the heartbeat thread's copy between its two halves, and the link. -/
structure System where
  brain : Brain := {}
  stateSnapshot : Option StateDict := none
  link : Link

inductive SystemAction where
  | brain (a : BrainAction)
  /-- the heartbeat copies the state -/
  | copy
  | link (a : LinkAction)
  deriving DecidableEq

namespace System

/-- Everything as it starts. -/
def init (start : Int) : System := { link := .init start }

/-- One step of the whole. The heartbeat publishes the copy it took last, and copies again only
after that. -/
def step (libs : Libs) (s : System) : SystemAction → Option System
  | .brain a => (s.brain.scheduled libs a).map fun brain => { s with brain }
  | .copy =>
    if s.stateSnapshot = none then
      some { s with stateSnapshot := some s.brain.globals.currentRobotState }
    else none
  | .link (.publish snapshot noise) =>
    if s.stateSnapshot = some snapshot then
      (s.link.step (.publish snapshot noise)).map fun link => { s with stateSnapshot := none, link }
    else none
  | .link a => (s.link.step a).map fun link => { s with link }

end System

end SvanVoice
