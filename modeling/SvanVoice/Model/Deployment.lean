import SvanVoice.Model.System
import SvanVoice.Model.Threads

/-!
# The deployed program

`System` has the brain as a schedule admits it. Here are the three processes with the threads that
`main.py` starts: the brain's process is `Process`, its heartbeat thread publishes as long as the
process lives, and the topic and the bridge are a link. The heartbeat starts when `brain.py` is
imported, before `main`, and it is a daemon: it ends with `main`.

The link is a parameter. It is `Link`, with its exact numbers, or `WireLink`, on floats and bytes.
-/

set_option autoImplicit false

namespace SvanVoice

/-- The brain's process, the heartbeat thread's copy between its two halves, and the link. -/
structure Deployment (L : Type) where
  process : Process := {}
  stateSnapshot : Option StateDict := none
  link : L

inductive DeploymentEvent where
  | process (e : ProcessEvent)
  /-- the heartbeat copies the state -/
  | copy
  | link (a : LinkAction)
  deriving DecidableEq

namespace Deployment

variable {L : Type}

/-- Everything as it starts. -/
def init (link : L) : Deployment L := { link }

/-- The brain's process has not ended. -/
def alive (d : Deployment L) : Prop := d.process.mainThread ≠ .over

instance (d : Deployment L) : Decidable d.alive := inferInstanceAs (Decidable (_ ≠ _))

/-- One step of the deployed program, on a link that takes its steps by `linkStep`. -/
def step (libs : Libs) (linkStep : L → LinkAction → Option L) (d : Deployment L) :
    DeploymentEvent → Option (Deployment L)
  | .process e => (d.process.step libs e).map fun process => { d with process }
  | .copy =>
    if d.alive ∧ d.stateSnapshot = none then
      some { d with stateSnapshot := some d.process.brain.globals.currentRobotState }
    else none
  | .link (.publish snapshot noise) =>
    if d.alive ∧ d.stateSnapshot = some snapshot then
      (linkStep d.link (.publish snapshot noise)).map fun link =>
        { d with stateSnapshot := none, link }
    else none
  | .link a => (linkStep d.link a).map fun link => { d with link }

end Deployment

end SvanVoice
