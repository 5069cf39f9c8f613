import SvanVoice.Library.Trace
import SvanVoice.Model.State

/-!
# The brain (`brain.py`, `api.py`, `microphone.py`, `main.py`)

`process_text_command` is a coroutine over the module's globals. A call of it is modelled by its
local state: the thread that runs it, the command's text, the prompt once it is built, and the
statement it stands at (`Phase`). One turn of a call runs one statement or a few that share nothing
with the other threads (`processTextCommand`); the turn says what the outside does there: the
statements run, the model's reply arrives, or a call into a library or a `print` raises.

Two assumptions are in the size of the turns. The history is read from `command_memory` in one turn,
though the comprehension goes over the list entry by entry; and the reply is taken in one turn,
though the call is suspended at every chunk. `Model.Loops` opens the two loops, and
`Laws.Loops` says what the assumptions set aside: the histories in the prompts, and nothing else.

`step` lets any call take a turn at any time. `scheduled` is the process as `main.py` starts it:
the web requests share one event loop, so a web call runs undisturbed by other web calls between
its awaits, and the microphone thread runs one call to its end before it starts the next.

Two things are here for the statements only. A call's number is its place in the order of starts.
`assigned` records every assignment to `current_robot_state`; the code keeps no such record.
-/

set_option autoImplicit false

namespace SvanVoice

/-- The threads that call `process_text_command`. -/
inductive Thread where
  | web
  | mic
  deriving DecidableEq

/-- One entry of `command_memory`. -/
structure MemoryEntry where
  text : String
  state : StateDict
  deriving DecidableEq

/-- What the user prompt shows: the history, the last robot state, the new command. -/
structure Prompt where
  history : List MemoryEntry
  lastState : StateDict
  text : String
  deriving DecidableEq

/-- How a call ends: the two answers it returns, or an exception that leaves it. -/
inductive Result where
  | success (data : StateDict)
  | error (detail : String)
  | raised (e : String)
  deriving DecidableEq

/-- Where a call stands. -/
inductive Phase where
  /-- at the first statement: the client is not created -/
  | entered
  /-- the history is read, the prompt is not built -/
  | remembered (history : List MemoryEntry)
  /-- suspended at the request or at a chunk of the reply -/
  | awaiting
  /-- the last chunk has arrived -/
  | received (raw : String)
  /-- the new state is validated and labelled, not assigned -/
  | labelled (newState : StateDict)
  /-- the new state is assigned, the memory is not updated -/
  | committed (newState : StateDict)
  /-- the entry is appended, the length is not tested -/
  | appended (newState : StateDict)
  /-- the memory was found too long, the oldest entry is not popped -/
  | overfull (newState : StateDict)
  /-- in the exception handler, before its `print` -/
  | failing (e : String)
  | ended (result : Result)
  deriving DecidableEq

/-- One call of `process_text_command`. -/
structure Call where
  thread : Thread
  text : String
  prompt : Option Prompt := none
  phase : Phase := .entered
  deriving DecidableEq

/-- One assignment to `current_robot_state`: the call, the state, and whether it is the reply's
(`fromReply`) or the safe one. -/
structure Assignment where
  call : Nat
  state : StateDict
  fromReply : Bool
  deriving DecidableEq

/-- The module's globals, with the record of assignments. -/
structure Globals where
  currentRobotState : StateDict := initialState
  commandMemory : List MemoryEntry := []
  assigned : List Assignment := []
  deriving DecidableEq

/-- `with state_lock: current_robot_state = state`. -/
def Globals.assign (g : Globals) (call : Nat) (state : StateDict) (fromReply : Bool) : Globals :=
  { g with currentRobotState := state, assigned := g.assigned ++ [⟨call, state, fromReply⟩] }

/-- What the outside does at a call's turn. A chunk is its content, `none` where it has none. -/
inductive Turn where
  | runs
  | replies (chunks : List (Option String))
  | raises (e : String)
  deriving DecidableEq

/-- `raw_message`: the contents of the chunks in order. -/
def rawMessage (chunks : List (Option String)) : String := String.join (chunks.filterMap id)

/-- The bound on `command_memory`. -/
def memoryLimit : Nat := 5

/-- One turn of a call, from the statement it stands at to the next. -/
def processTextCommand (libs : Libs) (g : Globals) (id : Nat) (c : Call) :
    Turn → Option (Globals × Call)
  | .runs =>
    match c.phase with
    | .entered => some (g, { c with phase := .remembered g.commandMemory })
    | .remembered history =>
      let prompt : Prompt := ⟨history, g.currentRobotState, c.text⟩
      some (g, { c with prompt := some prompt, phase := .awaiting })
    | .awaiting => none
    | .received raw =>
      match decodeReply libs raw with
      | .ok newState => some (g, { c with phase := .labelled newState })
      | .error e => some (g, { c with phase := .failing e })
    | .labelled newState =>
      some (g.assign id newState true, { c with phase := .committed newState })
    | .committed newState =>
      some ({ g with commandMemory := g.commandMemory ++ [⟨c.text, newState⟩] },
        { c with phase := .appended newState })
    | .appended newState =>
      if memoryLimit < g.commandMemory.length then
        some (g, { c with phase := .overfull newState })
      else some (g, { c with phase := .ended (.success newState) })
    | .overfull newState =>
      some ({ g with commandMemory := g.commandMemory.tail },
        { c with phase := .ended (.success newState) })
    | .failing e => some (g.assign id safeState false, { c with phase := .ended (.error e) })
    | .ended _ => none
  | .replies chunks =>
    match c.phase with
    | .awaiting => some (g, { c with phase := .received (rawMessage chunks) })
    | _ => none
  | .raises e =>
    match c.phase with
    -- before the `try`, and in the handler, an exception leaves the call
    | .entered | .remembered _ | .failing _ => some (g, { c with phase := .ended (.raised e) })
    | .awaiting | .received _ | .committed _ => some (g, { c with phase := .failing e })
    | .labelled _ | .appended _ | .overfull _ | .ended _ => none

/-- A call that leaves its event loop to others: it waits for the model, or it has ended. -/
def Call.suspended (c : Call) : Bool :=
  match c.phase with
  | .awaiting | .ended _ => true
  | _ => false

def Call.hasEnded (c : Call) : Bool :=
  match c.phase with
  | .ended _ => true
  | _ => false

/-! ## The process -/

/-- The brain: its globals and all the calls started so far, in the order of their starts. -/
structure Brain where
  globals : Globals := {}
  calls : List Call := []
  deriving DecidableEq

/-- A new call, or a turn of the call with a number. -/
inductive BrainAction where
  | call (thread : Thread) (text : String)
  | turn (id : Nat) (t : Turn)
  deriving DecidableEq

namespace Brain

/-- One step of the brain. Any call may take a turn. -/
def step (libs : Libs) (b : Brain) : BrainAction → Option Brain
  | .call thread text => some { b with calls := b.calls ++ [{ thread, text }] }
  | .turn id t =>
    (b.calls[id]?).bind fun c =>
      (processTextCommand libs b.globals id c t).map fun r =>
        { globals := r.1, calls := b.calls.set id r.2 }

/-- The web loop can turn to the call `id`: every other web call is suspended. -/
def webLoopFree (b : Brain) (id : Nat) : Bool :=
  b.calls.zipIdx.all fun (c, i) => c.thread != .web || i == id || c.suspended

/-- What the two threads admit. -/
def admits (b : Brain) : BrainAction → Bool
  | .call .web _ => b.webLoopFree b.calls.length
  | .call .mic _ => b.calls.all fun c => c.thread != .mic || c.hasEnded
  | .turn id _ =>
    match b.calls[id]? with
    | some c => c.thread == .mic || b.webLoopFree id
    | none => false

/-- One step of the brain as its threads schedule it. -/
def scheduled (libs : Libs) (b : Brain) (a : BrainAction) : Option Brain :=
  if b.admits a then b.step libs a else none

end Brain

end SvanVoice
