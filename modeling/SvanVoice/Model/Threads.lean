import SvanVoice.Model.Brain
import Mathlib.Data.List.DropRight

/-!
# The threads of the brain (`main.py`, `microphone.py`, `api.py`)

`Brain.scheduled` says which turns the threads of the process admit. This module is the threads
themselves. `main` starts the microphone thread and then serves the web requests on its own thread.
`micListenLoop` listens, recognizes, prints and runs one call of `process_text_command` to its end,
with the three handlers of its loop. The web server runs one task at a time: a new request is
`receive_command`, and a task keeps the event loop until it awaits the model or has ended.

What the outside does is in the events: a library call returns or raises, a text is recognized, a
request arrives, a call takes a turn. `responses` is what the web clients have been answered so
far, each answer with the number of its call.
-/

set_option autoImplicit false

namespace SvanVoice

/-! ## The text of a request -/

/-- `str.isspace` of one character. -/
def isSpace (c : Char) : Bool :=
  let n := c.toNat
  (9 ≤ n && n ≤ 13) || (28 ≤ n && n ≤ 32) || n == 0x85 || n == 0xa0 || n == 0x1680 ||
    (0x2000 ≤ n && n ≤ 0x200a) || n == 0x2028 || n == 0x2029 || n == 0x202f || n == 0x205f ||
    n == 0x3000

/-- `str.strip`. -/
def strip (s : String) : String :=
  String.ofList ((s.toList.dropWhile isSpace).rdropWhile isSpace)

/-! ## The microphone -/

/-- Where `mic_listen_loop` stands. -/
inductive Listener where
  /-- it opens the microphone and calibrates -/
  | starting
  /-- at `recognizer.listen` -/
  | listening
  /-- at `recognizer.recognize_google` -/
  | recognizing
  /-- at the `print` of the text -/
  | heard (text : String)
  /-- in `run_until_complete`, with the call `id` -/
  | answering (id : Nat)
  /-- in the last handler, at its `print` -/
  | glitched (e : String)
  /-- at `time.sleep(1)` -/
  | sleeping
  /-- an exception has left the thread -/
  | dead
  deriving DecidableEq

/-- The exceptions the loop tells apart. -/
inductive MicException where
  | waitTimeout
  | unknownValue
  | other (e : String)
  deriving DecidableEq

/-- The handlers of the loop: the first two start it over, the last one reports first. -/
def MicException.handled : MicException → Listener
  | .waitTimeout | .unknownValue => .listening
  | .other e => .glitched e

/-- What the outside does at the statement the microphone thread stands at. -/
inductive MicEvent where
  /-- the statement runs -/
  | runs
  /-- `recognize_google` returns a text -/
  | recognizes (text : String)
  | raises (e : MicException)
  /-- the call under way takes a turn -/
  | turn (t : Turn)
  deriving DecidableEq

/-- The phase of the call with a number. -/
def Brain.phase? (b : Brain) (id : Nat) : Option Phase := (b.calls[id]?).map Call.phase

/-- The microphone thread after a turn of its call. -/
def Listener.after (id : Nat) : Option Phase → Listener
  | some (.ended (.raised e)) => MicException.handled (.other e)
  | some (.ended _) => .listening
  | _ => .answering id

/-- One step of `mic_listen_loop`. -/
def micListenLoop (libs : Libs) (b : Brain) : Listener → MicEvent → Option (Brain × Listener)
  | .starting, .runs => some (b, .listening)
  -- before the loop, and in its last handler, an exception leaves the thread
  | .starting, .raises _ => some (b, .dead)
  | .listening, .runs => some (b, .recognizing)
  | .listening, .raises e => some (b, e.handled)
  | .recognizing, .recognizes text => some (b, .heard text)
  | .recognizing, .raises e => some (b, e.handled)
  | .heard text, .runs =>
    (b.step libs (.call .mic text)).map fun b' => (b', .answering b.calls.length)
  | .heard _, .raises e => some (b, e.handled)
  | .answering id, .turn t =>
    (b.step libs (.turn id t)).map fun b' => (b', .after id (b'.phase? id))
  | .glitched _, .runs => some (b, .sleeping)
  | .glitched _, .raises _ => some (b, .dead)
  | .sleeping, .runs => some (b, .listening)
  | _, _ => none

/-! ## The web server -/

/-- What happens on the event loop of the web server. -/
inductive WebEvent where
  /-- a request's handler starts: its text is stripped and printed, and its call starts -/
  | request (text : String)
  /-- the `print` of a new request raises: the client is answered an error, and no call starts -/
  | unprinted
  /-- the running task's call takes a turn -/
  | turn (t : Turn)
  /-- the loop turns to the suspended call `id`, which takes a turn -/
  | resume (id : Nat) (t : Turn)
  deriving DecidableEq

/-- The web side: the call that has the event loop, if one has, and the answers sent. -/
structure WebServer where
  running : Option Nat := none
  responses : List (Nat × Result) := []
  deriving DecidableEq

/-- The web side after a turn of the call `id`. -/
def WebServer.after (w : WebServer) (id : Nat) : Option Phase → WebServer
  | some (.ended r) => { running := none, responses := w.responses ++ [(id, r)] }
  | some .awaiting => { w with running := none }
  | _ => { w with running := some id }

/-- One step of the web server. -/
def WebServer.step (libs : Libs) (b : Brain) (w : WebServer) : WebEvent → Option (Brain × WebServer)
  | .request text =>
    if w.running = none then
      (b.step libs (.call .web (strip text))).map fun b' =>
        (b', { w with running := some b.calls.length })
    else none
  | .unprinted => if w.running = none then some (b, w) else none
  | .turn t =>
    w.running.bind fun id =>
      (b.step libs (.turn id t)).map fun b' => (b', w.after id (b'.phase? id))
  | .resume id t =>
    if w.running = none ∧ (b.calls[id]?).any (fun c => c.thread = .web) = true then
      (b.step libs (.turn id t)).map fun b' => (b', w.after id (b'.phase? id))
    else none

/-! ## The process -/

/-- Where `main` stands: before its `print`, before the thread's start, in `uvicorn.run`, or left.
The other threads are daemons and end with it. -/
inductive MainThread where
  | printing
  | starting
  | serving
  | over
  deriving DecidableEq

inductive ProcessEvent where
  /-- the statement `main` stands at runs, or raises -/
  | main (runs : Bool)
  | mic (e : MicEvent)
  | web (e : WebEvent)
  deriving DecidableEq

/-- The brain and its threads. -/
structure Process where
  brain : Brain := {}
  mainThread : MainThread := .printing
  mic : Option Listener := none
  web : WebServer := {}
  deriving DecidableEq

namespace Process

/-- One step of `main`. -/
def stepMain (p : Process) : Bool → Option Process
  | true =>
    match p.mainThread with
    | .printing => some { p with mainThread := .starting }
    | .starting => some { p with mainThread := .serving, mic := some .starting }
    | .serving => some { p with mainThread := .over }
    | .over => none
  | false => if p.mainThread = .over then none else some { p with mainThread := .over }

/-- One step of the process. -/
def step (libs : Libs) (p : Process) : ProcessEvent → Option Process
  | .main runs => p.stepMain runs
  | .mic e =>
    if p.mainThread = .over then none
    else p.mic.bind fun l =>
      (micListenLoop libs p.brain l e).map fun r => { p with brain := r.1, mic := some r.2 }
  | .web e =>
    if p.mainThread = .serving then
      (p.web.step libs p.brain e).map fun r => { p with brain := r.1, web := r.2 }
    else none

end Process

end SvanVoice
