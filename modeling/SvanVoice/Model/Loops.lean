import SvanVoice.Model.Brain

/-!
# The two loops of `process_text_command`

A turn of `processTextCommand` reads the whole command memory for the prompt, and takes the whole
reply. The code does both in a loop that other calls may interrupt. The history is a comprehension
over the list itself, which the other thread appends to and pops from meanwhile: the iterator keeps
an index, and ends where the index is past the end of the list as it is then. The reply comes in
chunks, and the call is suspended before each of them.

Here the loops are opened: reading one entry is a turn, and so is taking one chunk. Everything else
is `processTextCommand`, and the threads admit what they admit there.
-/

set_option autoImplicit false

namespace SvanVoice

/-- Where a call stands, its loops opened. -/
inductive FinePhase where
  | stands (phase : Phase)
  /-- in the history comprehension: the entries read, and the iterator's index -/
  | reading (shown : List MemoryEntry) (index : Nat)
  /-- in `async for chunk in response`, suspended: the message so far -/
  | streaming (rawMessage : String)
  deriving DecidableEq

/-- The phase with the loops closed: the history is not read, the reply has not arrived. -/
def FinePhase.coarse : FinePhase → Phase
  | .stands phase => phase
  | .reading _ _ => .entered
  | .streaming _ => .awaiting

/-- One call of `process_text_command`, its loops opened. -/
structure FineCall where
  thread : Thread
  text : String
  prompt : Option Prompt := none
  phase : FinePhase := .stands .entered
  deriving DecidableEq

/-- The call with the loops closed. -/
def FineCall.call (c : FineCall) : Call := ⟨c.thread, c.text, c.prompt, c.phase.coarse⟩

/-- A call that is in none of the loops. -/
def Call.fine (c : Call) : FineCall := ⟨c.thread, c.text, c.prompt, .stands c.phase⟩

/-- What the outside does at a turn: the statements run, the request is answered, a chunk arrives,
the stream ends, or a call into a library or a `print` raises. -/
inductive FineTurn where
  | runs
  | opens
  | chunk (content : Option String)
  | closes
  | raises (e : String)
  deriving DecidableEq

/-- One turn of a call, its loops opened. -/
def processTextCommandFine (libs : Libs) (g : Globals) (id : Nat) (c : FineCall) :
    FineTurn → Option (Globals × FineCall)
  | .runs =>
    match c.phase with
    | .stands .entered =>
      if g.commandMemory = [] then some (g, { c with phase := .stands (.remembered []) })
      else some (g, { c with phase := .reading [] 0 })
    | .reading shown index =>
      match g.commandMemory[index]? with
      | some entry => some (g, { c with phase := .reading (shown ++ [entry]) (index + 1) })
      | none => some (g, { c with phase := .stands (.remembered shown) })
    | .streaming _ => none
    | .stands _ => (processTextCommand libs g id c.call .runs).map fun r => (r.1, r.2.fine)
  | .opens =>
    match c.phase with
    | .stands .awaiting => some (g, { c with phase := .streaming "" })
    | _ => none
  | .chunk content =>
    match c.phase with
    | .streaming raw => some (g, { c with phase := .streaming (raw ++ content.getD "") })
    | _ => none
  | .closes =>
    match c.phase with
    | .streaming raw => some (g, { c with phase := .stands (.received raw) })
    | _ => none
  | .raises e => (processTextCommand libs g id c.call (.raises e)).map fun r => (r.1, r.2.fine)

/-! ## The process -/

/-- The brain, the loops of its calls opened. -/
structure FineBrain where
  globals : Globals := {}
  calls : List FineCall := []
  deriving DecidableEq

/-- A new call, or a turn of the call with a number. -/
inductive FineAction where
  | call (thread : Thread) (text : String)
  | turn (id : Nat) (t : FineTurn)
  deriving DecidableEq

/-- A brain whose calls are in none of the loops. -/
def Brain.fine (b : Brain) : FineBrain := ⟨b.globals, b.calls.map Call.fine⟩

namespace FineBrain

/-- The brain with the loops closed. -/
def brain (b : FineBrain) : Brain := ⟨b.globals, b.calls.map FineCall.call⟩

/-- One step. Any call may take a turn. -/
def step (libs : Libs) (b : FineBrain) : FineAction → Option FineBrain
  | .call thread text => some { b with calls := b.calls ++ [{ thread, text }] }
  | .turn id t =>
    (b.calls[id]?).bind fun c =>
      (processTextCommandFine libs b.globals id c t).map fun r =>
        { globals := r.1, calls := b.calls.set id r.2 }

/-- What the two threads admit: they see whose turn it is. -/
def admits (b : FineBrain) : FineAction → Bool
  | .call thread text => b.brain.admits (.call thread text)
  | .turn id _ => b.brain.admits (.turn id .runs)

/-- One step as the threads schedule it. -/
def scheduled (libs : Libs) (b : FineBrain) (a : FineAction) : Option FineBrain :=
  if b.admits a then b.step libs a else none

end FineBrain

end SvanVoice
