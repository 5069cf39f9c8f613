import Mathlib.Data.Rat.Defs
import Mathlib.Tactic.NormNum

/-!
# The robot state and the command that sets it (`config.py`)

The brain keeps the robot's state in a dictionary with six keys. `StateDict` is that dictionary: a
key that is absent reads `none`, so `state_dict.get(key, default)` is `getD`, and whether a
dictionary is complete is a question the model can ask.

A velocity is a rational, the exact value of the double that the code has there. Decimals are the
exception, here and in every other module: the limits `0.4` and `0.8`, which no double has exactly,
are read as 2/5 and 4/5 wherever the code writes them, and so is a decimal of an example, `0.2` as
1/5. The arithmetic on velocities is exact; `Model.Float` has its rounding.

`LLMCommand` is the validated reply: its fields carry the bounds the validator checked. The client
libraries come in as `Libs`: the JSON decoder, the validator's reading of one JSON value at a type,
and the texts of the exceptions they raise. Nothing is assumed of them here, but that a NaN in a
reply is refused, as the bounds of a field ask: `asFloat` has no value for it.
-/

set_option autoImplicit false

namespace SvanVoice

/-- The dictionary of a robot state. -/
structure StateDict where
  mode : Option Int := none
  modeName : Option String := none
  xVelocity : Option ℚ := none
  yVelocity : Option ℚ := none
  yawVelocity : Option ℚ := none
  speed : Option String := none
  deriving DecidableEq

/-- `current_robot_state` when the module is loaded. -/
def initialState : StateDict where
  mode := some 0
  modeName := some "sleep"
  xVelocity := some 0
  yVelocity := some 0
  yawVelocity := some 0
  speed := some "slow"

/-- The state the error path installs. -/
def safeState : StateDict where
  mode := some 1
  modeName := some "stand"
  xVelocity := some 0
  yVelocity := some 0
  yawVelocity := some 0
  speed := some "slow"

/-! ## The reply -/

/-- A decoded JSON value. -/
inductive Json where
  | null
  | bool (b : Bool)
  | int (n : Int)
  | float (q : ℚ)
  | str (s : String)
  | arr (items : List Json)
  | obj (fields : List (String × Json))

/-- The client libraries: `loads raw` is `json.loads(raw.strip())`, the next three are the
validator's reading of a value at a field's type, and the last two are exception texts. -/
structure Libs where
  loads : String → Except String Json
  asInt : Json → Option Int
  asFloat : Json → Option ℚ
  asStr : Json → Option String
  notMapping : Json → String
  invalid : List (String × Json) → String

/-- A number within bounds, the bounds included. -/
abbrev Within (lo hi : ℚ) := {q : ℚ // lo ≤ q ∧ q ≤ hi}

/-- The validated command. -/
structure LLMCommand where
  mode : Int
  xVelocity : Within (-1 / 2) (1 / 2)
  yVelocity : Within (-2 / 5) (2 / 5)
  yawVelocity : Within (-4 / 5) (4 / 5)
  speed : String

/-- `Field(default=d)`: the field's value read at its type, or the default where it is missing. -/
def field {τ : Type} (read : Json → Option τ) (default : τ) (name : String)
    (fields : List (String × Json)) : Option τ :=
  match fields.lookup name with
  | none => some default
  | some value => read value

/-- `Field(ge=lo, le=hi)` on a float. -/
def Libs.bounded (libs : Libs) (lo hi : ℚ) (value : Json) : Option (Within lo hi) :=
  (libs.asFloat value).bind fun q => if h : lo ≤ q ∧ q ≤ hi then some ⟨q, h⟩ else none

/-- The validation of a mapping. Keys that name no field are ignored. -/
def LLMCommand.validate (libs : Libs) (fields : List (String × Json)) : Option LLMCommand := do
  let mode ← field libs.asInt 1 "mode" fields
  let xVelocity ← field (libs.bounded (-1 / 2) (1 / 2)) ⟨0, by norm_num⟩ "x_velocity" fields
  let yVelocity ← field (libs.bounded (-2 / 5) (2 / 5)) ⟨0, by norm_num⟩ "y_velocity" fields
  let yawVelocity ← field (libs.bounded (-4 / 5) (4 / 5)) ⟨0, by norm_num⟩ "yaw_velocity" fields
  let speed ← field libs.asStr "slow" "speed" fields
  some { mode, xVelocity, yVelocity, yawVelocity, speed }

/-- `LLMCommand(**value)`: only an object unpacks. -/
def LLMCommand.ofJson (libs : Libs) : Json → Except String LLMCommand
  | .obj fields =>
    match LLMCommand.validate libs fields with
    | some command => .ok command
    | none => .error (libs.invalid fields)
  | value => .error (libs.notMapping value)

/-- The command as a dictionary. It has no `mode_name`. -/
def LLMCommand.modelDump (c : LLMCommand) : StateDict where
  mode := some c.mode
  xVelocity := some c.xVelocity
  yVelocity := some c.yVelocity
  yawVelocity := some c.yawVelocity
  speed := some c.speed

/-- `mode_labels.get(mode, "unknown")`. -/
def modeLabel : Option Int → String
  | some 0 => "sleep"
  | some 1 => "stand"
  | some 4 => "move"
  | _ => "unknown"

/-- The reply's text, decoded, validated and labelled: the new state, or the text of the exception
on the way. -/
def decodeReply (libs : Libs) (raw : String) : Except String StateDict :=
  if raw = "" then .error "Empty response from LLM"
  else do
    let value ← libs.loads raw
    let command ← LLMCommand.ofJson libs value
    let newState := command.modelDump
    .ok { newState with modeName := some (modeLabel newState.mode) }

end SvanVoice
