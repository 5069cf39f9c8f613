import SvanVoice.Laws.Brain
import SvanVoice.Laws.Publisher

/-!
# Calls that fail

`process_text_command` answers an exception with the safe state: the robot stands, with no velocity.
The laws here follow one call on its own (`solo`), from any state before it, through every place
where a step may raise.

`solo_failed` says how a call can fail. Either its handler installs the safe state and the call
returns an error, or an exception leaves the call: the creation of the client and the prompt stand
before the `try`, and the handler's first statement is a `print`. In the second case the state in
force stays, which is the reply's own where it was committed before. The memory is kept in both.

* `failure_rests_iff`: so a failed call leaves the robot at rest exactly if it returns, or the state
  in force where the exception leaves it is at rest already.
* `error_wakes`: and the safe state is no sleep. An error answered to a sleeping robot always puts
  it in mode 1, and the next frame presses its stand button.
-/

set_option autoImplicit false

namespace SvanVoice

/-- One turn of a call with no other call between its turns. -/
def solo (libs : Libs) (id : Nat) (s : Globals × Call) (turn : Turn) : Option (Globals × Call) :=
  processTextCommand libs s.1 id s.2 turn

/-- The robot is at rest: not in mode 4, and all three velocities are zero. -/
def AtRest (state : StateDict) : Prop :=
  state.mode ≠ some 4 ∧ state.xVelocity = some 0 ∧ state.yVelocity = some 0 ∧
    state.yawVelocity = some 0

instance (state : StateDict) : Decidable (AtRest state) := inferInstanceAs (Decidable (_ ∧ _))

theorem safeState_atRest : AtRest safeState := ⟨by decide, rfl, rfl, rfl⟩

/-- The state in force after two more turns of a call that has its reply: the reply's own, if it
decodes, since it is decoded and then committed. -/
def inForceAfter (libs : Libs) (g : Globals) (raw : String) : List Turn → StateDict
  | .runs :: .runs :: _ => (decodeReply libs raw).toOption.getD g.currentRobotState
  | _ => g.currentRobotState

/-- The state in force where an exception leaves a call: the reply's own, if the call has got as far
as to commit it, and the state before the call otherwise. -/
def inForce (libs : Libs) (g : Globals) : List Turn → StateDict
  | .runs :: .runs :: .replies chunks :: ts => inForceAfter libs g (rawMessage chunks) ts
  | _ => g.currentRobotState

/-- How a call fails whose exception finds the state `held`: it returns an error from its handler,
or the exception leaves it. -/
inductive Failed (g : Globals) (held : StateDict) (ts : List Turn) (g' : Globals) : Result → Prop
  | returned (e : String) (last : ts.getLast? = some .runs)
      (state : g'.currentRobotState = safeState) (memory : g'.commandMemory = g.commandMemory) :
      Failed g held ts g' (.error e)
  | raised (e : String) (last : ts.getLast? = some (.raises e))
      (state : g'.currentRobotState = held) (memory : g'.commandMemory = g.commandMemory) :
      Failed g held ts g' (.raised e)

/-- One turn more at the start, which leaves the memory. -/
theorem Failed.cons {g g₁ g' : Globals} {held : StateDict} {t : Turn} {ts : List Turn} {r : Result}
    (h : Failed g₁ held ts g' r) (hmemory : g₁.commandMemory = g.commandMemory) :
    Failed g held (t :: ts) g' r := by
  cases h with
  | returned e last state memory =>
    exact .returned e (by rw [List.getLast?_cons, last]; rfl) state (memory.trans hmemory)
  | raised e last state memory =>
    exact .raised e (by rw [List.getLast?_cons, last]; rfl) state (memory.trans hmemory)

/-! ## From each statement on -/

section Solo

variable {libs : Libs} {id : Nat} {g g' : Globals} {c c' : Call} {ts : List Turn} {r : Result}

/-- A call that has ended takes no turn. -/
theorem solo_ended {r' : Result} (hphase : c.phase = .ended r')
    (h : Trace.run (solo libs id) (g, c) ts = some (g', c')) (hended : c'.phase = .ended r) :
    ts = [] ∧ g' = g ∧ r = r' := by
  cases ts with
  | nil =>
    cases h
    rw [hphase] at hended
    exact ⟨rfl, rfl, (Phase.ended.inj hended).symm⟩
  | cons t ts =>
    obtain ⟨s, hs, -⟩ := Option.bind_eq_some_iff.mp h
    rw [solo, turn_of_ended (by rw [Call.hasEnded, hphase])] at hs
    cases hs

/-- A call that has not ended takes a turn on the way to its end. -/
theorem solo_cons (h : Trace.run (solo libs id) (g, c) ts = some (g', c'))
    (hended : c'.phase = .ended r) (hphase : c.hasEnded = false) :
    ∃ t rest g₁ c₁, ts = t :: rest ∧ processTextCommand libs g id c t = some (g₁, c₁) ∧
      Trace.run (solo libs id) (g₁, c₁) rest = some (g', c') := by
  cases ts with
  | nil =>
    cases h
    rw [Call.hasEnded, hended] at hphase
    cases hphase
  | cons t ts =>
    obtain ⟨⟨g₁, c₁⟩, hturn, hrun⟩ := Option.bind_eq_some_iff.mp h
    exact ⟨t, ts, g₁, c₁, rfl, hturn, hrun⟩

/-- A call that has appended its entry succeeds. -/
theorem solo_appended {ns : StateDict} (hphase : c.phase = .appended ns)
    (h : Trace.run (solo libs id) (g, c) ts = some (g', c')) (hended : c'.phase = .ended r) :
    r = .success ns := by
  obtain ⟨t, rest, g₁, c₁, rfl, hturn, hrun⟩ := solo_cons h hended (by rw [Call.hasEnded, hphase])
  cases t with
  | runs =>
    simp only [processTextCommand, hphase] at hturn
    split at hturn
    · -- the memory is too long: one more turn
      cases hturn
      obtain ⟨t, rest', g₂, c₂, rfl, hturn, hrun⟩ := solo_cons hrun hended rfl
      cases t with
      | runs =>
        cases hturn
        exact (solo_ended rfl hrun hended).2.2
      | _ => cases hturn
    · cases hturn
      exact (solo_ended rfl hrun hended).2.2
  | _ => simp only [processTextCommand, hphase, reduceCtorEq] at hturn

/-- The handler: its `print` raises, or it installs the safe state. -/
theorem solo_failing {e : String} (hphase : c.phase = .failing e)
    (h : Trace.run (solo libs id) (g, c) ts = some (g', c')) (hended : c'.phase = .ended r) :
    Failed g g.currentRobotState ts g' r := by
  obtain ⟨t, rest, g₁, c₁, rfl, hturn, hrun⟩ := solo_cons h hended (by rw [Call.hasEnded, hphase])
  cases t with
  | runs =>
    simp only [processTextCommand, hphase, Option.some.injEq, Prod.mk.injEq] at hturn
    obtain ⟨rfl, rfl⟩ := hturn
    obtain ⟨rfl, rfl, rfl⟩ := solo_ended rfl hrun hended
    exact .returned e rfl rfl rfl
  | replies chunks => simp only [processTextCommand, hphase, reduceCtorEq] at hturn
  | raises e' =>
    simp only [processTextCommand, hphase, Option.some.injEq, Prod.mk.injEq] at hturn
    obtain ⟨rfl, rfl⟩ := hturn
    obtain ⟨rfl, rfl, rfl⟩ := solo_ended rfl hrun hended
    exact .raised e' rfl rfl rfl

/-- After the commit a call fails only by its `print`. -/
theorem solo_committed {ns : StateDict} (hphase : c.phase = .committed ns)
    (h : Trace.run (solo libs id) (g, c) ts = some (g', c')) (hended : c'.phase = .ended r)
    (hfail : ∀ ns, r ≠ .success ns) : Failed g g.currentRobotState ts g' r := by
  obtain ⟨t, rest, g₁, c₁, rfl, hturn, hrun⟩ := solo_cons h hended (by rw [Call.hasEnded, hphase])
  cases t with
  | runs =>
    simp only [processTextCommand, hphase, Option.some.injEq, Prod.mk.injEq] at hturn
    obtain ⟨rfl, rfl⟩ := hturn
    exact absurd (solo_appended rfl hrun hended) (hfail ns)
  | replies chunks => simp only [processTextCommand, hphase, reduceCtorEq] at hturn
  | raises e =>
    simp only [processTextCommand, hphase, Option.some.injEq, Prod.mk.injEq] at hturn
    obtain ⟨rfl, rfl⟩ := hturn
    exact (solo_failing rfl hrun hended).cons rfl

/-- A validated reply is committed before the call can fail. -/
theorem solo_labelled {ns : StateDict} (hphase : c.phase = .labelled ns)
    (h : Trace.run (solo libs id) (g, c) ts = some (g', c')) (hended : c'.phase = .ended r)
    (hfail : ∀ ns, r ≠ .success ns) : ∃ rest, ts = .runs :: rest ∧ Failed g ns ts g' r := by
  obtain ⟨t, rest, g₁, c₁, rfl, hturn, hrun⟩ := solo_cons h hended (by rw [Call.hasEnded, hphase])
  cases t with
  | runs =>
    simp only [processTextCommand, hphase, Option.some.injEq, Prod.mk.injEq] at hturn
    obtain ⟨rfl, rfl⟩ := hturn
    exact ⟨rest, rfl, (solo_committed rfl hrun hended hfail).cons rfl⟩
  | _ => simp only [processTextCommand, hphase, reduceCtorEq] at hturn

/-- From a reply on. -/
theorem solo_received {raw : String} (hphase : c.phase = .received raw)
    (h : Trace.run (solo libs id) (g, c) ts = some (g', c')) (hended : c'.phase = .ended r)
    (hfail : ∀ ns, r ≠ .success ns) : Failed g (inForceAfter libs g raw ts) ts g' r := by
  obtain ⟨t, rest, g₁, c₁, rfl, hturn, hrun⟩ := solo_cons h hended (by rw [Call.hasEnded, hphase])
  cases t with
  | runs =>
    simp only [processTextCommand, hphase] at hturn
    split at hturn
    · next ns hdecode =>
      cases hturn
      obtain ⟨rest', rfl, hfailed⟩ := solo_labelled rfl hrun hended hfail
      simp only [inForceAfter, hdecode]
      exact hfailed.cons rfl
    · next e hdecode =>
      cases hturn
      have hheld : inForceAfter libs g raw (.runs :: rest) = g.currentRobotState := by
        unfold inForceAfter
        split
        · rw [hdecode]
          rfl
        · rfl
      rw [hheld]
      exact (solo_failing rfl hrun hended).cons rfl
  | replies chunks => simp only [processTextCommand, hphase, reduceCtorEq] at hturn
  | raises e =>
    simp only [processTextCommand, hphase, Option.some.injEq, Prod.mk.injEq] at hturn
    obtain ⟨rfl, rfl⟩ := hturn
    exact (solo_failing rfl hrun hended).cons rfl

/-- **How a call fails**, from its first statement on. -/
theorem solo_failed {thread : Thread} {text : String}
    (h : Trace.run (solo libs id) (g, { thread := thread, text := text }) ts = some (g', c'))
    (hended : c'.phase = .ended r) (hfail : ∀ ns, r ≠ .success ns) :
    Failed g (inForce libs g ts) ts g' r := by
  -- the client, and the history
  obtain ⟨t, rest, g₁, c₁, rfl, hturn, hrun⟩ := solo_cons h hended rfl
  cases t with
  | replies chunks => cases hturn
  | raises e =>
    cases hturn
    obtain ⟨rfl, rfl, rfl⟩ := solo_ended rfl hrun hended
    exact .raised e rfl rfl rfl
  | runs =>
  cases hturn
  -- the prompt
  obtain ⟨t, rest, g₂, c₂, rfl, hturn, hrun⟩ := solo_cons hrun hended rfl
  cases t with
  | replies chunks => cases hturn
  | raises e =>
    cases hturn
    obtain ⟨rfl, rfl, rfl⟩ := solo_ended rfl hrun hended
    exact .raised e rfl rfl rfl
  | runs =>
  cases hturn
  -- the request and the reply
  obtain ⟨t, rest, g₃, c₃, rfl, hturn, hrun⟩ := solo_cons hrun hended rfl
  cases t with
  | runs => cases hturn
  | replies chunks =>
    cases hturn
    exact (((solo_received rfl hrun hended hfail).cons rfl).cons rfl).cons rfl
  | raises e =>
    cases hturn
    exact (((solo_failing rfl hrun hended).cons rfl).cons rfl).cons rfl

end Solo

/-! ## At rest -/

section Fails

variable (libs : Libs) (id : Nat) (thread : Thread) (text : String) (g g' : Globals) (c' : Call)
variable (ts : List Turn)

/-- **When a failed call leaves the robot at rest.** From any state, a call on its own that does not
succeed keeps the memory and leaves the robot at rest exactly if no exception leaves it, or the
state in force there is at rest: the one before the call, or the reply's where it was committed. -/
theorem failure_rests_iff (r : Result)
    (hrun : Trace.run (solo libs id) (g, { thread := thread, text := text }) ts = some (g', c'))
    (hended : c'.phase = .ended r) (hfail : ∀ ns, r ≠ .success ns) :
    (AtRest g'.currentRobotState ∧ g'.commandMemory = g.commandMemory) ↔
      ∀ e, ts.getLast? = some (.raises e) → AtRest (inForce libs g ts) := by
  cases solo_failed hrun hended hfail with
  | returned e last state memory =>
    refine iff_of_true ⟨state ▸ safeState_atRest, memory⟩ fun e' hraises => ?_
    cases last.symm.trans hraises
  | raised e last state memory =>
    rw [state]
    exact ⟨fun h _ _ => h.1, fun h => ⟨h e last, memory⟩⟩

/-! ## Asleep -/

/-- The robot is asleep, with no velocity. -/
def Asleep (state : StateDict) : Prop :=
  state.mode = some 0 ∧ state.xVelocity = some 0 ∧ state.yVelocity = some 0 ∧
    state.yawVelocity = some 0

instance (state : StateDict) : Decidable (Asleep state) := inferInstanceAs (Decidable (_ ∧ _))

/-- **An error wakes the sleeper.** A call on its own that starts in mode 0 and ends with an error
never leaves the robot asleep, and the next frame of a publisher that has published the sleeping
state presses the stand button. -/
theorem error_wakes (e : String)
    (hrun : Trace.run (solo libs id) (g, { thread := thread, text := text }) ts = some (g', c'))
    (hended : c'.phase = .ended (.error e)) (hasleep : g.currentRobotState.mode = some 0) :
    ¬ Asleep g'.currentRobotState ∧
      ∀ (p : DDSPublisher) (noise : ℚ) (cur : Int), p.lastModeOr = g.currentRobotState.modeOr →
        requestedMode cur (p.publishMovement g'.currentRobotState noise).2 = modeStand := by
  have hsafe : g'.currentRobotState = safeState := by
    cases solo_failed hrun hended nofun with
    | returned e last state memory => exact state
  rw [hsafe]
  refine ⟨by decide, fun p noise cur hlast => ?_⟩
  have hchange : safeState.modeOr ≠ p.lastModeOr := by
    rw [hlast, StateDict.modeOr, StateDict.modeOr, hasleep]
    decide
  have hbuttons := publish_buttons_change p safeState noise hchange
  exact requestedMode_pressed hbuttons (.inr (.inl rfl))

end Fails

/-! ## Failing calls -/

/-- The robot walks. -/
def walking : Globals := { currentRobotState := walkState }

/-- The request raises, and the handler runs. -/
def requestFails : List Turn := [.runs, .runs, .raises "Connection error.", .runs]

/-- A failed request stops the walking robot. -/
theorem failed_request_stops : ∃ g' c',
    Trace.run (solo plainLibs 0) (walking, { thread := .web, text := "stop" }) requestFails =
        some (g', c') ∧
      AtRest g'.currentRobotState ∧ g'.commandMemory = walking.commandMemory :=
  ⟨_, _, rfl, (failure_rests_iff plainLibs 0 .web "stop" walking _ _ requestFails
    (.error "Connection error.") rfl rfl nofun).mpr nofun⟩

/-- Every call creates a client and closes none. Where one more cannot be created, the stop leaves
the walking robot as it is. -/
theorem failed_stop_keeps_walking : ∃ g' c' e,
    Trace.run (solo plainLibs 0) (walking, { thread := .web, text := "stop" })
        [.raises "[Errno 24] Too many open files"] = some (g', c') ∧
      c'.phase = .ended (.raised e) ∧ ¬ AtRest g'.currentRobotState ∧
        g'.currentRobotState.mode = some 4 :=
  ⟨_, _, _, rfl, rfl, by decide +kernel, rfl⟩

/-- The reply is not JSON, and the handler runs. -/
def malformedReply : List Turn := [.runs, .runs, .replies [some "good morning"], .runs, .runs]

/-- The sleeping robot of the start is woken by a reply that does not parse, at its first frame. -/
theorem malformed_reply_wakes : ∃ g' c' e,
    Trace.run (solo plainLibs 0) ({}, { thread := .mic, text := "good morning" }) malformedReply =
        some (g', c') ∧
      c'.phase = .ended (.error e) ∧ ¬ Asleep g'.currentRobotState :=
  ⟨_, _, _, rfl, rfl, by decide +kernel⟩

/-- It is heard as a press of the stand button. -/
theorem malformed_reply_presses : ∃ g' c',
    Trace.run (solo plainLibs 0) ({}, { thread := .mic, text := "good morning" }) malformedReply =
        some (g', c') ∧
      ∀ cur, requestedMode cur
        ((({} : DDSPublisher).publishMovement initialState 0).1.publishMovement
          g'.currentRobotState 0).2 = modeStand := by
  refine ⟨_, _, rfl, ?_⟩
  exact fun cur => (error_wakes plainLibs 0 .mic "good morning" {} _ _ malformedReply _ rfl rfl
    rfl).2 (({} : DDSPublisher).publishMovement initialState 0).1 0 cur (by decide +kernel)

end SvanVoice
