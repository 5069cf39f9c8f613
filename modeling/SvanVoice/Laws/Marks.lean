import SvanVoice.Laws.Bridge

/-!
# What the units of a run leave

The laws of the bridge speak of its units, the samples it took and the checks it made, and not of
the variables of its loop. Two things of a unit matter later. Its *mark*: the boot, a firing of the
watchdog, or a valid sample with a button set. And the velocity it passes, if it passes one.

The tracked mode is the mode of the latest mark (`lastMode_eq_latestMark`), and the velocity in
force is the last one passed (`velocitySet_eq_velocityLeft`).
-/

set_option autoImplicit false

namespace SvanVoice

/-! ## Marks -/

/-- What may change whether the robot is to move: the boot, a firing of the watchdog, and a valid
sample with a button set, with the mode it resolves to. -/
inductive Mark where
  | boot
  | fired
  | pressed (mode : Int)
  deriving DecidableEq

/-- The mode a message's buttons resolve to: sleep before stand before move. -/
def resolved (msg : JoyData) : Option Int :=
  if msg.btnSleep = 1 then some modeSleep
  else if msg.btnStand = 1 then some modeStand
  else if msg.btnMove = 1 then some modeMove
  else none

namespace Loop

/-- The mark a unit leaves, if it leaves one. -/
def mark? (b : Loop) : Event → Option Mark
  | .sample s _ => if s.valid then (resolved s.data).map .pressed else none
  | .check now => if b.fires now then some .fired else none

/-- The marks of a run. -/
def marks : Loop → List Event → List Mark
  | _, [] => []
  | b, e :: es => (b.mark? e).toList ++ (b.event e).marks es

end Loop

/-- The latest mark of a run from boot. -/
def latestMark (start : Int) (es : List Event) : Mark :=
  ((Loop.boot start).marks es).getLast?.getD .boot

/-- The mode a mark leaves the robot in. -/
def Mark.mode : Mark → Int
  | .boot | .fired => modeStand
  | .pressed mode => mode

/-- Only a press of its button leaves the robot in another mode than STAND. -/
theorem eq_pressed_of_mode {mark : Mark} {mode : Int} (hmode : mode ≠ modeStand)
    (h : mark.mode = mode) : mark = .pressed mode := by
  cases mark with
  | pressed m => exact congrArg Mark.pressed h
  | boot => exact absurd h.symm hmode
  | fired => exact absurd h.symm hmode

theorem requestedMode_eq_resolved (lastMode : Int) (msg : JoyData) :
    requestedMode lastMode msg = (resolved msg).getD lastMode := by
  unfold requestedMode resolved
  split_ifs <;> rfl

theorem event_lastMode (b : Loop) (e : Event) :
    (b.event e).lastMode = ((b.mark? e).map Mark.mode).getD b.lastMode := by
  cases e with
  | sample s now =>
    cases hv : s.valid with
    | false =>
      rw [Loop.event, Loop.processSample_invalid now hv, Loop.mark?, hv]
      rfl
    | true =>
      rw [Loop.event, Loop.processSample_lastMode now hv, requestedMode_eq_resolved, Loop.mark?,
        if_pos hv, Option.map_map]
      cases resolved s.data <;> rfl
  | check now =>
    cases hf : b.fires now with
    | false =>
      rw [Loop.event, Loop.watchdogCheck_quiet hf, Loop.mark?, hf]
      rfl
    | true =>
      rw [Loop.event, Loop.watchdogCheck_fires hf, Loop.mark?, if_pos hf]
      rfl

theorem marks_append (b : Loop) (es fs : List Event) :
    b.marks (es ++ fs) = b.marks es ++ (b.run es).marks fs := by
  induction es generalizing b with
  | nil => rfl
  | cons e es ih =>
    rw [List.cons_append, Loop.marks, ih, Loop.marks, List.append_assoc]
    rfl

/-- One more unit: its mark, if it leaves one. -/
theorem latestMark_snoc (start : Int) (es : List Event) (e : Event) :
    latestMark start (es ++ [e]) =
      (((Loop.boot start).run es).mark? e).getD (latestMark start es) := by
  rw [latestMark, marks_append, List.getLast?_append, Loop.marks, Loop.marks, List.append_nil]
  cases ((Loop.boot start).run es).mark? e <;> rfl

/-- **The tracked mode is the mode of the latest mark.** -/
theorem lastMode_eq_latestMark (start : Int) (es : List Event) :
    ((Loop.boot start).run es).lastMode = (latestMark start es).mode := by
  induction es using List.reverseRecOn with
  | nil => rfl
  | append_singleton es e ih =>
    rw [latestMark_snoc, Loop.run_append]
    have hstep := event_lastMode ((Loop.boot start).run es) e
    rw [ih] at hstep
    refine hstep.trans ?_
    cases ((Loop.boot start).run es).mark? e <;> rfl

/-- The robot is in another mode than STAND exactly if the latest mark is a press of its button. -/
theorem lastMode_eq_iff (start : Int) (es : List Event) {mode : Int} (hmode : mode ≠ modeStand) :
    ((Loop.boot start).run es).lastMode = mode ↔ latestMark start es = .pressed mode := by
  rw [lastMode_eq_latestMark]
  constructor
  · exact eq_pressed_of_mode hmode
  · intro hmark
    rw [hmark, Mark.mode]

/-! ## Velocities -/

/-- The velocity a unit passes, after the units before it: its clamped axes, where it is a valid
sample up to which the latest mark is a press of MOVE, and zero, where the watchdog fires. -/
def passedBy (start : Int) (seen : List Event) : Event → Option Velocity
  | .sample s now =>
    if s.valid ∧ latestMark start (seen ++ [.sample s now]) = .pressed modeMove then
      some (clampedAxes s.data)
    else none
  | .check now => if ((Loop.boot start).run seen).fires now then some .zero else none

/-- The velocities that units pass, after the units before them. -/
def velocitiesPassed (start : Int) (seen : List Event) : List Event → List Velocity
  | [] => []
  | e :: es => (passedBy start seen e).toList ++ velocitiesPassed start (seen ++ [e]) es

/-- The last velocity passed in a run from boot. -/
def velocityLeft (start : Int) (es : List Event) : Option Velocity :=
  (velocitiesPassed start [] es).getLast?

theorem velocitiesPassed_snoc (start : Int) (seen es : List Event) (e : Event) :
    velocitiesPassed start seen (es ++ [e]) =
      velocitiesPassed start seen es ++ (passedBy start (seen ++ es) e).toList := by
  induction es generalizing seen with
  | nil =>
    rw [List.append_nil]
    exact List.append_nil _
  | cons e' es ih =>
    rw [List.cons_append, velocitiesPassed, ih, velocitiesPassed, List.append_assoc,
      List.append_assoc]
    rfl

/-- A unit leaves the velocity it passes, and the one before it where it passes none. -/
theorem event_velocitySet (start : Int) (es : List Event) (e : Event) :
    velocitySet (((Loop.boot start).run es).event e).calls =
      (passedBy start es e).or (velocitySet ((Loop.boot start).run es).calls) := by
  cases e with
  | sample s now =>
    cases hv : s.valid with
    | false =>
      rw [Loop.event, Loop.processSample_invalid now hv, passedBy, hv, if_neg]
      · rfl
      · simp only [Bool.false_eq_true, false_and, not_false_eq_true]
    | true =>
      have hmode : requestedMode ((Loop.boot start).run es).lastMode s.data = modeMove ↔
          latestMark start (es ++ [.sample s now]) = .pressed modeMove := by
        rw [← lastMode_eq_iff start _ (by decide), Loop.run_append,
          ← Loop.processSample_lastMode now hv]
        rfl
      rw [Loop.event, Loop.processSample_velocitySet now hv, passedBy]
      by_cases hmove : requestedMode ((Loop.boot start).run es).lastMode s.data = modeMove
      · rw [if_pos hmove, if_pos ⟨hv, hmode.mp hmove⟩]
        rfl
      · rw [if_neg hmove, if_neg fun h => hmove (hmode.mpr h.2)]
        rfl
  | check now =>
    rw [Loop.event, passedBy]
    cases hf : ((Loop.boot start).run es).fires now with
    | false =>
      rw [Loop.watchdogCheck_quiet hf]
      rfl
    | true =>
      rw [Loop.watchdogCheck_fires hf]
      exact (Loop.frozen_calls _).2

/-- **The velocity in force is the last one passed.** -/
theorem velocitySet_eq_velocityLeft (start : Int) (es : List Event) :
    velocitySet ((Loop.boot start).run es).calls = velocityLeft start es := by
  induction es using List.reverseRecOn with
  | nil => rfl
  | append_singleton es e ih =>
    have hlast : velocityLeft start (es ++ [e]) =
        (passedBy start es e).or (velocityLeft start es) := by
      rw [velocityLeft, velocitiesPassed_snoc, List.getLast?_append, List.nil_append]
      cases passedBy start es e <;> rfl
    rw [hlast, ← ih, Loop.run_append]
    exact event_velocitySet start es e

end SvanVoice
