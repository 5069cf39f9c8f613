import SvanVoice.Laws.Brain
import SvanVoice.Laws.Marks
import SvanVoice.Laws.Silence
import SvanVoice.Model.System

/-!
# What reaches the robot

The robot sees the calls into the SDK. This module says what they depend on, over whole runs.

The bridge obeys orders (`bridge_obeys`): its calls are those of a machine that knows one mode and
is given what a valid frame asks for, or told to freeze. The order to freeze comes from the clock
readings alone, at the first late check of a silence. So frames that ask for the same are the same
to the robot, and as long as no check is late, it does not matter how the frames are cut into
batches, what else is in them and what the clock reads.

In the whole system one part of a frame must not matter by design, the noise on its last axis.
`noise_is_silent` says that it does not: two runs that differ in their noise only are the same to
the robot, and everywhere else but in that axis of the frames. The proof is a simulation by the
system without noise.
-/

set_option autoImplicit false

namespace SvanVoice

/-! ## Orders -/

/-- An order: to take a mode, if one is asked for, and to walk at a velocity, if that is then the
mode to walk in; or to freeze. -/
inductive Order where
  | asks (mode : Option Int) (v : Velocity)
  | freeze
  deriving DecidableEq

/-- The mode after an order. -/
def Order.next (mode : Int) : Order → Int
  | .asks asked _ => asked.getD mode
  | .freeze => modeStand

/-- The calls that carry out an order. -/
def Order.calls (mode : Int) : Order → List SdkCall
  | .asks asked v =>
    (if asked.getD mode ≠ mode then [.setMode (asked.getD mode)] else []) ++
      if asked.getD mode = modeMove then [.setVelocity v] else []
  | .freeze => [.setMode modeStand, .setVelocity .zero]

/-- The calls that carry out a list of orders, from a mode on. -/
def obey (mode : Int) : List Order → List SdkCall
  | [] => []
  | order :: orders => order.calls mode ++ obey (order.next mode) orders

/-- What a frame asks for. -/
def JoyData.order (msg : JoyData) : Order := .asks (resolved msg) (clampedAxes msg)

/-! ## The bridge obeys -/

/-- The order of a valid sample. -/
def Event.order? : Event → Option Order
  | .sample s _ => if s.valid then some s.data.order else none
  | .check _ => none

section Bridge

variable {start : Int} {seen : List Event} {b : Loop}

/-- The history says whether a check has been late. -/
instance (start : Int) (seen : List Event) : Decidable (Alarmed start seen) :=
  decidable_of_iff _ (Loop.run_remembers start seen).flag

/-- The order that a unit gives after the units before it. -/
def orderAfter (start : Int) (seen : List Event) : Event → Option Order
  | .sample s now => (Event.sample s now).order?
  | .check now =>
    if watchdogMs < now - lastHeard start seen ∧ ¬ Alarmed start seen then some .freeze else none

/-- The orders of a run, after the units before it. -/
def orders (start : Int) (seen : List Event) : List Event → List Order
  | [] => []
  | e :: es => (orderAfter start seen e).toList ++ orders start (seen ++ [e]) es

/-- A unit carries out its order, and does nothing where it gives none. -/
theorem event_obeys (h : b.Remembers start seen) (e : Event) :
    (b.event e).calls = b.calls ++ obey b.lastMode (orderAfter start seen e).toList ∧
      (b.event e).lastMode = ((orderAfter start seen e).map (Order.next b.lastMode)).getD
        b.lastMode := by
  cases e with
  | sample s now =>
    cases hv : s.valid with
    | false =>
      have hnone : orderAfter start seen (.sample s now) = none := by
        rw [orderAfter, Event.order?, hv, if_neg Bool.false_ne_true]
      rw [hnone, Loop.event, Loop.processSample_invalid now hv]
      exact ⟨(List.append_nil _).symm, rfl⟩
    | true =>
      have hsome : orderAfter start seen (.sample s now) = some s.data.order := by
        rw [orderAfter, Event.order?, hv, if_pos rfl]
      rw [hsome, Loop.event, Loop.processSample_calls now hv, Loop.processSample_lastMode now hv,
        requestedMode_eq_resolved]
      refine ⟨?_, rfl⟩
      rw [Option.toList_some, obey, obey, List.append_nil]
      rfl
  | check now =>
    have hfires : b.fires now = true ↔
        watchdogMs < now - lastHeard start seen ∧ ¬ Alarmed start seen := by
      rw [Loop.fires_iff, h.reading, ← h.flag, Bool.not_eq_true]
    rw [Loop.event, orderAfter]
    cases hf : b.fires now with
    | false =>
      rw [if_neg (fun hlate => Bool.false_ne_true (hf.symm.trans (hfires.mpr hlate))),
        Loop.watchdogCheck_quiet hf]
      exact ⟨(List.append_nil _).symm, rfl⟩
    | true =>
      rw [if_pos (hfires.mp hf), Loop.watchdogCheck_fires hf]
      exact ⟨rfl, rfl⟩

/-- A run carries out its orders. -/
theorem run_obeys (h : b.Remembers start seen) (es : List Event) :
    (b.run es).calls = b.calls ++ obey b.lastMode (orders start seen es) := by
  induction es generalizing b seen with
  | nil => exact (List.append_nil _).symm
  | cons e es ih =>
    obtain ⟨hcalls, hmode⟩ := event_obeys h e
    have hrest := ih (Loop.event_remembers h e)
    rw [Loop.run, List.foldl_cons, ← Loop.run, hrest, hcalls, hmode, List.append_assoc, orders]
    cases orderAfter start seen e with
    | none => rfl
    | some order => rw [Option.toList_some, obey, obey, List.append_nil]; rfl

/-- Where no check is late, the orders are those of the valid samples. -/
theorem orders_of_timely (seen es : List Event)
    (h : ∀ pre now post, es = pre ++ .check now :: post →
      now - lastHeard start (seen ++ pre) ≤ watchdogMs) :
    orders start seen es = es.filterMap Event.order? := by
  induction es generalizing seen with
  | nil => rfl
  | cons e es ih =>
    have hhere : orderAfter start seen e = e.order? := by
      cases e with
      | sample s now => rfl
      | check now =>
        have htimely := h [] now es rfl
        rw [List.append_nil] at htimely
        rw [orderAfter, if_neg fun hlate => absurd hlate.1 (not_lt.mpr htimely)]
        rfl
    have hrest := ih (seen ++ [e]) fun pre now post hsplit => by
      rw [List.append_assoc]
      exact h (e :: pre) now post (by rw [hsplit]; rfl)
    rw [orders, hhere, hrest, List.filterMap_cons]
    cases e.order? <;> rfl

end Bridge

/-- **The bridge obeys.** In every run of the loop, over arbitrary samples and clock readings, the
calls after the first are those of the orders: what each valid frame asks for, and to freeze at the
first late check of each silence. Where no check is late, the frames alone decide. -/
theorem bridge_obeys (start : Int) (es : List Event) :
    ((Loop.boot start).run es).calls = .setMode modeStand :: obey modeStand (orders start [] es) ∧
      ((∀ pre now post, es = pre ++ .check now :: post →
          now - lastHeard start pre ≤ watchdogMs) →
        ((Loop.boot start).run es).calls =
          .setMode modeStand :: obey modeStand (es.filterMap Event.order?)) := by
  have hall := run_obeys (Loop.run_remembers start []) es
  refine ⟨hall, fun htimely => ?_⟩
  rw [← orders_of_timely [] es htimely]
  exact hall

/-! ## The noise -/

/-- A frame without its noise. -/
def JoyData.noiseless (msg : JoyData) : JoyData :=
  { msg with axes := msg.axes.setIfInBounds 5 (F32.ofRat 0) }

/-- The link without the noise on its topic. -/
def Link.noiseless (l : Link) : Link :=
  { l with sent := l.sent.map fun f => (f.1, f.2.noiseless) }

/-- The system without noise. -/
def System.noiseless (s : System) : System := { s with link := s.link.noiseless }

def LinkAction.noiseless : LinkAction → LinkAction
  | .publish snapshot _ => .publish snapshot 0
  | a => a

def SystemAction.noiseless : SystemAction → SystemAction
  | .link a => .link a.noiseless
  | a => a

section Noise

/-- The bridge does not read the last axis. -/
theorem order_noiseless (msg : JoyData) : msg.noiseless.order = msg.order := by
  have hread : ∀ i (hi : i < 6), i ≠ 5 → msg.noiseless.axes[i] = msg.axes[i] := fun i hi hne =>
    Vector.getElem_setIfInBounds_ne hi (Ne.symm hne)
  have hvx : msg.noiseless.rawVx = msg.rawVx := hread 1 (by decide) (by decide)
  have hvy : msg.noiseless.rawVy = msg.rawVy := hread 0 (by decide) (by decide)
  have hwz : msg.noiseless.rawWz = msg.rawWz := hread 3 (by decide) (by decide)
  have hclamped : clampedAxes msg.noiseless = clampedAxes msg := by
    rw [clampedAxes, clampedAxes, hvx, hvy, hwz]
  rw [JoyData.order, JoyData.order, hclamped]
  rfl

/-- Frames that ask for the same are the same to the bridge. -/
theorem processSample_congr {msg msg' : JoyData} (h : msg.order = msg'.order) (b : Loop)
    (now : Int) : b.processSample ⟨true, msg⟩ now = b.processSample ⟨true, msg'⟩ now := by
  obtain ⟨hasked, hclamped⟩ := Order.asks.inj h
  rw [Loop.processSample_valid now rfl, Loop.processSample_valid now rfl,
    requestedMode_eq_resolved, requestedMode_eq_resolved, hasked, hclamped]

/-- The noise is set last, whatever the state. -/
theorem publish_noiseless (p : DDSPublisher) (state : StateDict) (noise : ℚ) :
    p.publishMovement state 0 = ((p.publishMovement state noise).1,
      (p.publishMovement state noise).2.noiseless) := by
  have haxes : axesOf state 0 = (axesOf state noise).setIfInBounds 5 (F32.ofRat 0) := by
    ext1 j hj
    simp only [axesOf, Vector.getElem_setIfInBounds, Vector.getElem_set]
    split <;> rfl
  unfold DDSPublisher.publishMovement
  simp only [haxes]
  split <;> rfl

/-- A step of the link without noise. -/
theorem Link.step_noiseless (l : Link) (a : LinkAction) :
    l.noiseless.step a.noiseless = (l.step a).map Link.noiseless := by
  cases a with
  | publish snapshot noise =>
    simp only [LinkAction.noiseless, step, Link.noiseless, Option.map_some,
      publish_noiseless _ snapshot noise, List.map_append, List.map_cons, List.map_nil]
  | deliver k now =>
    simp only [LinkAction.noiseless, step, Link.noiseless, List.getElem?_map, Option.map_map]
    cases l.sent[k]? with
    | none => rfl
    | some f =>
      simp only [Option.map_some, Function.comp_apply, Link.noiseless,
        processSample_congr (order_noiseless f.2) l.bridge now]
  | boot now => rfl
  | invalid data now => rfl
  | check now => rfl

/-- A step of the system without noise. -/
theorem System.step_noiseless (libs : Libs) (s : System) (a : SystemAction) :
    s.noiseless.step libs a.noiseless = (s.step libs a).map System.noiseless := by
  cases a with
  | brain a =>
    show (s.brain.scheduled libs a).map _ = _
    rw [step, Option.map_map]
    rfl
  | copy =>
    show (if s.stateSnapshot = none then _ else none) =
      (if s.stateSnapshot = none then _ else none).map System.noiseless
    by_cases hnone : s.stateSnapshot = none
    · rw [if_pos hnone, if_pos hnone, Option.map_some]
      rfl
    · rw [if_neg hnone, if_neg hnone, Option.map_none]
  | link a =>
    have hlink := s.link.step_noiseless a
    cases a with
    | publish snapshot noise =>
      by_cases hcopy : s.stateSnapshot = some snapshot
      · show (if s.stateSnapshot = some snapshot then _ else none) =
          (if s.stateSnapshot = some snapshot then _ else none).map System.noiseless
        rw [if_pos hcopy, if_pos hcopy, Option.map_map]
        exact (congrArg (Option.map _) hlink).trans (Option.map_map ..)
      · show (if s.stateSnapshot = some snapshot then _ else none) =
          (if s.stateSnapshot = some snapshot then _ else none).map System.noiseless
        rw [if_neg hcopy, if_neg hcopy, Option.map_none]
    | deliver k now =>
      have hleft : s.noiseless.step libs (.link (.deliver k now)) =
        (s.link.noiseless.step (.deliver k now)).map fun link => { s.noiseless with link } := rfl
      have hright : s.step libs (.link (.deliver k now)) =
        (s.link.step (.deliver k now)).map fun link => { s with link } := rfl
      rw [hright, Option.map_map]
      exact hleft.trans ((congrArg (Option.map _) hlink).trans (Option.map_map ..))
    | boot now | invalid data now | check now => rfl

end Noise

/-- **The noise is silent.** Two runs of the whole system that differ in the noise of their frames
only, whatever it is, end with the same brain, the same copy, the same publisher, the same states
on the topic and the same bridge: the robot was told the same. -/
theorem noise_is_silent (libs : Libs) (start : Int) (as as' : List SystemAction) (s : System)
    (hrun : Trace.run (System.step libs) (System.init start) as = some s)
    (hsame : as'.map SystemAction.noiseless = as.map SystemAction.noiseless) :
    ∃ s', Trace.run (System.step libs) (System.init start) as' = some s' ∧
      s'.brain = s.brain ∧ s'.stateSnapshot = s.stateSnapshot ∧
        s'.link.publisher = s.link.publisher ∧ s'.link.bridge = s.link.bridge ∧
          s'.link.sent.map Prod.fst = s.link.sent.map Prod.fst := by
  have himage : ∀ bs, Trace.run (System.step libs) (System.init start) (bs.map .noiseless) =
      (Trace.run (System.step libs) (System.init start) bs).map System.noiseless :=
    Trace.run_map (fun s a => s.step_noiseless libs a) (System.init start)
  have hnoiseless := (himage as').symm.trans ((congrArg _ hsame).trans (himage as))
  rw [hrun, Option.map_some] at hnoiseless
  obtain ⟨s', hrun', hs'⟩ := Option.map_eq_some_iff.mp hnoiseless
  obtain ⟨hbrain, hcopy, hlink⟩ := System.mk.inj hs'
  obtain ⟨hpublisher, hsent, hbridge⟩ := Link.mk.inj hlink
  have hstates := congrArg (List.map Prod.fst) hsent
  simp only [List.map_map, Function.comp_def] at hstates
  exact ⟨s', hrun', hbrain, hcopy, hpublisher, hbridge, hstates⟩

/-- The first state is copied, published with some noise and delivered. -/
def sleepTold (noise : ℚ) : List SystemAction :=
  [.copy, .link (.publish initialState noise), .link (.deliver 0 20000000)]

/-- The two ends of the noise make two frames and one bridge. -/
theorem sleep_told_twice :
    (Trace.run (System.step plainLibs) (System.init 0) (sleepTold (-1 / 10000))).map
        (fun s => s.link.sent) ≠
      (Trace.run (System.step plainLibs) (System.init 0) (sleepTold (1 / 10000))).map
        (fun s => s.link.sent) ∧
      ∃ s s', Trace.run (System.step plainLibs) (System.init 0) (sleepTold (1 / 10000)) = some s ∧
        Trace.run (System.step plainLibs) (System.init 0) (sleepTold (-1 / 10000)) = some s' ∧
          s'.link.bridge = s.link.bridge := by
  obtain ⟨s, hrun⟩ := Option.isSome_iff_exists.mp
    (show (Trace.run (System.step plainLibs) (System.init 0)
      (sleepTold (1 / 10000))).isSome = true by decide +kernel)
  obtain ⟨s', hrun', -, -, -, hbridge, -⟩ :=
    noise_is_silent plainLibs 0 (sleepTold (1 / 10000)) (sleepTold (-1 / 10000)) s hrun rfl
  exact ⟨by decide +kernel, s, s', hrun, hrun', hbridge⟩

end SvanVoice
