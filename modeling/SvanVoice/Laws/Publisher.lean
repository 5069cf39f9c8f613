import SvanVoice.Laws.Bridge
import SvanVoice.Library.EdgePulse

/-!
# What one frame says to the bridge

A frame speaks to the bridge twice. Its buttons are an edge pulse of the state's mode: the
publisher is a sender of `EdgePulse` whose pulse is `holdFrames` long (`publish_sender`), and on the
three known modes the bridge's `requested_mode` is the receiver (`requestedMode_pulse`). Its axes
are the state's velocities, turned over, and zero outside mode 4; the bridge's clamp leaves them as
they are, since the publisher clipped them to the same bounds (`clampedAxes_publish`).
-/

set_option autoImplicit false

namespace SvanVoice

/-! ## The buttons -/

/-- The publisher as the sender of an edge pulse. -/
def DDSPublisher.sender (p : DDSPublisher) : EdgePulse.Sender Int :=
  ⟨p.lastModeOr, p.buttonHoldTicks⟩

section Frame

variable (p : DDSPublisher) (state : StateDict) (noise : ℚ)

theorem track_lastModeOr (mode : Int) : (p.track mode).lastModeOr = mode := by
  unfold DDSPublisher.track
  split
  · rfl
  · next h => exact (not_not.mp h).symm

theorem track_buttonHoldTicks (mode : Int) :
    (p.track mode).buttonHoldTicks = p.sender.owed holdFrames mode := by
  unfold DDSPublisher.track
  split
  · next h => exact (EdgePulse.owed_change holdFrames h).symm
  · next h => exact (EdgePulse.owed_same holdFrames (s := p.sender) (not_not.mp h)).symm

/-- Publishing one state is sending its mode. -/
theorem publish_sender : (p.publishMovement state noise).1.sender =
    (p.sender.send holdFrames state.modeOr).1 := by
  have hmode := track_lastModeOr p state.modeOr
  rw [EdgePulse.Sender.send, ← track_buttonHoldTicks, DDSPublisher.publishMovement]
  split
  · exact congrArg (fun m => EdgePulse.Sender.mk m _) hmode
  · next h =>
    have hzero : (p.track state.modeOr).buttonHoldTicks = 0 := Nat.eq_zero_of_not_pos h
    rw [DDSPublisher.sender, hmode, hzero]

theorem publish_axes : (p.publishMovement state noise).2.axes = axesOf state noise := by
  rw [DDSPublisher.publishMovement]
  split <;> rfl

/-- The button of the mode while presses are owed, and none after. -/
theorem publish_buttons : (p.publishMovement state noise).2.buttons =
    if (p.sender.send holdFrames state.modeOr).2 then pressed state.modeOr
    else .replicate 12 0 := by
  rw [EdgePulse.Sender.send, ← track_buttonHoldTicks, DDSPublisher.publishMovement]
  by_cases h : 0 < (p.track state.modeOr).buttonHoldTicks
  · rw [if_pos h, if_pos (decide_eq_true h)]
  · rw [if_neg h, if_neg (by rw [decide_eq_false h]; exact Bool.false_ne_true)]

/-- The first frame of a changed mode has the mode's button. -/
theorem publish_buttons_change (h : state.modeOr ≠ p.lastModeOr) :
    (p.publishMovement state noise).2.buttons = pressed state.modeOr := by
  have hsent : (p.sender.send holdFrames state.modeOr).2 = true := by
    rw [EdgePulse.Sender.send, EdgePulse.owed_change holdFrames (s := p.sender) h]
    rfl
  rw [publish_buttons, hsent, if_pos rfl]

end Frame

/-- A known mode is not the one a fresh publisher starts from. -/
theorem ne_fresh_of_known {m : Int} (h : Known m) : m ≠ ({} : DDSPublisher).sender.last := by
  rcases h with rfl | rfl | rfl <;> decide

section Requested

variable {cur mode : Int} {msg : JoyData}

/-- A message with no button leaves the mode. -/
theorem requestedMode_silent (h : msg.buttons = .replicate 12 0) : requestedMode cur msg = cur := by
  rw [requestedMode, JoyData.btnSleep, JoyData.btnStand, JoyData.btnMove, h]
  rfl

/-- The button of a known mode asks for that mode. -/
theorem requestedMode_pressed (h : msg.buttons = pressed mode) (hmode : Known mode) :
    requestedMode cur msg = mode := by
  rw [requestedMode, JoyData.btnSleep, JoyData.btnStand, JoyData.btnMove, h]
  rcases hmode with rfl | rfl | rfl <;> rfl

theorem pressed_ne_silent (hmode : Known mode) : pressed mode ≠ .replicate 12 0 := by
  rcases hmode with rfl | rfl | rfl <;> decide

end Requested

/-- A published frame as a frame of the pulse: the mode of its state, and whether it is pressed. -/
def pulse (f : StateDict × JoyData) : Int × Bool :=
  (f.1.modeOr, decide (f.2.buttons ≠ .replicate 12 0))

/-- The frames of several states, each state with its noise and each frame with its state. -/
def DDSPublisher.publishAll : DDSPublisher → List (StateDict × ℚ) → List (StateDict × JoyData)
  | _, [] => []
  | p, s :: ss =>
    (s.1, (p.publishMovement s.1 s.2).2) :: publishAll (p.publishMovement s.1 s.2).1 ss

section Pulse

variable {p : DDSPublisher}

theorem pulse_publish {state : StateDict} (noise : ℚ) (hmode : Known state.modeOr) :
    pulse (state, (p.publishMovement state noise).2) =
      (state.modeOr, (p.sender.send holdFrames state.modeOr).2) := by
  have hbuttons := publish_buttons p state noise
  refine Prod.ext rfl ?_
  cases hsent : (p.sender.send holdFrames state.modeOr).2 with
  | true =>
    rw [hsent, if_pos rfl] at hbuttons
    exact decide_eq_true (hbuttons ▸ pressed_ne_silent hmode)
  | false =>
    rw [hsent, if_neg Bool.false_ne_true] at hbuttons
    exact decide_eq_false (not_not.mpr hbuttons)

/-- Publishing several states is sending their modes. -/
theorem publishAll_pulse {ss : List (StateDict × ℚ)} (hmodes : ∀ s ∈ ss, Known s.1.modeOr) :
    (p.publishAll ss).map pulse =
      EdgePulse.frames holdFrames p.sender (ss.map fun s => s.1.modeOr) := by
  induction ss generalizing p with
  | nil => rfl
  | cons s ss ih =>
    have hs := pulse_publish (p := p) s.2 (hmodes s List.mem_cons_self)
    have hss := ih (p := (p.publishMovement s.1 s.2).1)
      fun s' h => hmodes s' (List.mem_cons_of_mem s h)
    rw [DDSPublisher.publishAll, List.map_cons, List.map_cons, EdgePulse.frames, hs, hss,
      publish_sender]

/-- Frames stand with the states they were published from. -/
theorem publishAll_states (p : DDSPublisher) (ss : List (StateDict × ℚ)) :
    (p.publishAll ss).map Prod.fst = ss.map Prod.fst := by
  induction ss generalizing p with
  | nil => rfl
  | cons s ss ih => rw [DDSPublisher.publishAll, List.map_cons, List.map_cons, ih]

theorem publishAll_length (p : DDSPublisher) (ss : List (StateDict × ℚ)) :
    (p.publishAll ss).length = ss.length := by
  rw [← List.length_map Prod.fst, publishAll_states, List.length_map]

/-- The mode of the state a frame was published from. -/
theorem modeOr_of_publishAll {ss : List (StateDict × ℚ)} {k : Nat} {f : StateDict × JoyData}
    (h : (p.publishAll ss)[k]? = some f) :
    (ss.map fun s => s.1.modeOr)[k]? = some f.1.modeOr := by
  have hstate := congrArg (fun ts => ts[k]?) (publishAll_states p ss)
  simp only [List.getElem?_map, h, Option.map_some] at hstate
  have hcomp := congrArg (Option.map StateDict.modeOr) hstate
  rw [Option.map_some, Option.map_map] at hcomp
  rw [List.getElem?_map, hcomp]
  rfl

/-- Every published frame is the frame of some publisher for its state. -/
theorem exists_publisher {ss : List (StateDict × ℚ)} {f : StateDict × JoyData}
    (h : f ∈ p.publishAll ss) :
    ∃ (q : DDSPublisher) (noise : ℚ), f.2 = (q.publishMovement f.1 noise).2 := by
  induction ss generalizing p with
  | nil => cases h
  | cons s ss ih =>
    rcases List.mem_cons.mp h with rfl | hrest
    · exact ⟨p, s.2, rfl⟩
    · exact ih hrest

/-- **The bridge hears the pulse**: on a frame of a known mode, `requested_mode` is the receiver's
latch. -/
theorem requestedMode_pulse {ss : List (StateDict × ℚ)} {f : StateDict × JoyData}
    (hf : f ∈ p.publishAll ss) (hmode : Known f.1.modeOr) (cur : Int) :
    requestedMode cur f.2 = EdgePulse.hear cur (pulse f) := by
  obtain ⟨q, noise, hq⟩ := exists_publisher hf
  have hpulse : pulse f = (f.1.modeOr, (q.sender.send holdFrames f.1.modeOr).2) := by
    rw [← pulse_publish noise hmode, ← hq]
  have hbuttons := publish_buttons q f.1 noise
  rw [hpulse, EdgePulse.hear, hq]
  cases hsent : (q.sender.send holdFrames f.1.modeOr).2 with
  | true =>
    rw [hsent, if_pos rfl] at hbuttons
    rw [requestedMode_pressed hbuttons hmode, if_pos rfl]
  | false =>
    rw [hsent, if_neg Bool.false_ne_true] at hbuttons
    rw [requestedMode_silent hbuttons, if_neg Bool.false_ne_true]

end Pulse

/-! ## The axes -/

/-- The bridge's clamp leaves a rational between its bounds. -/
theorem clamp_of_mem {q lo hi : ℚ} (hlo : lo ≤ q) (hhi : q ≤ hi) :
    clamp (F32.ofRat q) (F32.ofRat lo) (F32.ofRat hi) = F32.ofRat q :=
  WithNaN.confine_of_mem (WithBot.coe_le_coe.mpr (WithTop.coe_le_coe.mpr hlo))
    (WithBot.coe_le_coe.mpr (WithTop.coe_le_coe.mpr hhi))

/-- The bridge's clamp leaves what the publisher clipped to the same bound. -/
theorem clamp_neg_clip (v : ℚ) {bound : ℚ} (h : 0 ≤ bound) :
    clamp (F32.ofRat (-clip v (-bound) bound)) (F32.ofRat (-bound)) (F32.ofRat bound) =
      F32.ofRat (-clip v (-bound) bound) := by
  have hlo : -bound ≤ clip v (-bound) bound := le_min (le_max_right _ _) (neg_le_self h)
  have hhi : clip v (-bound) bound ≤ bound := min_le_right _ _
  exact clamp_of_mem (neg_le_neg hhi) (neg_le.mp hlo)

/-- The velocity a state asks for, as its frame carries it. -/
def StateDict.turned (state : StateDict) : Velocity where
  vx := F32.ofRat (-clip (velocityOf state.xVelocity) (-maxVx) maxVx)
  vy := F32.ofRat (-clip (velocityOf state.yVelocity) (-maxVy) maxVy)
  wz := F32.ofRat (-clip (velocityOf state.yawVelocity) (-maxWz) maxWz)

/-- The three axes of a published frame. -/
theorem raw_publish (p : DDSPublisher) (state : StateDict) (noise : ℚ) :
    (p.publishMovement state noise).2.rawVx =
        (if state.modeOr = 4 then state.turned else .zero).vx ∧
      (p.publishMovement state noise).2.rawVy =
        (if state.modeOr = 4 then state.turned else .zero).vy ∧
      (p.publishMovement state noise).2.rawWz =
        (if state.modeOr = 4 then state.turned else .zero).wz := by
  simp only [JoyData.rawVx, JoyData.rawVy, JoyData.rawWz, publish_axes]
  by_cases h : state.modeOr = 4
  · simp [axesOf, h, StateDict.turned, maxVx, maxVy, maxWz, neg_div]
  · simp [axesOf, h, Velocity.zero]

/-- Three clamped axes make the clamped velocity. -/
theorem clampedAxes_eq {msg : JoyData} {v : Velocity}
    (hvx : clamp msg.rawVx (F32.ofRat (-maxVx)) (F32.ofRat maxVx) = v.vx)
    (hvy : clamp msg.rawVy (F32.ofRat (-maxVy)) (F32.ofRat maxVy) = v.vy)
    (hwz : clamp msg.rawWz (F32.ofRat (-maxWz)) (F32.ofRat maxWz) = v.wz) :
    clampedAxes msg = v := by
  rw [clampedAxes, hvx, hvy, hwz]

/-- The bridge's clamp leaves zero. -/
theorem clamp_zero {bound : ℚ} (h : 0 ≤ bound) :
    clamp (F32.ofRat 0) (F32.ofRat (-bound)) (F32.ofRat bound) = F32.ofRat 0 :=
  clamp_of_mem (neg_nonpos.mpr h) h

/-- **What a frame asks the legs for**: the state's velocities, turned over and clipped, in mode 4,
and zero in every other mode. -/
theorem clampedAxes_publish (p : DDSPublisher) (state : StateDict) (noise : ℚ) :
    clampedAxes (p.publishMovement state noise).2 =
      if state.modeOr = 4 then state.turned else .zero := by
  obtain ⟨hvx, hvy, hwz⟩ := raw_publish p state noise
  have hx := maxVx_pos.le
  have hy := maxVy_pos.le
  have hw := maxWz_pos.le
  by_cases h : state.modeOr = 4
  · rw [if_pos h] at hvx hvy hwz ⊢
    refine clampedAxes_eq ?_ ?_ ?_
    · simp only [hvx, StateDict.turned, clamp_neg_clip _ hx]
    · simp only [hvy, StateDict.turned, clamp_neg_clip _ hy]
    · simp only [hwz, StateDict.turned, clamp_neg_clip _ hw]
  · rw [if_neg h] at hvx hvy hwz ⊢
    refine clampedAxes_eq ?_ ?_ ?_
    · simp only [hvx, Velocity.zero, clamp_zero hx]
    · simp only [hvy, Velocity.zero, clamp_zero hy]
    · simp only [hwz, Velocity.zero, clamp_zero hw]

end SvanVoice
