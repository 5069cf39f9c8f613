import SvanVoice.Laws.Brain
import SvanVoice.Laws.Publisher

/-!
# Three limits on one velocity

A velocity is limited three times on its way: by the validator, by the publisher's clip and by the
bridge's clamp. The limits are the same numbers, but the publisher rounds before it clips, and a
rounding could cross a limit. It does not, since the limits have two decimals themselves
(`Rounding.abs_roundTo_le`). So the clip and the clamp change nothing of a committed walk, and what
the legs are told is the committed velocity, rounded and turned over.

`limits_agree` says so of every walk, and that the axes do not mix: two walks with one forward
velocity pass one forward velocity, whatever else differs between them.
-/

set_option autoImplicit false

namespace SvanVoice

/-- A walk on its way to the legs: a state in mode 4 that a reply commits, the publisher that frames
it, and a bridge that is in MOVE or enters it with that frame. -/
structure Walk (libs : Libs) where
  raw : String
  state : StateDict
  publisher : DDSPublisher
  noise : ℚ
  bridge : Loop
  now : Int
  committed : decodeReply libs raw = .ok state
  mode : state.mode = some 4
  heard : requestedMode bridge.lastMode (publisher.publishMovement state noise).2 = modeMove

namespace Walk

variable {libs : Libs} (w : Walk libs)

/-- The frame of the walk. -/
def frame : JoyData := (w.publisher.publishMovement w.state w.noise).2

/-- The velocities that the bridge passes on for the frame. -/
def Passes (v : Velocity) : Prop := .setVelocity v ∈ w.bridge.made (.sample ⟨true, w.frame⟩ w.now)

end Walk

/-! ## The clip -/

theorem clip_of_abs_le {v bound : ℚ} (h : |v| ≤ bound) : clip v (-bound) bound = v := by
  obtain ⟨hlo, hhi⟩ := abs_le.mp h
  rw [clip, max_eq_left hlo, min_eq_left hhi]

/-- Rounding to two decimals does not carry a velocity over a limit of two decimals. -/
theorem clip_roundTo {v bound : ℚ} {n : ℤ} (hbound : bound = n / 10 ^ 2) (hlo : -bound ≤ v)
    (hhi : v ≤ bound) :
    clip (Rounding.roundTo 2 v) (-bound) bound = Rounding.roundTo 2 v := by
  subst hbound
  exact clip_of_abs_le (Rounding.abs_roundTo_le (abs_le.mpr ⟨hlo, hhi⟩))

section Limits

variable {libs : Libs} (w : Walk libs)

theorem Walk.modeOr : w.state.modeOr = 4 := by
  rw [StateDict.modeOr, w.mode]
  rfl

/-- The three velocities of a committed state, and that the clip leaves each of them. -/
theorem Walk.clips : ∃ x y yaw : ℚ,
    w.state.xVelocity = some x ∧ w.state.yVelocity = some y ∧ w.state.yawVelocity = some yaw ∧
      clip (Rounding.roundTo 2 x) (-maxVx) maxVx = Rounding.roundTo 2 x ∧
        clip (Rounding.roundTo 2 y) (-maxVy) maxVy = Rounding.roundTo 2 y ∧
          clip (Rounding.roundTo 2 yaw) (-maxWz) maxWz = Rounding.roundTo 2 yaw := by
  obtain ⟨fields, ⟨m, ⟨x, hx⟩, ⟨y, hy⟩, ⟨yaw, hyaw⟩, speed⟩, -, -, hstate⟩ :=
    decodeReply_ok w.committed
  rw [neg_div] at hx hy hyaw
  refine ⟨x, y, yaw, by rw [hstate]; rfl, by rw [hstate]; rfl, by rw [hstate]; rfl, ?_, ?_, ?_⟩
  · exact clip_roundTo (n := 50) (by norm_num [maxVx]) hx.1 hx.2
  · exact clip_roundTo (n := 40) (by norm_num [maxVy]) hy.1 hy.2
  · exact clip_roundTo (n := 80) (by norm_num [maxWz]) hyaw.1 hyaw.2

/-- The bridge passes exactly the turned velocities of the state. -/
theorem Walk.passes_iff (v : Velocity) : w.Passes v ↔ v = w.state.turned := by
  have hclamped : clampedAxes w.frame = w.state.turned := by
    rw [Walk.frame, clampedAxes_publish, if_pos w.modeOr]
  rw [Walk.Passes, Loop.setVelocity_mem_made, ← hclamped]
  constructor
  · rintro (⟨s, now, hsample, -, -, rfl⟩ | ⟨now, hcheck, -⟩)
    · cases hsample
      rfl
    · cases hcheck
  · rintro rfl
    exact .inl ⟨⟨true, w.frame⟩, w.now, rfl, rfl, w.heard, rfl⟩

/-- The clamp leaves the three axes of the frame. -/
theorem Walk.clamps :
    clamp w.frame.rawVx (F32.ofRat (-maxVx)) (F32.ofRat maxVx) = w.frame.rawVx ∧
      clamp w.frame.rawVy (F32.ofRat (-maxVy)) (F32.ofRat maxVy) = w.frame.rawVy ∧
        clamp w.frame.rawWz (F32.ofRat (-maxWz)) (F32.ofRat maxWz) = w.frame.rawWz := by
  have hclamped := clampedAxes_publish w.publisher w.state w.noise
  obtain ⟨hvx, hvy, hwz⟩ := raw_publish w.publisher w.state w.noise
  rw [← hclamped] at hvx hvy hwz
  exact ⟨hvx.symm, hvy.symm, hwz.symm⟩

end Limits

/-- **The three limits agree**, and the axes never mix. The clip and the clamp change nothing of a
walk, and the one velocity passed is the committed one, rounded to two decimals and turned over,
component by component. A component passed depends on its own commanded velocity only. -/
theorem limits_agree (libs : Libs) (w : Walk libs) :
    (∃ x y yaw : ℚ,
      w.state.xVelocity = some x ∧ w.state.yVelocity = some y ∧ w.state.yawVelocity = some yaw ∧
        (clip (Rounding.roundTo 2 x) (-1 / 2) (1 / 2) = Rounding.roundTo 2 x ∧
          clip (Rounding.roundTo 2 y) (-2 / 5) (2 / 5) = Rounding.roundTo 2 y ∧
            clip (Rounding.roundTo 2 yaw) (-4 / 5) (4 / 5) = Rounding.roundTo 2 yaw) ∧
        (clamp w.frame.rawVx (F32.ofRat (-maxVx)) (F32.ofRat maxVx) = w.frame.rawVx ∧
          clamp w.frame.rawVy (F32.ofRat (-maxVy)) (F32.ofRat maxVy) = w.frame.rawVy ∧
            clamp w.frame.rawWz (F32.ofRat (-maxWz)) (F32.ofRat maxWz) = w.frame.rawWz) ∧
        ∀ v, w.Passes v ↔ v = ⟨F32.ofRat (-Rounding.roundTo 2 x), F32.ofRat (-Rounding.roundTo 2 y),
          F32.ofRat (-Rounding.roundTo 2 yaw)⟩) ∧
      ∀ (w' : Walk libs) (v v' : Velocity), w.Passes v → w'.Passes v' →
        (w.state.xVelocity = w'.state.xVelocity → v.vx = v'.vx) ∧
          (w.state.yVelocity = w'.state.yVelocity → v.vy = v'.vy) ∧
            (w.state.yawVelocity = w'.state.yawVelocity → v.wz = v'.wz) := by
  constructor
  · obtain ⟨x, y, yaw, hx, hy, hyaw, hclipx, hclipy, hclipyaw⟩ := w.clips
    refine ⟨x, y, yaw, hx, hy, hyaw, ?_, w.clamps, fun v => ?_⟩
    · simp only [maxVx, maxVy, maxWz, ← neg_div] at hclipx hclipy hclipyaw
      exact ⟨hclipx, hclipy, hclipyaw⟩
    · rw [w.passes_iff, StateDict.turned, hx, hy, hyaw]
      simp only [velocityOf, Option.getD_some, hclipx, hclipy, hclipyaw]
  · intro w' v v' hv hv'
    rw [(w.passes_iff v).mp hv, (w'.passes_iff v').mp hv']
    simp only [StateDict.turned]
    refine ⟨fun h => ?_, fun h => ?_, fun h => ?_⟩ <;> rw [h]

/-- The walk of a reply, told to a standing robot by a fresh publisher. -/
def forwardWalk : Walk plainLibs where
  raw := walkReply
  state := walkState
  publisher := {}
  noise := 0
  bridge := .boot 0
  now := 20000000
  committed := by decide +kernel
  mode := rfl
  heard := by decide +kernel

/-- It walks at a fifth of a metre a second. -/
theorem forwardWalk_passes :
    forwardWalk.Passes ⟨F32.ofRat (-(1 / 5)), F32.ofRat 0, F32.ofRat 0⟩ := by
  obtain ⟨x, y, yaw, hx, hy, hyaw, -, -, hpasses⟩ := (limits_agree plainLibs forwardWalk).1
  rw [hpasses]
  cases hx
  cases hy
  cases hyaw
  decide +kernel

end SvanVoice
