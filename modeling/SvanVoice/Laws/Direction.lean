import SvanVoice.Laws.Publisher
import Mathlib.Data.Sign.Basic

/-!
# The direction of a walk

The prompt fixes the signs of the three velocities: forward, left and counter-clockwise are
positive. The publisher turns each sign over, for a simulator that counts the other way, and the
bridge hands the axes to the legs as they come. So what the legs are told is the command turned
around, and `direction_kept_iff` says that the directions agree exactly where there is none: where
each velocity rounds to zero, which is to be at most 1/200 in size. The double `0.005` lies above
that, and is turned over.
-/

set_option autoImplicit false

namespace SvanVoice

/-- The sign of a float by its comparisons with zero. -/
def F32.sign (v : F32) : SignType :=
  if F32.ofRat 0 < v then 1 else if v < F32.ofRat 0 then -1 else 0

/-- Each component has the sign of the velocity the state commands, rounded to two decimals. -/
def SameDirection (v : Velocity) (state : StateDict) : Prop :=
  v.vx.sign = SignType.sign (velocityOf state.xVelocity) ∧
    v.vy.sign = SignType.sign (velocityOf state.yVelocity) ∧
      v.wz.sign = SignType.sign (velocityOf state.yawVelocity)

instance (v : Velocity) (state : StateDict) : Decidable (SameDirection v state) :=
  inferInstanceAs (Decidable (_ ∧ _ ∧ _))

/-! ## Signs -/

theorem ofRat_lt_ofRat {x y : ℚ} : F32.ofRat x < F32.ofRat y ↔ x < y := by
  rw [F32.ofRat, F32.ofRat, WithNaN.num_lt_num, WithBot.coe_lt_coe, WithTop.coe_lt_coe]

theorem sign_ofRat (q : ℚ) : (F32.ofRat q).sign = SignType.sign q := by
  simp only [F32.sign, ofRat_lt_ofRat, sign_apply]

/-- Clipping to bounds on both sides of zero keeps the sign. -/
theorem sign_clip (v : ℚ) {bound : ℚ} (h : 0 < bound) :
    SignType.sign (clip v (-bound) bound) = SignType.sign v := by
  rcases lt_trichotomy v 0 with hv | rfl | hv
  · rw [sign_neg hv, sign_neg]
    exact (min_le_left _ _).trans_lt (max_lt hv (neg_lt_zero.mpr h))
  · rw [clip, max_eq_left (neg_nonpos.mpr h.le), min_eq_left h.le]
  · rw [sign_pos hv, sign_pos]
    exact lt_min (hv.trans_le (le_max_left _ _)) h

theorem sign_neg_eq_self_iff {s : SignType} : -s = s ↔ s = 0 := by
  cases s <;> decide

/-- A turned velocity has the commanded sign exactly if the commanded one rounds to zero. -/
theorem sign_turned_iff (v : Option ℚ) {bound : ℚ} (h : 0 < bound) :
    (F32.ofRat (-clip (velocityOf v) (-bound) bound)).sign = SignType.sign (velocityOf v) ↔
      |v.getD 0| ≤ 1 / 200 := by
  have hpow : |v.getD 0 * 10 ^ 2| = |v.getD 0| * 100 := by
    rw [abs_mul]
    norm_num
  rw [sign_ofRat, Left.sign_neg, sign_clip _ h, sign_neg_eq_self_iff, sign_eq_zero_iff,
    velocityOf, Rounding.roundTo_eq_zero_iff, hpow]
  constructor <;> intro hle <;> linarith

/-! ## The law -/

/-- **When the legs walk the commanded way.** A frame of a state in mode 4, decoded in MOVE, tells
the legs a velocity; its directions are the commanded ones exactly if each commanded velocity
rounds to zero, that is, has an exact value of at most 1/200 in size. -/
theorem direction_kept_iff (p : DDSPublisher) (state : StateDict) (noise : ℚ) (b : Loop) (now : Int)
    (hmode : state.mode = some 4)
    (hmove : requestedMode b.lastMode (p.publishMovement state noise).2 = modeMove) :
    ∃ v, velocitySet
        (b.processSample ⟨true, (p.publishMovement state noise).2⟩ now).calls = some v ∧
      (SameDirection v state ↔
        |state.xVelocity.getD 0| ≤ 1 / 200 ∧ |state.yVelocity.getD 0| ≤ 1 / 200 ∧
          |state.yawVelocity.getD 0| ≤ 1 / 200) := by
  have hmodeOr : state.modeOr = 4 := by
    rw [StateDict.modeOr, hmode]
    rfl
  refine ⟨state.turned, ?_, ?_⟩
  · rw [Loop.processSample_velocitySet now rfl, if_pos hmove, clampedAxes_publish, if_pos hmodeOr]
  · have hx := sign_turned_iff state.xVelocity maxVx_pos
    have hy := sign_turned_iff state.yVelocity maxVy_pos
    have hw := sign_turned_iff state.yawVelocity maxWz_pos
    exact and_congr hx (and_congr hy hw)

/-- A forward command on a standing bridge. -/
theorem direction_of_forward :
    ∃ v, velocitySet ((Loop.boot 0).processSample
        ⟨true, (({} : DDSPublisher).publishMovement forward 0).2⟩ 20000000).calls = some v ∧
      (SameDirection v forward ↔
        |forward.xVelocity.getD 0| ≤ 1 / 200 ∧ |forward.yVelocity.getD 0| ≤ 1 / 200 ∧
          |forward.yawVelocity.getD 0| ≤ 1 / 200) :=
  direction_kept_iff {} forward 0 (.boot 0) 20000000 rfl (by decide +kernel)

/-- Told to walk forward, the robot is told to walk backward. -/
theorem forward_walks_backward :
    requestedMode (Loop.boot 0).lastMode (firstFrame forward) = modeMove ∧
      velocitySet ((Loop.boot 0).processSample ⟨true, firstFrame forward⟩ 20000000).calls =
        some ⟨F32.ofRat (-1 / 5), F32.ofRat 0, F32.ofRat 0⟩ ∧
      ¬ SameDirection ⟨F32.ofRat (-1 / 5), F32.ofRat 0, F32.ofRat 0⟩ forward := by
  decide +kernel

end SvanVoice
