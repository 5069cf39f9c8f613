import SvanVoice.Laws.Exit

/-!
# The envelope of the bridge

The bridge is the last check before the legs, so its laws here ask nothing of the topic: any sample
may arrive, with any axes and any buttons. Two things stand between a sample and a motion. The
clamp bounds what is passed, and the mode gates whether anything is passed at all.

`bridge_gated` is the law of both. Its second half speaks of the marks of a run. A velocity that is
not zero is passed only at a valid sample, and only where the latest mark is a press of MOVE.

`axes_sound_iff` is about one sample and what becomes of an axis that is NaN. The clamp is two
comparisons, NaN loses both, and the upper bound comes out. So the axes are sound exactly where the
sample asks for no motion or has no NaN on an axis.
-/

set_option autoImplicit false

namespace SvanVoice

/-! ## The bounds -/

/-- Each component is a number of at most its limit. -/
def Velocity.Enveloped (v : Velocity) : Prop :=
  ∃ x y w : ℚ, v = ⟨F32.ofRat x, F32.ofRat y, F32.ofRat w⟩ ∧ |x| ≤ maxVx ∧ |y| ≤ maxVy ∧ |w| ≤ maxWz

theorem zero_enveloped : Velocity.zero.Enveloped :=
  ⟨0, 0, 0, rfl, abs_zero.trans_le maxVx_pos.le, abs_zero.trans_le maxVy_pos.le,
    abs_zero.trans_le maxWz_pos.le⟩

/-- A number between two rationals is a rational. -/
theorem exists_rat_of_mem {y : WithBot (WithTop ℚ)} {lo hi : ℚ}
    (hlo : ((lo : WithTop ℚ) : WithBot (WithTop ℚ)) ≤ y)
    (hhi : y ≤ ((hi : WithTop ℚ) : WithBot (WithTop ℚ))) :
    ∃ q : ℚ, y = ((q : WithTop ℚ) : WithBot (WithTop ℚ)) ∧ lo ≤ q ∧ q ≤ hi := by
  cases y with
  | bot => exact absurd (le_bot_iff.mp hlo) WithBot.coe_ne_bot
  | coe y =>
    rw [WithBot.coe_le_coe] at hlo hhi
    cases y with
    | top => exact absurd (top_le_iff.mp hhi) WithTop.coe_ne_top
    | coe q => exact ⟨q, rfl, WithTop.coe_le_coe.mp hlo, WithTop.coe_le_coe.mp hhi⟩

/-- The clamp gives a number within the limit, whatever it is given. -/
theorem exists_clamp (v : F32) {bound : ℚ} (h : 0 ≤ bound) :
    ∃ q : ℚ, clamp v (F32.ofRat (-bound)) (F32.ofRat bound) = F32.ofRat q ∧ |q| ≤ bound := by
  have hbounds : ((((-bound : ℚ) : WithTop ℚ)) : WithBot (WithTop ℚ)) ≤
      ((bound : WithTop ℚ) : WithBot (WithTop ℚ)) :=
    WithBot.coe_le_coe.mpr (WithTop.coe_le_coe.mpr (neg_le_self h))
  obtain ⟨y, hy, hlo, hhi⟩ := WithNaN.exists_confine v hbounds
  obtain ⟨q, rfl, hq⟩ := exists_rat_of_mem hlo hhi
  exact ⟨q, hy, abs_le.mpr hq⟩

/-- Whatever a message's axes are, the clamped ones are within the limits. -/
theorem clampedAxes_enveloped (msg : JoyData) : (clampedAxes msg).Enveloped := by
  obtain ⟨x, hx, hvx⟩ := exists_clamp msg.rawVx maxVx_pos.le
  obtain ⟨y, hy, hvy⟩ := exists_clamp msg.rawVy maxVy_pos.le
  obtain ⟨w, hw, hwz⟩ := exists_clamp msg.rawWz maxWz_pos.le
  exact ⟨x, y, w, by rw [clampedAxes, hx, hy, hw], hvx, hvy, hwz⟩

/-- Every velocity a unit passes is within the limits. -/
theorem made_enveloped {b : Loop} {e : Event} {v : Velocity} (h : .setVelocity v ∈ b.made e) :
    v.Enveloped := by
  rcases Loop.setVelocity_mem_made.mp h with ⟨s, now, -, -, -, rfl⟩ | ⟨now, -, -, rfl⟩
  · exact clampedAxes_enveloped s.data
  · exact zero_enveloped

/-- Every velocity of the log is within the limits. -/
def Enveloped (calls : List SdkCall) : Prop := ∀ v, .setVelocity v ∈ calls → v.Enveloped

theorem run_enveloped {b : Loop} (h : Enveloped b.calls) (es : List Event) :
    Enveloped (b.run es).calls := by
  induction es generalizing b with
  | nil => exact h
  | cons e es ih =>
    refine ih (b := b.event e) fun v hv => ?_
    rw [Loop.event_calls] at hv
    rcases List.mem_append.mp hv with hold | hnew
    · exact h v hold
    · exact made_enveloped hnew

/-- Every velocity of a whole program is within the limits. -/
theorem main_enveloped (env : Environment) : Enveloped (main env).2 := by
  have hboot : ∀ now, Enveloped (Loop.boot now).calls := by
    intro now v hv
    cases List.mem_singleton.mp hv
  have hshutdown : Enveloped shutdownCalls := by
    intro v hv
    simp only [shutdownCalls, List.mem_cons, SdkCall.setVelocity.injEq, reduceCtorEq,
      List.not_mem_nil, or_false] at hv
    exact hv ▸ zero_enveloped
  have hnone : Enveloped [] := fun v hv => absurd hv List.not_mem_nil
  have hloop : ∀ now, Enveloped (controlLoop (.boot now) env.passes).1.calls := by
    intro now
    rcases passes_cases env.passes with ⟨done, hdone⟩ | ⟨done, p, rest, hsplit, htaken⟩
    · rw [hdone, controlLoop_done, Loop.passes_eq_run]
      exact run_enveloped (hboot now) _
    · rw [hsplit, controlLoop_throws _ _ _ htaken, Loop.passes_eq_run]
      exact run_enveloped (hboot now) _
  cases hcomm : env.commInit with
  | false => simpa only [main, hcomm, Bool.not_false, if_true] using hnone
  | true =>
  cases hjoy : env.joystickInit with
  | false =>
    simpa only [main, hcomm, hjoy, Bool.not_true, Bool.false_eq_true, if_false, Bool.not_false,
      if_true] using hnone
  | true =>
  cases hreader : env.reader with
  | none =>
    rw [main_unconstructed hcomm hjoy hreader]
    exact hboot 0
  | some now =>
    rw [main_calls hcomm hjoy hreader]
    intro v hv
    rcases List.mem_append.mp hv with hrun | hexit
    · exact hloop now v hrun
    · split at hexit
      · exact hnone v hexit
      · exact hshutdown v hexit

/-! ## The gate -/

/-- **The bridge is gated and bounded**, whoever writes to its topic. Every velocity of a whole
program is within the limits. In the loop, after any units, one that is not zero is passed only at a
valid sample, where the latest mark up to that sample is a press of MOVE. And the tracked mode is
the one last told, one of the three. -/
theorem bridge_gated (env : Environment) (start : Int) (es : List Event) :
    (∀ v, .setVelocity v ∈ (main env).2 → v.Enveloped) ∧
      (∀ before e after, es = before ++ e :: after →
        ∀ v, .setVelocity v ∈ ((Loop.boot start).run before).made e →
          v.Enveloped ∧ (v ≠ .zero → (∃ s now, e = .sample s now ∧ s.valid = true) ∧
            latestMark start (before ++ [e]) = .pressed modeMove)) ∧
      modeSet ((Loop.boot start).run es).calls = some ((Loop.boot start).run es).lastMode ∧
        Known ((Loop.boot start).run es).lastMode := by
  have hcoherent := Loop.run_coherent (Loop.boot_coherent start) es
  refine ⟨main_enveloped env, fun before e after _ v hv => ?_, hcoherent.told, hcoherent.known⟩
  refine ⟨made_enveloped hv, fun hmoves => ?_⟩
  rcases Loop.setVelocity_mem_made.mp hv with ⟨s, now, rfl, hvalid, hmove, -⟩ | ⟨now, -, -, hzero⟩
  · refine ⟨⟨s, now, rfl, hvalid⟩, (lastMode_eq_iff start _ (by decide)).mp ?_⟩
    rw [Loop.run_append]
    exact (Loop.processSample_lastMode now hvalid).trans hmove
  · exact absurd hzero hmoves

/-! ## An axis that is not a number -/

/-- What may become of an axis: the nearest value within the limit, and zero where it is NaN. -/
def AxisSound (bound : ℚ) (raw out : F32) : Prop :=
  match raw with
  | .nan => out = F32.ofRat 0
  | .num x => ∃ y, out = .num y ∧
      WithNaN.Nearest (((-bound : ℚ) : WithTop ℚ) : WithBot (WithTop ℚ))
        ((bound : WithTop ℚ) : WithBot (WithTop ℚ)) x y

/-- The clamp treats an axis soundly exactly if the axis is not NaN. -/
theorem axisSound_clamp_iff (raw : F32) {bound : ℚ} (h : 0 < bound) :
    AxisSound bound raw (clamp raw (F32.ofRat (-bound)) (F32.ofRat bound)) ↔ raw ≠ .nan := by
  have hbounds : (((-bound : ℚ) : WithTop ℚ) : WithBot (WithTop ℚ)) ≤
      ((bound : WithTop ℚ) : WithBot (WithTop ℚ)) :=
    WithBot.coe_le_coe.mpr (WithTop.coe_le_coe.mpr (neg_le_self h.le))
  cases raw with
  | nan =>
    -- the upper bound comes out, and it is not zero
    refine iff_of_false (fun hzero => ?_) (fun hne => hne rfl)
    have hupper := (WithNaN.confine_nan _ _).symm.trans hzero
    rw [max_eq_right hbounds] at hupper
    have hbound : bound = 0 := by simpa [F32.ofRat] using hupper
    exact h.ne' hbound
  | num x => exact iff_of_true (WithNaN.nearest_confine x hbounds) (by simp)

/-- **When the axes are sound.** At any state of the loop and any valid sample, every component
passed is the nearest value within its limit, and zero for NaN, exactly if the sample leaves the
robot outside MOVE or none of its three axes is NaN. -/
theorem axes_sound_iff (b : Loop) (data : JoyData) (now : Int) :
    (∀ v, .setVelocity v ∈ b.made (.sample ⟨true, data⟩ now) →
        AxisSound maxVx data.rawVx v.vx ∧ AxisSound maxVy data.rawVy v.vy ∧
          AxisSound maxWz data.rawWz v.wz) ↔
      requestedMode b.lastMode data ≠ modeMove ∨
        (data.rawVx ≠ .nan ∧ data.rawVy ≠ .nan ∧ data.rawWz ≠ .nan) := by
  have hvx := axisSound_clamp_iff data.rawVx maxVx_pos
  have hvy := axisSound_clamp_iff data.rawVy maxVy_pos
  have hwz := axisSound_clamp_iff data.rawWz maxWz_pos
  have hpassed : ∀ v, .setVelocity v ∈ b.made (.sample ⟨true, data⟩ now) ↔
      requestedMode b.lastMode data = modeMove ∧ v = clampedAxes data := by
    intro v
    rw [Loop.setVelocity_mem_made]
    simp
  by_cases hmove : requestedMode b.lastMode data = modeMove
  · simp only [hpassed, hmove, true_and, forall_eq, ne_eq, not_true_eq_false, false_or]
    exact and_congr hvx (and_congr hvy hwz)
  · exact iff_of_true (fun v hv => absurd ((hpassed v).mp hv).1 hmove) (.inl hmove)

/-- A MOVE press with a forward axis that is NaN. -/
def corruptPress : JoyData where
  priority := 50
  axes := #v[F32.ofRat 0, .nan, F32.ofRat 0, F32.ofRat 0, F32.ofRat 0, F32.ofRat 0]
  buttons := pressed 4

/-- The robot at boot is told to walk at full speed. -/
theorem corrupt_axis_drives :
    (Loop.boot 0).made (.sample ⟨true, corruptPress⟩ 20000000) =
        [.setMode modeMove, .setVelocity ⟨F32.ofRat maxVx, F32.ofRat 0, F32.ofRat 0⟩] ∧
      ¬ ∀ v, .setVelocity v ∈ (Loop.boot 0).made (.sample ⟨true, corruptPress⟩ 20000000) →
        AxisSound maxVx corruptPress.rawVx v.vx ∧ AxisSound maxVy corruptPress.rawVy v.vy ∧
          AxisSound maxWz corruptPress.rawWz v.wz := by
  have hmade : (Loop.boot 0).made (.sample ⟨true, corruptPress⟩ 20000000) =
      [.setMode modeMove, .setVelocity ⟨F32.ofRat maxVx, F32.ofRat 0, F32.ofRat 0⟩] := by
    decide +kernel
  refine ⟨hmade, fun hsound => ?_⟩
  obtain ⟨hzero, -⟩ := hsound ⟨F32.ofRat maxVx, F32.ofRat 0, F32.ofRat 0⟩ (by
    rw [hmade]
    exact List.mem_cons_of_mem _ (List.mem_singleton.mpr rfl))
  exact absurd (show F32.ofRat maxVx = F32.ofRat 0 from hzero) (by decide +kernel)

end SvanVoice
