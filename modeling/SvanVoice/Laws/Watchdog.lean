import SvanVoice.Laws.Bridge

/-!
# The watchdog

Two laws of the loop over time. `frozen_while_silent` is what the watchdog is for: once an
iteration finds the last valid sample (or the start of the loop) more than the limit ago, the
robot has been told to stand still, and it stays so until a valid sample arrives, whatever silences
and recoveries came before. The proof needs no order of the clock readings.

`asleep_until_pressed_iff` is what the watchdog breaks: a sleeping robot is to stay asleep until a
stand or move button is pressed. The watchdog tells every silent robot to stand, the sleeping one
too, so the law holds of a run exactly if the watchdog never fires in it while the robot sleeps.
-/

set_option autoImplicit false

namespace SvanVoice

/-! ## The last valid sample -/

/-- The clock reading of the last valid sample, or the start where there is none. -/
def lastReading (start : Int) (samples : List (Sample × Int)) : Int :=
  (Trace.latest (fun s => if s.1.valid then some s.2 else none) samples).getD start

theorem lastReading_append (start : Int) (earlier later : List (Sample × Int)) :
    lastReading start (earlier ++ later) = lastReading (lastReading start earlier) later := by
  rw [lastReading, Trace.latest_append]
  cases h : Trace.latest (fun s : Sample × Int => if s.1.valid then some s.2 else none) later <;>
    simp only [lastReading, h, Option.none_or, Option.some_or, Option.getD_some, Option.getD_none]

namespace Loop

/-- The loop after the samples of a batch. -/
def batch (b : Loop) (samples : List (Sample × Int)) : Loop :=
  samples.foldl (fun b s => b.processSample s.1 s.2) b

theorem pass_eq (b : Loop) (samples : List (Sample × Int)) (now : Int) :
    b.pass samples now = (b.batch samples).watchdogCheck now := rfl

/-- `last_msg_time` after a batch is the reading of its last valid sample. -/
theorem batch_lastMsgTime (b : Loop) (samples : List (Sample × Int)) :
    (b.batch samples).lastMsgTime = lastReading b.lastMsgTime samples := by
  induction samples generalizing b with
  | nil => rfl
  | cons s samples ih =>
    have hone : (b.processSample s.1 s.2).lastMsgTime = lastReading b.lastMsgTime [s] := by
      cases hv : s.1.valid with
      | false =>
        rw [processSample_invalid _ hv]
        simp only [lastReading, Trace.latest, List.filterMap_cons, hv, Bool.false_eq_true, if_false,
          List.filterMap_nil, List.getLast?_nil, Option.getD_none]
      | true =>
        rw [processSample_lastMsgTime _ hv]
        simp only [lastReading, Trace.latest, List.filterMap_cons, hv, if_true,
          List.filterMap_nil, List.getLast?_singleton, Option.getD_some]
    have hrest := ih (b.processSample s.1 s.2)
    rw [hone, ← lastReading_append] at hrest
    exact hrest

/-- `last_msg_time` after several iterations is the reading of their last valid sample. -/
theorem passes_lastMsgTime (b : Loop) (ps : List (List (Sample × Int) × Int)) :
    (b.passes ps).lastMsgTime = lastReading b.lastMsgTime (ps.flatMap Prod.fst) := by
  induction ps generalizing b with
  | nil => rfl
  | cons p ps ih =>
    have hpass : (b.pass p.1 p.2).lastMsgTime = lastReading b.lastMsgTime p.1 := by
      rw [pass_eq, watchdogCheck_lastMsgTime, batch_lastMsgTime]
    rw [List.flatMap_cons, lastReading_append, ← hpass]
    exact ih (b.pass p.1 p.2)

/-! ## Silence freezes the robot -/

/-- The robot has been told to stand still, and the loop knows it. -/
structure Frozen (b : Loop) : Prop where
  mode_told : modeSet b.calls = some modeStand
  velocity_told : velocitySet b.calls = some .zero
  mode_kept : b.lastMode = modeStand

theorem Coherent.frozen_of_fired {b : Loop} (h : b.Coherent) (hf : b.watchdogFired = true) :
    b.Frozen := by
  obtain ⟨hmode, hvel⟩ := h.frozen hf
  exact ⟨by rw [h.told, hmode], hvel, hmode⟩

/-- Past the limit, the check leaves a fired watchdog: it fires now, or it had fired. -/
theorem watchdogCheck_past {b : Loop} {now : Int} (h : watchdogMs < now - b.lastMsgTime) :
    (b.watchdogCheck now).watchdogFired = true := by
  cases hf : b.fires now with
  | true => rw [watchdogCheck_fires hf]
  | false =>
    rw [watchdogCheck_quiet hf]
    by_contra hnot
    have := fires_iff.mpr ⟨h, Bool.not_eq_true _ ▸ hnot⟩
    exact Bool.false_ne_true (hf.symm.trans this)

/-- A batch with no valid sample does nothing. -/
theorem batch_silent {b : Loop} {samples : List (Sample × Int)}
    (h : ∀ s ∈ samples, s.1.valid = false) : b.batch samples = b := by
  induction samples with
  | nil => rfl
  | cons s samples ih =>
    have hs := processSample_invalid (b := b) s.2 (h s List.mem_cons_self)
    rw [batch, List.foldl_cons, hs]
    exact ih fun s' hs' => h s' (List.mem_cons_of_mem _ hs')

/-- A fired watchdog stays fired, and the robot with it, while no valid sample arrives. -/
theorem passes_silent {b : Loop} (hf : b.watchdogFired = true)
    {ps : List (List (Sample × Int) × Int)} (h : ∀ p ∈ ps, ∀ s ∈ p.1, s.1.valid = false) :
    b.passes ps = b := by
  induction ps with
  | nil => rfl
  | cons p ps ih =>
    have hquiet : b.fires p.2 = false := by
      rw [fires, hf, Bool.not_true, Bool.and_false]
    have hpass : b.pass p.1 p.2 = b := by
      rw [pass_eq, batch_silent (h p List.mem_cons_self), watchdogCheck_quiet hquiet]
    rw [passes, List.foldl_cons, hpass]
    exact ih fun q hq => h q (List.mem_cons_of_mem _ hq)

end Loop

/-- **Silence freezes the robot.** At the end of an iteration that finds the last valid sample, or
the loop's start, more than the limit ago, and at the end of every further iteration until a valid
sample arrives, the robot has been told to stand still. -/
theorem frozen_while_silent (start : Int) (before after : List (List (Sample × Int) × Int))
    (samples : List (Sample × Int)) (now : Int)
    (helapsed : watchdogMs < now - lastReading start (before.flatMap Prod.fst ++ samples))
    (hsilent : ∀ p ∈ after, ∀ s ∈ p.1, s.1.valid = false) :
    ((Loop.boot start).passes (before ++ (samples, now) :: after)).Frozen := by
  have hsplit : (Loop.boot start).passes (before ++ (samples, now) :: after) =
      (((Loop.boot start).passes before).pass samples now).passes after := by
    rw [Loop.passes, List.foldl_append, List.foldl_cons]
    rfl
  have htime : ((((Loop.boot start).passes before).batch samples)).lastMsgTime =
      lastReading start (before.flatMap Prod.fst ++ samples) := by
    rw [Loop.batch_lastMsgTime, Loop.passes_lastMsgTime, lastReading_append]
    rfl
  have hfired : (((Loop.boot start).passes before).pass samples now).watchdogFired = true := by
    rw [Loop.pass_eq]
    exact Loop.watchdogCheck_past (by rw [htime]; exact helapsed)
  have hcoherent : (((Loop.boot start).passes before).pass samples now).Coherent := by
    rw [Loop.pass_eq_run, Loop.passes_eq_run]
    exact Loop.run_coherent (Loop.run_coherent (Loop.boot_coherent start) _) _
  rw [hsplit, Loop.passes_silent hfired hsilent]
  exact hcoherent.frozen_of_fired hfired

/-- One move frame at 20 ms, then silence: the iteration at 600 ms freezes the robot, and it is
frozen at 620 ms. -/
theorem frozen_after_move :
    ((Loop.boot 0).passes
      ([([(⟨true, firstFrame { mode := some 4 }⟩, 20000000)], 20000000)] ++
        ([], 600000000) :: [([], 620000000)])).Frozen :=
  frozen_while_silent 0 _ _ [] 600000000 (by decide +kernel) (by decide)

/-! ## A sleeping robot -/

/-- A valid sample that asks for STAND or MOVE: no sleep button, and one of the other two. -/
def StandOrMovePressed : Event → Prop
  | .sample s _ =>
    s.valid = true ∧ s.data.btnSleep ≠ 1 ∧ (s.data.btnStand = 1 ∨ s.data.btnMove = 1)
  | .check _ => False

/-- If the robot was last told to sleep, the unit tells it another mode only on a press. -/
def WakesOnPressOnly (b : Loop) (e : Event) : Prop :=
  modeSet b.calls = some modeSleep → ∀ more m, (b.event e).calls = b.calls ++ more →
    SdkCall.setMode m ∈ more → m ≠ modeSleep → StandOrMovePressed e

/-- The unit is a check at which the watchdog fires on a robot in SLEEP. -/
def FiresAsleep (b : Loop) : Event → Prop
  | .sample _ _ => False
  | .check now => b.lastMode = modeSleep ∧ b.fires now = true

/-- A message that leaves SLEEP has a stand or move button and no sleep button. -/
theorem requestedMode_ne_sleep {msg : JoyData} (h : requestedMode modeSleep msg ≠ modeSleep) :
    msg.btnSleep ≠ 1 ∧ (msg.btnStand = 1 ∨ msg.btnMove = 1) := by
  by_cases hsleep : msg.btnSleep = 1
  · exact absurd (if_pos hsleep) h
  · refine ⟨hsleep, ?_⟩
    by_contra hnone
    obtain ⟨hstand, hmove⟩ := not_or.mp hnone
    exact h (by rw [requestedMode, if_neg hsleep, if_neg hstand, if_neg hmove])

/-- The only mode a valid sample can tell is the one it asks for. -/
theorem Loop.setMode_of_processSample {b : Loop} {s : Sample} {now : Int} {more : List SdkCall}
    {m : Int} (hv : s.valid = true) (hcalls : (b.processSample s now).calls = b.calls ++ more)
    (hmem : SdkCall.setMode m ∈ more) : m = requestedMode b.lastMode s.data := by
  rw [Loop.processSample_calls now hv] at hcalls
  rw [← List.append_cancel_left hcalls] at hmem
  rcases List.mem_append.mp hmem with hin | hin
  · split at hin
    · exact SdkCall.setMode.inj (List.mem_singleton.mp hin)
    · exact absurd hin List.not_mem_nil
  · split at hin
    · exact absurd (List.mem_singleton.mp hin) (by simp only [reduceCtorEq, not_false_eq_true])
    · exact absurd hin List.not_mem_nil

/-- A unit that adds no call tells no mode. -/
theorem wakesOnPressOnly_of_silent {b : Loop} {e : Event} (h : b.event e = b) :
    WakesOnPressOnly b e := by
  intro _ more m hcalls hmem _
  rw [h] at hcalls
  rw [List.self_eq_append_right.mp hcalls] at hmem
  exact absurd hmem List.not_mem_nil

/-- Unit by unit, the law fails exactly where the watchdog fires on a sleeping robot. -/
theorem wakesOnPressOnly_iff {b : Loop} (hb : b.Coherent) (e : Event) :
    WakesOnPressOnly b e ↔ ¬ FiresAsleep b e := by
  have hasleep : modeSet b.calls = some modeSleep ↔ b.lastMode = modeSleep := by
    rw [hb.told, Option.some.injEq]
  cases e with
  | sample s now =>
    refine iff_of_true ?_ id
    cases hv : s.valid with
    | false => exact wakesOnPressOnly_of_silent (Loop.processSample_invalid now hv)
    | true =>
      intro hsleep more m hcalls hmem hne
      have hm := Loop.setMode_of_processSample hv hcalls hmem
      rw [hasleep.mp hsleep] at hm
      exact ⟨hv, requestedMode_ne_sleep (hm ▸ hne)⟩
  | check now =>
    cases hf : b.fires now with
    | false =>
      refine iff_of_true (wakesOnPressOnly_of_silent (Loop.watchdogCheck_quiet hf)) ?_
      intro h
      exact Bool.false_ne_true (hf.symm.trans h.2)
    | true =>
      constructor
      · intro hwakes hfires
        obtain ⟨hmode, -⟩ := hfires
        exact hwakes (hasleep.mpr hmode) [.setMode modeStand, .setVelocity .zero] modeStand
          (by rw [Loop.event, Loop.watchdogCheck_fires hf]) List.mem_cons_self (by decide)
      · intro hnot hsleep
        exact absurd ⟨hasleep.mp hsleep, hf⟩ hnot

/-- **When a sleeping robot stays asleep.** In a run of the loop, every mode told to a sleeping
robot answers a stand or move press, exactly if the watchdog never fires while the robot sleeps. -/
theorem asleep_until_pressed_iff (start : Int) (es : List Event) :
    Trace.Along (Trace.total Loop.event) WakesOnPressOnly (Loop.boot start) es ↔
      Trace.Along (Trace.total Loop.event) (fun b e => ¬ FiresAsleep b e) (Loop.boot start) es :=
  Trace.along_congr Loop.total_coherent (fun _ e hb => wakesOnPressOnly_iff hb e)
    (Loop.boot_coherent start)

/-- A sleep press at 20 ms, then silence until 600 ms. -/
def sleepThenSilence : List Event :=
  [.sample ⟨true, firstFrame { mode := some 0 }⟩ 20000000, .check 20000000, .check 600000000]

/-- Silence makes the sleeping robot stand up. -/
theorem silence_wakes_sleeper :
    ¬ Trace.Along (Trace.total Loop.event) WakesOnPressOnly (Loop.boot 0) sleepThenSilence := by
  intro h
  have hlast := h (sleepThenSilence.take 2) (.check 600000000) []
    ((Loop.boot 0).run (sleepThenSilence.take 2)) rfl (Trace.run_total _ _ _)
  have hfires : FiresAsleep ((Loop.boot 0).run (sleepThenSilence.take 2)) (.check 600000000) := by
    constructor <;> decide +kernel
  exact (wakesOnPressOnly_iff (Loop.run_coherent (Loop.boot_coherent 0) _) _).mp hlast hfires

end SvanVoice
