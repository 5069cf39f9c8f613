import SvanVoice.Model.Bridge

/-!
# What one unit of the loop does

The bridge acts through two helpers, `enter` and `drive`, and the watchdog's check. The lemmas of
the first sections say what each leaves in the loop state and in the last arguments the SDK was
given; no law above this module unfolds them.

`Coherent` is what every reachable loop state has: the tracked mode is the one last told to the
robot, it is one of the three modes, and a fired watchdog has the robot standing still. Each unit
keeps it (`event_coherent`), so every run from boot has it (`run_coherent`).
-/

set_option autoImplicit false

namespace SvanVoice

/-! ## The log -/

@[simp] theorem modeSet_setMode (calls : List SdkCall) (m : Int) :
    modeSet (calls ++ [.setMode m]) = some m := Trace.latest_snoc _ _ _

@[simp] theorem modeSet_setVelocity (calls : List SdkCall) (v : Velocity) :
    modeSet (calls ++ [.setVelocity v]) = modeSet calls := Trace.latest_snoc _ _ _

@[simp] theorem velocitySet_setMode (calls : List SdkCall) (m : Int) :
    velocitySet (calls ++ [.setMode m]) = velocitySet calls := Trace.latest_snoc _ _ _

@[simp] theorem velocitySet_setVelocity (calls : List SdkCall) (v : Velocity) :
    velocitySet (calls ++ [.setVelocity v]) = some v := Trace.latest_snoc _ _ _

theorem still_iff {calls : List SdkCall} :
    Still calls ↔ velocitySet calls = none ∨ velocitySet calls = some .zero := by
  unfold Still
  cases velocitySet calls with
  | none => simp only [reduceCtorEq, false_implies, implies_true, true_or]
  | some v => simp only [Option.some.injEq, forall_eq', reduceCtorEq, false_or]

instance (calls : List SdkCall) : Decidable (Still calls) := decidable_of_iff' _ still_iff

/-- One of the three modes. -/
def Known (mode : Int) : Prop := mode = modeSleep ∨ mode = modeStand ∨ mode = modeMove

instance (mode : Int) : Decidable (Known mode) := inferInstanceAs (Decidable (_ ∨ _))

theorem maxVx_pos : 0 < maxVx := by norm_num [maxVx]

theorem maxVy_pos : 0 < maxVy := by norm_num [maxVy]

theorem maxWz_pos : 0 < maxWz := by norm_num [maxWz]

namespace Loop

/-! ## The two helpers -/

variable (b : Loop) (mode : Int) (v : Velocity)

/-- The calls of a mode change: one, on a transition only. -/
theorem enter_calls : (b.enter mode).calls =
    b.calls ++ if mode ≠ b.lastMode then [.setMode mode] else [] := by
  unfold enter
  split
  · rfl
  · exact (List.append_nil _).symm

@[simp] theorem enter_lastMode : (b.enter mode).lastMode = mode := by
  unfold enter
  split
  · rfl
  · next h => exact (not_not.mp h).symm

@[simp] theorem enter_lastMsgTime : (b.enter mode).lastMsgTime = b.lastMsgTime := by
  unfold enter
  split <;> rfl

@[simp] theorem enter_watchdogFired : (b.enter mode).watchdogFired = b.watchdogFired := by
  unfold enter
  split <;> rfl

@[simp] theorem enter_velocitySet : velocitySet (b.enter mode).calls = velocitySet b.calls := by
  rw [enter_calls]
  split
  · exact velocitySet_setMode _ _
  · rw [List.append_nil]

/-- The calls of the drive step: one, in MOVE only. -/
theorem drive_calls : (b.drive v).calls =
    b.calls ++ if b.lastMode = modeMove then [.setVelocity v] else [] := by
  unfold drive
  split
  · rfl
  · exact (List.append_nil _).symm

@[simp] theorem drive_lastMode : (b.drive v).lastMode = b.lastMode := by
  unfold drive
  split <;> rfl

@[simp] theorem drive_lastMsgTime : (b.drive v).lastMsgTime = b.lastMsgTime := by
  unfold drive
  split <;> rfl

@[simp] theorem drive_watchdogFired : (b.drive v).watchdogFired = b.watchdogFired := by
  unfold drive
  split <;> rfl

@[simp] theorem drive_modeSet : modeSet (b.drive v).calls = modeSet b.calls := by
  rw [drive_calls]
  split
  · exact modeSet_setVelocity _ _
  · rw [List.append_nil]

@[simp] theorem drive_velocitySet : velocitySet (b.drive v).calls =
    if b.lastMode = modeMove then some v else velocitySet b.calls := by
  rw [drive_calls]
  split
  · exact velocitySet_setVelocity _ _
  · rw [List.append_nil]

/-! ## A sample -/

section Sample

variable {b} {s : Sample} (now : Int)

theorem processSample_invalid (h : s.valid = false) : b.processSample s now = b := by
  rw [processSample, if_neg (by rw [h]; exact Bool.false_ne_true)]

theorem processSample_valid (h : s.valid = true) : b.processSample s now =
    (({ b with lastMsgTime := now, watchdogFired := false } : Loop).enter
      (requestedMode b.lastMode s.data)).drive (clampedAxes s.data) := by
  rw [processSample, if_pos h]

theorem processSample_lastMode (h : s.valid = true) :
    (b.processSample s now).lastMode = requestedMode b.lastMode s.data := by
  rw [processSample_valid now h, drive_lastMode, enter_lastMode]

theorem processSample_lastMsgTime (h : s.valid = true) :
    (b.processSample s now).lastMsgTime = now := by
  rw [processSample_valid now h, drive_lastMsgTime, enter_lastMsgTime]

theorem processSample_watchdogFired (h : s.valid = true) :
    (b.processSample s now).watchdogFired = false := by
  rw [processSample_valid now h, drive_watchdogFired, enter_watchdogFired]

/-- A valid sample appends a mode change, if there is one, then a velocity, if in MOVE. -/
theorem processSample_calls (h : s.valid = true) : (b.processSample s now).calls =
    b.calls ++
      ((if requestedMode b.lastMode s.data ≠ b.lastMode then
          [.setMode (requestedMode b.lastMode s.data)] else []) ++
        if requestedMode b.lastMode s.data = modeMove then
          [.setVelocity (clampedAxes s.data)] else []) := by
  rw [processSample_valid now h, drive_calls, enter_calls, enter_lastMode, List.append_assoc]

theorem processSample_velocitySet (h : s.valid = true) :
    velocitySet (b.processSample s now).calls =
      if requestedMode b.lastMode s.data = modeMove then some (clampedAxes s.data)
      else velocitySet b.calls := by
  rw [processSample_valid now h, drive_velocitySet, enter_lastMode, enter_velocitySet]

/-- The mode told is the mode asked for, whether or not it had to be told anew. -/
theorem processSample_modeSet (h : s.valid = true) (htold : modeSet b.calls = some b.lastMode) :
    modeSet (b.processSample s now).calls = some (requestedMode b.lastMode s.data) := by
  rw [processSample_valid now h, drive_modeSet, enter_calls]
  split
  · exact modeSet_setMode _ _
  · next hsame => rw [List.append_nil, htold, not_not.mp hsame]

end Sample

/-! ## The watchdog's check -/

section Check

variable {b} {now : Int}

theorem fires_iff : b.fires now = true ↔
    watchdogMs < now - b.lastMsgTime ∧ b.watchdogFired = false := by
  simp only [fires, Bool.and_eq_true, decide_eq_true_eq, Bool.not_eq_true']

theorem watchdogCheck_quiet (h : b.fires now = false) : b.watchdogCheck now = b := by
  rw [watchdogCheck, if_neg (by rw [h]; exact Bool.false_ne_true)]

theorem watchdogCheck_fires (h : b.fires now = true) : b.watchdogCheck now =
    { b with
      watchdogFired := true
      calls := b.calls ++ [.setMode modeStand, .setVelocity .zero]
      lastMode := modeStand } := by
  rw [watchdogCheck, if_pos h]

/-- The two calls of a firing leave the robot told to stand still. -/
theorem frozen_calls (calls : List SdkCall) :
    modeSet (calls ++ [.setMode modeStand, .setVelocity .zero]) = some modeStand ∧
      velocitySet (calls ++ [.setMode modeStand, .setVelocity .zero]) = some .zero := by
  rw [List.append_cons]
  exact ⟨by rw [modeSet_setVelocity, modeSet_setMode], velocitySet_setVelocity _ _⟩

@[simp] theorem watchdogCheck_lastMsgTime : (b.watchdogCheck now).lastMsgTime = b.lastMsgTime := by
  unfold watchdogCheck
  split <;> rfl

end Check

/-! ## Coherence -/

/-- What every reachable loop state has. -/
structure Coherent (b : Loop) : Prop where
  told : modeSet b.calls = some b.lastMode
  known : Known b.lastMode
  frozen : b.watchdogFired = true → b.lastMode = modeStand ∧ velocitySet b.calls = some .zero

theorem boot_coherent (now : Int) : (boot now).Coherent where
  told := rfl
  known := .inr (.inl rfl)
  frozen := nofun

/-- A message asks for one of the three modes, or for none. -/
theorem requestedMode_known {lastMode : Int} (msg : JoyData) (h : Known lastMode) :
    Known (requestedMode lastMode msg) := by
  unfold requestedMode
  split_ifs
  · exact .inl rfl
  · exact .inr (.inl rfl)
  · exact .inr (.inr rfl)
  · exact h

theorem processSample_coherent {b : Loop} (h : b.Coherent) (s : Sample) (now : Int) :
    (b.processSample s now).Coherent := by
  cases hv : s.valid with
  | false => rwa [processSample_invalid now hv]
  | true =>
    refine ⟨?_, ?_, ?_⟩
    · rw [processSample_modeSet now hv h.told, processSample_lastMode now hv]
    · rw [processSample_lastMode now hv]
      exact requestedMode_known s.data h.known
    · rw [processSample_watchdogFired now hv]
      exact nofun

theorem watchdogCheck_coherent {b : Loop} (h : b.Coherent) (now : Int) :
    (b.watchdogCheck now).Coherent := by
  cases hf : b.fires now with
  | false => rwa [watchdogCheck_quiet hf]
  | true =>
    rw [watchdogCheck_fires hf]
    obtain ⟨hmode, hvel⟩ := frozen_calls b.calls
    exact ⟨hmode, .inr (.inl rfl), fun _ => ⟨rfl, hvel⟩⟩

/-- Every unit of the loop keeps coherence. -/
theorem event_coherent {b : Loop} (h : b.Coherent) (e : Event) : (b.event e).Coherent := by
  cases e with
  | sample s now => exact processSample_coherent h s now
  | check now => exact watchdogCheck_coherent h now

/-- **Every run from boot is coherent.** -/
theorem run_coherent {b : Loop} (h : b.Coherent) (es : List Event) : (b.run es).Coherent := by
  induction es generalizing b with
  | nil => exact h
  | cons e es ih => exact ih (event_coherent h e)

/-! ## The calls of one unit -/

/-- The calls one unit adds to the log. -/
def made (b : Loop) (e : Event) : List SdkCall := (b.event e).calls.drop b.calls.length

/-- The calls of a valid sample: a mode change, if there is one, then a velocity, if in MOVE. -/
theorem made_valid {b : Loop} {s : Sample} (now : Int) (h : s.valid = true) :
    b.made (.sample s now) =
      (if requestedMode b.lastMode s.data ≠ b.lastMode then
          [.setMode (requestedMode b.lastMode s.data)] else []) ++
        if requestedMode b.lastMode s.data = modeMove then
          [.setVelocity (clampedAxes s.data)] else [] := by
  rw [made, event, processSample_calls now h, List.drop_left]

theorem made_invalid {b : Loop} {s : Sample} (now : Int) (h : s.valid = false) :
    b.made (.sample s now) = [] := by
  rw [made, event, processSample_invalid now h, List.drop_length]

theorem made_check (b : Loop) (now : Int) : b.made (.check now) =
    if b.fires now then [.setMode modeStand, .setVelocity .zero] else [] := by
  rw [made, event]
  cases hf : b.fires now with
  | false => rw [watchdogCheck_quiet hf, List.drop_length, if_neg Bool.false_ne_true]
  | true => rw [watchdogCheck_fires hf, List.drop_left, if_pos rfl]

/-- The log only grows. -/
theorem event_calls (b : Loop) (e : Event) : (b.event e).calls = b.calls ++ b.made e := by
  cases e with
  | sample s now =>
    cases hv : s.valid with
    | false => rw [made_invalid now hv, event, processSample_invalid now hv, List.append_nil]
    | true => rw [made_valid now hv, event, processSample_calls now hv]
  | check now =>
    rw [made_check, event]
    cases hf : b.fires now with
    | false => rw [watchdogCheck_quiet hf, if_neg Bool.false_ne_true, List.append_nil]
    | true => rw [watchdogCheck_fires hf, if_pos rfl]

/-- **Where a velocity comes from**: a valid sample in MOVE passes its clamped axes, and a firing of
the watchdog passes zero. -/
theorem setVelocity_mem_made {b : Loop} {e : Event} {v : Velocity} :
    .setVelocity v ∈ b.made e ↔
      (∃ s now, e = .sample s now ∧ s.valid = true ∧
          requestedMode b.lastMode s.data = modeMove ∧ v = clampedAxes s.data) ∨
        ∃ now, e = .check now ∧ b.fires now = true ∧ v = .zero := by
  cases e with
  | sample s now =>
    simp only [Event.sample.injEq, reduceCtorEq, false_and, exists_false, or_false]
    cases hv : s.valid with
    | false =>
      simp only [made_invalid now hv, List.not_mem_nil, false_iff]
      rintro ⟨s', now', ⟨rfl, -⟩, hvalid, -⟩
      exact Bool.false_ne_true (hv.symm.trans hvalid)
    | true =>
      rw [made_valid now hv, List.mem_append]
      constructor
      · rintro (hmode | hvel)
        · split at hmode
          · cases List.mem_singleton.mp hmode
          · cases hmode
        · split at hvel
          · next hmove =>
            exact ⟨s, now, ⟨rfl, rfl⟩, hv, hmove,
              SdkCall.setVelocity.inj (List.mem_singleton.mp hvel)⟩
          · cases hvel
      · rintro ⟨s', now', ⟨rfl, -⟩, -, hmove, rfl⟩
        rw [if_pos hmove]
        exact .inr (List.mem_singleton.mpr rfl)
  | check now =>
    simp only [made_check, reduceCtorEq, false_and, exists_false, false_or, Event.check.injEq]
    constructor
    · intro h
      split at h
      · next hf =>
        rcases List.mem_cons.mp h with hmode | hvel
        · cases hmode
        · exact ⟨now, rfl, hf, SdkCall.setVelocity.inj (List.mem_singleton.mp hvel)⟩
      · cases h
    · rintro ⟨now', rfl, hf, rfl⟩
      rw [if_pos hf]
      exact List.mem_cons_of_mem _ (List.mem_singleton.mpr rfl)

/-! ## Iterations as events -/

theorem run_append (b : Loop) (es fs : List Event) : b.run (es ++ fs) = (b.run es).run fs :=
  List.foldl_append

/-- One iteration is the run of its units. -/
theorem pass_eq_run (b : Loop) (samples : List (Sample × Int)) (now : Int) :
    b.pass samples now = b.run (passEvents samples now) := by
  simp only [pass, passEvents, run, List.foldl_append, List.foldl_map, List.foldl_cons,
    List.foldl_nil, event]

/-- The loop after several iterations. -/
def passes (b : Loop) (ps : List (List (Sample × Int) × Int)) : Loop :=
  ps.foldl (fun b p => b.pass p.1 p.2) b

/-- Several iterations are the run of all their units. -/
theorem passes_eq_run (b : Loop) (ps : List (List (Sample × Int) × Int)) :
    b.passes ps = b.run (ps.flatMap fun p => passEvents p.1 p.2) := by
  induction ps generalizing b with
  | nil => rfl
  | cons p ps ih =>
    rw [passes, List.foldl_cons, List.flatMap_cons, run_append, ← pass_eq_run]
    exact ih (b.pass p.1 p.2)

/-- Every list of units is what some iterations have done so far: cut off by one more check, it is
their whole work. -/
theorem exists_passes (es : List Event) (now : Int) :
    ∃ ps : List (List (Sample × Int) × Int),
      (ps.flatMap fun p => passEvents p.1 p.2) = es ++ [.check now] := by
  induction es with
  | nil => exact ⟨[([], now)], rfl⟩
  | cons e es ih =>
    obtain ⟨ps, hps⟩ := ih
    cases e with
    | check t => exact ⟨([], t) :: ps, by rw [List.flatMap_cons, hps]; rfl⟩
    | sample s t =>
      -- the sample joins the batch of the first iteration
      cases ps with
      | nil => exact absurd hps.symm (List.append_ne_nil_of_right_ne_nil es (List.cons_ne_nil _ _))
      | cons p ps =>
        refine ⟨((s, t) :: p.1, p.2) :: ps, ?_⟩
        rw [List.flatMap_cons] at hps ⊢
        rw [List.cons_append, ← hps]
        rfl

/-- The event machine keeps coherence. -/
theorem total_coherent (b : Loop) (e : Event) (t : Loop) (h : b.Coherent)
    (ht : Trace.total event b e = some t) : t.Coherent := by
  cases ht
  exact event_coherent h e

end Loop

/-- Forward at a fifth of a metre a second. -/
def forward : StateDict := { mode := some 4, xVelocity := some (1 / 5) }

/-- The first frame a fresh publisher writes for a state. -/
def firstFrame (state : StateDict) : JoyData :=
  (({} : DDSPublisher).publishMovement state 0).2

end SvanVoice
