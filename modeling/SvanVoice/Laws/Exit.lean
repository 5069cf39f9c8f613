import SvanVoice.Laws.Marks

/-!
# The ways out of the bridge

`main` returns in three ways once the robot was told to stand: the loop ends and the shutdown runs,
`reader.take()` throws in some iteration, or the construction of the reader throws. Only the first
tells the robot anything on the way out. The two handlers print and return, and the watchdog, which
would have frozen the robot, ended with the loop.

`left_stopped_iff` says when the robot is left stopped: exactly if the reader was constructed and
every `take` that throws comes after a press of SLEEP, the latest mark of the units before it, and
after a zero velocity, if they passed one.
-/

set_option autoImplicit false

namespace SvanVoice

/-- The robot is left stopped: its last velocity is zero, or none was told, and it was last told
to sleep. -/
def LeftStopped (calls : List SdkCall) : Prop := Still calls ∧ modeSet calls = some modeSleep

instance (calls : List SdkCall) : Decidable (LeftStopped calls) :=
  inferInstanceAs (Decidable (_ ∧ _))

/-! ## Where the loop is left -/

/-- The pass of an iteration in which `take` returns. -/
def Pass.ofBatch (batch : List (Sample × Int) × Int) : Pass := ⟨some batch.1, batch.2⟩

/-- Where no `take` throws, the loop is left by its condition. -/
theorem controlLoop_done (b : Loop) (done : List (List (Sample × Int) × Int)) :
    controlLoop b (done.map Pass.ofBatch) = (b.passes done, false) := by
  induction done generalizing b with
  | nil => rfl
  | cons batch done ih => exact ih (b.pass batch.1 batch.2)

/-- Where a `take` throws, the loop is left by the exception, in the state before it. -/
theorem controlLoop_throws (b : Loop) (done : List (List (Sample × Int) × Int)) {p : Pass}
    (rest : List Pass) (h : p.taken = none) :
    controlLoop b (done.map Pass.ofBatch ++ p :: rest) = (b.passes done, true) := by
  induction done generalizing b with
  | nil =>
    rw [List.map_nil, List.nil_append, controlLoop, h]
    rfl
  | cons batch done ih => exact ih (b.pass batch.1 batch.2)

/-- No `take` throws, or there is a first that does. -/
theorem passes_cases (ps : List Pass) :
    (∃ done, ps = List.map Pass.ofBatch done) ∨
      ∃ done p rest, ps = List.map Pass.ofBatch done ++ p :: rest ∧ p.taken = none := by
  induction ps with
  | nil => exact .inl ⟨[], rfl⟩
  | cons p ps ih =>
    cases htaken : p.taken with
    | none => exact .inr ⟨[], p, ps, rfl, htaken⟩
    | some samples =>
      have hp : p = Pass.ofBatch (samples, p.now) := by
        rw [Pass.ofBatch, ← htaken]
      rcases ih with ⟨done, hdone⟩ | ⟨done, q, rest, hsplit, hq⟩
      · exact .inl ⟨(samples, p.now) :: done, by rw [List.map_cons, ← hp, hdone]⟩
      · exact .inr ⟨(samples, p.now) :: done, q, rest,
          by rw [List.map_cons, ← hp, hsplit, List.cons_append], hq⟩

/-! ## The log at each exit -/

section Exits

variable {env : Environment} {now : Int}

/-- The log of a run that constructed its reader. -/
theorem main_calls (hcomm : env.commInit = true) (hjoy : env.joystickInit = true)
    (hreader : env.reader = some now) :
    (main env).2 =
      (controlLoop (.boot now) env.passes).1.calls ++
        if (controlLoop (.boot now) env.passes).2 then [] else shutdownCalls := by
  rcases hloop : controlLoop (.boot now) env.passes with ⟨b, thrown⟩
  simp only [main, hcomm, hjoy, hreader, Bool.not_true, Bool.false_eq_true, if_false, hloop]
  cases thrown with
  | true => exact (List.append_nil _).symm
  | false => rfl

/-- The construction of the reader throws: the robot is left standing. -/
theorem main_unconstructed (hcomm : env.commInit = true) (hjoy : env.joystickInit = true)
    (hreader : env.reader = none) : (main env).2 = [.setMode modeStand] := by
  rw [main, hcomm, hjoy, hreader]
  rfl

end Exits

/-- The shutdown leaves the robot stopped, whatever came before it. -/
theorem shutdown_stops (calls : List SdkCall) : LeftStopped (calls ++ shutdownCalls) := by
  have hvel : velocitySet (calls ++ shutdownCalls) = some .zero := by
    rw [velocitySet, Trace.latest_append]
    rfl
  have hmode : modeSet (calls ++ shutdownCalls) = some modeSleep := by
    rw [modeSet, Trace.latest_append]
    rfl
  exact ⟨still_iff.mpr (.inr hvel), hmode⟩

/-! ## The law -/

/-- The units of some iterations. -/
def unitsOf (done : List (List (Sample × Int) × Int)) : List Event :=
  done.flatMap fun p => passEvents p.1 p.2

/-- Some iterations leave the robot stopped exactly if their units do. -/
theorem leftStopped_passes (now : Int) (done : List (List (Sample × Int) × Int)) :
    LeftStopped ((Loop.boot now).passes done).calls ↔
      latestMark now (unitsOf done) = .pressed modeSleep ∧
        ∀ v ∈ velocityLeft now (unitsOf done), v = .zero := by
  have htold := (Loop.run_coherent (Loop.boot_coherent now) (unitsOf done)).told
  rw [Loop.passes_eq_run, LeftStopped, and_comm, ← unitsOf, htold, Option.some.injEq,
    lastMode_eq_iff now _ (by decide), Still, velocitySet_eq_velocityLeft]
  rfl

/-- **When the robot is left stopped.** A run of `main` past both initialisations leaves the robot
asleep with a zero velocity exactly if its reader is constructed and, where a `take` throws, the
latest mark of the units before it is a press of SLEEP, and the last velocity they have passed, if
any, is zero. -/
theorem left_stopped_iff (env : Environment) (hcomm : env.commInit = true)
    (hjoy : env.joystickInit = true) :
    LeftStopped (main env).2 ↔
      ∃ now, env.reader = some now ∧
        ∀ done p rest, env.passes = List.map Pass.ofBatch done ++ p :: rest → p.taken = none →
          latestMark now (unitsOf done) = .pressed modeSleep ∧
            ∀ v ∈ velocityLeft now (unitsOf done), v = .zero := by
  cases hreader : env.reader with
  | none =>
    rw [main_unconstructed hcomm hjoy hreader]
    refine iff_of_false ?_ ?_
    · intro hstopped
      obtain ⟨-, hmode⟩ := hstopped
      exact absurd hmode (by decide)
    · intro hfound
      obtain ⟨now, hnow, -⟩ := hfound
      cases hnow
  | some now =>
    rw [main_calls hcomm hjoy hreader]
    rcases passes_cases env.passes with ⟨done, hdone⟩ | ⟨done, p, rest, hsplit, htaken⟩
    · -- the loop ends: the shutdown runs, and no `take` throws
      have hloop := controlLoop_done (.boot now) done
      rw [hdone, hloop]
      refine iff_of_true (shutdown_stops _) ⟨now, rfl, fun done' p' rest' hsplit' htaken' => ?_⟩
      rw [hsplit', controlLoop_throws (.boot now) done' rest' htaken'] at hloop
      exact absurd (congrArg Prod.snd hloop) (Bool.false_ne_true ∘ Eq.symm)
    · -- a `take` throws: the log stays as the iterations before it left it
      have hloop := controlLoop_throws (.boot now) done rest htaken
      rw [hsplit, hloop, if_pos rfl, List.append_nil]
      constructor
      · intro hstopped
        refine ⟨now, rfl, fun done' p' rest' hsplit' htaken' => ?_⟩
        rw [hsplit', controlLoop_throws (.boot now) done' rest' htaken'] at hloop
        have hsame : (Loop.boot now).passes done' = (Loop.boot now).passes done :=
          congrArg Prod.fst hloop
        exact (leftStopped_passes now done').mp (hsame ▸ hstopped)
      · intro hfound
        obtain ⟨now', hnow, hall⟩ := hfound
        cases hnow
        exact (leftStopped_passes now done).mpr (hall done p rest rfl htaken)

/-- A sleep frame in the first iteration, and a `take` that throws in the second. -/
def sleepThenThrow : Environment where
  commInit := true
  joystickInit := true
  reader := some 0
  passes := [⟨some [(⟨true, firstFrame { mode := some 0 }⟩, 20000000)], 20000000⟩,
    ⟨none, 40000000⟩]

/-- A walk in the first iteration, and a `take` that throws in the second. -/
def walkThenThrow : Environment :=
  { sleepThenThrow with
    passes := [⟨some [(⟨true, firstFrame forward⟩, 20000000)], 20000000⟩, ⟨none, 40000000⟩] }

/-- The sleeping robot is left stopped, and the exception found it so. -/
theorem sleeper_left_stopped : ((main sleepThenThrow).1 = 1 ∧ LeftStopped (main sleepThenThrow).2) ∧
    ∃ now, sleepThenThrow.reader = some now ∧
      ∀ done p rest, sleepThenThrow.passes = List.map Pass.ofBatch done ++ p :: rest →
        p.taken = none → latestMark now (unitsOf done) = .pressed modeSleep ∧
          ∀ v ∈ velocityLeft now (unitsOf done), v = .zero := by
  have hstopped : LeftStopped (main sleepThenThrow).2 := by decide +kernel
  exact ⟨⟨by decide +kernel, hstopped⟩, (left_stopped_iff sleepThenThrow rfl rfl).mp hstopped⟩

/-- The walking robot is left walking. -/
theorem walker_left_moving : walkThenThrow.commInit = true ∧ walkThenThrow.joystickInit = true ∧
    (main walkThenThrow).1 = 1 ∧ modeSet (main walkThenThrow).2 = some modeMove ∧
      ¬ LeftStopped (main walkThenThrow).2 := by
  decide +kernel

end SvanVoice
