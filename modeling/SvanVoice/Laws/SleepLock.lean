import SvanVoice.Laws.Brain

/-!
# The sleep lock

A sleeping robot is not to walk until it is told to stand. The lock is a rule in the prompt: the
model reads the last robot state there and refuses. Nothing checks the rule again when the reply is
committed, and the state may have changed while the call waited.

`sleep_lock_kept`: if the model obeys the rule on what it is shown, then no step puts a sleeping
brain in mode 4 in any run where each commit to a sleeping brain answers a prompt that showed it
asleep. The invariant is about the calls under way (`Obedient`): one that was shown a sleeping robot
holds no reply in mode 4.
-/

set_option autoImplicit false

namespace SvanVoice

/-- The mode of the last robot state a call's prompt shows. -/
def Call.shownMode (c : Call) : Option Int := c.prompt.bind fun p => p.lastState.mode

/-- The model obeys the lock: a call that was shown mode 0 gets no reply in mode 4. -/
def Obeys (libs : Libs) (b : Brain) : BrainAction → Prop
  | .turn id (.replies chunks) =>
    ∀ c ∈ b.calls[id]?, c.shownMode = some 0 →
      ∀ ns ∈ (decodeReply libs (rawMessage chunks)).toOption, ns.mode ≠ some 4
  | _ => True

/-- A successful commit to a sleeping brain is by a call that was shown a sleeping robot. -/
def ShownAsleep (b : Brain) (a : BrainAction) : Prop :=
  ∀ A ∈ b.committing a, b.globals.currentRobotState.mode = some 0 → A.2.shownMode = some 0

/-- The step does not change the state from mode 0 to mode 4. -/
def KeepsSleepLock (libs : Libs) (b : Brain) (a : BrainAction) : Prop :=
  ∀ t ∈ b.step libs a,
    ¬ (b.globals.currentRobotState.mode = some 0 ∧ t.globals.currentRobotState.mode = some 4)

section Decidable

variable (libs : Libs) (b : Brain) (a : BrainAction)

instance : Decidable (Obeys libs b a) := by
  unfold Obeys
  split <;> infer_instance

instance : Decidable (ShownAsleep b a) := by
  unfold ShownAsleep
  infer_instance

instance : Decidable (KeepsSleepLock libs b a) := by
  unfold KeepsSleepLock
  infer_instance

end Decidable

/-! ## The calls under way -/

/-- A call that was shown a sleeping robot holds no reply in mode 4, decoded or not. -/
def Obedient (libs : Libs) (c : Call) : Prop :=
  c.shownMode = some 0 → ∀ ns,
    (∃ raw, c.phase = .received raw ∧ decodeReply libs raw = .ok ns) ∨ c.phase = .labelled ns →
      ns.mode ≠ some 4

section Step

variable {libs : Libs} {b t : Brain} {a : BrainAction}

/-- One turn keeps the call obedient, if the model obeys. -/
theorem turn_obedient {id : Nat} {turn : Turn} {c c' : Call} {g' : Globals}
    (hc : b.calls[id]? = some c) (h : processTextCommand libs b.globals id c turn = some (g', c'))
    (hobeys : Obeys libs b (.turn id turn)) (hobedient : Obedient libs c) : Obedient libs c' := by
  intro hasleep ns hholds
  rcases hholds with ⟨raw, hphase, hdecode⟩ | hphase
  · -- a reply that has just arrived obeys by the rule
    obtain ⟨chunks, rfl, rfl, hprompt⟩ := turn_received h hphase
    rw [Call.shownMode, hprompt] at hasleep
    refine hobeys c hc hasleep ns ?_
    rw [hdecode]
    rfl
  · -- a state just validated comes from the reply the call held
    obtain ⟨raw, hraw, hdecode, hprompt⟩ := turn_labelled h hphase
    rw [Call.shownMode, hprompt] at hasleep
    exact hobedient hasleep ns (.inl ⟨raw, hraw, hdecode⟩)

/-- One step keeps every call obedient, if the model obeys. -/
theorem step_obedient (h : b.step libs a = some t) (hobeys : Obeys libs b a)
    (hb : ∀ c ∈ b.calls, Obedient libs c) : ∀ c ∈ t.calls, Obedient libs c := by
  rcases Brain.step_cases h with ⟨thread, text, rfl, -, hcalls⟩ |
    ⟨id, turn, c, c', rfl, hc, hturn, hcalls⟩
  · rw [hcalls]
    intro c hmem
    rcases List.mem_append.mp hmem with hold | hnew
    · exact hb c hold
    · -- a new call has no prompt
      rw [List.mem_singleton.mp hnew]
      exact fun hasleep => by cases hasleep
  · rw [hcalls]
    intro c₁ hmem
    rcases List.mem_or_eq_of_mem_set hmem with hold | rfl
    · exact hb c₁ hold
    · exact turn_obedient hc hturn hobeys (hb c (List.mem_of_getElem? hc))

/-- One step from obedient calls keeps the lock, if the commit was shown what it commits to. -/
theorem step_keepsSleepLock (hb : ∀ c ∈ b.calls, Obedient libs c) (hshown : ShownAsleep b a) :
    KeepsSleepLock libs b a := by
  intro t ht hwakes
  obtain ⟨hasleep, hmove⟩ := hwakes
  rcases Brain.step_cases ht with ⟨_, _, -, hsame, -⟩ | ⟨id, turn, c, c', rfl, hc, hturn, -⟩
  · rw [hsame, hasleep] at hmove
    exact absurd hmove (by decide)
  · rcases turn_assigned hturn with ⟨ns, hphase, rfl, hg⟩ | ⟨e, -, -, hg⟩ | ⟨hstate, -⟩
    · -- the commit of an obedient call that was shown the sleeping robot
      have hcompleting : c.completing = true := by rw [Call.completing, hphase]
      have hshow := hshown (id, c) (Brain.committing_eq_some.mpr ⟨rfl, hc, hcompleting⟩) hasleep
      rw [hg] at hmove
      exact hb c (List.mem_of_getElem? hc) hshow ns (.inr hphase) hmove
    · -- the safe state stands
      rw [hg] at hmove
      exact absurd (show safeState.mode = some 4 from hmove) (by decide)
    · rw [hstate, hasleep] at hmove
      exact absurd hmove (by decide)

end Step

/-- **When the sleep lock holds.** In a run where the model obeys the lock on what it is shown, and
each successful commit to a sleeping brain is by a call that was shown a sleeping robot, no step
changes the state from mode 0 to mode 4. -/
theorem sleep_lock_kept (libs : Libs) (as : List BrainAction)
    (hobeys : Trace.Along (Brain.step libs) (Obeys libs) {} as)
    (hshown : Trace.Along (Brain.step libs) ShownAsleep {} as) :
    Trace.Along (Brain.step libs) (KeepsSleepLock libs) {} as := by
  intro pre a post b hsplit hpre
  have hstart : ∀ c ∈ ({} : Brain).calls, Obedient libs c := fun c hc => absurd hc List.not_mem_nil
  subst hsplit
  have hobedient := Trace.invariant_along (I := fun b : Brain => ∀ c ∈ b.calls, Obedient libs c)
    (fun _ _ _ hs hobeys ht => step_obedient ht hobeys hs) hstart hobeys.left hpre
  exact step_keepsSleepLock hobedient (hshown pre a post b rfl hpre)

/-- A sleeping robot is told to walk and refuses, is told to stand, and walks. -/
def refuseThenWalk : List BrainAction :=
  ask 0 .web "walk forward" ++ answer 0 sleepReply ++ finish 0 ++ ask 1 .mic "stand up" ++
    answer 1 standReply ++ finish 1 ++ ask 2 .web "walk forward" ++ answer 2 walkReply

/-- The run reaches mode 4, and no step of it goes there from mode 0. -/
theorem lock_kept_on_refusal :
    (Trace.run (Brain.step plainLibs) {} refuseThenWalk).any
        (fun b => b.globals.currentRobotState.mode = some 4) = true ∧
      Trace.Along (Brain.step plainLibs) (KeepsSleepLock plainLibs) {} refuseThenWalk :=
  ⟨by decide +kernel,
    sleep_lock_kept plainLibs refuseThenWalk (by decide +kernel) (by decide +kernel)⟩

/-- The model obeys, the threads schedule the run, and the late walk wakes the sleeping robot. -/
theorem late_walk_breaks_lock :
    (Trace.run (Brain.scheduled plainLibs) {}
        (lateWalk .web .mic "go to sleep" sleepReply)).isSome = true ∧
      Trace.Along (Brain.step plainLibs) (Obeys plainLibs) {}
        (lateWalk .web .mic "go to sleep" sleepReply) ∧
      ¬ Trace.Along (Brain.step plainLibs) (KeepsSleepLock plainLibs) {}
        (lateWalk .web .mic "go to sleep" sleepReply) := by
  decide +kernel

end SvanVoice
