import SvanVoice.Laws.Brain

/-!
# The order of the commits

`process_text_command` waits for the model between its prompt and its commit, and the lock guards
the assignment alone. So the state belongs to the call that commits last, not to the one that
started last: `commits_replace` says so, and that only the microphone thread, which waits for each
of its calls, keeps its own commands in order.
-/

set_option autoImplicit false

namespace SvanVoice

/-- A successful commit of a call `A` leaves the state, where the reply of a call `B` that started
after `A` was committed before. The pairs of threads asked about are those of `P`. -/
def NotOvertaken (libs : Libs) (P : Thread → Thread → Prop) (b : Brain) (a : BrainAction) : Prop :=
  ∀ A ∈ b.committing a, ∀ x ∈ b.globals.assigned, A.1 < x.call → x.fromReply = true →
    ∀ cB ∈ b.calls[x.call]?, P A.2.thread cB.thread →
      ∀ t ∈ b.scheduled libs a, t.globals.currentRobotState = b.globals.currentRobotState

instance (libs : Libs) (P : Thread → Thread → Prop) [∀ s t, Decidable (P s t)] (b : Brain)
    (a : BrainAction) : Decidable (NotOvertaken libs P b a) := by
  unfold NotOvertaken
  infer_instance

/-- A successful commit installs the call's own reply. -/
theorem commit_current {libs : Libs} {b t : Brain} {id : Nat} {c : Call} {ns : StateDict}
    (hc : b.calls[id]? = some c) (hphase : c.phase = .labelled ns)
    (h : b.step libs (.turn id .runs) = some t) : t.globals.currentRobotState = ns := by
  rcases Brain.step_cases h with ⟨_, _, hcall, -, -⟩ | ⟨_, _, c₀, _, hturn, hc₀, hmove, -⟩
  · cases hcall
  · cases hturn
    cases hc.symm.trans hc₀
    simp only [processTextCommand, hphase, Option.some.injEq, Prod.mk.injEq] at hmove
    rw [← hmove.1]
    rfl

/-- **The last commit wins.** In every scheduled run the state is the last one assigned; a
successful commit replaces it by its own reply, whoever committed before (a walk for a sleeping
robot aside); and of the microphone thread's calls none is overtaken. -/
theorem commits_replace (libs : Libs) (as : List BrainAction) (b : Brain)
    (hrun : Trace.run (Brain.scheduled libs) {} as = some b) :
    b.globals.currentRobotState = Brain.lastAssigned b.globals.assigned ∧
      (∀ id c ns t, b.calls[id]? = some c → c.phase = .labelled ns →
        ¬ (b.globals.currentRobotState.mode = some 0 ∧ ns.mode = some 4) →
          b.scheduled libs (.turn id .runs) = some t → t.globals.currentRobotState = ns) ∧
      Trace.Along (Brain.scheduled libs) (NotOvertaken libs fun s t => s = .mic ∧ t = .mic)
        {} as := by
  refine ⟨Brain.run_lastAssigned (Brain.run_of_scheduled hrun), ?_, ?_⟩
  · intro id c ns t hc hphase _ ht
    exact commit_current hc hphase (Brain.scheduled_eq_some.mp ht).2
  · -- a completing call of the microphone has no later one, so nothing overtook it
    intro pre a post s _ hpre A hcommits x _ hlt _ cB hB hmics t _
    obtain ⟨id, cA⟩ := A
    obtain ⟨-, hA, hcompleting⟩ := Brain.committing_eq_some.mp hcommits
    have hended := Brain.run_micSerial hpre id x.call cA cB hlt hA hB hmics.1 hmics.2
    rw [Call.not_ended_of_completing hcompleting] at hended
    cases hended

/-- Three calls of the microphone, one after the other, with the last still waiting. -/
def micInTurn : List BrainAction :=
  ask 0 .mic "stand up" ++ answer 0 standReply ++ finish 0 ++ ask 1 .mic "walk forward" ++
    answer 1 walkReply ++ finish 1 ++ ask 2 .mic "go to sleep"

/-- The microphone's walk is in force while its next command waits. -/
theorem walk_in_force : ∃ b, Trace.run (Brain.scheduled plainLibs) {} micInTurn = some b ∧
    b.globals.currentRobotState = Brain.lastAssigned b.globals.assigned ∧
      b.globals.currentRobotState.mode = some 4 := by
  obtain ⟨b, hrun, hmode⟩ := (Option.any_eq_true
    (fun b : Brain => decide (b.globals.currentRobotState.mode = some 4))
    (Trace.run (Brain.scheduled plainLibs) {} micInTurn)).mp (by decide +kernel)
  exact ⟨b, hrun, (commits_replace plainLibs micInTurn b hrun).1, of_decide_eq_true hmode⟩

/-- A walk asked for before a stop overtakes it: the stop is committed first, and the brain ends in
mode 4. -/
def WalkOvertakesStop (walker stopper : Thread) : Prop :=
  (Trace.run (Brain.scheduled plainLibs) {} (lateWalk walker stopper "stop" standReply)).any
      (fun b => b.globals.currentRobotState.mode = some 4) = true ∧
    ¬ Trace.Along (Brain.scheduled plainLibs) (NotOvertaken plainLibs fun _ _ => True) {}
      (lateWalk walker stopper "stop" standReply)

instance (walker stopper : Thread) : Decidable (WalkOvertakesStop walker stopper) :=
  inferInstanceAs (Decidable (_ ∧ _))

/-- Whichever threads run the two, the microphone alone excepted, the walk overtakes the stop. -/
theorem walk_overtakes_stop :
    WalkOvertakesStop .web .web ∧ WalkOvertakesStop .web .mic ∧ WalkOvertakesStop .mic .web := by
  decide +kernel

end SvanVoice
