import SvanVoice.Laws.Agreement

/-!
# The states that are published

The heartbeat publishes copies of a dictionary that any number of calls write, from their success
and from their error paths. `snapshots_genuine` says what it can ever see: the initial state, the
safe state, or the whole state of one reply that has arrived and was validated. Each of these has
all six keys, its velocities within the validator's bounds and the label of its own mode.

The induction follows a reply through its call. A call that holds a reply, decoded or not, holds one
that arrived (`Sourced`), and a commit installs what its call holds, whatever the other calls do.
-/

set_option autoImplicit false

namespace SvanVoice

/-! ## What a state should be -/

/-- A state with all its keys, each within its bounds. -/
structure StateDict.Valid (state : StateDict) : Prop where
  mode : ∃ m, state.mode = some m ∧ state.modeName = some (modeLabel (some m))
  xVelocity : ∃ x, state.xVelocity = some x ∧ -1 / 2 ≤ x ∧ x ≤ 1 / 2
  yVelocity : ∃ y, state.yVelocity = some y ∧ -2 / 5 ≤ y ∧ y ≤ 2 / 5
  yawVelocity : ∃ w, state.yawVelocity = some w ∧ -4 / 5 ≤ w ∧ w ≤ 4 / 5
  speed : ∃ v, state.speed = some v

/-- A validated command commits a valid state. -/
theorem LLMCommand.labelled_valid (c : LLMCommand) : c.labelled.Valid where
  mode := ⟨c.mode, rfl, rfl⟩
  xVelocity := ⟨c.xVelocity, rfl, c.xVelocity.2⟩
  yVelocity := ⟨c.yVelocity, rfl, c.yVelocity.2⟩
  yawVelocity := ⟨c.yawVelocity, rfl, c.yawVelocity.2⟩
  speed := ⟨c.speed, rfl⟩

/-- A state at rest in a known mode is valid. -/
theorem valid_of_rest {state : StateDict} {m : Int} {speed : String}
    (h : state = ⟨some m, some (modeLabel (some m)), some 0, some 0, some 0, some speed⟩) :
    state.Valid := by
  subst h
  exact ⟨⟨m, rfl, rfl⟩, ⟨0, rfl, by norm_num, by norm_num⟩, ⟨0, rfl, by norm_num, by norm_num⟩,
    ⟨0, rfl, by norm_num, by norm_num⟩, ⟨speed, rfl⟩⟩

theorem initialState_valid : initialState.Valid := valid_of_rest rfl

theorem safeState_valid : safeState.Valid := valid_of_rest rfl

/-! ## Where a state comes from -/

/-- The state is the whole of one reply that has arrived. -/
def Replied (libs : Libs) (as : List BrainAction) (state : StateDict) : Prop :=
  ∃ id chunks, .turn id (.replies chunks) ∈ as ∧
    decodeReply libs (rawMessage chunks) = .ok state

/-- The state is the initial one, the safe one, or the whole of one reply. -/
def Genuine (libs : Libs) (as : List BrainAction) (state : StateDict) : Prop :=
  state = initialState ∨ state = safeState ∨ Replied libs as state

section Genuine

variable {libs : Libs} {as : List BrainAction} {state : StateDict}

theorem Replied.append (h : Replied libs as state) (bs : List BrainAction) :
    Replied libs (as ++ bs) state := by
  obtain ⟨id, chunks, hmem, hdecode⟩ := h
  exact ⟨id, chunks, List.mem_append_left bs hmem, hdecode⟩

theorem Genuine.append (h : Genuine libs as state) (bs : List BrainAction) :
    Genuine libs (as ++ bs) state :=
  h.imp_right fun h => h.imp_right fun h => h.append bs

/-- A genuine state is valid. -/
theorem Genuine.valid (h : Genuine libs as state) : state.Valid := by
  rcases h with rfl | rfl | ⟨id, chunks, -, hdecode⟩
  · exact initialState_valid
  · exact safeState_valid
  · obtain ⟨fields, c, -, -, rfl⟩ := decodeReply_ok hdecode
    exact c.labelled_valid

end Genuine

/-! ## The calls under way -/

/-- What a call holds has arrived: its reply, and the state it validated. -/
structure Sourced (libs : Libs) (as : List BrainAction) (c : Call) : Prop where
  received : ∀ raw, c.phase = .received raw →
    ∃ id chunks, .turn id (.replies chunks) ∈ as ∧ raw = rawMessage chunks
  validated : ∀ ns, c.newState = some ns → Replied libs as ns

theorem Sourced.append {libs : Libs} {as : List BrainAction} {c : Call} (h : Sourced libs as c)
    (bs : List BrainAction) : Sourced libs (as ++ bs) c := by
  refine ⟨fun raw hphase => ?_, fun ns hnew => (h.validated ns hnew).append bs⟩
  obtain ⟨id, chunks, hmem, hraw⟩ := h.received raw hphase
  exact ⟨id, chunks, List.mem_append_left bs hmem, hraw⟩

section Step

variable {libs : Libs} {as : List BrainAction} {b t : Brain}

/-- One turn keeps its call sourced. -/
theorem turn_sourced {g g' : Globals} {id : Nat} {turn : Turn} {c c' : Call}
    (h : processTextCommand libs g id c turn = some (g', c')) (hc : Sourced libs as c) :
    Sourced libs (as ++ [.turn id turn]) c' := by
  constructor
  · intro raw hphase
    obtain ⟨chunks, rfl, hraw, -⟩ := turn_received h hphase
    exact ⟨id, chunks, List.mem_append_right as (List.mem_singleton.mpr rfl), hraw⟩
  · -- a state just validated comes from the reply the call held
    intro ns hnew
    rcases turn_newState h hnew with hold | ⟨raw, hheld, hdecode⟩
    · exact (hc.validated ns hold).append _
    · obtain ⟨j, chunks, hmem, rfl⟩ := hc.received raw hheld
      exact ⟨j, chunks, List.mem_append_left _ hmem, hdecode⟩

/-- One step keeps every call sourced. -/
theorem step_sourced {a : BrainAction} (h : b.step libs a = some t)
    (hb : ∀ c ∈ b.calls, Sourced libs as c) : ∀ c ∈ t.calls, Sourced libs (as ++ [a]) c := by
  rcases Brain.step_cases h with ⟨thread, text, rfl, -, hcalls⟩ |
    ⟨id, turn, c, c', rfl, hc, hturn, hcalls⟩
  · rw [hcalls]
    intro c hmem
    rcases List.mem_append.mp hmem with hold | hnew
    · exact (hb c hold).append _
    · -- a new call holds nothing
      rw [List.mem_singleton.mp hnew]
      exact ⟨nofun, nofun⟩
  · rw [hcalls]
    intro c₁ hmem
    rcases List.mem_or_eq_of_mem_set hmem with hold | rfl
    · exact (hb c₁ hold).append _
    · exact turn_sourced hturn (hb c (List.mem_of_getElem? hc))

/-- One step keeps the state genuine: a commit installs what its call holds. -/
theorem step_genuine {a : BrainAction} (h : b.step libs a = some t)
    (hb : ∀ c ∈ b.calls, Sourced libs as c) (hstate : Genuine libs as b.globals.currentRobotState) :
    Genuine libs (as ++ [a]) t.globals.currentRobotState := by
  rcases Brain.step_cases h with ⟨_, _, -, hsame, -⟩ | ⟨id, turn, c, c', -, hc, hturn, -⟩
  · rw [hsame]
    exact hstate.append _
  · rcases turn_assigned hturn with ⟨ns, hphase, -, hg⟩ | ⟨e, -, -, hg⟩ | ⟨hsame, -⟩
    · rw [hg]
      have hnew : c.newState = some ns := by rw [Call.newState, hphase]
      exact .inr (.inr (((hb c (List.mem_of_getElem? hc)).validated ns hnew).append _))
    · rw [hg]
      exact .inr (.inl rfl)
    · rw [hsame]
      exact hstate.append _

/-- In every run of the brain, under any interleaving, the calls are sourced and the state is
genuine. -/
theorem run_sourced (h : Trace.run (Brain.step libs) {} as = some b) :
    (∀ c ∈ b.calls, Sourced libs as c) ∧ Genuine libs as b.globals.currentRobotState := by
  refine Trace.history
    (I := fun as (b : Brain) => (∀ c ∈ b.calls, Sourced libs as c) ∧
      Genuine libs as b.globals.currentRobotState)
    ⟨fun _ hc => absurd hc List.not_mem_nil, .inl rfl⟩ (fun _ _ _ _ _ hstep hinv => ?_) h
  obtain ⟨hcalls, hstate⟩ := hinv
  exact ⟨step_sourced hstep hcalls, step_genuine hstep hcalls hstate⟩

end Step

/-! ## The heartbeat -/

/-- The brain's part of an action. -/
def SystemAction.brain? : SystemAction → Option BrainAction
  | .brain a => some a
  | _ => none

/-- What the brain does in a run of the system. -/
def brainActions (as : List SystemAction) : List BrainAction := as.filterMap SystemAction.brain?

section Heartbeat

variable {libs : Libs} {s t : System} {as : List SystemAction}

theorem brainActions_append (as bs : List SystemAction) :
    brainActions (as ++ bs) = brainActions as ++ brainActions bs := List.filterMap_append

/-- The brain takes a step, or the action is none of its own. -/
theorem System.step_brain {a : SystemAction} (h : s.step libs a = some t) :
    (∃ ba, a.brain? = some ba ∧ s.brain.scheduled libs ba = some t.brain) ∨
      a.brain? = none ∧ t.brain = s.brain := by
  rcases System.step_inv h with ⟨ba, brain, rfl, hbrain, rfl⟩ | ⟨rfl, rfl⟩ |
    ⟨_, _, _, rfl, -, -, rfl⟩ | ⟨_, _, rfl, -, -, rfl⟩
  · exact .inl ⟨ba, rfl, hbrain⟩
  · exact .inr ⟨rfl, rfl⟩
  · exact .inr ⟨rfl, rfl⟩
  · exact .inr ⟨rfl, rfl⟩

/-- A run of the system is a run of its brain. -/
theorem System.run_brain (h : Trace.run (System.step libs) s as = some t) :
    Trace.run (Brain.scheduled libs) s.brain (brainActions as) = some t.brain :=
  Trace.run_filterMap (g := System.brain) (fun _ _ _ hstep => step_brain hstep) h

/-- A state the heartbeat holds or has published was its own copy before, or is the state it copies
now. -/
theorem System.step_snapshot {a : SystemAction} (h : s.step libs a = some t) {state : StateDict}
    (hstate : t.stateSnapshot = some state ∨ state ∈ t.link.sent.map Prod.fst) :
    (s.stateSnapshot = some state ∨ state ∈ s.link.sent.map Prod.fst) ∨
      state = s.brain.globals.currentRobotState := by
  rcases System.step_inv h with ⟨_, _, -, -, rfl⟩ | ⟨-, rfl⟩ |
    ⟨snapshot, noise, link, -, hheld, hlink, rfl⟩ | ⟨la, link, -, hnone, hlink, rfl⟩
  · exact .inl hstate
  · rcases hstate with hcopy | hsent
    · exact .inr (Option.some.inj hcopy).symm
    · exact .inl (.inr hsent)
  · rcases hstate with hcopy | hsent
    · cases hcopy
    · cases hlink
      rw [List.map_append, List.mem_append] at hsent
      rcases hsent with hold | hnew
      · exact .inl (.inr hold)
      · exact .inl (.inl (hheld.trans (congrArg some (List.mem_singleton.mp hnew).symm)))
  · have hsent := Link.step_sent hlink []
    rw [hnone, List.append_nil, DDSPublisher.publishAll, DDSPublisher.publishAll, List.append_nil,
      List.append_nil] at hsent
    rw [hsent] at hstate
    exact .inl hstate

/-- **The topic is genuine** in every run of the system. -/
theorem System.run_genuine {start : Int}
    (h : Trace.run (System.step libs) (System.init start) as = some s) :
    ∀ f ∈ s.link.sent, Genuine libs (brainActions as) f.1 := by
  have hall := Trace.history
    (I := fun as (s : System) => ∀ state,
      s.stateSnapshot = some state ∨ state ∈ s.link.sent.map Prod.fst →
        Genuine libs (brainActions as) state) (fun state hstate => ?_)
    (fun as a t u ht hstep hinv state hstate => ?_) h
  · exact fun f hf => hall f.1 (.inr (List.mem_map_of_mem hf))
  · rcases hstate with hcopy | hsent
    · cases hcopy
    · cases hsent
  · rw [brainActions_append]
    rcases System.step_snapshot hstep hstate with hheld | rfl
    · exact (hinv state hheld).append _
    · exact (run_sourced (Brain.run_of_scheduled (System.run_brain ht))).2.append _

end Heartbeat

/-- **Every published state is genuine.** Under any interleaving of any number of calls, with any
replies and failures, the state the heartbeat may copy is the initial one, the safe one or the whole
of one validated reply, and it is valid; and so is every snapshot the system publishes. -/
theorem snapshots_genuine (libs : Libs) :
    (∀ as b, Trace.run (Brain.step libs) {} as = some b →
        b.globals.currentRobotState.Valid ∧ Genuine libs as b.globals.currentRobotState) ∧
      ∀ start as s, Trace.run (System.step libs) (System.init start) as = some s →
        ∀ f ∈ s.link.sent, f.1.Valid ∧ Genuine libs (brainActions as) f.1 := by
  refine ⟨fun as b h => ⟨(run_sourced h).2.valid, (run_sourced h).2⟩, fun start as s h f hf => ?_⟩
  have hgenuine := System.run_genuine h f hf
  exact ⟨hgenuine.valid, hgenuine⟩

end SvanVoice
