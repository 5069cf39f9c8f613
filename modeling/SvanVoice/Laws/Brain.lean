import SvanVoice.Model.Brain

/-!
# What one turn of a call does

A reply that is decoded is a validated command, dumped and labelled (`decodeReply_ok`). The lemmas
of the second section read the statements of `process_text_command` once: what a turn does to the
state and its record, and from where a call reaches a reply and a validated state. The laws above
this module use them and do not unfold the turn.

Two invariants follow. The state is always the last one assigned (`LastAssigned`), in every run.
And the microphone thread works through its calls one at a time (`MicSerial`), in every scheduled
run.
-/

set_option autoImplicit false

namespace SvanVoice

/-! ## A reply -/

/-- The state a validated command commits: its dump with the label of its mode. -/
def LLMCommand.labelled (c : LLMCommand) : StateDict :=
  { c.modelDump with modeName := some (modeLabel (some c.mode)) }

/-- **What a decoded reply is**: one validated command, labelled. -/
theorem decodeReply_ok {libs : Libs} {raw : String} {state : StateDict}
    (h : decodeReply libs raw = .ok state) :
    ∃ fields c, libs.loads raw = .ok (.obj fields) ∧ LLMCommand.validate libs fields = some c ∧
      state = c.labelled := by
  unfold decodeReply at h
  split at h
  · cases h
  · cases hvalue : libs.loads raw with
    | error e =>
      rw [hvalue] at h
      cases h
    | ok value =>
      rw [hvalue] at h
      cases value with
      | obj fields =>
        cases hvalid : LLMCommand.validate libs fields with
        | none =>
          simp only [LLMCommand.ofJson, hvalid, bind, Except.bind, reduceCtorEq] at h
        | some c =>
          simp only [LLMCommand.ofJson, hvalid, bind, Except.bind, Except.ok.injEq] at h
          exact ⟨fields, c, rfl, hvalid, h.symm⟩
      | _ => cases h

/-! ## A turn -/

section Turn

variable {libs : Libs} {g g' : Globals} {id : Nat} {c c' : Call} {t : Turn}

theorem turn_thread (h : processTextCommand libs g id c t = some (g', c')) :
    c'.thread = c.thread := by
  revert h
  fun_cases processTextCommand libs g id c t <;> intro h <;> cases h <;> rfl

theorem turn_text (h : processTextCommand libs g id c t = some (g', c')) : c'.text = c.text := by
  revert h
  fun_cases processTextCommand libs g id c t <;> intro h <;> cases h <;> rfl

/-- An ended call takes no turn. -/
theorem turn_of_ended (hended : c.hasEnded = true) : processTextCommand libs g id c t = none := by
  cases hphase : c.phase with
  | ended r => cases t <;> simp only [processTextCommand, hphase]
  | _ => simp only [Call.hasEnded, hphase, Bool.false_eq_true] at hended

/-- **What a turn does to the state**: it commits a validated reply, installs the safe state, or
leaves the state and its record alone. -/
theorem turn_assigned (h : processTextCommand libs g id c t = some (g', c')) :
    (∃ ns, c.phase = .labelled ns ∧ t = .runs ∧ g' = g.assign id ns true) ∨
      (∃ e, c.phase = .failing e ∧ t = .runs ∧ g' = g.assign id safeState false) ∨
      g'.currentRobotState = g.currentRobotState ∧ g'.assigned = g.assigned := by
  revert h
  fun_cases processTextCommand libs g id c t <;> intro h <;> cases h
  case case6 ns hphase => exact .inl ⟨ns, hphase, rfl, rfl⟩
  case case11 e hphase => exact .inr (.inl ⟨e, hphase, rfl, rfl⟩)
  all_goals exact .inr (.inr ⟨rfl, rfl⟩)

/-- A call holds a reply only by having just received it. -/
theorem turn_received {raw : String} (h : processTextCommand libs g id c t = some (g', c'))
    (hphase : c'.phase = .received raw) :
    ∃ chunks, t = .replies chunks ∧ raw = rawMessage chunks ∧ c'.prompt = c.prompt := by
  revert h
  fun_cases processTextCommand libs g id c t <;> intro h <;> cases h <;> cases hphase
  exact ⟨_, rfl, rfl, rfl⟩

/-- A call holds a new state only by having just validated the reply it held. -/
theorem turn_labelled {ns : StateDict} (h : processTextCommand libs g id c t = some (g', c'))
    (hphase : c'.phase = .labelled ns) :
    ∃ raw, c.phase = .received raw ∧ decodeReply libs raw = .ok ns ∧ c'.prompt = c.prompt := by
  revert h
  fun_cases processTextCommand libs g id c t <;> intro h <;> cases h <;> cases hphase
  exact ⟨_, ‹_›, ‹_›, rfl⟩

/-- The state a call has validated, from then on. -/
def Call.newState (c : Call) : Option StateDict :=
  match c.phase with
  | .labelled ns | .committed ns | .appended ns | .overfull ns | .ended (.success ns) => some ns
  | _ => none

/-- A call has a new state by having just validated it, or had it before. -/
theorem turn_newState {ns : StateDict} (h : processTextCommand libs g id c t = some (g', c'))
    (hnew : c'.newState = some ns) :
    c.newState = some ns ∨ ∃ raw, c.phase = .received raw ∧ decodeReply libs raw = .ok ns := by
  revert h
  fun_cases processTextCommand libs g id c t <;> intro h <;> cases h
  case case4 raw hphase ns' hdecode =>
    cases hnew
    exact .inr ⟨raw, hphase, hdecode⟩
  case case6 hphase | case7 hphase | case8 hphase _ | case9 hphase _ | case10 hphase =>
    refine .inl (Eq.trans ?_ hnew)
    simp only [Call.newState, hphase]
  all_goals cases hnew

end Turn

/-- The state a call has returned with success. -/
def Call.success? (c : Call) : Option StateDict :=
  match c.phase with
  | .ended (.success ns) => some ns
  | _ => none

theorem Call.success?_eq_some {c : Call} {ns : StateDict} :
    c.success? = some ns ↔ c.phase = .ended (.success ns) := by
  unfold Call.success?
  split
  · next ns' hphase => rw [hphase, Option.some.injEq, Phase.ended.injEq, Result.success.injEq]
  · next hphase => exact iff_of_false (fun h => by cases h) (hphase ns)

/-- The call's next turn is its successful commit. -/
def Call.completing (c : Call) : Bool :=
  match c.phase with
  | .labelled _ => true
  | _ => false

/-- A completing call has not ended. -/
theorem Call.not_ended_of_completing {c : Call} (h : c.completing = true) : c.hasEnded = false := by
  cases hphase : c.phase with
  | labelled ns => simp only [Call.hasEnded, hphase]
  | _ => simp only [Call.completing, hphase, Bool.false_eq_true] at h

/-! ## A step -/

namespace Brain

variable {libs : Libs} {b t : Brain}

/-- **What a step of the brain does**: it starts a call, or one call takes a turn. -/
theorem step_cases {a : BrainAction} (h : b.step libs a = some t) :
    (∃ thread text, a = .call thread text ∧ t.globals = b.globals ∧
        t.calls = b.calls ++ [{ thread := thread, text := text }]) ∨
      ∃ id turn c c', a = .turn id turn ∧ b.calls[id]? = some c ∧
        processTextCommand libs b.globals id c turn = some (t.globals, c') ∧
          t.calls = b.calls.set id c' := by
  cases a with
  | call thread text =>
    cases h
    exact .inl ⟨thread, text, rfl, rfl, rfl⟩
  | turn id turn =>
    obtain ⟨c, hc, hturn⟩ := Option.bind_eq_some_iff.mp h
    obtain ⟨⟨g', c'⟩, hg, rfl⟩ := Option.map_eq_some_iff.mp hturn
    exact .inr ⟨id, turn, c, c', rfl, hc, hg, rfl⟩

/-- **What a step leaves of each call**: it is there before, of the same thread, and an ended call
stays ended; or it is the new one, the last. -/
theorem step_call {a : BrainAction} {i : Nat} {c₁ : Call} (h : b.step libs a = some t)
    (hc₁ : t.calls[i]? = some c₁) :
    (∃ c₀, b.calls[i]? = some c₀ ∧ c₀.thread = c₁.thread ∧
        (c₀.hasEnded = true → c₁.hasEnded = true)) ∨
      ∃ thread text, a = .call thread text ∧ i = b.calls.length ∧
        c₁ = { thread := thread, text := text } := by
  rcases step_cases h with ⟨thread, text, rfl, -, hcalls⟩ |
    ⟨id, turn, c, c', rfl, hc, hturn, hcalls⟩
  · rw [hcalls] at hc₁
    rcases Nat.lt_or_ge i b.calls.length with hold | hnew
    · rw [List.getElem?_append_left hold] at hc₁
      exact .inl ⟨c₁, hc₁, rfl, fun hended => hended⟩
    · have hlt := (List.getElem?_eq_some_iff.mp hc₁).1
      rw [List.length_append, List.length_singleton] at hlt
      obtain rfl : i = b.calls.length := by omega
      rw [List.getElem?_concat_length] at hc₁
      exact .inr ⟨thread, text, rfl, rfl, (Option.some.inj hc₁).symm⟩
  · rw [hcalls] at hc₁
    by_cases hid : id = i
    · subst hid
      rw [List.getElem?_set_self (List.getElem?_eq_some_iff.mp hc).1] at hc₁
      cases hc₁
      refine .inl ⟨c, hc, (turn_thread hturn).symm, fun hended => ?_⟩
      rw [turn_of_ended hended] at hturn
      cases hturn
    · rw [List.getElem?_set_ne hid] at hc₁
      exact .inl ⟨c₁, hc₁, rfl, fun hended => hended⟩

/-- The call that commits its reply in this step, with its number. -/
def committing (b : Brain) : BrainAction → Option (Nat × Call)
  | .turn id .runs => (b.calls[id]?.filter Call.completing).map fun c => (id, c)
  | _ => none

theorem committing_eq_some {a : BrainAction} {id : Nat} {c : Call} :
    b.committing a = some (id, c) ↔
      a = .turn id .runs ∧ b.calls[id]? = some c ∧ c.completing = true := by
  cases a with
  | call thread text => simp only [committing, reduceCtorEq, false_and]
  | turn id' turn =>
    cases turn with
    | runs =>
      simp only [committing, Option.map_eq_some_iff, Option.filter_eq_some_iff, Prod.mk.injEq,
        BrainAction.turn.injEq, and_true]
      constructor
      · rintro ⟨c', ⟨hc, hcompleting⟩, rfl, rfl⟩
        exact ⟨rfl, hc, hcompleting⟩
      · rintro ⟨rfl, hc, hcompleting⟩
        exact ⟨c, ⟨hc, hcompleting⟩, rfl, rfl⟩
    | replies chunks =>
      simp only [committing, BrainAction.turn.injEq, reduceCtorEq, and_false, false_and]
    | raises e =>
      simp only [committing, BrainAction.turn.injEq, reduceCtorEq, and_false, false_and]

/-- A scheduled step is an admitted step. -/
theorem scheduled_eq_some {a : BrainAction} :
    b.scheduled libs a = some t ↔ b.admits a = true ∧ b.step libs a = some t := by
  unfold scheduled
  split
  · next h => exact ⟨fun ht => ⟨h, ht⟩, And.right⟩
  · next h => exact ⟨fun ht => absurd ht (Option.some_ne_none _).symm, fun ht => absurd ht.1 h⟩

/-- A scheduled run is a run. -/
theorem run_of_scheduled {as : List BrainAction} (h : Trace.run (scheduled libs) b as = some t) :
    Trace.run (step libs) b as = some t := by
  induction as generalizing b with
  | nil => exact h
  | cons a as ih =>
    obtain ⟨u, hu, hrun⟩ := Option.bind_eq_some_iff.mp h
    exact Option.bind_eq_some_iff.mpr ⟨u, (scheduled_eq_some.mp hu).2, ih hrun⟩

/-! ## The last assignment -/

/-- The state of the last assignment, the initial state where there is none. -/
def lastAssigned (assigned : List Assignment) : StateDict :=
  (assigned.getLast?.map Assignment.state).getD initialState

theorem lastAssigned_assign (g : Globals) (id : Nat) (state : StateDict) (fromReply : Bool) :
    lastAssigned (g.assign id state fromReply).assigned = state := by
  rw [lastAssigned, Globals.assign, List.getLast?_concat]
  rfl

/-- The state is the last one assigned. -/
def LastAssigned (b : Brain) : Prop :=
  b.globals.currentRobotState = lastAssigned b.globals.assigned

theorem step_lastAssigned {a : BrainAction} (h : b.step libs a = some t) (hb : b.LastAssigned) :
    t.LastAssigned := by
  unfold LastAssigned
  rcases step_cases h with ⟨_, _, -, hsame, -⟩ | ⟨id, turn, c, c', -, -, hturn, -⟩
  · rw [hsame, hb]
  · rcases turn_assigned hturn with ⟨ns, -, -, hg⟩ | ⟨e, -, -, hg⟩ | ⟨hstate, hrecord⟩
    · rw [hg, lastAssigned_assign]
      rfl
    · rw [hg, lastAssigned_assign]
      rfl
    · rw [hstate, hrecord, hb]

/-- In every run the state is the last one assigned. -/
theorem run_lastAssigned {as : List BrainAction} (h : Trace.run (step libs) {} as = some t) :
    t.LastAssigned := by
  have hstart : LastAssigned {} := rfl
  exact Trace.invariant (fun _ _ _ hs ht => step_lastAssigned ht hs) hstart h

/-! ## The microphone thread -/

/-- Of two calls of the microphone thread, the earlier has ended. -/
def MicSerial (b : Brain) : Prop :=
  ∀ (earlier later : Nat) (cA cB : Call), earlier < later → b.calls[earlier]? = some cA →
    b.calls[later]? = some cB → cA.thread = .mic → cB.thread = .mic → cA.hasEnded = true

theorem scheduled_micSerial {a : BrainAction} (h : b.scheduled libs a = some t)
    (hb : b.MicSerial) : t.MicSerial := by
  obtain ⟨hadmits, hstep⟩ := scheduled_eq_some.mp h
  intro earlier later cA cB hlt hA hB hmicA hmicB
  rcases step_call hstep hA with ⟨c₀, hc₀, hthread, hended⟩ | ⟨thread, text, rfl, hend, -⟩
  · rcases step_call hstep hB with ⟨c₁, hc₁, hthread', -⟩ | ⟨thread, text, rfl, -, rfl⟩
    · exact hended (hb earlier later c₀ c₁ hlt hc₀ hc₁ (hthread.trans hmicA) (hthread'.trans hmicB))
    · -- the later call is new: the thread starts it when its others have ended
      obtain rfl : thread = .mic := hmicB
      have hall := List.all_eq_true.mp hadmits c₀ (List.mem_of_getElem? hc₀)
      rw [hthread.trans hmicA] at hall
      exact hended (by simpa using hall)
  · -- the earlier call is the last one: there is no later
    rcases step_call hstep hB with ⟨c₁, hc₁, -⟩ | ⟨_, _, -, hend', -⟩
    · have hlater := (List.getElem?_eq_some_iff.mp hc₁).1
      omega
    · omega

/-- In every scheduled run the microphone thread works through its calls one at a time. -/
theorem run_micSerial {as : List BrainAction} (h : Trace.run (scheduled libs) {} as = some t) :
    t.MicSerial := by
  have hstart : MicSerial {} := fun _ _ _ _ _ hA => by cases hA
  exact Trace.invariant (fun _ _ _ hs ht => scheduled_micSerial ht hs) hstart h

end Brain

/-! ## Three replies -/

def sleepReply : String := "\x7b\"mode\": 0\x7d"
def standReply : String := "\x7b\"mode\": 1\x7d"
def walkReply : String := "\x7b\"mode\": 4, \"x_velocity\": 0.2\x7d"

/-- The state that the last of them commits. -/
def walkState : StateDict where
  mode := some 4
  modeName := some "move"
  xVelocity := some (1 / 5)
  yVelocity := some 0
  yawVelocity := some 0
  speed := some "slow"

/-- The client libraries as far as the three replies go. -/
def plainLibs : Libs where
  loads raw :=
    if raw = sleepReply then .ok (.obj [("mode", .int 0)])
    else if raw = standReply then .ok (.obj [("mode", .int 1)])
    else if raw = walkReply then .ok (.obj [("mode", .int 4), ("x_velocity", .float (1 / 5))])
    else .error "Expecting value: line 1 column 1 (char 0)"
  asInt
    | .int n => some n
    | _ => none
  asFloat
    | .int n => some n
    | .float q => some q
    | _ => none
  asStr
    | .str s => some s
    | _ => none
  notMapping _ := "argument after ** must be a mapping"
  invalid _ := "validation error for LLMCommand"

/-- The call `id` starts, and waits for its reply. -/
def ask (id : Nat) (thread : Thread) (text : String) : List BrainAction :=
  [.call thread text, .turn id .runs, .turn id .runs]

/-- Its reply arrives in one chunk and is committed. -/
def answer (id : Nat) (reply : String) : List BrainAction :=
  [.turn id (.replies [some reply]), .turn id .runs, .turn id .runs]

/-- Its entry joins the memory, and it returns. -/
def finish (id : Nat) : List BrainAction := [.turn id .runs, .turn id .runs]

/-- A standing robot is told to walk, then something else, and the second reply comes first. -/
def lateWalk (walker other : Thread) (text reply : String) : List BrainAction :=
  ask 0 .web "stand up" ++ answer 0 standReply ++ finish 0 ++ ask 1 walker "walk forward" ++
    ask 2 other text ++ answer 2 reply ++ finish 2 ++ answer 1 walkReply

end SvanVoice
