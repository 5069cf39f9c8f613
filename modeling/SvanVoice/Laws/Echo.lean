import SvanVoice.Laws.Snapshot
import SvanVoice.Laws.Threads

/-!
# A reply that repeats a state

The prompt shows the model the robot's last state and the states of the history, and the model
answers with a state. The two formats are not the same: a state has a label that a reply need not
give, and a reply is read field by field against types and bounds. `echo_restores` says that they
fit: whatever happened before, any state that a prompt shows is one that the model may answer, and
a reply that repeats it is decoded to exactly that state and committed.

So nothing a prompt shows can be out of the validator's bounds or lack a field, which is an
invariant of the memory, of the calls that have read it and of the prompts (`Presented`).
-/

set_option autoImplicit false

namespace SvanVoice

/-! ## Decoding what was shown -/

/-- The fields of a reply that repeats a state. The label is not asked for, and may be there. -/
structure Repeats (fields : List (String × Json)) (state : StateDict) : Prop where
  mode : fields.lookup "mode" = state.mode.map .int
  xVelocity : fields.lookup "x_velocity" = state.xVelocity.map .float
  yVelocity : fields.lookup "y_velocity" = state.yVelocity.map .float
  yawVelocity : fields.lookup "yaw_velocity" = state.yawVelocity.map .float
  speed : fields.lookup "speed" = state.speed.map .str

/-- The validator reads an integer, a float and a text at its own type as itself. -/
structure Libs.ReadsBack (libs : Libs) : Prop where
  int : ∀ n, libs.asInt (.int n) = some n
  float : ∀ q, libs.asFloat (.float q) = some q
  str : ∀ s, libs.asStr (.str s) = some s

section Decode

variable {libs : Libs} {fields : List (String × Json)} {state : StateDict}

theorem Libs.bounded_float (hlibs : libs.ReadsBack) {lo hi q : ℚ} (hlo : lo ≤ q) (hhi : q ≤ hi) :
    libs.bounded lo hi (.float q) = some ⟨q, hlo, hhi⟩ := by
  rw [Libs.bounded, hlibs.float, Option.bind_some, dif_pos ⟨hlo, hhi⟩]

theorem field_of_lookup {τ : Type} {read : Json → Option τ} {default value : τ} {name : String}
    {json : Json} (hlookup : fields.lookup name = some json) (hread : read json = some value) :
    field read default name fields = some value := by
  rw [field, hlookup]
  exact hread

/-- **A valid state survives the reply that repeats it.** -/
theorem validate_of_repeats (hlibs : libs.ReadsBack) (hvalid : state.Valid)
    (hrepeats : Repeats fields state) :
    ∃ c, LLMCommand.validate libs fields = some c ∧ c.labelled = state := by
  obtain ⟨mode, modeName, xVelocity, yVelocity, yawVelocity, speed⟩ := state
  obtain ⟨⟨m, rfl, rfl⟩, ⟨x, rfl, hx⟩, ⟨y, rfl, hy⟩, ⟨w, rfl, hw⟩, ⟨v, rfl⟩⟩ := hvalid
  refine ⟨⟨m, ⟨x, hx⟩, ⟨y, hy⟩, ⟨w, hw⟩, v⟩, ?_, rfl⟩
  rw [LLMCommand.validate, field_of_lookup hrepeats.mode (hlibs.int m),
    field_of_lookup hrepeats.xVelocity (Libs.bounded_float hlibs hx.1 hx.2),
    field_of_lookup hrepeats.yVelocity (Libs.bounded_float hlibs hy.1 hy.2),
    field_of_lookup hrepeats.yawVelocity (Libs.bounded_float hlibs hw.1 hw.2),
    field_of_lookup hrepeats.speed (hlibs.str v)]
  rfl

theorem decodeReply_of_repeats (hlibs : libs.ReadsBack) (hvalid : state.Valid)
    (hrepeats : Repeats fields state) {raw : String} (hraw : raw ≠ "")
    (hloads : libs.loads raw = .ok (.obj fields)) : decodeReply libs raw = .ok state := by
  obtain ⟨c, hc, rfl⟩ := validate_of_repeats hlibs hvalid hrepeats
  simp only [decodeReply, if_neg hraw, hloads, LLMCommand.ofJson, hc, bind, Except.bind]
  rfl

end Decode

/-! ## What the prompts show -/

/-- The history that a call has read, for its prompt or in it, has a property. -/
structure Call.Shows (P : List MemoryEntry → Prop) (c : Call) : Prop where
  read : ∀ history, c.phase = .remembered history → P history
  shown : ∀ prompt, c.prompt = some prompt → P prompt.history

/-- A new call has read nothing. -/
theorem Call.shows_new (P : List MemoryEntry → Prop) {thread : Thread} {text : String} :
    Call.Shows P { thread, text } := ⟨nofun, fun _ h => by cases h⟩

/-- A turn reads the memory as it is. -/
theorem turn_shows {libs : Libs} {g g' : Globals} {id : Nat} {c c' : Call} {turn : Turn}
    {P : List MemoryEntry → Prop} (h : processTextCommand libs g id c turn = some (g', c'))
    (hg : P g.commandMemory) (hc : c.Shows P) : c'.Shows P := by
  revert h
  fun_cases processTextCommand libs g id c turn <;> intro h <;> cases h
  case case1.refl => exact ⟨fun history hread => Phase.remembered.inj hread ▸ hg, hc.shown⟩
  case case2.refl history hphase prompt =>
    exact ⟨fun _ hread => (by cases hread),
      fun p hp => Option.some.inj hp ▸ hc.read history hphase⟩
  all_goals exact ⟨fun _ hread => (by cases hread), hc.shown⟩

/-- The states a prompt shows. -/
def Prompt.states (p : Prompt) : List StateDict := p.lastState :: p.history.map MemoryEntry.state

/-- Every state of the history, as it was read for a prompt or stands in one, and every last state
has a property. -/
structure Call.Presents (P : StateDict → Prop) (c : Call) : Prop where
  history : c.Shows fun history => ∀ entry ∈ history, P entry.state
  last : ∀ prompt, c.prompt = some prompt → P prompt.lastState

section Turn

variable {libs : Libs} {g g' : Globals} {id : Nat} {c c' : Call} {t : Turn}

/-- A prompt shows the state as it is when the prompt is built. -/
theorem turn_prompt (h : processTextCommand libs g id c t = some (g', c')) :
    c'.prompt = c.prompt ∨ ∃ p, c'.prompt = some p ∧ p.lastState = g.currentRobotState := by
  revert h
  fun_cases processTextCommand libs g id c t <;> intro h <;> cases h
  case case2.refl => exact .inr ⟨_, rfl, rfl⟩
  all_goals exact .inl rfl

/-- A new entry of the memory holds the state of its call. -/
theorem turn_memory (h : processTextCommand libs g id c t = some (g', c')) {entry : MemoryEntry}
    (hentry : entry ∈ g'.commandMemory) :
    entry ∈ g.commandMemory ∨ c.newState = some entry.state := by
  revert h
  fun_cases processTextCommand libs g id c t <;> intro h <;> cases h
  case case7.refl ns hphase =>
    rcases List.mem_append.mp hentry with hold | hnew
    · exact .inl hold
    · rw [List.mem_singleton.mp hnew, Call.newState, hphase]
      exact .inr rfl
  case case10.refl => exact .inl (List.mem_of_mem_tail hentry)
  all_goals exact .inl hentry

theorem Call.presents_new (P : StateDict → Prop) {thread : Thread} {text : String} :
    Call.Presents P { thread, text } := ⟨Call.shows_new _, fun _ h => by cases h⟩

theorem Call.Presents.mono {P Q : StateDict → Prop} (hPQ : ∀ state, P state → Q state)
    (h : c.Presents P) : c.Presents Q :=
  ⟨⟨fun history hread entry hentry => hPQ _ (h.history.read history hread entry hentry),
      fun p hp entry hentry => hPQ _ (h.history.shown p hp entry hentry)⟩,
    fun p hp => hPQ _ (h.last p hp)⟩

theorem turn_presents {P : StateDict → Prop} (h : processTextCommand libs g id c t = some (g', c'))
    (hmemory : ∀ entry ∈ g.commandMemory, P entry.state) (hstate : P g.currentRobotState)
    (hc : c.Presents P) : c'.Presents P := by
  refine ⟨turn_shows h hmemory hc.history, fun p hp => ?_⟩
  rcases turn_prompt h with hsame | ⟨p', hp', hlast⟩
  · exact hc.last p (hsame ▸ hp)
  · cases hp.symm.trans hp'
    rw [hlast]
    exact hstate

end Turn

/-- Every state of the memory and of the prompts is genuine. -/
structure Presented (libs : Libs) (as : List BrainAction) (b : Brain) : Prop where
  memory : ∀ entry ∈ b.globals.commandMemory, Genuine libs as entry.state
  calls : ∀ c ∈ b.calls, c.Presents (Genuine libs as)

section Run

variable {libs : Libs} {as : List BrainAction} {b t : Brain}

theorem step_presented {a : BrainAction} (hrun : Trace.run (Brain.step libs) {} as = some b)
    (h : b.step libs a = some t) (hb : Presented libs as b) : Presented libs (as ++ [a]) t := by
  obtain ⟨hsourced, hstate⟩ := run_sourced hrun
  have hmemory : ∀ entry ∈ b.globals.commandMemory, Genuine libs (as ++ [a]) entry.state :=
    fun entry hentry => (hb.memory entry hentry).append _
  have hcalls : ∀ c ∈ b.calls, c.Presents (Genuine libs (as ++ [a])) :=
    fun c hc => (hb.calls c hc).mono fun state hgenuine => hgenuine.append _
  rcases Brain.step_cases h with ⟨thread, text, -, hglobals, hnew⟩ |
    ⟨id, turn, c, c', -, hc, hturn, hset⟩
  · refine ⟨hglobals ▸ hmemory, fun c hmem => ?_⟩
    rcases List.mem_append.mp (hnew ▸ hmem) with hold | hlast
    · exact hcalls c hold
    · -- a new call has read nothing
      rw [List.mem_singleton.mp hlast]
      exact Call.presents_new _
  · have hmem := List.mem_of_getElem? hc
    constructor
    · intro entry hentry
      rcases turn_memory hturn hentry with hold | hheld
      · exact hmemory entry hold
      · exact .inr (.inr (((hsourced c hmem).validated entry.state hheld).append _))
    · intro c₁ hmem₁
      rcases List.mem_or_eq_of_mem_set (hset ▸ hmem₁) with hold | rfl
      · exact hcalls c₁ hold
      · exact turn_presents hturn hmemory (hstate.append _) (hcalls c hmem)

/-- A call whose reply is decoded commits it in two turns. -/
theorem run_commits {id : Nat} {c : Call} {raw : String} {state : StateDict}
    (hc : b.calls[id]? = some c) (hphase : c.phase = .received raw)
    (hdecode : decodeReply libs raw = .ok state) :
    Trace.run (Brain.step libs) b [.turn id .runs, .turn id .runs] =
      some { globals := b.globals.assign id state true,
             calls := b.calls.set id { c with phase := .committed state } } := by
  have hlabelled : processTextCommand libs b.globals id c .runs =
      some (b.globals, { c with phase := .labelled state }) := by
    simp only [processTextCommand, hphase, hdecode]
  have hcommitted : Brain.step libs
      { b with calls := b.calls.set id { c with phase := .labelled state } } (.turn id .runs) =
      some { globals := b.globals.assign id state true,
             calls := (b.calls.set id { c with phase := .labelled state }).set id
               { c with phase := .committed state } } :=
    Brain.step_turn (List.getElem?_set_self (List.getElem?_eq_some_iff.mp hc).1) rfl
  rw [Trace.run_cons, Brain.step_turn hc hlabelled, Option.bind_some, Trace.run_single]
  exact hcommitted.trans (by rw [List.set_set])

theorem run_presented (h : Trace.run (Brain.step libs) {} as = some b) : Presented libs as b :=
  Trace.history (I := fun as b => Presented libs as b)
    ⟨fun _ hentry => absurd hentry List.not_mem_nil, fun _ hc => absurd hc List.not_mem_nil⟩
    (fun _ _ _ _ hrun hstep hb => step_presented hrun hstep hb) h

end Run

/-- **What a prompt shows, the model may answer.** In every run of the brain, under any
interleaving, a reply that repeats a state its prompt showed, the last one or one of the history,
is decoded to exactly that state, and the call's next two turns commit it. -/
theorem echo_restores (libs : Libs) (hlibs : libs.ReadsBack) (as : List BrainAction) (b : Brain)
    (hrun : Trace.run (Brain.step libs) {} as = some b) (id : Nat) (c : Call) (prompt : Prompt)
    (raw : String) (fields : List (String × Json)) (state : StateDict)
    (hc : b.calls[id]? = some c) (hprompt : c.prompt = some prompt)
    (hphase : c.phase = .received raw) (hraw : raw ≠ "")
    (hloads : libs.loads raw = .ok (.obj fields)) (hstate : state ∈ prompt.states)
    (hrepeats : Repeats fields state) :
    ∃ t, Trace.run (Brain.step libs) b [.turn id .runs, .turn id .runs] = some t ∧
      t.globals.currentRobotState = state ∧ t.phase? id = some (.committed state) := by
  have hpresents := (run_presented hrun).calls c (List.mem_of_getElem? hc)
  have hgenuine : Genuine libs as state := by
    rcases List.mem_cons.mp hstate with rfl | hhistory
    · exact hpresents.last prompt hprompt
    · obtain ⟨entry, hentry, rfl⟩ := List.mem_map.mp hhistory
      exact hpresents.history.shown prompt hprompt entry hentry
  have hdecode := decodeReply_of_repeats hlibs hgenuine.valid hrepeats hraw hloads
  refine ⟨_, run_commits hc hphase hdecode, rfl, ?_⟩
  rw [Brain.phase?, List.getElem?_set_self (List.getElem?_eq_some_iff.mp hc).1, Option.map_some]

/-- The robot's first state, repeated. -/
def echoReply : String :=
  "\x7b\"mode\": 0, \"mode_name\": \"sleep\", \"x_velocity\": 0.0, \"y_velocity\": 0.0, " ++
    "\"yaw_velocity\": 0.0, \"speed\": \"slow\"\x7d"

/-- Its fields. -/
def echoFields : List (String × Json) :=
  [("mode", .int 0), ("mode_name", .str "sleep"), ("x_velocity", .float 0),
    ("y_velocity", .float 0), ("yaw_velocity", .float 0), ("speed", .str "slow")]

/-- The client libraries as far as that reply goes. -/
def echoLibs : Libs :=
  { plainLibs with loads := fun raw =>
      if raw = echoReply then .ok (.obj echoFields) else plainLibs.loads raw }

/-- A call has received the reply. -/
def echoReceived : List BrainAction :=
  ask 0 .web "stay as you are" ++ [.turn 0 (.replies [some echoReply])]

/-- The sleeping robot stays as it is. -/
theorem echo_keeps_sleep : ∃ b t, Trace.run (Brain.step echoLibs) {} echoReceived = some b ∧
    Trace.run (Brain.step echoLibs) b [.turn 0 .runs, .turn 0 .runs] = some t ∧
      t.globals.currentRobotState = initialState := by
  have hloads : echoLibs.loads echoReply = .ok (.obj echoFields) := by
    simp only [echoLibs, if_true]
  obtain ⟨t, hboth, hstate, -⟩ := echo_restores echoLibs
    ⟨fun _ => rfl, fun _ => rfl, fun _ => rfl⟩ echoReceived
    { calls := [{ thread := .web, text := "stay as you are",
                  prompt := some ⟨[], initialState, "stay as you are"⟩,
                  phase := .received echoReply }] }
    (by decide +kernel) 0 _ ⟨[], initialState, "stay as you are"⟩ echoReply echoFields
    initialState rfl rfl rfl (by decide +kernel) hloads (List.mem_singleton.mpr rfl)
    ⟨rfl, rfl, rfl, rfl, rfl⟩
  exact ⟨_, t, by decide +kernel, hboth, hstate⟩

end SvanVoice
