import SvanVoice.Laws.Provenance
import SvanVoice.Laws.WireLink
import SvanVoice.Model.Deployment

/-!
# From a spoken command to the legs

The deployed program refines the system (`step_system`): the threads take the turns that a schedule
admits, and the heartbeat publishes while the process lives. So every law of the system is a law of
the deployed program. `motion_was_commanded` is the one from end to end: what makes the robot walk
is a validated reply to a text that the microphone recognized, or that a web request brought.

The program that runs has floats in place of numbers and payloads in place of frames. It takes the
steps of the exact one, rounded (`step_map`), so what makes the robot walk there is such a reply
too, rounded (`motion_was_commanded_on_bytes`).
-/

set_option autoImplicit false

namespace SvanVoice

open ByteOrder

/-- The process's part of an event. -/
def DeploymentEvent.process? : DeploymentEvent → Option ProcessEvent
  | .process e => some e
  | _ => none

/-- What the brain's process does in a run. -/
def processEvents (es : List DeploymentEvent) : List ProcessEvent :=
  es.filterMap DeploymentEvent.process?

/-- The link's part of an event. -/
def DeploymentEvent.link? : DeploymentEvent → Option LinkAction
  | .link a => some a
  | _ => none

/-- What the link does in a run of the deployed program. -/
def linkEvents (es : List DeploymentEvent) : List LinkAction :=
  es.filterMap DeploymentEvent.link?

namespace Deployment

/-- The system that a deployment is, its threads aside. -/
def system (d : Deployment Link) : System := ⟨d.process.brain, d.stateSnapshot, d.link⟩

section Step

variable {libs : Libs} {d t : Deployment Link} {e : DeploymentEvent} {es : List DeploymentEvent}

/-- **What a step does**: the process takes a step, the heartbeat of the living process copies the
state or publishes its copy, or the link takes another step. -/
theorem step_inv (h : d.step libs Link.step e = some t) :
    (∃ pe process, e = .process pe ∧ d.process.step libs pe = some process ∧
        t = { d with process }) ∨
      (e = .copy ∧ d.alive ∧ d.stateSnapshot = none ∧
        t = { d with stateSnapshot := some d.process.brain.globals.currentRobotState }) ∨
      (∃ snapshot noise link, e = .link (.publish snapshot noise) ∧ d.alive ∧
        d.stateSnapshot = some snapshot ∧ d.link.step (.publish snapshot noise) = some link ∧
          t = { d with stateSnapshot := none, link }) ∨
      ∃ a link, e = .link a ∧ published [a] = [] ∧ d.link.step a = some link ∧
        t = { d with link } := by
  cases e with
  | process pe =>
    obtain ⟨process, hstep, rfl⟩ := Option.map_eq_some_iff.mp h
    exact .inl ⟨pe, process, rfl, hstep, rfl⟩
  | copy =>
    simp only [step, Option.ite_none_right_eq_some, Option.some.injEq] at h
    exact .inr (.inl ⟨rfl, h.1.1, h.1.2, h.2.symm⟩)
  | link a =>
    cases a
    case publish snapshot noise =>
      simp only [step, Option.ite_none_right_eq_some] at h
      obtain ⟨⟨halive, hheld⟩, hmap⟩ := h
      obtain ⟨link, hlink, rfl⟩ := Option.map_eq_some_iff.mp hmap
      exact .inr (.inr (.inl ⟨snapshot, noise, link, rfl, halive, hheld, hlink, rfl⟩))
    all_goals
      simp only [step] at h
      obtain ⟨link, hlink, rfl⟩ := Option.map_eq_some_iff.mp h
      exact .inr (.inr (.inr ⟨_, link, rfl, rfl, hlink, rfl⟩))

/-- The process takes a step, or the event is none of its own. -/
theorem step_process (h : d.step libs Link.step e = some t) :
    (∃ pe, e.process? = some pe ∧ d.process.step libs pe = some t.process) ∨
      e.process? = none ∧ t.process = d.process := by
  rcases step_inv h with ⟨pe, process, rfl, hstep, rfl⟩ | ⟨rfl, -, -, rfl⟩ |
    ⟨snapshot, noise, link, rfl, -, -, -, rfl⟩ | ⟨a, link, rfl, -, -, rfl⟩
  · exact .inl ⟨pe, rfl, hstep⟩
  · exact .inr ⟨rfl, rfl⟩
  · exact .inr ⟨rfl, rfl⟩
  · exact .inr ⟨rfl, rfl⟩

/-- The link takes a step, or the event is none of its own. -/
theorem step_link (h : d.step libs Link.step e = some t) :
    (∃ a, e.link? = some a ∧ d.link.step a = some t.link) ∨ e.link? = none ∧ t.link = d.link := by
  rcases step_inv h with ⟨pe, process, rfl, -, rfl⟩ | ⟨rfl, -, -, rfl⟩ |
    ⟨snapshot, noise, link, rfl, -, -, hlink, rfl⟩ | ⟨a, link, rfl, -, hlink, rfl⟩
  · exact .inr ⟨rfl, rfl⟩
  · exact .inr ⟨rfl, rfl⟩
  · exact .inl ⟨_, rfl, hlink⟩
  · exact .inl ⟨a, rfl, hlink⟩

/-- A run of the deployed program is a run of its process. -/
theorem run_process (h : Trace.run (step libs Link.step) d es = some t) :
    Trace.run (Process.step libs) d.process (processEvents es) = some t.process :=
  Trace.run_filterMap (g := Deployment.process) (fun _ _ _ hstep => step_process hstep) h

/-- A run of the deployed program is a run of its link. -/
theorem run_link (h : Trace.run (step libs Link.step) d es = some t) :
    Trace.run Link.step d.link (linkEvents es) = some t.link :=
  Trace.run_filterMap (g := Deployment.link) (fun _ _ _ hstep => step_link hstep) h

/-- A turn of the brain, where it is the threads that take it: the call had been started. -/
def Turns (d : Deployment Link) (e : DeploymentEvent) (a : SystemAction) : Prop :=
  ∀ id turn, a = .brain (.turn id turn) → ∃ pe command, e = .process pe ∧
    d.process.turnOf pe = some (id, turn) ∧ d.process.brain.received[id]? = some command

/-- **The deployed program refines the system.** -/
theorem step_system (hd : d.process.Consistent) (h : d.step libs Link.step e = some t) :
    t.system = d.system ∨ ∃ a, d.system.step libs a = some t.system ∧ Turns d e a := by
  rcases step_inv h with ⟨pe, process, rfl, hstep, rfl⟩ | ⟨rfl, -, hnone, rfl⟩ |
    ⟨snapshot, noise, link, rfl, -, hheld, hlink, rfl⟩ | ⟨a, link, rfl, hnone, hlink, rfl⟩
  · rcases Process.step_scheduled hd hstep with hsame | ⟨a, ha, hturn⟩
    · exact .inl (by rw [system, system, hsame])
    · refine .inr ⟨.brain a, ?_, fun id turn hact => ?_⟩
      · rw [System.step, system, ha, Option.map_some, system]
      · cases hact
        obtain ⟨c, hc, -⟩ := Option.bind_eq_some_iff.mp (Brain.scheduled_eq_some.mp ha).2
        refine ⟨pe, (c.thread, c.text), rfl, hturn id turn rfl, ?_⟩
        rw [Brain.received, List.getElem?_map, hc, Option.map_some]
  · exact .inr ⟨.copy, if_pos hnone, fun _ _ hact => by cases hact⟩
  · refine .inr ⟨.link (.publish snapshot noise), (if_pos hheld).trans ?_, fun _ _ hact => ?_⟩
    · exact Option.map_eq_some_iff.mpr ⟨link, hlink, rfl⟩
    · cases hact
  · refine .inr ⟨.link a, ?_, fun _ _ hact => by cases hact⟩
    cases a with
    | publish snapshot noise => cases hnone
    | _ => exact Option.map_eq_some_iff.mpr ⟨link, hlink, rfl⟩

/-- A run of the deployed program is a run of the system, whose turns the threads take. -/
theorem run_system (hd : d.process.Consistent) (h : Trace.run (step libs Link.step) d es = some t) :
    ∃ as, Trace.run (System.step libs) d.system as = some t.system ∧ ∀ a ∈ as, ∃ pre e post u,
      es = pre ++ e :: post ∧ Trace.run (step libs Link.step) d pre = some u ∧ Turns u e a := by
  refine Trace.exists_image (g := system) (I := fun d : Deployment Link => d.process.Consistent)
    (fun s e u hs hu => ?_) (fun s e u hs hu => step_system hs hu) hd h
  rcases step_process hu with ⟨pe, -, hstep⟩ | ⟨-, hsame⟩
  · exact Process.step_consistent hs hstep
  · exact hsame ▸ hs

end Step

/-- A command that was heard or requested, and answered later in the run by a valid reply. -/
def Requested (libs : Libs) (es : List DeploymentEvent) (c : LLMCommand) : Prop :=
  ∃ id command chunks fields pre e post p, es = pre ++ .process e :: post ∧
    Trace.run (Process.step libs) {} (processEvents pre) = some p ∧
    (commands none (processEvents pre))[id]? = some command ∧
    p.turnOf e = some (id, .replies chunks) ∧
    libs.loads (rawMessage chunks) = .ok (.obj fields) ∧ LLMCommand.validate libs fields = some c

theorem run_caused {libs : Libs} {start : Int} {es : List DeploymentEvent} {d : Deployment Link}
    (h : Trace.run (step libs Link.step) (init (.init start)) es = some d) :
    ∀ call ∈ d.link.bridge.calls, CausedBy (Requested libs es) call := by
  obtain ⟨as, has, hturns⟩ := run_system Process.consistent_start h
  have hsystem : Trace.run (System.step libs) (System.init start) as = some d.system := has
  intro call hcall
  refine (System.run_caused hsystem call hcall).mono ?_
  rintro c ⟨id, command, chunks, fields, -, hmem, hloads, hvalid⟩
  -- the reply arrived at a turn that a thread took
  obtain ⟨a, ha, hbrain⟩ := List.mem_filterMap.mp hmem
  obtain rfl : a = .brain (.turn id (.replies chunks)) := by
    cases a with
    | brain a => exact congrArg SystemAction.brain (Option.some.inj hbrain)
    | copy => cases hbrain
    | link a => cases hbrain
  obtain ⟨pre, e, post, u, hsplit, hpre, hturn⟩ := hturns _ ha
  obtain ⟨pe, command', rfl, htaken, hreceived⟩ := hturn id _ rfl
  have hprocess := run_process hpre
  have hcommands : u.process.brain.received = commands none (processEvents pre) :=
    Process.run_commands Process.consistent_start hprocess
  refine ⟨id, command', chunks, fields, pre, pe, post, u.process, hsplit, hprocess, ?_, htaken,
    hloads, hvalid⟩
  rwa [← hcommands]

/-- **The robot moves on command.** In every run of the deployed program, under any interleaving of
its threads with the topic and the bridge, a call that makes the robot walk goes back to a text that
the microphone thread recognized and printed, or that came with a web request, and to a valid reply
in mode 4 that arrived for this very command later; the velocity is the reply's, rounded and turned
over. Every other call is an order to stand or to sleep, or the zero velocity. -/
theorem motion_was_commanded (libs : Libs) (start : Int) (es : List DeploymentEvent)
    (d : Deployment Link)
    (hrun : Trace.run (step libs Link.step) (init (.init start)) es = some d) :
    ∀ call ∈ d.link.bridge.calls, CausedBy (Requested libs es) call :=
  run_caused hrun

/-- A request to walk, as far as the legs. -/
def walkRequested : List DeploymentEvent :=
  ([.main true, .main true, .web (.request " walk forward\n"), .web (.turn .runs),
    .web (.turn .runs), .web (.resume 0 (.replies [some walkReply])), .web (.turn .runs),
    .web (.turn .runs)] : List ProcessEvent).map .process ++
    [.copy, .link (.publish walkState 0), .link (.deliver 0 20000000)]

/-- The velocity is told. -/
theorem exists_walkRequested : ∃ d : Deployment Link,
    Trace.run (step plainLibs Link.step) (init (.init 0)) walkRequested = some d ∧
      .setVelocity walkState.turned ∈ d.link.bridge.calls := by
  obtain ⟨d, hrun, htold⟩ := (Option.any_eq_true
    (fun d : Deployment Link => decide (.setVelocity walkState.turned ∈ d.link.bridge.calls))
    (Trace.run (step plainLibs Link.step) (init (.init 0)) walkRequested)).mp (by decide +kernel)
  exact ⟨d, hrun, of_decide_eq_true htold⟩

/-- The velocity was requested. -/
theorem walk_was_requested : ∃ d : Deployment Link,
    Trace.run (step plainLibs Link.step) (init (.init 0)) walkRequested = some d ∧
      .setVelocity walkState.turned ∈ d.link.bridge.calls ∧
        ∃ c, Requested plainLibs walkRequested c ∧ c.mode = modeMove ∧
          walkState.turned = c.turned := by
  obtain ⟨d, hrun, htold⟩ := exists_walkRequested
  refine ⟨d, hrun, htold,
    (motion_was_commanded plainLibs 0 walkRequested d hrun _ htold).resolve_left ?_⟩
  decide +kernel

/-! ## On floats and bytes -/

/-- The deployed program on another link. -/
def onLink {L L' : Type} (g : L → L') (d : Deployment L) : Deployment L' where
  process := d.process
  stateSnapshot := d.stateSnapshot
  link := g d.link

/-- The deployed program takes the same steps on a link that takes the same steps. -/
theorem step_onLink {L L' : Type} {linkStep : L → LinkAction → Option L}
    {linkStep' : L' → LinkAction → Option L'} {g : L → L'}
    (image : ∀ l a, linkStep' (g l) a = (linkStep l a).map g) (libs : Libs) (d : Deployment L)
    (e : DeploymentEvent) :
    (d.onLink g).step libs linkStep' e = (d.step libs linkStep e).map (onLink g) := by
  cases e with
  | process pe =>
    show (d.process.step libs pe).map _ = _
    rw [step, Option.map_map]
    rfl
  | copy =>
    show (if d.alive ∧ d.stateSnapshot = none then _ else none) =
      (if d.alive ∧ d.stateSnapshot = none then _ else none).map (onLink g)
    rw [apply_ite (Option.map _), Option.map_some, Option.map_none]
    rfl
  | link a =>
    have himage := image d.link a
    cases a with
    | publish snapshot noise =>
      show (if d.alive ∧ d.stateSnapshot = some snapshot then
          (linkStep' (g d.link) _).map _ else none) =
        (if d.alive ∧ d.stateSnapshot = some snapshot then _ else none).map (onLink g)
      rw [apply_ite (Option.map _), Option.map_none, himage, Option.map_map, Option.map_map]
      rfl
    | boot now | deliver k now | invalid data now | check now =>
      show (linkStep' (g d.link) _).map _ = ((linkStep d.link _).map _).map (onLink g)
      rw [himage, Option.map_map, Option.map_map]
      rfl

section Bytes

variable {lib : StreamLib} {writer : JoyDataBits → List Byte} {cut : List Byte → List (List Byte)}

/-- The deployed program on floats and bytes is the exact one, rounded. -/
theorem run_onBytes (hlib : lib.Documented) (native : Endianness) (fresh : ℕ → Byte)
    (hwriter : ∀ m, IsPayload m (writer m) ∧ (writer m).length + 4 ≤ 2 ^ 64)
    (hcut : ∀ bs, (cut bs).flatten = bs) (libs : Libs) (start : Int) (es : List DeploymentEvent) :
    Trace.run (step libs (WireLink.step lib native fresh writer cut))
        (init { bridge := .boot start }) es =
      (Trace.run (step libs Link.step) (init (.init start)) es).map
        (onLink (Link.onBytes writer)) := by
  have hrun := Trace.run_map
    (step_onLink (wireStep_onBytes hlib native fresh hwriter hcut) libs) (init (.init start)) es
  rwa [List.map_id'] at hrun

/-- **The robot moves on command, on floats and bytes too.** In every run of the deployed program,
over payloads that are written by any serializer of the format and that arrive in any pieces, each
call is the rounding of an exact one, and what makes the robot walk was commanded. -/
theorem motion_was_commanded_on_bytes (hlib : lib.Documented) (native : Endianness)
    (fresh : ℕ → Byte) (hwriter : ∀ m, IsPayload m (writer m) ∧ (writer m).length + 4 ≤ 2 ^ 64)
    (hcut : ∀ bs, (cut bs).flatten = bs) (libs : Libs) (start : Int) (es : List DeploymentEvent)
    (d : Deployment WireLink)
    (hrun : Trace.run (step libs (WireLink.step lib native fresh writer cut))
      (init { bridge := .boot start }) es = some d) :
    ∀ call ∈ d.link.bridge.calls, ∃ exact : SdkCall, CausedBy (Requested libs es) exact ∧
      call = exact.rounded := by
  rw [run_onBytes hlib native fresh hwriter hcut] at hrun
  obtain ⟨d', hexact, rfl⟩ := Option.map_eq_some_iff.mp hrun
  intro call hcall
  obtain ⟨exact, hmem, rfl⟩ := List.mem_map.mp hcall
  exact ⟨exact, run_caused hexact exact hmem, rfl⟩

end Bytes

/-- The same request, from a host of the other byte order. -/
theorem walk_was_requested_on_bytes : ∃ d : Deployment WireLink,
    Trace.run (step plainLibs
        (WireLink.step .plain .little (fun _ => 0) (serialized .xcdrV1 .big) List.singleton))
      (init { bridge := .boot 0 }) walkRequested = some d ∧
    ∃ exact : SdkCall, CausedBy (Requested plainLibs walkRequested) exact ∧
      .setVelocity walkState.turned.rounded = exact.rounded := by
  have hwriter : ∀ m, IsPayload m (serialized .xcdrV1 .big m) ∧
      (serialized .xcdrV1 .big m).length + 4 ≤ 2 ^ 64 := fun m =>
    ⟨isPayload_serialized .xcdrV1 .big m, by rw [length_serialized]; decide⟩
  have hcut : ∀ bs : List Byte, (List.singleton bs).flatten = bs := fun bs =>
    List.flatten_singleton
  obtain ⟨d, hrun, htold⟩ := exists_walkRequested
  have hbytes := run_onBytes StreamLib.plain_documented .little
    (fun _ => 0) hwriter hcut plainLibs 0 walkRequested
  rw [hrun] at hbytes
  have hrounded := List.mem_map_of_mem (f := SdkCall.rounded) htold
  exact ⟨_, hbytes, motion_was_commanded_on_bytes StreamLib.plain_documented .little (fun _ => 0)
    hwriter hcut plainLibs 0 walkRequested _ hbytes _ hrounded⟩

end Deployment

end SvanVoice
