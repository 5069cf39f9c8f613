import SvanVoice.Laws.Buttons
import SvanVoice.Laws.Limits
import SvanVoice.Laws.Snapshot
import SvanVoice.Laws.Threads
import SvanVoice.Library.Places

/-!
# Where the robot's orders come from

Everything the robot is told passes through three processes and two encodings. `told_has_cause`
follows it back: in every run of the whole system, under any interleaving of the calls and any loss,
delay, reordering or repetition of frames, a call of the SDK that makes the robot walk was asked for
by a reply to a command the brain received, a reply that arrived before and was validated, in mode
4; and a velocity that is not zero is that reply's, rounded and turned over. The other calls are the
orders to stand or to sleep and the zero velocity.

The proof goes through the topic. The bridge only tells what a frame of the topic asks for
(`Link.step_told`), and a frame of the topic was published from a genuine state.
-/

set_option autoImplicit false

namespace SvanVoice

open Places

/-! ## The link -/

/-- The state asks for the call: a known mode, and a velocity other than zero in mode 4 only. -/
def StateDict.Asks (state : StateDict) : SdkCall → Prop
  | .setMode m => m = state.modeOr ∧ Known m
  | .setVelocity v => v = if state.modeOr = 4 then state.turned else .zero
  | .shutdown => False

/-- The bridge makes the call of its own, to stand at rest. -/
def SdkCall.Own : SdkCall → Prop
  | .setMode m => m = modeStand
  | .setVelocity v => v = .zero
  | .shutdown => False

/-- The calls answer to the frames, in the order the frames were delivered, and no more than two
calls to a delivery. -/
def Told (states : List StateDict) (deliveries : List Nat) (calls : List SdkCall) : Prop :=
  ∃ places, AnswersTo SdkCall.Own StateDict.Asks states places calls ∧
    places.reduceOption.Sublist (deliveries.flatMap fun k => [k, k])

/-- A frame asks for no mode but that of its state. -/
theorem requestedMode_publish {q : DDSPublisher} {state : StateDict} {noise : ℚ} {cur : Int}
    (h : requestedMode cur (q.publishMovement state noise).2 ≠ cur) :
    requestedMode cur (q.publishMovement state noise).2 = state.modeOr ∧ Known state.modeOr := by
  have hbuttons := publish_buttons q state noise
  split at hbuttons
  · by_cases hmode : Known state.modeOr
    · exact ⟨requestedMode_pressed hbuttons hmode, hmode⟩
    · rw [pressed_of_unknown hmode] at hbuttons
      exact absurd (requestedMode_silent hbuttons) h
  · exact absurd (requestedMode_silent hbuttons) h

theorem delivered_append (as bs : List LinkAction) :
    delivered (as ++ bs) = delivered as ++ delivered bs := List.filterMap_append

namespace Loop

/-- The calls made for a frame are asked for by its state. -/
theorem made_asked (b : Loop) {state : StateDict} {frame : JoyData}
    (hgenuine : ∃ (q : DDSPublisher) (noise : ℚ), frame = (q.publishMovement state noise).2)
    (now : Int) : ∀ call ∈ b.made (.sample ⟨true, frame⟩ now), state.Asks call := by
  obtain ⟨q, noise, rfl⟩ := hgenuine
  intro call hcall
  rw [made_valid now rfl, List.mem_append] at hcall
  rcases hcall with hmode | hvelocity
  · split at hmode
    · next hchange =>
      obtain ⟨hrequested, hknown⟩ := requestedMode_publish hchange
      rw [hrequested, List.mem_singleton] at hmode
      exact hmode ▸ ⟨rfl, hknown⟩
    · cases hmode
  · split at hvelocity
    · rw [clampedAxes_publish, List.mem_singleton] at hvelocity
      exact hvelocity ▸ rfl
    · cases hvelocity

/-- A frame makes a change of mode and a velocity, at most. -/
theorem made_length (b : Loop) {s : Sample} (now : Int) (hv : s.valid = true) :
    (b.made (.sample s now)).length ≤ 2 := by
  rw [made_valid now hv, List.length_append]
  split <;> split <;> simp only [List.length_singleton, List.length_nil, Nat.reduceAdd, Nat.le_refl,
    Nat.one_le_ofNat, Nat.zero_le]

/-- The watchdog's calls are the bridge's own. -/
theorem made_own (b : Loop) (now : Int) : ∀ call ∈ b.made (.check now), call.Own := by
  intro call hcall
  rw [made_check] at hcall
  split at hcall
  · rcases List.mem_cons.mp hcall with rfl | hzero
    · rfl
    · exact List.mem_singleton.mp hzero ▸ rfl
  · cases hcall

end Loop

namespace Link

variable {l t : Link} {a : LinkAction} {as : List LinkAction}

/-- The call that boots a bridge is its own. -/
theorem told_boot (states : List StateDict) (deliveries : List Nat) :
    Told states deliveries [.setMode modeStand] :=
  ⟨[none], List.Forall₂.cons rfl .nil, List.nil_sublist _⟩

/-- **The bridge tells what the topic asks for.** -/
theorem step_told {deliveries : List Nat} (h : l.step a = some t)
    (hgenuine : ∀ f ∈ l.sent, ∃ (q : DDSPublisher) (noise : ℚ),
      f.2 = (q.publishMovement f.1 noise).2)
    (hl : Told (l.sent.map Prod.fst) deliveries l.bridge.calls) :
    Told (t.sent.map Prod.fst) (deliveries ++ delivered [a]) t.bridge.calls := by
  obtain ⟨places, hanswers, hdelivered⟩ := hl
  cases a with
  | publish snapshot noise =>
    cases h
    rw [List.map_append]
    exact ⟨places, hanswers.append_sources _, (List.append_nil deliveries).symm ▸ hdelivered⟩
  | boot now =>
    cases h
    exact told_boot _ _
  | deliver k now =>
    obtain ⟨f, hf, rfl⟩ := Option.map_eq_some_iff.mp h
    have hasked := l.bridge.made_asked (hgenuine f (List.mem_of_getElem? hf)) now
    have hcalls := Loop.event_calls l.bridge (.sample ⟨true, f.2⟩ now)
    have hmore := hanswers.append fun call hcall => show AskedAt _ _ _ (some k) call from
      ⟨f.1, by rw [List.getElem?_map, hf, Option.map_some], hasked call hcall⟩
    refine ⟨_, hcalls ▸ hmore, ?_⟩
    rw [List.reduceOption_append, List.flatMap_append]
    refine hdelivered.append ?_
    rw [List.reduceOption, List.filterMap_replicate_of_some (f := id) rfl]
    exact (List.replicate_sublist_replicate k).mpr (l.bridge.made_length now rfl)
  | invalid data now =>
    cases h
    rw [Loop.processSample_invalid (s := ⟨false, data⟩) now rfl]
    exact ⟨places, hanswers, (List.append_nil deliveries).symm ▸ hdelivered⟩
  | check now =>
    cases h
    have hcalls := Loop.event_calls l.bridge (.check now)
    have hmore := hanswers.append fun call hcall => show AskedAt _ _ _ none call from
      l.bridge.made_own now call hcall
    refine ⟨_, hcalls ▸ hmore, ?_⟩
    rw [List.reduceOption_append, List.reduceOption_replicate_none, List.append_nil]
    exact (List.append_nil deliveries).symm ▸ hdelivered

theorem run_told {start : Int} (h : Trace.run step (init start) as = some t) :
    Told (t.sent.map Prod.fst) (delivered as) t.bridge.calls := by
  refine Trace.history
    (I := fun as (l : Link) => Told (l.sent.map Prod.fst) (delivered as) l.bridge.calls)
    (told_boot _ _) (fun as l a t hl ht ih => ?_) h
  rw [delivered_append]
  refine step_told ht (fun f hf => ?_) ih
  obtain ⟨k, hk⟩ := List.getElem?_of_mem hf
  exact sent_genuine hl hk

end Link

/-! ## The reply behind a state in mode 4 -/

/-- The velocity of a command as the legs are told it. -/
def LLMCommand.turned (c : LLMCommand) : Velocity where
  vx := F32.ofRat (-Rounding.roundTo 2 c.xVelocity)
  vy := F32.ofRat (-Rounding.roundTo 2 c.yVelocity)
  wz := F32.ofRat (-Rounding.roundTo 2 c.yawVelocity)

/-- A reply to a command that the brain received has arrived and was validated. -/
def Validated (libs : Libs) (as : List BrainAction) (b : Brain) (c : LLMCommand) : Prop :=
  ∃ id command chunks fields, b.received[id]? = some command ∧ .turn id (.replies chunks) ∈ as ∧
    libs.loads (rawMessage chunks) = .ok (.obj fields) ∧ LLMCommand.validate libs fields = some c

/-- The cause of a call: a command that was asked for, for motion, and none for rest. -/
def CausedBy (asked : LLMCommand → Prop) : SdkCall → Prop
  | .setMode m => m = modeStand ∨ m = modeSleep ∨ m = modeMove ∧ ∃ c, asked c ∧ c.mode = modeMove
  | .setVelocity v => v = .zero ∨ ∃ c, asked c ∧ c.mode = modeMove ∧ v = c.turned
  | .shutdown => False

theorem CausedBy.mono {asked asked' : LLMCommand → Prop} (h : ∀ c, asked c → asked' c)
    {call : SdkCall} (hcall : CausedBy asked call) : CausedBy asked' call := by
  cases call with
  | setMode m =>
    refine hcall.imp_right fun hrest => hrest.imp_right ?_
    rintro ⟨hmove, c, hc, hmode⟩
    exact ⟨hmove, c, h c hc, hmode⟩
  | setVelocity v =>
    refine hcall.imp_right ?_
    rintro ⟨c, hc, hmode, hv⟩
    exact ⟨c, h c hc, hmode, hv⟩
  | shutdown => exact hcall

/-- The clips change nothing of a validated command. -/
theorem LLMCommand.labelled_turned (c : LLMCommand) : c.labelled.turned = c.turned := by
  obtain ⟨m, ⟨x, hx⟩, ⟨y, hy⟩, ⟨yaw, hyaw⟩, speed⟩ := c
  rw [neg_div] at hx hy hyaw
  have hclipx := clip_roundTo (show maxVx = (50 : ℤ) / 10 ^ 2 by norm_num [maxVx]) hx.1 hx.2
  have hclipy := clip_roundTo (show maxVy = (40 : ℤ) / 10 ^ 2 by norm_num [maxVy]) hy.1 hy.2
  have hclipyaw := clip_roundTo (show maxWz = (80 : ℤ) / 10 ^ 2 by norm_num [maxWz]) hyaw.1 hyaw.2
  show Velocity.mk (F32.ofRat (-clip (Rounding.roundTo 2 x) (-maxVx) maxVx))
    (F32.ofRat (-clip (Rounding.roundTo 2 y) (-maxVy) maxVy))
    (F32.ofRat (-clip (Rounding.roundTo 2 yaw) (-maxWz) maxWz)) = _
  rw [hclipx, hclipy, hclipyaw]
  rfl

section Genuine

variable {libs : Libs} {as : List BrainAction} {b : Brain}

/-- A call that has taken a turn was a command of the brain. -/
theorem received_of_turn_mem (h : Trace.run (Brain.step libs) {} as = some b) {id : Nat} {t : Turn}
    (hmem : .turn id t ∈ as) : ∃ command, b.received[id]? = some command := by
  refine Trace.history
    (I := fun as b => .turn id t ∈ as → ∃ command, b.received[id]? = some command)
    nofun (fun as a b u _ hu ih hmem => ?_) h hmem
  obtain ⟨more, hmore⟩ := Brain.received_prefix hu
  have hheld : ∃ command, b.received[id]? = some command := by
    rcases List.mem_append.mp hmem with hold | hlast
    · exact ih hold
    · obtain rfl := List.mem_singleton.mp hlast
      obtain ⟨c, hc, -⟩ := Option.bind_eq_some_iff.mp hu
      exact ⟨_, by rw [Brain.received, List.getElem?_map, hc, Option.map_some]⟩
  obtain ⟨command, hcommand⟩ := hheld
  refine ⟨command, ?_⟩
  rw [← hmore, List.getElem?_append_left (List.getElem?_eq_some_iff.mp hcommand).1]
  exact hcommand

/-- A genuine state in mode 4 is a validated reply's. -/
theorem Genuine.validated (h : Trace.run (Brain.step libs) {} as = some b) {state : StateDict}
    (hstate : Genuine libs as state) (hmode : state.modeOr = 4) :
    ∃ c, Validated libs as b c ∧ c.mode = modeMove ∧ state.turned = c.turned := by
  rcases hstate with rfl | rfl | ⟨id, chunks, hmem, hdecode⟩
  · cases hmode
  · cases hmode
  · obtain ⟨fields, c, hloads, hvalid, rfl⟩ := decodeReply_ok hdecode
    obtain ⟨command, hcommand⟩ := received_of_turn_mem h hmem
    exact ⟨c, ⟨id, command, chunks, fields, hcommand, hmem, hloads, hvalid⟩, hmode,
      c.labelled_turned⟩

/-- What a genuine state asks for has a cause. -/
theorem Genuine.caused (h : Trace.run (Brain.step libs) {} as = some b) {state : StateDict}
    (hstate : Genuine libs as state) {call : SdkCall} (hasks : state.Asks call) :
    CausedBy (Validated libs as b) call := by
  cases call with
  | setMode m =>
    obtain ⟨rfl, hsleep | hstand | hmove⟩ := hasks
    · exact .inr (.inl hsleep)
    · exact .inl hstand
    · obtain ⟨c, hc, hmode, -⟩ := hstate.validated h hmove
      exact .inr (.inr ⟨hmove, c, hc, hmode⟩)
  | setVelocity v =>
    subst hasks
    split
    · next hmove =>
      obtain ⟨c, hc, hmode, hturned⟩ := hstate.validated h hmove
      exact .inr ⟨c, hc, hmode, hturned⟩
    · exact .inl rfl
  | shutdown => exact hasks

/-- The bridge's own calls need no cause. -/
theorem SdkCall.Own.caused {asked : LLMCommand → Prop} {call : SdkCall} (h : call.Own) :
    CausedBy asked call := by
  cases call with
  | setMode m => exact .inl h
  | setVelocity v => exact .inl h
  | shutdown => exact h

end Genuine

/-- Every call has a cause in every run of the system. -/
theorem System.run_caused {libs : Libs} {start : Int} {as : List SystemAction} {s : System}
    (h : Trace.run (System.step libs) (.init start) as = some s) :
    ∀ call ∈ s.link.bridge.calls, CausedBy (Validated libs (brainActions as) s.brain) call := by
  intro call hcall
  have hbrain := Brain.run_of_scheduled (System.run_brain h)
  obtain ⟨places, hanswers, -⟩ := Link.run_told (System.run_link h)
  rcases hanswers.of_mem hcall with hown | ⟨state, hstate, hasks⟩
  · exact hown.caused
  · obtain ⟨f, hf, rfl⟩ := List.mem_map.mp hstate
    exact (System.run_genuine h f hf).caused hbrain hasks

/-- **Everything the robot is told has a cause.** In every run of the whole system, whatever happens
between the processes, a call that makes the robot walk is a reply's in mode 4, which arrived for a
command the brain received and was validated; the velocity is the reply's, rounded and turned over.
Every other call is an order to stand or to sleep, or the zero velocity. -/
theorem told_has_cause (libs : Libs) (start : Int) (as : List SystemAction) (s : System)
    (hrun : Trace.run (System.step libs) (System.init start) as = some s) :
    ∀ call ∈ s.link.bridge.calls, CausedBy (Validated libs (brainActions as) s.brain) call :=
  System.run_caused hrun

/-- A walk is asked for, answered, copied, published and delivered. -/
def walkTold : List SystemAction :=
  (ask 0 .web "walk forward" ++ answer 0 walkReply).map .brain ++
    [.copy, .link (.publish walkState 0), .link (.deliver 0 20000000)]

/-- The velocity the robot is told is that of the validated reply. -/
theorem walk_has_cause : ∃ s, Trace.run (System.step plainLibs) (System.init 0) walkTold = some s ∧
    .setVelocity walkState.turned ∈ s.link.bridge.calls ∧
      ∃ c, Validated plainLibs (brainActions walkTold) s.brain c ∧ c.mode = modeMove ∧
        walkState.turned = c.turned := by
  obtain ⟨s, hrun, htold⟩ := (Option.any_eq_true
    (fun s : System => decide (.setVelocity walkState.turned ∈ s.link.bridge.calls))
    (Trace.run (System.step plainLibs) (System.init 0) walkTold)).mp (by decide +kernel)
  have htold := of_decide_eq_true htold
  refine ⟨s, hrun, htold, (told_has_cause plainLibs 0 walkTold s hrun _ htold).resolve_left ?_⟩
  decide +kernel

end SvanVoice
