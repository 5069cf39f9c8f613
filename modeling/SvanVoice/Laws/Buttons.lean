import SvanVoice.Laws.Snapshot

/-!
# The buttons of the frames

A frame announces its mode by a button while the publisher holds it. Two laws say which frames do.

`buttons_mark_blocks` is about the publisher alone. Cut the states given to a fresh publisher into
maximal blocks of equal modes: the frames with a button are the first `holdFrames` of the blocks
whose mode has one, and each sets the button of its own mode and no other. It is the pulse's law
(`EdgePulse.pressed_iff`), and unknown modes, which use up a hold without pressing anything, are
among the blocks.

`acknowledged_actionable_iff` is about a reply's way to a button. The validator bounds the three
velocities and takes any integer as the mode, so a call may be acknowledged with a mode that no
button stands for. A call's acknowledgement is kept by the next frame of its state exactly if its
mode is one of the three.
-/

set_option autoImplicit false

namespace SvanVoice

/-- The button of a mode. -/
def buttonOf (mode : Int) : Option (Fin 12) :=
  if mode = modeSleep then some 0
  else if mode = modeStand then some 1
  else if mode = modeMove then some 2
  else none

/-- The message sets exactly one button, the one of the mode. -/
def PressesOnly (msg : JoyData) (mode : Int) : Prop :=
  ∃ j, buttonOf mode = some j ∧ ∀ i, msg.buttons.get i = if i = j then 1 else 0

theorem buttonOf_isSome_iff {mode : Int} : (∃ j, buttonOf mode = some j) ↔ Known mode := by
  unfold buttonOf Known
  split_ifs with hsleep hstand hmove
  · exact iff_of_true ⟨0, rfl⟩ (.inl hsleep)
  · exact iff_of_true ⟨1, rfl⟩ (.inr (.inl hstand))
  · exact iff_of_true ⟨2, rfl⟩ (.inr (.inr hmove))
  · refine iff_of_false (fun h => ?_) (fun h => ?_)
    · obtain ⟨j, hj⟩ := h
      cases hj
    · rcases h with h | h | h <;> contradiction

/-- The buttons of a known mode are that mode's button alone. -/
theorem pressesOnly_pressed {msg : JoyData} {mode : Int} (h : msg.buttons = pressed mode)
    (hmode : Known mode) : PressesOnly msg mode := by
  unfold PressesOnly
  rw [h]
  rcases hmode with rfl | rfl | rfl
  · exact ⟨0, rfl, by decide⟩
  · exact ⟨1, rfl, by decide⟩
  · exact ⟨2, rfl, by decide⟩

/-- A mode that is not known has no button to press. -/
theorem pressed_of_unknown {mode : Int} (h : ¬ Known mode) : pressed mode = .replicate 12 0 := by
  have hsleep : mode ≠ 0 := fun hm => h (.inl hm)
  have hstand : mode ≠ 1 := fun hm => h (.inr (.inl hm))
  have hmove : mode ≠ 4 := fun hm => h (.inr (.inr hm))
  rw [pressed, if_neg hsleep, if_neg hstand, if_neg hmove]

/-! ## Blocks of equal modes -/

section Blocks

variable (ss : List (StateDict × ℚ))

/-- The modes of the states, in order. -/
def modesOf : List Int := ss.map fun s => s.1.modeOr

/-- The frames a fresh publisher writes for the states. -/
def freshFrames : List JoyData := (({} : DDSPublisher).publishAll ss).map Prod.snd

/-- The frame has a button set. -/
def JoyData.hasButton (msg : JoyData) : Bool := decide (msg.buttons ≠ .replicate 12 0)

/-- The buttons of several frames are those of their pulses: the mode's while pressed. -/
theorem publishAll_buttons (p : DDSPublisher) :
    (p.publishAll ss).map (fun f => f.2.buttons) =
      (EdgePulse.frames holdFrames p.sender (modesOf ss)).map
        fun f => if f.2 then pressed f.1 else .replicate 12 0 := by
  induction ss generalizing p with
  | nil => rfl
  | cons s ss ih =>
    have hs := publish_buttons p s.1 s.2
    have hss := ih (p.publishMovement s.1 s.2).1
    rw [publish_sender] at hss
    rw [DDSPublisher.publishAll, List.map_cons, hs, hss]
    rfl

/-- The frame of a state: pressed or silent as the pulse says, with its own mode's button. -/
theorem freshFrames_eq {i : ℕ} {s : StateDict × ℚ} (hs : ss[i]? = some s) :
    ∃ frame b, (freshFrames ss)[i]? = some frame ∧
      (EdgePulse.frames holdFrames ({} : DDSPublisher).sender (modesOf ss))[i]? =
          some (s.1.modeOr, b) ∧
        frame.buttons = if b then pressed s.1.modeOr else .replicate 12 0 := by
  have hbuttons := congrArg (fun l => l[i]?) (publishAll_buttons ss {})
  have hmode : (modesOf ss)[i]? = some s.1.modeOr := by
    rw [modesOf, List.getElem?_map, hs]
    rfl
  have hpulse := EdgePulse.getElem?_frames holdFrames ({} : DDSPublisher).sender (modesOf ss) i
  rw [hmode, Option.map_some] at hpulse
  simp only [List.getElem?_map, hpulse, Option.map_some] at hbuttons
  obtain ⟨f, hf, hfb⟩ := Option.map_eq_some_iff.mp hbuttons
  exact ⟨f.2, _, by rw [freshFrames, List.getElem?_map, hf]; rfl, hpulse, hfb⟩

/-- A frame has a button exactly if its mode is known and its pulse is pressed. -/
theorem hasButton_iff {frame : JoyData} {m : Int} {b : Bool}
    (h : frame.buttons = if b then pressed m else .replicate 12 0) :
    frame.hasButton = true ↔ Known m ∧ b = true := by
  rw [JoyData.hasButton, decide_eq_true_eq, h]
  cases b with
  | false => simp only [Bool.false_eq_true, if_false, ne_eq, not_true_eq_false, and_false]
  | true =>
    by_cases hm : Known m
    · exact iff_of_true (pressed_ne_silent hm) ⟨hm, rfl⟩
    · refine iff_of_false (fun hne => hne ?_) (fun hknown => hm hknown.1)
      rw [if_pos rfl, pressed_of_unknown hm]

/-- **Buttons mark the blocks.** A frame of a fresh publisher has a button exactly if its mode is
known and it is one of the first `holdFrames` of its block of equal modes; then it sets the button
of its mode alone. So a block of a known mode is announced `holdFrames` times, or as often as it is
long, and a block of any other mode never. -/
theorem buttons_mark_blocks :
    (∀ (i : ℕ) (s : StateDict × ℚ), ss[i]? = some s →
      ∃ frame, (freshFrames ss)[i]? = some frame ∧
        (frame.hasButton = true ↔
          Known s.1.modeOr ∧ i - EdgePulse.blockStart (modesOf ss) i < holdFrames) ∧
        (frame.hasButton = true → PressesOnly frame s.1.modeOr)) ∧
      ∀ (start len : ℕ) (m : Int), EdgePulse.Block (modesOf ss) start len m →
        (List.range' start len).countP (fun i => (freshFrames ss)[i]?.any JoyData.hasButton) =
          if Known m then min holdFrames len else 0 := by
  constructor
  · intro i s hs
    obtain ⟨frame, b, hframe, hpulse, hbuttons⟩ := freshFrames_eq ss hs
    have hiff := hasButton_iff hbuttons
    refine ⟨frame, hframe, ?_, fun hset => ?_⟩
    · rw [hiff]
      exact and_congr_right fun hm => EdgePulse.pressed_iff hpulse (ne_fresh_of_known hm)
    · obtain ⟨hm, rfl⟩ := hiff.mp hset
      exact pressesOnly_pressed hbuttons hm
  · intro start len m hblock
    -- within the block every frame is of mode `m`
    have hframe : ∀ i ∈ List.range' start len, ∃ frame b, (freshFrames ss)[i]? = some frame ∧
        (EdgePulse.frames holdFrames ({} : DDSPublisher).sender (modesOf ss))[i]? = some (m, b) ∧
          (frame.hasButton = true ↔ Known m ∧ b = true) := by
      intro i hi
      obtain ⟨hstart, hend⟩ := List.mem_range'_1.mp hi
      have hm := hblock.steady i hstart hend
      rw [modesOf, List.getElem?_map] at hm
      obtain ⟨s, hs, rfl⟩ := Option.map_eq_some_iff.mp hm
      obtain ⟨frame, b, hframe, hpulse, hbuttons⟩ := freshFrames_eq ss hs
      exact ⟨frame, b, hframe, hpulse, hasButton_iff hbuttons⟩
    by_cases hm : Known m
    · rw [if_pos hm, ← hblock.countP_pressed (ne_fresh_of_known hm)]
      refine List.countP_congr fun i hi => ?_
      obtain ⟨frame, b, hframe, hpulse, hiff⟩ := hframe i hi
      rw [hframe, hpulse, Option.any_some, Option.any_some, hiff]
      exact and_iff_right hm
    · rw [if_neg hm, List.countP_eq_zero]
      intro i hi
      obtain ⟨frame, b, hframe, -, hiff⟩ := hframe i hi
      rw [hframe, Option.any_some, hiff]
      exact fun h => hm h.1

end Blocks

/-! ## An acknowledged mode -/

/-- The mode of the frame published last, if there is one. -/
def Link.lastSentMode (l : Link) : Option Int := l.sent.getLast?.map fun f => f.1.modeOr

/-- The publisher remembers the mode of the frame published last. -/
def Link.Remembers (l : Link) : Prop := l.publisher.lastModeOr = l.lastSentMode.getD (-1)

theorem Link.step_remembers {l t : Link} {a : LinkAction} (h : l.step a = some t)
    (hl : l.Remembers) : t.Remembers := by
  cases a with
  | publish snapshot noise =>
    cases h
    have hsender := congrArg EdgePulse.Sender.last (publish_sender l.publisher snapshot noise)
    unfold Link.Remembers Link.lastSentMode
    rw [List.getLast?_concat]
    exact hsender
  | boot now => cases h; exact hl
  | deliver k now =>
    obtain ⟨f, -, rfl⟩ := Option.map_eq_some_iff.mp h
    exact hl
  | invalid data now => cases h; exact hl
  | check now => cases h; exact hl

theorem Link.run_remembers {start : Int} {l : Link} {as : List LinkAction}
    (h : Trace.run Link.step (Link.init start) as = some l) : l.Remembers := by
  have hstart : (Link.init start).Remembers := rfl
  exact Trace.invariant (fun _ _ _ hl ht => Link.step_remembers ht hl) hstart h

/-- A frame of a new mode is pressed, and sets exactly one button exactly if the mode is known. -/
theorem pressesOnly_publish_iff {l : Link} (hl : l.Remembers) {state : StateDict} {m : Int}
    (hmode : state.modeOr = m) (hnew : l.lastSentMode ≠ some m) (noise : ℚ) :
    PressesOnly (l.publisher.publishMovement state noise).2 m ↔ Known m := by
  constructor
  · intro h
    obtain ⟨j, hj, -⟩ := h
    exact buttonOf_isSome_iff.mp ⟨j, hj⟩
  · intro hknown
    have hchange : m ≠ l.publisher.lastModeOr := by
      rw [hl]
      cases hlast : l.lastSentMode with
      | none => exact ne_fresh_of_known hknown
      | some m' => exact fun h => hnew (hlast.trans (congrArg some h.symm))
    have hbuttons := publish_buttons_change l.publisher state noise (hmode ▸ hchange)
    rw [hmode] at hbuttons
    exact pressesOnly_pressed hbuttons hknown

/-- What the acknowledgement of a state in mode `m` promises: the mode has a button, and if it is
not the mode of the last frame, the next frame of the state sets that button and no other. -/
structure Actionable (l : Link) (state : StateDict) (m : Int) : Prop where
  button : ∃ j, buttonOf m = some j
  announced : l.lastSentMode ≠ some m →
    ∀ noise, PressesOnly (l.publisher.publishMovement state noise).2 m

/-- **When an acknowledged command is actionable.** In every reachable state of the whole system and
for every call that has ended with success, the acknowledged state carries the mode of a reply, and
the acknowledgement is actionable exactly if that mode is one of the three. Where the mode is new,
this is exactly when the next frame sets its button alone. -/
theorem acknowledged_actionable_iff (libs : Libs) (start : Int) (as : List SystemAction)
    (s : System) (hrun : Trace.run (System.step libs) (System.init start) as = some s)
    (id : Nat) (c : Call) (ns : StateDict) (hc : s.brain.calls[id]? = some c)
    (hended : c.phase = .ended (.success ns)) :
    Replied libs (brainActions as) ns ∧ ∃ m, ns.mode = some m ∧
      (Actionable s.link ns m ↔ Known m) ∧
        (s.link.lastSentMode ≠ some m → ∀ noise,
          PressesOnly (s.link.publisher.publishMovement ns noise).2 m ↔ Known m) := by
  have hlink := Link.run_remembers (System.run_link hrun)
  obtain ⟨hcalls, -⟩ := run_sourced (Brain.run_of_scheduled (System.run_brain hrun))
  have hnew : c.newState = some ns := by rw [Call.newState, hended]
  have hreplied := (hcalls c (List.mem_of_getElem? hc)).validated ns hnew
  have hreply := hreplied
  obtain ⟨_, _, -, hdecode⟩ := hreply
  obtain ⟨fields, command, -, -, hlabelled⟩ := decodeReply_ok hdecode
  have hmode : ns.mode = some command.mode := by rw [hlabelled]; rfl
  have hmodeOr : ns.modeOr = command.mode := by rw [StateDict.modeOr, hmode]; rfl
  refine ⟨hreplied, command.mode, hmode, ?_, fun hchange noise =>
    pressesOnly_publish_iff hlink hmodeOr hchange noise⟩
  constructor
  · exact fun h => buttonOf_isSome_iff.mp h.button
  · intro hknown
    exact ⟨buttonOf_isSome_iff.mpr hknown, fun hchange noise =>
      (pressesOnly_publish_iff hlink hmodeOr hchange noise).mpr hknown⟩

/-- A web call is answered by one reply and returns. -/
def answered (text reply : String) : List SystemAction :=
  (ask 0 .web text ++ answer 0 reply ++ finish 0).map .brain

/-- The scenario is checked by running it. -/
theorem exists_success (libs : Libs) (as : List SystemAction) (Q : System → StateDict → Prop)
    [∀ s ns, Decidable (Q s ns)]
    (h : ((Trace.run (System.step libs) (System.init 0) as).any fun s =>
      (s.brain.calls[0]?.bind Call.success?).any fun ns => decide (Q s ns)) = true) :
    ∃ s c ns, Trace.run (System.step libs) (System.init 0) as = some s ∧
      s.brain.calls[0]? = some c ∧ c.phase = .ended (.success ns) ∧ Q s ns := by
  obtain ⟨s, hrun, hs⟩ := (Option.any_eq_true _ _).mp h
  obtain ⟨ns, hns, hQ⟩ := (Option.any_eq_true _ _).mp hs
  obtain ⟨c, hc, hsuccess⟩ := Option.bind_eq_some_iff.mp hns
  exact ⟨s, c, ns, hrun, hc, Call.success?_eq_some.mp hsuccess, of_decide_eq_true hQ⟩

/-- The acknowledged walk of a sleeping robot presses its button. -/
theorem walk_actionable : ∃ s c ns,
    Trace.run (System.step plainLibs) (System.init 0) (answered "walk forward" walkReply) = some s ∧
      s.brain.calls[0]? = some c ∧ c.phase = .ended (.success ns) ∧ ns.mode = some 4 ∧
        Actionable s.link ns 4 := by
  obtain ⟨s, c, ns, hrun, hc, hended, hmode⟩ := exists_success plainLibs
    (answered "walk forward" walkReply) (fun _ ns => ns.mode = some 4) (by decide +kernel)
  obtain ⟨-, m, hm, hiff, -⟩ := acknowledged_actionable_iff plainLibs 0 _ s hrun 0 c ns hc hended
  cases hmode.symm.trans hm
  exact ⟨s, c, ns, hrun, hc, hended, hmode, hiff.mpr (by decide)⟩

/-- A reply with a mode no button stands for. -/
def crawlReply : String := "\x7b\"mode\": 2\x7d"

/-- The client libraries as far as that reply goes. -/
def crawlLibs : Libs :=
  { plainLibs with
    loads := fun raw => if raw = crawlReply then .ok (.obj [("mode", .int 2)]) else .error "" }

/-- A reply of mode 2 is acknowledged, and the next frame of its state, the first of all, sets no
button. -/
theorem crawl_unannounced : ∃ s c ns,
    Trace.run (System.step crawlLibs) (System.init 0) (answered "crawl" crawlReply) = some s ∧
      s.brain.calls[0]? = some c ∧ c.phase = .ended (.success ns) ∧ ns.mode = some 2 ∧
        s.link.lastSentMode = none ∧
          (s.link.publisher.publishMovement ns 0).2.buttons = .replicate 12 0 ∧
            ¬ Actionable s.link ns 2 := by
  obtain ⟨s, c, ns, hrun, hc, hended, hmode, hnew, hsilent⟩ := exists_success crawlLibs
    (answered "crawl" crawlReply) (fun s ns => ns.mode = some 2 ∧ s.link.lastSentMode = none ∧
      (s.link.publisher.publishMovement ns 0).2.buttons = .replicate 12 0) (by decide +kernel)
  refine ⟨s, c, ns, hrun, hc, hended, hmode, hnew, hsilent, fun h => ?_⟩
  exact absurd h.button (by decide)

end SvanVoice
