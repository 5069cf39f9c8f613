import SvanVoice.Laws.Heartbeat
import SvanVoice.Laws.Provenance

/-!
# The robot follows the brain

A topic that delivers in order may lose frames and repeat the last one, and the bridge may be
started again; it does not deliver a frame after a later one. Over such a topic the robot obeys the
brain's states in the order in which the brain set them (`robot_follows_brain`). The bridge's calls
answer to the frames in the order of their deliveries, in any run; the frames were read from the
brain's history in order; and the two readings compose.

So a stop is kept (`stop_is_kept`): once a frame of it has been delivered, the robot does not move
before the brain sets a state in mode 4 again.
-/

set_option autoImplicit false

namespace SvanVoice

open Places

/-- Deliveries in order answer in order, two calls to a delivery or fewer. -/
theorem pairwise_of_sublist {places : List (Option Nat)} {deliveries : List Nat}
    (hplaces : places.reduceOption.Sublist (deliveries.flatMap fun k => [k, k]))
    (horder : deliveries.Pairwise (· ≤ ·)) : places.reduceOption.Pairwise (· ≤ ·) := by
  refine List.Pairwise.sublist hplaces (List.pairwise_flatMap.mpr ⟨fun k _ => ?_, ?_⟩)
  · exact List.pairwise_pair.mpr (Nat.le_refl k)
  · refine horder.imp fun {k l} hkl x hx y hy => ?_
    simp only [List.mem_cons, List.not_mem_nil, or_false, or_self] at hx hy
    rw [hx, hy]
    exact hkl

/-- **The robot follows the brain.** In every run of the whole system whose frames are delivered in
order, whatever is lost, repeated or cut off by a new start of the bridge, each call of the bridge
is its own, to stand at rest, or is asked for by a state the brain has had; and no call is asked for
by an older state than a call before it. -/
theorem robot_follows_brain (libs : Libs) (start : Int) (as : List SystemAction) (s : System)
    (hrun : Trace.run (System.step libs) (System.init start) as = some s)
    (horder : (delivered (linkActions as)).Pairwise (· ≤ ·)) :
    ∃ places, AnswersTo SdkCall.Own StateDict.Asks s.brain.globals.history places
        s.link.bridge.calls ∧ places.reduceOption.Pairwise (· ≤ ·) := by
  obtain ⟨places, hanswers, hplaces⟩ := Link.run_told (System.run_link hrun)
  obtain ⟨ks, hsorted, hread⟩ := (System.run_since hrun (System.init_since start)).sent
  exact ⟨through ks places, hanswers.through hread,
    pairwise_through hsorted (pairwise_of_sublist hplaces horder)⟩

/-- The state that `standReply` commits. -/
def standState : StateDict where
  mode := some 1
  modeName := some "stand"
  xVelocity := some 0
  yVelocity := some 0
  yawVelocity := some 0
  speed := some "slow"

/-- The robot has been told to walk, and the brain has decided to stand. -/
def walkThenStand : List SystemAction :=
  (ask 0 .web "walk forward" ++ answer 0 walkReply ++ finish 0).map .brain ++
    [.copy, .link (.publish walkState 0), .link (.deliver 0 20000000)] ++
    (ask 1 .web "stand up" ++ answer 1 standReply).map .brain

/-- The copy of the state is published and delivered. -/
def standTold : List SystemAction :=
  [.link (.publish standState 0), .link (.deliver 1 40000000)]

/-- The robot stands, walks and stands again, in the order of the states. -/
theorem walk_then_stand_follows : ∃ s,
    Trace.run (System.step plainLibs) (System.init 0) (walkThenStand ++ .copy :: standTold) =
      some s ∧
    s.link.bridge.calls = [.setMode modeStand, .setMode modeMove, .setVelocity walkState.turned,
      .setMode modeStand] ∧
    ∃ places, AnswersTo SdkCall.Own StateDict.Asks s.brain.globals.history places
      s.link.bridge.calls ∧ places.reduceOption.Pairwise (· ≤ ·) := by
  obtain ⟨s, hrun, hcalls⟩ := (Option.any_eq_true
    (fun s : System => decide (s.link.bridge.calls = [.setMode modeStand, .setMode modeMove,
      .setVelocity walkState.turned, .setMode modeStand]))
    (Trace.run (System.step plainLibs) (System.init 0)
      (walkThenStand ++ .copy :: standTold))).mp (by decide +kernel)
  exact ⟨s, hrun, of_decide_eq_true hcalls,
    robot_follows_brain plainLibs 0 _ s hrun (by decide +kernel)⟩

/-! ## Stopping -/

/-- A robot at rest does not move before a frame of a state in mode 4 is delivered. -/
theorem Link.run_still {n : Nat} {l t : Link} {as : List LinkAction}
    (h : Trace.run step l as = some t) (hl : l.bridge.Coherent)
    (hgenuine : ∀ (k : Nat) (f : StateDict × JoyData), t.sent[k]? = some f →
      ∃ (q : DDSPublisher) (noise : ℚ), f.2 = (q.publishMovement f.1 noise).2)
    (hrest : ∀ (k : Nat) (f : StateDict × JoyData), n ≤ k → t.sent[k]? = some f → f.1.modeOr ≠ 4)
    (hlater : ∀ k ∈ delivered as, n ≤ k) (hstill : ¬ Moving l.bridge.calls) :
    ¬ Moving t.bridge.calls := by
  induction as generalizing l with
  | nil => cases h; exact hstill
  | cons a as ih =>
    obtain ⟨u, hu, hrun⟩ := Option.bind_eq_some_iff.mp h
    rw [← List.singleton_append, delivered_append] at hlater
    refine ih hrun (step_coherent hu hl) (fun k hk => hlater k (List.mem_append_right _ hk)) ?_
    rcases step_cases hu with ⟨-, hsame⟩ | ⟨hstand, -, -⟩ | ⟨k, now, f, rfl, hf, hsent, -⟩
    · exact hsame ▸ hstill
    · exact fun hmoving => absurd (hstand.symm.trans hmoving.1) (by decide)
    · intro hmoving
      have hk : t.sent[k]? = some f := getElem?_sent hrun (hsent ▸ hf)
      refine hrest k f (hlater k (List.mem_append_left _ (List.mem_singleton.mpr rfl))) hk ?_
      exact (deliver_moving hl hf (hgenuine k f hk) hu hmoving).1

/-- A delivered frame stops the robot, if no frame from it on has a state in mode 4. -/
theorem Link.run_stopped {start : Int} {n : Nat} {t : Link} {as : List LinkAction}
    (h : Trace.run step (init start) as = some t) (horder : (delivered as).Pairwise (· ≤ ·))
    (hrest : ∀ (k : Nat) (f : StateDict × JoyData), n ≤ k → t.sent[k]? = some f → f.1.modeOr ≠ 4)
    (hdelivered : n ∈ delivered as) : ¬ Moving t.bridge.calls := by
  obtain ⟨a, ha, hframe⟩ := List.mem_filterMap.mp hdelivered
  obtain ⟨now, rfl⟩ : ∃ now, a = .deliver n now := by
    cases a with
    | deliver k now => cases hframe; exact ⟨now, rfl⟩
    | _ => cases hframe
  obtain ⟨pre, post, rfl⟩ := List.append_of_mem ha
  obtain ⟨l, hpre, hpost⟩ := Trace.run_append_eq_some.mp h
  obtain ⟨u, hdeliver, hend⟩ := Option.bind_eq_some_iff.mp hpost
  have hcoherent := run_coherent hpre (Loop.boot_coherent start)
  have hgenuine : ∀ (k : Nat) (f : StateDict × JoyData), t.sent[k]? = some f →
      ∃ (q : DDSPublisher) (noise : ℚ), f.2 = (q.publishMovement f.1 noise).2 :=
    fun k f hf => sent_genuine h hf
  refine run_still hend (step_coherent hdeliver hcoherent) hgenuine hrest ?_ ?_
  · -- no earlier frame is delivered after it
    rw [delivered_append] at horder
    exact (List.pairwise_cons.mp (List.pairwise_append.mp horder).2.1).1
  · -- and it does not move the robot itself
    obtain ⟨f, hf, -⟩ := Option.map_eq_some_iff.mp hdeliver
    have hn : t.sent[n]? = some f := getElem?_sent hpost hf
    intro hmoving
    refine hrest n f (Nat.le_refl n) hn ?_
    exact (deliver_moving hcoherent hf (hgenuine n f hn) hdeliver hmoving).1

/-- What the topic has from the copied frame on, where the brain has stopped. -/
theorem System.Since.rest {n p : Nat} {s : System} (h : s.Since n p)
    (hstop : ∀ state ∈ s.brain.globals.history.drop p, state.modeOr ≠ 4) {k : Nat}
    {f : StateDict × JoyData} (hk : n ≤ k) (hf : s.link.sent[k]? = some f) : f.1.modeOr ≠ 4 := by
  have hsent : (s.link.sent.map Prod.fst)[k]? = some f.1 := by
    rw [List.getElem?_map, hf, Option.map_some]
  have hcopied : s.copied[k]? = some f.1 := by
    rw [System.copied, List.getElem?_append_left (List.getElem?_eq_some_iff.mp hsent).1, hsent]
  have hmem : f.1 ∈ s.copied.drop n := by
    refine List.mem_of_getElem? (i := k - n) ?_
    rw [List.getElem?_drop, Nat.add_sub_cancel' hk, hcopied]
  exact hstop f.1 (h.inOrder.mem f.1 hmem)

/-- From a copy on, the frames are of the state it copied and of those after it. -/
theorem System.copy_since {libs : Libs} {s t : System} (h : s.step libs .copy = some t)
    (hlast : s.brain.LastAssigned) :
    t.Since s.link.sent.length (s.brain.globals.history.length - 1) := by
  simp only [System.step, Option.ite_none_right_eq_some] at h
  obtain ⟨-, ht⟩ := h
  cases ht
  have hpositive : s.brain.globals.history.length - 1 < s.brain.globals.history.length :=
    Nat.sub_one_lt (Nat.succ_ne_zero _)
  have hlength : (s.link.sent.map Prod.fst).length = s.link.sent.length := List.length_map _
  refine ⟨hlast, ?_, hpositive, ?_⟩
  · rw [System.copied, List.length_append, hlength]
    exact Nat.le_add_right _ _
  · rw [System.copied, List.drop_left' hlength]
    refine (inOrder_nil _).snoc ?_
    rw [List.getLast?_drop, if_neg (Nat.not_le_of_lt hpositive), hlast.getLast?]

/-- **A stop is kept.** A state is copied, and neither it nor any state the brain sets later is in
mode 4. In every run whose frames are delivered in order, once the frame of the copy has been
delivered the robot does not move, whatever else is delivered and however often the bridge is
started. -/
theorem stop_is_kept (libs : Libs) (start : Int) (before after : List SystemAction) (s t : System)
    (hbefore : Trace.run (System.step libs) (System.init start) before = some s)
    (hafter : Trace.run (System.step libs) s (.copy :: after) = some t)
    (horder : (delivered (linkActions (before ++ .copy :: after))).Pairwise (· ≤ ·))
    (hstop : ∀ state ∈ t.brain.globals.history.drop (s.brain.globals.history.length - 1),
      state.modeOr ≠ 4)
    (hdelivered : s.link.sent.length ∈ delivered (linkActions after)) :
    ¬ Moving t.link.bridge.calls := by
  have hlast := Brain.run_lastAssigned (Brain.run_of_scheduled (System.run_brain hbefore))
  obtain ⟨u, hcopy, hrun⟩ := Option.bind_eq_some_iff.mp hafter
  have hsince := System.run_since hrun (System.copy_since hcopy hlast)
  have hrest : ∀ (k : Nat) (f : StateDict × JoyData), s.link.sent.length ≤ k →
      t.link.sent[k]? = some f → f.1.modeOr ≠ 4 := fun k f hk hf => hsince.rest hstop hk hf
  have hwhole : Trace.run (System.step libs) (System.init start) (before ++ .copy :: after) =
      some t := Trace.run_append_eq_some.mpr ⟨s, hbefore, hafter⟩
  refine Link.run_stopped (System.run_link hwhole) horder hrest ?_
  rw [linkActions, List.filterMap_append, delivered_append]
  exact List.mem_append_right _ hdelivered

/-- The walking robot stops. -/
theorem walk_then_stand_stops : ∃ s t,
    Trace.run (System.step plainLibs) (System.init 0) walkThenStand = some s ∧
    Trace.run (System.step plainLibs) s (.copy :: standTold) = some t ∧
    Moving s.link.bridge.calls ∧ ¬ Moving t.link.bridge.calls := by
  obtain ⟨t, hwhole, hstop⟩ := (Option.any_eq_true
    (fun t : System => decide (∀ state ∈ t.brain.globals.history.drop 2, state.modeOr ≠ 4))
    (Trace.run (System.step plainLibs) (System.init 0)
      (walkThenStand ++ .copy :: standTold))).mp (by decide +kernel)
  obtain ⟨s, hbefore, hafter⟩ := Trace.run_append_eq_some.mp hwhole
  have hs : (Trace.run (System.step plainLibs) (System.init 0) walkThenStand).all
      (fun s => s.brain.globals.history.length = 3 ∧ s.link.sent.length = 1 ∧
        Moving s.link.bridge.calls) = true := by decide +kernel
  obtain ⟨hlength, hsent, hmoving⟩ := of_decide_eq_true ((Option.all_eq_true _ _).mp hs s hbefore)
  refine ⟨s, t, hbefore, hafter, hmoving,
    stop_is_kept plainLibs 0 walkThenStand standTold s t hbefore hafter (by decide +kernel) ?_ ?_⟩
  · rw [hlength]
    exact of_decide_eq_true hstop
  · rw [hsent]
    decide +kernel

end SvanVoice
