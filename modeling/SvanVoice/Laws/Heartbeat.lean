import SvanVoice.Laws.Snapshot
import SvanVoice.Library.Places

/-!
# The order of the frames

The heartbeat copies the state under the lock and publishes its copy later, while calls go on
committing. `frames_follow_commits` says that this never turns time back: the states of the frames
are states the brain has had, in the order it had them, whatever was committed, skipped or repeated
between two frames. The brain's states are numbered by the record of assignments, the initial state
first, and the proof carries the number of each frame.
-/

set_option autoImplicit false

namespace SvanVoice

open Places

/-- The states the brain has had, in order. -/
def Globals.history (g : Globals) : List StateDict :=
  initialState :: g.assigned.map Assignment.state

/-! ## The brain -/

section Brain

variable {libs : Libs} {b t : Brain}

/-- A step of the brain adds to its history. -/
theorem Brain.step_history {a : BrainAction} (h : b.step libs a = some t) :
    ∃ more, t.globals.history = b.globals.history ++ more := by
  rcases Brain.step_cases h with ⟨_, _, -, hsame, -⟩ | ⟨id, turn, c, c', -, -, hturn, -⟩
  · exact ⟨[], by rw [hsame, List.append_nil]⟩
  · rcases turn_assigned hturn with ⟨ns, -, -, hg⟩ | ⟨e, -, -, hg⟩ | ⟨-, hsame⟩
    · exact ⟨[ns], by rw [hg, Globals.history, Globals.assign, List.map_append]; rfl⟩
    · exact ⟨[safeState], by rw [hg, Globals.history, Globals.assign, List.map_append]; rfl⟩
    · exact ⟨[], by rw [Globals.history, hsame, List.append_nil]; rfl⟩

/-- The current state is the last of the history. -/
theorem Brain.LastAssigned.getLast? (h : b.LastAssigned) :
    b.globals.history.getLast? = some b.globals.currentRobotState := by
  rw [h, Brain.lastAssigned, Globals.history, List.getLast?_cons, List.getLast?_map]

end Brain

/-! ## The heartbeat -/

/-- The topic stays as it is where nothing is published. -/
theorem Link.step_unpublished {l t : Link} {a : LinkAction} (h : l.step a = some t)
    (hnone : published [a] = []) : t.sent = l.sent := by
  have hsent := Link.step_sent h []
  rwa [hnone, List.append_nil, DDSPublisher.publishAll, DDSPublisher.publishAll, List.append_nil,
    List.append_nil] at hsent

/-- The states of the frames, and the one that is copied and not published yet. -/
def System.copied (s : System) : List StateDict :=
  s.link.sent.map Prod.fst ++ s.stateSnapshot.toList

/-- **What a step does to the copies**: it adds the current state to them, or it leaves them alone
and may add to the history. -/
theorem System.step_copied {libs : Libs} {s t : System} {a : SystemAction}
    (h : s.step libs a = some t) :
    (t.copied = s.copied ∧ ∃ more, t.brain.globals.history = s.brain.globals.history ++ more) ∨
      t.copied = s.copied ++ [s.brain.globals.currentRobotState] ∧ t.brain = s.brain := by
  rcases System.step_inv h with ⟨ba, brain, -, hbrain, rfl⟩ | ⟨rfl, rfl⟩ |
    ⟨snapshot, noise, link, -, hheld, hlink, rfl⟩ | ⟨la, link, -, hnone, hlink, rfl⟩
  · exact .inl ⟨rfl, Brain.step_history (Brain.scheduled_eq_some.mp hbrain).2⟩
  · have hnone : s.stateSnapshot = none := by
      simp only [System.step, Option.ite_none_right_eq_some] at h
      exact h.1
    refine .inr ⟨?_, rfl⟩
    simp only [System.copied, hnone, Option.toList_none, Option.toList_some, List.append_nil]
  · -- the copy becomes the state of the last frame
    cases hlink
    refine .inl ⟨?_, [], (List.append_nil _).symm⟩
    simp only [System.copied, hheld, Option.toList_none, Option.toList_some, List.append_nil,
      List.map_append, List.map_singleton]
  · refine .inl ⟨?_, [], (List.append_nil _).symm⟩
    rw [System.copied, System.copied, Link.step_unpublished hlink hnone]

/-- From the place `n` on, the copies are states from the place `p` on, in order. -/
structure System.Since (n p : Nat) (s : System) : Prop where
  latest : s.brain.LastAssigned
  copies : n ≤ s.copied.length
  states : p < s.brain.globals.history.length
  inOrder : InOrder (s.copied.drop n) (s.brain.globals.history.drop p)

theorem System.init_since (start : Int) : (System.init start).Since 0 0 where
  latest := rfl
  copies := Nat.zero_le _
  states := Nat.zero_lt_one
  inOrder := inOrder_nil _

theorem System.step_since {libs : Libs} {s t : System} {a : SystemAction} {n p : Nat}
    (h : s.step libs a = some t) (hs : s.Since n p) : t.Since n p := by
  have hlatest : t.brain.LastAssigned := by
    rcases System.step_inv h with ⟨ba, brain, -, hbrain, rfl⟩ | ⟨-, rfl⟩ |
      ⟨_, _, _, -, -, -, rfl⟩ | ⟨_, _, -, -, -, rfl⟩
    · exact Brain.step_lastAssigned (Brain.scheduled_eq_some.mp hbrain).2 hs.latest
    · exact hs.latest
    · exact hs.latest
    · exact hs.latest
  rcases System.step_copied h with ⟨hcopied, more, hmore⟩ | ⟨hcopied, hsame⟩
  · refine ⟨hlatest, hcopied ▸ hs.copies, ?_, ?_⟩
    · rw [hmore, List.length_append]
      exact Nat.lt_add_right _ hs.states
    · rw [hcopied, hmore, List.drop_append_of_le_length (Nat.le_of_lt hs.states)]
      exact hs.inOrder.append _
  · refine ⟨hlatest, ?_, hsame ▸ hs.states, ?_⟩
    · rw [hcopied, List.length_append]
      exact Nat.le_add_right_of_le hs.copies
    · -- the current state is the last of those from the place on
      have hcurrent := hs.latest.getLast?
      rw [hcopied, hsame, List.drop_append_of_le_length hs.copies]
      refine hs.inOrder.snoc ?_
      rw [List.getLast?_drop, if_neg (Nat.not_le_of_lt hs.states), hcurrent]

theorem System.run_since {libs : Libs} {s t : System} {as : List SystemAction} {n p : Nat}
    (h : Trace.run (System.step libs) s as = some t) (hs : s.Since n p) : t.Since n p :=
  Trace.invariant (I := System.Since n p) (fun _ _ _ hs ht => System.step_since ht hs) hs h

/-- The frames on the topic, of those that are copied. -/
theorem System.Since.sent {s : System} (h : s.Since 0 0) :
    InOrder (s.link.sent.map Prod.fst) s.brain.globals.history :=
  InOrder.left h.inOrder

/-- **The frames follow the commits.** In every run of the whole system the states of the frames are
states the brain has had, and no frame has an older state than the frame before it. -/
theorem frames_follow_commits (libs : Libs) (start : Int) (as : List SystemAction) (s : System)
    (hrun : Trace.run (System.step libs) (System.init start) as = some s) :
    InOrder (s.link.sent.map Prod.fst) s.brain.globals.history :=
  (System.run_since hrun (System.init_since start)).sent

/-- Two frames around a commit. -/
def walkBetween : List SystemAction :=
  [.copy, .link (.publish initialState 0)] ++
    (ask 0 .web "walk forward" ++ answer 0 walkReply).map .brain ++
      [.copy, .link (.publish walkState 0)]

/-- The walk comes after the sleep, and at the later place. -/
theorem walk_follows : ∃ s, Trace.run (System.step plainLibs) (System.init 0) walkBetween = some s ∧
    s.link.sent.map Prod.fst = [initialState, walkState] ∧
      InOrder [initialState, walkState] s.brain.globals.history := by
  obtain ⟨s, hrun, hsent⟩ := (Option.any_eq_true
    (fun s : System => decide (s.link.sent.map Prod.fst = [initialState, walkState]))
    (Trace.run (System.step plainLibs) (System.init 0) walkBetween)).mp (by decide +kernel)
  have hsent := of_decide_eq_true hsent
  exact ⟨s, hrun, hsent, hsent ▸ frames_follow_commits plainLibs 0 walkBetween s hrun⟩

end SvanVoice
