import SvanVoice.Laws.Brain
import SvanVoice.Laws.Link

/-!
# Agreement of the modes

The brain's mode and the bridge's are two machines joined by an edge pulse over a lossy link. Both
laws here are the pulse's laws at the bridge, through `Link.run_lastMode` and `publishAll_pulse`.

`modes_agree_under_bounded_loss`: from a fresh start, with fewer than `holdFrames` frames in a row
lost, the bridge's mode is the mode of each frame it has processed.

`acknowledged_reaches_iff`: from any reachable state of the whole system, with whatever was lost or
frozen before, a committed mode that is then delivered without loss reaches the bridge exactly if
the publisher still has to announce it, or the bridge is in that mode already.
-/

set_option autoImplicit false

namespace SvanVoice

/-! ## Heard frames -/

/-- A fresh publisher has announced none of the known modes. -/
theorem fresh_sender {ss : List (StateDict × ℚ)} (hmodes : ∀ s ∈ ss, Known s.1.modeOr) :
    ({} : DDSPublisher).sender.last ∉ ss.map fun s => s.1.modeOr := by
  intro hmem
  obtain ⟨s, hs, hlast⟩ := List.mem_map.mp hmem
  exact ne_fresh_of_known (hmodes s hs) hlast

/-- What published frames ask for in turn is what their pulses announce in turn. -/
theorem foldl_requestedMode {p : DDSPublisher} {ss : List (StateDict × ℚ)}
    (hmodes : ∀ s ∈ ss, Known s.1.modeOr) {fs : List (StateDict × JoyData)}
    (hfs : ∀ f ∈ fs, f ∈ p.publishAll ss) (cur : Int) :
    fs.foldl (fun cur f => requestedMode cur f.2) cur =
      (fs.map pulse).foldl EdgePulse.hear cur := by
  rw [List.foldl_map]
  refine List.foldl_ext _ _ cur fun cur f hf => requestedMode_pulse (hfs f hf) ?_ cur
  have hstate : f.1 ∈ (p.publishAll ss).map Prod.fst := List.mem_map_of_mem (hfs f hf)
  rw [publishAll_states] at hstate
  obtain ⟨s, hs, hsame⟩ := List.mem_map.mp hstate
  exact hsame ▸ hmodes s hs

/-- Reading the places of an appended list in order gives that list. -/
theorem filterMap_range'_append {τ : Type} (old new : List τ) :
    (List.range' old.length new.length).filterMap ((old ++ new)[·]?) = new := by
  induction new generalizing old with
  | nil => rfl
  | cons f new ih =>
    have hhead : (old ++ f :: new)[old.length]? = some f := by
      rw [List.getElem?_append_right le_rfl, Nat.sub_self, List.getElem?_cons_zero]
    have htail := ih (old ++ [f])
    rw [List.length_append, List.length_singleton, List.append_assoc,
      List.singleton_append] at htail
    rw [List.length_cons, List.range'_succ, List.filterMap_cons, hhead]
    exact congrArg (f :: ·) htail

/-- The pulses of the delivered frames are the delivered pulses. -/
theorem map_pulse_filterMap (sent : List (StateDict × JoyData)) (ks : List Nat) :
    (ks.filterMap (sent[·]?)).map pulse = EdgePulse.picked (sent.map pulse) ks := by
  rw [EdgePulse.picked, List.map_filterMap]
  exact congrArg (fun g => ks.filterMap g) (funext fun k => List.getElem?_map.symm)

/-- Only frames on the topic are delivered. -/
theorem delivered_sent {l t : Link} {as : List LinkAction}
    (h : Trace.run Link.step l as = some t) : ∀ k ∈ delivered as, ∃ f, t.sent[k]? = some f := by
  induction as generalizing l with
  | nil => exact fun k hk => absurd hk List.not_mem_nil
  | cons a as ih =>
    obtain ⟨u, hu, hrun⟩ := Option.bind_eq_some_iff.mp h
    intro k hk
    rcases List.mem_filterMap.mp hk with ⟨a', ha', hread⟩
    rcases List.mem_cons.mp ha' with rfl | hrest
    · rcases Link.step_cases hu with ⟨hidle, -⟩ | ⟨-, -, hnone⟩ | ⟨k', now, f, rfl, hf, hsent, -⟩
      · cases a' with
        | deliver k' now => exact hidle.elim
        | _ => cases hread
      · rw [delivered, List.filterMap_cons, hread] at hnone
        cases hnone
      · cases hread
        exact ⟨f, Link.getElem?_sent hrun (hsent ▸ hf)⟩
    · exact ih hrun k (List.mem_filterMap.mpr ⟨a', hrest, hread⟩)

/-! ## Bounded loss -/

/-- The bridge's mode after a steady run is the latch over the delivered pulses. -/
theorem lastMode_eq_heard {l t : Link} {as : List LinkAction}
    (hrun : Trace.run Link.step l as = some t) (hsteady : Trace.Along Link.step Link.Steady l as)
    {p : DDSPublisher} {ss : List (StateDict × ℚ)} (hmodes : ∀ s ∈ ss, Known s.1.modeOr)
    (hheard : ∀ f ∈ (delivered as).filterMap (t.sent[·]?), f ∈ p.publishAll ss) :
    t.bridge.lastMode =
      (EdgePulse.picked (t.sent.map pulse) (delivered as)).foldl EdgePulse.hear
        l.bridge.lastMode := by
  rw [Link.run_lastMode hrun hsteady, foldl_requestedMode hmodes hheard, map_pulse_filterMap]

/-- **Bounded loss.** Where a fresh publisher's frames are delivered in order, fewer than
`holdFrames` in a row are lost, and the bridge is neither booted again nor frozen, its mode after
each delivered frame is the mode of the state the frame was published from. -/
theorem modes_agree_under_bounded_loss (start : Int) (as : List LinkAction)
    (hmodes : ∀ s ∈ published as, Known s.1.modeOr)
    (hloss : EdgePulse.LosesFewer holdFrames 0 (delivered as))
    (hsteady : Trace.Along Link.step Link.Steady (Link.init start) as) :
    ∀ before k now after t, as = before ++ .deliver k now :: after →
      Trace.run Link.step (Link.init start) (before ++ [.deliver k now]) = some t →
        ∃ f, t.sent[k]? = some f ∧ t.bridge.lastMode = f.1.modeOr := by
  intro before k now after t hsplit ht
  -- the history up to the delivery meets the hypotheses too
  rw [List.append_cons] at hsplit
  generalize hbs : before ++ [LinkAction.deliver k now] = bs at hsplit ht
  subst hsplit
  have hlast : (delivered bs).getLast? = some k := by
    rw [← hbs, delivered, List.filterMap_append]
    exact List.getLast?_concat
  have hmodes' : ∀ s ∈ published bs, Known s.1.modeOr := fun s hs =>
    hmodes s (by
      rw [published, List.filterMap_append]
      exact List.mem_append_left _ hs)
  have hloss' : EdgePulse.LosesFewer holdFrames 0 (delivered bs) := by
    rw [delivered, List.filterMap_append] at hloss
    exact hloss.left
  have hsent : t.sent = ({} : DDSPublisher).publishAll (published bs) := Link.run_sent ht
  have hheard := lastMode_eq_heard ht hsteady.left hmodes' (p := {}) fun f hf => by
    obtain ⟨j, -, hj⟩ := List.mem_filterMap.mp hf
    exact hsent ▸ List.mem_of_getElem? hj
  have hmode := EdgePulse.hear_of_losesFewer (fresh_sender hmodes') hloss'
    (fun j hj => by
      obtain ⟨f, hf⟩ := delivered_sent ht j hj
      rw [List.length_map, ← publishAll_length {}, ← hsent]
      exact (List.getElem?_eq_some_iff.mp hf).1)
    hlast (Link.init start).bridge.lastMode
  rw [← publishAll_pulse hmodes', ← hsent, ← hheard] at hmode
  obtain ⟨f, hf⟩ := delivered_sent ht k (List.mem_of_getLast? hlast)
  exact ⟨f, hf, Option.some.inj (hmode.symm.trans (modeOr_of_publishAll (hsent ▸ hf)))⟩

/-- A sleep whose first nine frames are lost, then a walk. -/
def nineLost : List LinkAction :=
  List.replicate 10 (.publish initialState 0) ++
    [.deliver 9 20000000, .publish forward 0, .deliver 10 40000000]

/-- The bridge agrees after nine lost frames. -/
theorem agree_after_nine_lost : ∃ t, Trace.run Link.step (Link.init 0) nineLost = some t ∧
    ∃ f, t.sent[10]? = some f ∧ t.bridge.lastMode = f.1.modeOr := by
  obtain ⟨t, hrun, -⟩ := (Option.any_eq_true (fun _ => true)
    (Trace.run Link.step (Link.init 0) nineLost)).mp (by decide +kernel)
  exact ⟨t, hrun, modes_agree_under_bounded_loss 0 nineLost (by decide +kernel) (by decide +kernel)
    (by decide +kernel) (nineLost.take 12) 10 40000000 [] t rfl hrun⟩

/-! ## The whole system over the link -/

/-- The link's part of an action. -/
def SystemAction.link? : SystemAction → Option LinkAction
  | .link a => some a
  | _ => none

/-- What the link does in a run of the system. -/
def linkActions (as : List SystemAction) : List LinkAction := as.filterMap SystemAction.link?

namespace System

variable {libs : Libs} {s t : System} {a : SystemAction} {as : List SystemAction}

/-- **What a step of the system does**: the brain steps, the heartbeat copies the state, it
publishes its copy, or the link takes another step. -/
theorem step_inv (h : s.step libs a = some t) :
    (∃ ba brain, a = .brain ba ∧ s.brain.scheduled libs ba = some brain ∧ t = { s with brain }) ∨
      (a = .copy ∧ t = { s with stateSnapshot := some s.brain.globals.currentRobotState }) ∨
      (∃ snapshot noise link, a = .link (.publish snapshot noise) ∧
        s.stateSnapshot = some snapshot ∧ s.link.step (.publish snapshot noise) = some link ∧
          t = { s with stateSnapshot := none, link }) ∨
      ∃ la link, a = .link la ∧ published [la] = [] ∧ s.link.step la = some link ∧
        t = { s with link } := by
  cases a with
  | brain ba =>
    obtain ⟨brain, hbrain, rfl⟩ := Option.map_eq_some_iff.mp h
    exact .inl ⟨ba, brain, rfl, hbrain, rfl⟩
  | copy =>
    simp only [step, Option.ite_none_right_eq_some, Option.some.injEq] at h
    exact .inr (.inl ⟨rfl, h.2.symm⟩)
  | link la =>
    cases la
    case publish snapshot noise =>
      simp only [step, Option.ite_none_right_eq_some] at h
      obtain ⟨hheld, hmap⟩ := h
      obtain ⟨link, hlink, rfl⟩ := Option.map_eq_some_iff.mp hmap
      exact .inr (.inr (.inl ⟨snapshot, noise, link, rfl, hheld, hlink, rfl⟩))
    all_goals
      simp only [step] at h
      obtain ⟨link, hlink, rfl⟩ := Option.map_eq_some_iff.mp h
      exact .inr (.inr (.inr ⟨_, link, rfl, rfl, hlink, rfl⟩))

/-- A step of the system is a step of its link, or leaves the link alone. -/
theorem step_cases (h : s.step libs a = some t) :
    (∃ la, a = .link la ∧ s.link.step la = some t.link) ∨ (a.link? = none ∧ t.link = s.link) := by
  rcases step_inv h with ⟨ba, brain, rfl, -, rfl⟩ | ⟨rfl, rfl⟩ |
    ⟨snapshot, noise, link, rfl, -, hlink, rfl⟩ | ⟨la, link, rfl, -, hlink, rfl⟩
  · exact .inr ⟨rfl, rfl⟩
  · exact .inr ⟨rfl, rfl⟩
  · exact .inl ⟨_, rfl, hlink⟩
  · exact .inl ⟨la, rfl, hlink⟩

/-- A run of the system is a run of its link. -/
theorem run_link (h : Trace.run (step libs) s as = some t) :
    Trace.run Link.step s.link (linkActions as) = some t.link := by
  refine Trace.run_filterMap (g := System.link) (fun _ _ _ hstep => ?_) h
  refine (step_cases hstep).imp_left ?_
  rintro ⟨la, rfl, hla⟩
  exact ⟨la, rfl, hla⟩

/-- The bridge is not booted and its watchdog does not fire. -/
def Steady (s : System) (a : SystemAction) : Prop := ∀ la ∈ a.link?, s.link.Steady la

instance : Decidable (s.Steady a) := by
  unfold Steady
  infer_instance

theorem along_link (h : Trace.run (step libs) s as = some t)
    (hsteady : Trace.Along (step libs) Steady s as) :
    Trace.Along Link.step Link.Steady s.link (linkActions as) := by
  induction as generalizing s with
  | nil => exact Trace.along_nil
  | cons a as ih =>
    obtain ⟨u, hu, hrun⟩ := Option.bind_eq_some_iff.mp h
    obtain ⟨hhere, hrest⟩ := Trace.along_cons.mp hsteady
    have htail := ih hrun (hrest u hu)
    rcases step_cases hu with ⟨la, rfl, hla⟩ | ⟨hnone, hsame⟩
    · refine Trace.along_cons.mpr ⟨hhere la rfl, fun l hl => ?_⟩
      cases hla.symm.trans hl
      exact htail
    · rw [linkActions, List.filterMap_cons_none hnone, ← hsame]
      exact htail

/-- Every reachable system has a coherent bridge. -/
theorem run_coherent {start : Int} (h : Trace.run (step libs) (init start) as = some t) :
    t.link.bridge.Coherent :=
  Link.run_coherent (run_link h) (Loop.boot_coherent start)

end System

/-! ## An acknowledged command -/

/-- After the history `as` from the start, the step `commit` commits a state of mode `m`, and in the
actions `bs` that follow, the frames published carry that state, there are at least `holdFrames` of
them, each is delivered once and in order and nothing else is, and the bridge is neither booted nor
frozen. -/
structure Acknowledged (libs : Libs) (start : Int) (as : List SystemAction) (commit : SystemAction)
    (bs : List SystemAction) (s t : System) (m : Int) : Prop where
  commits : ∃ s₀ call fromReply, Trace.run (System.step libs) (System.init start) as = some s₀ ∧
    s₀.step libs commit = some s ∧
      s.brain.globals.assigned =
        s₀.brain.globals.assigned ++ [⟨call, s.brain.globals.currentRobotState, fromReply⟩]
  mode : s.brain.globals.currentRobotState.mode = some m
  known : Known m
  follows : Trace.run (System.step libs) s bs = some t
  carried : ∀ f ∈ published (linkActions bs), f.1 = s.brain.globals.currentRobotState
  enough : holdFrames ≤ (published (linkActions bs)).length
  delivers : delivered (linkActions bs) =
    List.range' s.link.sent.length (published (linkActions bs)).length
  steady : Trace.Along (System.step libs) System.Steady s bs

/-- The scenario is checked by running it. -/
theorem exists_acknowledged (libs : Libs) (start : Int) (as : List SystemAction)
    (commit : SystemAction) (bs : List SystemAction) (m : Int) (Q : System → System → Prop)
    [∀ s t, Decidable (Q s t)]
    (h : ((Trace.run (System.step libs) (System.init start) as).any fun s₀ =>
      (s₀.step libs commit).any fun s => (Trace.run (System.step libs) s bs).any fun t => decide (
        (∃ x ∈ s.brain.globals.assigned.getLast?, x.state = s.brain.globals.currentRobotState ∧
          s.brain.globals.assigned = s₀.brain.globals.assigned ++ [x]) ∧
        s.brain.globals.currentRobotState.mode = some m ∧ Known m ∧
        (∀ f ∈ published (linkActions bs), f.1 = s.brain.globals.currentRobotState) ∧
        holdFrames ≤ (published (linkActions bs)).length ∧
        delivered (linkActions bs) =
          List.range' s.link.sent.length (published (linkActions bs)).length ∧
        Trace.Along (System.step libs) System.Steady s bs ∧ Q s t)) = true) :
    ∃ s t, Acknowledged libs start as commit bs s t m ∧ Q s t := by
  obtain ⟨s₀, has, h⟩ := (Option.any_eq_true _ _).mp h
  obtain ⟨s, hs, h⟩ := (Option.any_eq_true _ _).mp h
  obtain ⟨t, ht, h⟩ := (Option.any_eq_true _ _).mp h
  obtain ⟨⟨x, -, hx, hrecord⟩, hmode, hknown, hcarried, henough, hdelivers, hsteady, hQ⟩ :=
    of_decide_eq_true h
  refine ⟨s, t, ⟨⟨s₀, x.call, x.fromReply, has, hs, ?_⟩, hmode, hknown, ht, hcarried, henough,
    hdelivers, hsteady⟩, hQ⟩
  rw [hrecord, ← hx]

/-- **When an acknowledged command takes effect.** A committed mode whose frames all arrive is the
bridge's mode, and the mode last told to the robot, exactly if the publisher's last mode was another
one, or its button was still held, or the bridge was in that mode already. -/
theorem acknowledged_reaches_iff (libs : Libs) (start : Int) (as : List SystemAction)
    (commit : SystemAction) (bs : List SystemAction) (s t : System) (m : Int)
    (h : Acknowledged libs start as commit bs s t m) :
    (t.link.bridge.lastMode = m ∧ modeSet t.link.bridge.calls = some m) ↔
      m ≠ s.link.publisher.lastModeOr ∨ 0 < s.link.publisher.buttonHoldTicks ∨
        s.link.bridge.lastMode = m := by
  have hrun := System.run_link h.follows
  have hsent := Link.run_sent hrun
  have hmode : ∀ f ∈ published (linkActions bs), f.1.modeOr = m := fun f hf => by
    rw [h.carried f hf, StateDict.modeOr, h.mode]
    rfl
  -- what the bridge hears is the new frames, one after the other
  have hpicked : (delivered (linkActions bs)).filterMap (t.link.sent[·]?) =
      s.link.publisher.publishAll (published (linkActions bs)) := by
    rw [h.delivers, hsent, ← publishAll_length s.link.publisher]
    exact filterMap_range'_append _ _
  have hknown : ∀ f ∈ published (linkActions bs), Known f.1.modeOr := fun f hf => by
    rw [hmode f hf]
    exact h.known
  have hheard := lastMode_eq_heard hrun (System.along_link h.follows h.steady) hknown
    fun f hf => hpicked ▸ hf
  rw [← map_pulse_filterMap, hpicked, publishAll_pulse hknown] at hheard
  have htold : modeSet t.link.bridge.calls = some t.link.bridge.lastMode := by
    obtain ⟨s₀, call, fromReply, has, hcommit, -⟩ := h.commits
    exact (System.run_coherent (Trace.run_append_eq_some.mpr
      ⟨s, Trace.run_snoc_eq_some.mpr ⟨s₀, has, hcommit⟩, h.follows⟩)).told
  have hne : (published (linkActions bs)).map (fun f => f.1.modeOr) ≠ [] := by
    intro hnil
    have hlength := h.enough
    rw [List.map_eq_nil_iff.mp hnil] at hlength
    exact absurd hlength (by decide)
  have hsame : ∀ m' ∈ (published (linkActions bs)).map (fun f => f.1.modeOr), m' = m := by
    intro m' hm'
    obtain ⟨f, hf, rfl⟩ := List.mem_map.mp hm'
    exact hmode f hf
  rw [htold, hheard, Option.some.injEq, and_self]
  exact EdgePulse.foldl_hear_steady (by decide) hne hsame

/-- A heartbeat publishes a state, and its frame is delivered between two checks. -/
def beat (state : StateDict) (k : Nat) (now : Int) : List SystemAction :=
  [.copy, .link (.publish state 0), .link (.deliver k now), .link (.check now)]

/-- Ten heartbeats of a state, each frame delivered, from frame `k` on. -/
def tenBeats (state : StateDict) (k : Nat) : List SystemAction :=
  (List.range 10).flatMap fun i => beat state (k + i) (1000000000 + 20000000 * i)

/-- The bridge's loop starts, and the brain is told to sleep and has its reply validated. -/
def bootThenSleep : List SystemAction :=
  .link (.boot 1000000000) ::
    (ask 0 .web "go to sleep" ++ (answer 0 sleepReply).dropLast).map .brain

/-- Ten heartbeats before the bridge's loop starts: their press is over when it listens. -/
def pressBeforeBoot : List SystemAction :=
  (List.replicate 10 [SystemAction.copy, .link (.publish initialState 0)]).flatten ++ bootThenSleep

/-- A sleep committed before the first heartbeat reaches the bridge. -/
theorem sleep_reaches : ∃ s t,
    Acknowledged plainLibs 0 bootThenSleep (.brain (.turn 0 .runs)) (tenBeats initialState 0)
      s t 0 ∧ t.link.bridge.lastMode = 0 ∧ modeSet t.link.bridge.calls = some 0 := by
  obtain ⟨s, t, h, hnew⟩ := exists_acknowledged plainLibs 0 bootThenSleep
    (.brain (.turn 0 .runs)) (tenBeats initialState 0) 0
    (fun s _ => 0 ≠ s.link.publisher.lastModeOr) (by decide +kernel)
  exact ⟨s, t, h, (acknowledged_reaches_iff plainLibs 0 _ _ _ s t 0 h).mpr (.inl hnew)⟩

/-- The same sleep after a press that no bridge heard leaves the bridge standing. -/
theorem sleep_unheard : ∃ s t,
    Acknowledged plainLibs 0 pressBeforeBoot (.brain (.turn 0 .runs)) (tenBeats initialState 10)
      s t 0 ∧ t.link.bridge.lastMode = 1 :=
  exists_acknowledged _ _ _ _ _ _ _ (by decide +kernel)

end SvanVoice
