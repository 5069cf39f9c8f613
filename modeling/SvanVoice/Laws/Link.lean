import SvanVoice.Laws.Publisher
import SvanVoice.Model.System

/-!
# What a run of the link does

`Link.step_cases` says once what a step can do to the bridge: leave it (`Idle`), put it in STAND by
a boot or a firing of the watchdog, or process one sent frame. The topic only grows, by the frames
the publisher writes (`run_sent`), and where the bridge is neither booted nor frozen its mode is
what the delivered frames' buttons ask for, one after the other (`run_lastMode`).

`motion_is_fresh` is the safety law of the link: a robot in effective motion obeys its last valid
sample, which was published from a state in mode 4, and the watchdog has not fired since.
-/

set_option autoImplicit false

namespace SvanVoice

/-! ## Actions -/

/-- The number of a delivered frame. -/
def LinkAction.delivered? : LinkAction → Option Nat
  | .deliver k _ => some k
  | _ => none

/-- A published state, with its noise. -/
def LinkAction.published? : LinkAction → Option (StateDict × ℚ)
  | .publish snapshot noise => some (snapshot, noise)
  | _ => none

/-- The frames delivered, in order. -/
def delivered (as : List LinkAction) : List Nat := as.filterMap LinkAction.delivered?

/-- The states published, in order. -/
def published (as : List LinkAction) : List (StateDict × ℚ) := as.filterMap LinkAction.published?

namespace Link

/-- The action leaves the bridge as it is. -/
def Idle (l : Link) : LinkAction → Prop
  | .publish _ _ | .invalid _ _ => True
  | .check now => l.bridge.fires now = false
  | .boot _ | .deliver _ _ => False

/-- The bridge is not booted and its watchdog does not fire. -/
def Steady (l : Link) : LinkAction → Prop
  | .publish _ _ | .invalid _ _ | .deliver _ _ => True
  | .check now => l.bridge.fires now = false
  | .boot _ => False

instance (l : Link) (a : LinkAction) : Decidable (l.Steady a) := by
  cases a <;> unfold Steady <;> infer_instance

/-! ## One step -/

section Step

variable {l t : Link} {a : LinkAction}

/-- The topic grows by what is published, and the publisher moves with it. -/
theorem step_sent (h : l.step a = some t) (more : List (StateDict × ℚ)) :
    t.sent ++ t.publisher.publishAll more =
      l.sent ++ l.publisher.publishAll (published [a] ++ more) := by
  cases a with
  | publish snapshot noise =>
    cases h
    exact List.append_assoc _ _ _
  | boot now => cases h; rfl
  | deliver k now =>
    obtain ⟨f, -, rfl⟩ := Option.map_eq_some_iff.mp h
    rfl
  | invalid data now => cases h; rfl
  | check now => cases h; rfl

/-- **What a step does to the bridge.** -/
theorem step_cases (h : l.step a = some t) :
    (l.Idle a ∧ t.bridge = l.bridge) ∨
      (modeSet t.bridge.calls = some modeStand ∧ ¬ l.Steady a ∧ delivered [a] = []) ∨
      ∃ k now f, a = .deliver k now ∧ l.sent[k]? = some f ∧ t.sent = l.sent ∧
        t.bridge = l.bridge.processSample ⟨true, f.2⟩ now := by
  cases a with
  | publish snapshot noise => cases h; exact .inl ⟨trivial, rfl⟩
  | boot now => cases h; exact .inr (.inl ⟨rfl, id, rfl⟩)
  | deliver k now =>
    obtain ⟨f, hf, rfl⟩ := Option.map_eq_some_iff.mp h
    exact .inr (.inr ⟨k, now, f, rfl, hf, rfl, rfl⟩)
  | invalid data now =>
    cases h
    exact .inl ⟨trivial, Loop.processSample_invalid (s := ⟨false, data⟩) now rfl⟩
  | check now =>
    cases h
    cases hf : l.bridge.fires now with
    | false => exact .inl ⟨hf, Loop.watchdogCheck_quiet hf⟩
    | true =>
      refine .inr (.inl ⟨?_, fun hsteady => Bool.false_ne_true (hsteady.symm.trans hf), rfl⟩)
      rw [Loop.watchdogCheck_fires hf]
      exact (Loop.frozen_calls l.bridge.calls).1

theorem step_coherent (h : l.step a = some t) (hl : l.bridge.Coherent) : t.bridge.Coherent := by
  cases a with
  | publish snapshot noise => cases h; exact hl
  | boot now => cases h; exact Loop.boot_coherent now
  | deliver k now =>
    obtain ⟨f, -, rfl⟩ := Option.map_eq_some_iff.mp h
    exact Loop.processSample_coherent hl ⟨true, f.2⟩ now
  | invalid data now => cases h; exact Loop.processSample_coherent hl ⟨false, data⟩ now
  | check now => cases h; exact Loop.watchdogCheck_coherent hl now

end Step

/-! ## Runs -/

section Run

variable {l t : Link} {as : List LinkAction}

/-- The topic after a run: what it held, and the frames of the states published. -/
theorem run_sent (h : Trace.run step l as = some t) :
    t.sent = l.sent ++ l.publisher.publishAll (published as) := by
  have hmore : ∀ more, t.sent ++ t.publisher.publishAll more =
      l.sent ++ l.publisher.publishAll (published as ++ more) := by
    induction as generalizing l with
    | nil => cases h; exact fun _ => rfl
    | cons a as ih =>
      obtain ⟨u, hu, hrun⟩ := Option.bind_eq_some_iff.mp h
      intro more
      have hsplit : published (a :: as) ++ more = published [a] ++ (published as ++ more) := by
        rw [← List.append_assoc, published, published, published, ← List.filterMap_append]
        rfl
      rw [ih hrun, hsplit, step_sent hu]
  have hnil := hmore []
  rwa [DDSPublisher.publishAll, List.append_nil, List.append_nil] at hnil

/-- Frames keep their numbers. -/
theorem getElem?_sent (h : Trace.run step l as = some t) {k : Nat} {f : StateDict × JoyData}
    (hf : l.sent[k]? = some f) : t.sent[k]? = some f := by
  rw [run_sent h, List.getElem?_append_left (List.getElem?_eq_some_iff.mp hf).1]
  exact hf

theorem run_coherent (h : Trace.run step l as = some t) (hl : l.bridge.Coherent) :
    t.bridge.Coherent :=
  Trace.invariant (I := fun l : Link => l.bridge.Coherent) (fun _ _ _ hs ht => step_coherent ht hs)
    hl h

/-- **The bridge's mode after a steady run** is what the delivered frames ask for in turn. -/
theorem run_lastMode (h : Trace.run step l as = some t) (hsteady : Trace.Along step Steady l as) :
    t.bridge.lastMode =
      ((delivered as).filterMap (t.sent[·]?)).foldl (fun cur f => requestedMode cur f.2)
        l.bridge.lastMode := by
  induction as generalizing l with
  | nil => cases h; rfl
  | cons a as ih =>
    obtain ⟨u, hu, hrun⟩ := Option.bind_eq_some_iff.mp h
    obtain ⟨hhere, hrest⟩ := Trace.along_cons.mp hsteady
    rw [ih hrun (hrest u hu)]
    rcases step_cases hu with ⟨hidle, hsame⟩ | ⟨-, hnot, -⟩ | ⟨k, now, f, rfl, hf, hsent, hbridge⟩
    · have hnone : delivered (a :: as) = delivered as := by
        cases a with
        | deliver k now => exact hidle.elim
        | _ => rfl
      rw [hnone, hsame]
    · exact absurd hhere hnot
    · have hk : t.sent[k]? = some f := getElem?_sent hrun (hsent ▸ hf)
      have hcons : delivered (LinkAction.deliver k now :: as) = k :: delivered as := rfl
      rw [hcons, List.filterMap_cons, hk, List.foldl_cons, hbridge,
        Loop.processSample_lastMode now rfl]

/-- From the start, every frame on the topic was published from the state it stands with. -/
theorem sent_genuine {start : Int} (h : Trace.run step (init start) as = some t) {k : Nat}
    {f : StateDict × JoyData} (hf : t.sent[k]? = some f) :
    ∃ (q : DDSPublisher) (noise : ℚ), f.2 = (q.publishMovement f.1 noise).2 := by
  have hmem : f ∈ t.sent := List.mem_of_getElem? hf
  rw [run_sent h] at hmem
  exact exists_publisher hmem

end Run

end Link

/-! ## Motion -/

/-- The robot is effectively moving: last told MOVE, and last told a velocity that is not zero. -/
def Moving (calls : List SdkCall) : Prop := modeSet calls = some modeMove ∧ ¬ Still calls

instance (calls : List SdkCall) : Decidable (Moving calls) := inferInstanceAs (Decidable (_ ∧ _))

/-- The last valid sample of the run is a frame of a state in mode 4, the bridge has neither been
booted nor fired its watchdog since, and the velocity in force is that frame's. -/
def FreshMotion (start : Int) (as : List LinkAction) (l : Link) : Prop :=
  ∃ before k now after l₁ f,
    as = before ++ .deliver k now :: after ∧
      Trace.run Link.step (Link.init start) (before ++ [.deliver k now]) = some l₁ ∧
      Trace.Along Link.step Link.Idle l₁ after ∧
      l.sent[k]? = some f ∧ f.1.modeOr = 4 ∧ velocitySet l.bridge.calls = some (clampedAxes f.2)

namespace Link

/-- A delivered frame that leaves the robot moving was published in mode 4, and set the velocity. -/
theorem deliver_moving {l t : Link} {k : Nat} {now : Int} {f : StateDict × JoyData}
    (hl : l.bridge.Coherent) (hf : l.sent[k]? = some f)
    (hgenuine : ∃ (q : DDSPublisher) (noise : ℚ), f.2 = (q.publishMovement f.1 noise).2)
    (h : l.step (.deliver k now) = some t) (hmoving : Moving t.bridge.calls) :
    f.1.modeOr = 4 ∧ velocitySet t.bridge.calls = some (clampedAxes f.2) := by
  obtain ⟨f', hf', rfl⟩ := Option.map_eq_some_iff.mp h
  cases hf.symm.trans hf'
  obtain ⟨hmode, hmotion⟩ := hmoving
  have htold := Loop.processSample_modeSet (s := ⟨true, f.2⟩) now rfl hl.told
  have hmove : requestedMode l.bridge.lastMode f.2 = modeMove :=
    Option.some.inj (htold.symm.trans hmode)
  have hvel := Loop.processSample_velocitySet (b := l.bridge) (s := ⟨true, f.2⟩) now rfl
  rw [if_pos hmove] at hvel
  refine ⟨?_, hvel⟩
  by_contra hne
  obtain ⟨q, noise, hq⟩ := hgenuine
  have hzero : clampedAxes f.2 = .zero := by rw [hq, clampedAxes_publish, if_neg hne]
  rw [hzero] at hvel
  exact hmotion (still_iff.mpr (.inr hvel))

/-- Motion stays fresh over an idle step. -/
theorem freshMotion_idle {start : Int} {as : List LinkAction} {l t : Link} {a : LinkAction}
    (hidle : l.Idle a) (h : l.step a = some t) (hsame : t.bridge = l.bridge)
    (hrun : Trace.run step (init start) as = some l) (hfresh : FreshMotion start as l) :
    FreshMotion start (as ++ [a]) t := by
  obtain ⟨before, k, now, after, l₁, f, rfl, hl₁, hafter, hf, hmode, hvel⟩ := hfresh
  refine ⟨before, k, now, after ++ [a], l₁, f, ?_, hl₁, ?_, ?_, hmode, by rw [hsame, hvel]⟩
  · rw [List.append_assoc, List.cons_append]
  · -- the run after the sample ends in `l`, where the idle step is taken
    rw [List.append_cons] at hrun
    obtain ⟨l₁', hl₁', hend⟩ := Trace.run_append_eq_some.mp hrun
    cases hl₁.symm.trans hl₁'
    exact Trace.along_snoc hafter hend hidle
  · exact getElem?_sent (Trace.run_single.trans h) hf

end Link

/-- **Motion is always fresh.** In every run of the link, from any states of the brain, a moving
robot obeys its last valid sample, which was published in mode 4, with no firing of the watchdog
since; and one delivered frame of any other mode ends the motion. -/
theorem motion_is_fresh (start : Int) (as : List LinkAction) (l : Link)
    (hrun : Trace.run Link.step (Link.init start) as = some l) :
    (Moving l.bridge.calls → FreshMotion start as l) ∧
      ∀ k now f t, l.sent[k]? = some f → f.1.modeOr ≠ 4 → l.step (.deliver k now) = some t →
        ¬ Moving t.bridge.calls := by
  have hcoherent : ∀ {bs : List LinkAction} {u : Link},
      Trace.run Link.step (Link.init start) bs = some u → u.bridge.Coherent :=
    fun h => Link.run_coherent h (Loop.boot_coherent start)
  refine ⟨?_, fun k now f t hf hne ht hmoving => ?_⟩
  · -- by induction on the history: idle steps keep it fresh, and the other steps decide
    refine Trace.history (I := fun as l => Moving l.bridge.calls → FreshMotion start as l)
      ?_ ?_ hrun
    · exact fun hmoving => absurd (show some modeStand = some modeMove from hmoving.1) (by decide)
    · intro as a u t hu hstep ih hmoving
      rcases Link.step_cases hstep with ⟨hidle, hsame⟩ | ⟨hstand, -, -⟩ |
        ⟨k, now, f, rfl, hf, hsent, -⟩
      · exact Link.freshMotion_idle hidle hstep hsame hu (ih (hsame ▸ hmoving))
      · exact absurd (hstand.symm.trans hmoving.1) (by decide)
      · obtain ⟨hmode, hvel⟩ :=
          Link.deliver_moving (hcoherent hu) hf (Link.sent_genuine hu hf) hstep hmoving
        exact ⟨as, k, now, [], t, f, rfl, Trace.run_snoc_eq_some.mpr ⟨u, hu, hstep⟩,
          Trace.along_nil, hsent ▸ hf, hmode, hvel⟩
  · exact hne (Link.deliver_moving (hcoherent hrun) hf (Link.sent_genuine hrun hf) ht hmoving).1

/-- A walk published and delivered, and the iteration ended. -/
def walkDelivered : List LinkAction := [.publish forward 0, .deliver 0 20000000, .check 20000000]

/-- The walking robot walks on a fresh frame. -/
theorem walk_is_fresh : ∃ l, Trace.run Link.step (Link.init 0) walkDelivered = some l ∧
    Moving l.bridge.calls ∧ FreshMotion 0 walkDelivered l := by
  obtain ⟨l, hrun, hl⟩ := (Option.any_eq_true (fun l : Link => decide (Moving l.bridge.calls))
    (Trace.run Link.step (Link.init 0) walkDelivered)).mp (by decide +kernel)
  have hmoving := of_decide_eq_true hl
  exact ⟨l, hrun, hmoving, (motion_is_fresh 0 walkDelivered l hrun).1 hmoving⟩

end SvanVoice
