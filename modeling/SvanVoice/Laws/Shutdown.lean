import SvanVoice.Laws.Deployment
import SvanVoice.Laws.Following
import SvanVoice.Laws.Watchdog

/-!
# When the brain ends

Whatever ends `main`, the heartbeat and the microphone end with it, as daemons do. From then on the
topic has only the frames it has (`run_dead`), and nothing tells the bridge to stop: that is left to
its watchdog. `death_stops_robot` says that the two together do stop the robot. A topic that
delivers no frame twice has finitely many deliveries left, and after the last of them the first
check that is late leaves the robot standing still. Nothing makes it move again, a new start of the
bridge included.
-/

set_option autoImplicit false

namespace SvanVoice

/-! ## A robot that stands still -/

/-- The robot is told to stand, and no velocity but zero. -/
def Standing (calls : List SdkCall) : Prop := modeSet calls = some modeStand ∧ Still calls

instance (calls : List SdkCall) : Decidable (Standing calls) := inferInstanceAs (Decidable (_ ∧ _))

theorem Loop.Frozen.standing {b : Loop} (h : b.Frozen) : Standing b.calls :=
  ⟨h.mode_told, still_iff.mpr (.inr h.velocity_told)⟩

/-- A late check leaves the robot standing. -/
theorem Loop.watchdogCheck_standing {b : Loop} {now : Int} (hb : b.Coherent)
    (hlate : watchdogMs < now - b.lastMsgTime) : Standing (b.watchdogCheck now).calls :=
  ((watchdogCheck_coherent hb now).frozen_of_fired (watchdogCheck_past hlate)).standing

namespace Link

variable {l t : Link} {a : LinkAction} {as : List LinkAction}

theorem step_standing (h : l.step a = some t) (hnone : delivered [a] = [])
    (hl : Standing l.bridge.calls) : Standing t.bridge.calls := by
  cases a with
  | publish snapshot noise => cases h; exact hl
  | boot now => cases h; exact ⟨rfl, still_iff.mpr (.inl rfl)⟩
  | deliver k now => cases hnone
  | invalid data now =>
    cases h
    rwa [Loop.processSample_invalid (s := ⟨false, data⟩) now rfl]
  | check now =>
    cases h
    cases hf : l.bridge.fires now with
    | false => rwa [Loop.watchdogCheck_quiet hf]
    | true =>
      rw [Loop.watchdogCheck_fires hf]
      obtain ⟨hmode, hvelocity⟩ := Loop.frozen_calls l.bridge.calls
      exact ⟨hmode, still_iff.mpr (.inr hvelocity)⟩

/-- Nothing but a frame ends the standing. -/
theorem run_standing (h : Trace.run step l as = some t) (hnone : delivered as = [])
    (hl : Standing l.bridge.calls) : Standing t.bridge.calls := by
  refine Trace.invariant_along (I := fun l : Link => Standing l.bridge.calls)
    (C := fun _ a => delivered [a] = []) (fun l a t hs hc ht => step_standing ht hc hs) hl ?_ h
  intro pre a post u hsplit _
  have hmem : a ∈ as := hsplit ▸ List.mem_append_right pre List.mem_cons_self
  have hsilent := List.filterMap_eq_nil_iff.mp hnone a hmem
  rw [delivered, List.filterMap_cons_none hsilent, List.filterMap_nil]

end Link

/-! ## The deployed program without its brain -/

/-- A process that has ended takes no step. -/
theorem Process.step_over {libs : Libs} {p q : Process} {e : ProcessEvent}
    (h : p.step libs e = some q) : p.mainThread ≠ .over := by
  intro hover
  cases e with
  | main runs => cases runs <;> simp only [step, stepMain, hover, if_true, reduceCtorEq] at h
  | mic e => simp only [step, hover, if_true, reduceCtorEq] at h
  | web e => simp only [step, hover, reduceCtorEq, if_false] at h

namespace Deployment

section Step

variable {libs : Libs} {d t : Deployment Link} {e : DeploymentEvent} {es : List DeploymentEvent}

theorem step_dead (h : d.step libs Link.step e = some t) (hdead : ¬ d.alive) :
    ¬ t.alive ∧ t.link.sent = d.link.sent := by
  rcases step_inv h with ⟨pe, process, -, hstep, -⟩ | ⟨-, halive, -, -⟩ |
    ⟨snapshot, noise, link, -, halive, -, -, -⟩ | ⟨a, link, -, hnone, hlink, rfl⟩
  · exact absurd (Process.step_over hstep) hdead
  · exact absurd halive hdead
  · exact absurd halive hdead
  · exact ⟨hdead, Link.step_unpublished hlink hnone⟩

/-- **Nothing is published after the brain's end.** -/
theorem run_dead (h : Trace.run (step libs Link.step) d es = some t) (hdead : ¬ d.alive) :
    ¬ t.alive ∧ t.link.sent = d.link.sent :=
  Trace.invariant (I := fun u : Deployment Link => ¬ u.alive ∧ u.link.sent = d.link.sent)
    (fun u e v hu hv => by
      obtain ⟨hdead, hsent⟩ := step_dead hv hu.1
      exact ⟨hdead, hsent.trans hu.2⟩) ⟨hdead, rfl⟩ h

/-- No more frames are delivered than there were when the brain ended. -/
theorem dead_delivers {start : Int} {before : List DeploymentEvent}
    (hbefore : Trace.run (step libs Link.step) (init (.init start)) before = some d)
    (hdead : ¬ d.alive) (hafter : Trace.run (step libs Link.step) d es = some t)
    (honce : (delivered (linkEvents (before ++ es))).Nodup) :
    (delivered (linkEvents before)).length + (delivered (linkEvents es)).length ≤
      d.link.sent.length := by
  have hwhole := Trace.run_append_eq_some.mpr ⟨d, hbefore, hafter⟩
  have hrange : delivered (linkEvents (before ++ es)) ⊆ List.range d.link.sent.length := by
    intro k hk
    obtain ⟨f, hf⟩ := delivered_sent (run_link hwhole) k hk
    rw [(run_dead hafter hdead).2] at hf
    exact List.mem_range.mpr (List.getElem?_eq_some_iff.mp hf).1
  have hlength := List.Nodup.length_le_of_subset honce hrange
  rwa [linkEvents, List.filterMap_append, delivered_append, List.length_append,
    List.length_range] at hlength

end Step

/-- **The brain's end stops the robot.** In every run of the deployed program from the end of the
brain's process on, over a topic that delivers no frame twice, nothing is published, no more frames
are delivered than were under way, and if a check after the last of them finds the last valid sample
more than the limit ago, the robot stands still at the end, whatever happens after the check. -/
theorem death_stops_robot (libs : Libs) (start : Int) (before after : List DeploymentEvent)
    (d t : Deployment Link)
    (hbefore : Trace.run (step libs Link.step) (init (.init start)) before = some d)
    (hdead : ¬ d.alive) (hafter : Trace.run (step libs Link.step) d after = some t)
    (honce : (delivered (linkEvents (before ++ after))).Nodup) :
    t.link.sent = d.link.sent ∧
      (delivered (linkEvents before)).length + (delivered (linkEvents after)).length ≤
        d.link.sent.length ∧
      ∀ pre now post u, after = pre ++ .link (.check now) :: post →
        Trace.run (step libs Link.step) d pre = some u →
          watchdogMs < now - u.link.bridge.lastMsgTime → delivered (linkEvents post) = [] →
            Standing t.link.bridge.calls := by
  refine ⟨(run_dead hafter hdead).2, dead_delivers hbefore hdead hafter honce, ?_⟩
  rintro pre now post u rfl hpre hlate hnone
  have hcoherent := Link.run_coherent
    (run_link (Trace.run_append_eq_some.mpr ⟨d, hbefore, hpre⟩)) (Loop.boot_coherent start)
  obtain ⟨u', hu, hrest⟩ := Trace.run_append_eq_some.mp hafter
  cases hpre.symm.trans hu
  obtain ⟨v, hcheck, hrun⟩ := Option.bind_eq_some_iff.mp hrest
  cases hcheck
  exact Link.run_standing (run_link hrun) hnone (Loop.watchdogCheck_standing hcoherent hlate)

/-- A request to walk, as far as the legs, and then `uvicorn.run` raises. -/
def walkAbandoned : List DeploymentEvent := walkRequested ++ [.process (.main false)]

/-- Two checks, the first of them late, and a new start of the bridge. -/
def silence : List DeploymentEvent :=
  [.link (.check 700000000), .link (.check 710000000), .link (.boot 720000000)]

/-- The robot walks on without its brain, until a check is late. -/
theorem walk_abandoned_stops : ∃ d t : Deployment Link,
    Trace.run (step plainLibs Link.step) (init (.init 0)) walkAbandoned = some d ∧ ¬ d.alive ∧
    Moving d.link.bridge.calls ∧ Trace.run (step plainLibs Link.step) d silence = some t ∧
    Standing t.link.bridge.calls := by
  obtain ⟨d, hbefore, hfacts⟩ := (Option.any_eq_true
    (fun d : Deployment Link => decide (¬ d.alive ∧ Moving d.link.bridge.calls ∧
      watchdogMs < 700000000 - d.link.bridge.lastMsgTime))
    (Trace.run (step plainLibs Link.step) (init (.init 0)) walkAbandoned)).mp (by decide +kernel)
  obtain ⟨hdead, hmoving, hlate⟩ := of_decide_eq_true hfacts
  obtain ⟨-, -, hstops⟩ := death_stops_robot plainLibs 0 walkAbandoned silence d _ hbefore hdead rfl
    (by decide +kernel)
  exact ⟨d, _, hbefore, hdead, hmoving, rfl,
    hstops [] 700000000 [.link (.check 710000000), .link (.boot 720000000)] d rfl rfl hlate rfl⟩

end Deployment

end SvanVoice
