import SvanVoice.Laws.Bridge

/-!
# The velocity outside MOVE

The robot outside MOVE should be left with no velocity in force, so that a later MOVE starts from
rest. Three routes leave MOVE: the watchdog and the shutdown tell the robot a zero velocity beside
the mode, and a stop or sleep press tells the mode alone. The last velocity then stays in force,
and the next MOVE begins with it.

`no_ghost_velocity_iff` says when the law holds of a run: exactly if every stop or sleep press
taken in MOVE finds the last velocity zero.
-/

set_option autoImplicit false

namespace SvanVoice

/-- Outside MOVE the last velocity told is zero, or none was. -/
def NoGhost (calls : List SdkCall) : Prop := modeSet calls ≠ some modeMove → Still calls

/-- Whenever MOVE is told, the velocity in force is zero. -/
def MovesFromRest (calls : List SdkCall) : Prop :=
  ∀ before after, calls = before ++ .setMode modeMove :: after → Still before

/-- The unit is a valid stop or sleep press taken in MOVE while the last velocity is not zero. -/
def DropsMotion (b : Loop) : Event → Prop
  | .sample s _ =>
    s.valid = true ∧ b.lastMode = modeMove ∧ requestedMode modeMove s.data ≠ modeMove ∧
      ¬ Still b.calls
  | .check _ => False

/-! ## One unit -/

/-- A valid sample that ends outside MOVE leaves the velocity as it was. -/
theorem noGhost_outside_move {b : Loop} (hb : b.Coherent) {s : Sample} (now : Int)
    (hv : s.valid = true) (hmove : requestedMode b.lastMode s.data ≠ modeMove) :
    NoGhost (b.processSample s now).calls ↔ Still b.calls := by
  have hmode := Loop.processSample_modeSet now hv hb.told
  have hvel := Loop.processSample_velocitySet (b := b) now hv
  rw [if_neg hmove] at hvel
  have hsame : Still (b.processSample s now).calls ↔ Still b.calls := by
    rw [still_iff, still_iff, hvel]
  constructor
  · intro h
    refine hsame.mp (h ?_)
    rw [hmode]
    exact fun htold => hmove (Option.some.inj htold)
  · intro h _
    exact hsame.mpr h

/-- Unit by unit, the law breaks exactly where a press drops a motion. -/
theorem noGhost_event_iff {b : Loop} (hb : b.Coherent) (hghost : NoGhost b.calls) (e : Event) :
    NoGhost (b.event e).calls ↔ ¬ DropsMotion b e := by
  cases e with
  | sample s now =>
    cases hv : s.valid with
    | false =>
      rw [Loop.event, Loop.processSample_invalid now hv]
      refine iff_of_true hghost (fun h => ?_)
      exact Bool.false_ne_true (hv.symm.trans h.1)
    | true =>
      by_cases hmove : requestedMode b.lastMode s.data = modeMove
      · -- in MOVE after the sample: nothing is asked of the velocity
        have hmode := Loop.processSample_modeSet now hv hb.told
        refine iff_of_true (fun hne => ?_) ?_
        · rw [Loop.event, hmode, hmove] at hne
          exact absurd rfl hne
        · intro hdrops
          obtain ⟨-, hlast, hdrop, -⟩ := hdrops
          exact hdrop (hlast ▸ hmove)
      · -- outside MOVE after it: the velocity in force is the one before it
        rw [Loop.event, noGhost_outside_move hb now hv hmove]
        by_cases hlast : b.lastMode = modeMove
        · rw [hlast] at hmove
          exact ⟨fun h hdrops => hdrops.2.2.2 h,
            fun h => by_contra fun hnot => h ⟨hv, hlast, hmove, hnot⟩⟩
        · have hquiet : Still b.calls := hghost (by
            rw [hb.told]
            exact fun h => hlast (Option.some.inj h))
          exact iff_of_true hquiet (fun hdrops => hlast hdrops.2.1)
  | check now =>
    refine iff_of_true ?_ id
    cases hf : b.fires now with
    | false => rwa [Loop.event, Loop.watchdogCheck_quiet hf]
    | true =>
      rw [Loop.event, Loop.watchdogCheck_fires hf]
      exact fun _ => still_iff.mpr (.inr (Loop.frozen_calls b.calls).2)

/-! ## Entering MOVE -/

/-- One more call keeps the law if it is not MOVE, or finds the robot still. -/
theorem movesFromRest_snoc {calls : List SdkCall} {c : SdkCall} (h : MovesFromRest calls)
    (hc : c = .setMode modeMove → Still calls) : MovesFromRest (calls ++ [c]) := by
  intro before after hsplit
  rcases List.eq_nil_or_concat after with rfl | ⟨rest, last, rfl⟩
  · obtain ⟨rfl, hlast⟩ := List.append_inj' hsplit rfl
    exact hc (List.cons.inj hlast).1
  · rw [List.concat_eq_append, ← List.cons_append, ← List.append_assoc] at hsplit
    exact h before rest (List.append_inj' hsplit rfl).1

/-- A MOVE told outside MOVE finds the robot still, where no ghost was left. -/
theorem movesFromRest_event {b : Loop} (hb : b.Coherent) (hghost : NoGhost b.calls)
    (h : MovesFromRest b.calls) (e : Event) : MovesFromRest (b.event e).calls := by
  cases e with
  | sample s now =>
    cases hv : s.valid with
    | false => rwa [Loop.event, Loop.processSample_invalid now hv]
    | true =>
      have henter : MovesFromRest (b.calls ++
          if requestedMode b.lastMode s.data ≠ b.lastMode then
            [.setMode (requestedMode b.lastMode s.data)] else []) := by
        split
        · next hne =>
          refine movesFromRest_snoc h fun hcall => hghost ?_
          rw [hb.told, ← SdkCall.setMode.inj hcall]
          exact fun hsame => hne (Option.some.inj hsame).symm
        · rwa [List.append_nil]
      rw [Loop.event, Loop.processSample_calls now hv, ← List.append_assoc]
      by_cases hmove : requestedMode b.lastMode s.data = modeMove
      · rw [if_pos hmove]
        exact movesFromRest_snoc henter (fun h => by cases h)
      · rwa [if_neg hmove, List.append_nil]
  | check now =>
    cases hf : b.fires now with
    | false => rwa [Loop.event, Loop.watchdogCheck_quiet hf]
    | true =>
      have hstand : MovesFromRest (b.calls ++ [.setMode modeStand]) :=
        movesFromRest_snoc h fun hcall => absurd (SdkCall.setMode.inj hcall) (by decide)
      rw [Loop.event, Loop.watchdogCheck_fires hf]
      simpa only [List.append_assoc, List.cons_append, List.nil_append] using
        movesFromRest_snoc (c := .setVelocity .zero) hstand (fun h => by cases h)

/-! ## The run -/

theorem boot_movesFromRest (start : Int) : MovesFromRest (Loop.boot start).calls := by
  intro before after hsplit
  have hhead : before ++ SdkCall.setMode modeMove :: after = [.setMode modeStand] := hsplit.symm
  rcases List.append_eq_singleton_iff.mp hhead with ⟨-, hcall⟩ | ⟨-, hnil⟩
  · exact absurd (SdkCall.setMode.inj (List.cons.inj hcall).1) (by decide)
  · exact absurd hnil (List.cons_ne_nil _ _)

/-- Where no press drops a motion, no ghost is left and every MOVE starts from rest. -/
theorem no_ghost_of_along {start : Int} {es : List Event}
    (h : Trace.Along (Trace.total Loop.event) (fun b e => ¬ DropsMotion b e) (Loop.boot start) es) :
    MovesFromRest ((Loop.boot start).run es).calls := by
  have hrun := Trace.run_total Loop.event (Loop.boot start) es
  have hall := Trace.invariant_along
    (I := fun b : Loop => b.Coherent ∧ NoGhost b.calls ∧ MovesFromRest b.calls) ?_
    ⟨Loop.boot_coherent start, fun _ => still_iff.mpr (.inl rfl), boot_movesFromRest start⟩ h hrun
  · exact hall.2.2
  · intro b e t hinv hdrops ht
    obtain ⟨hb, hghost, hrest⟩ := hinv
    cases ht
    exact ⟨Loop.event_coherent hb e, (noGhost_event_iff hb hghost e).mpr hdrops,
      movesFromRest_event hb hghost hrest e⟩

/-- **When no velocity outlives its MOVE.** After every sample and every iteration of a run the
last velocity outside MOVE is zero, and every MOVE starts from rest, exactly if each stop or sleep
press taken in MOVE finds the last velocity zero. -/
theorem no_ghost_velocity_iff (start : Int) (es : List Event) :
    (Trace.Always (Trace.total Loop.event) (fun b => NoGhost b.calls) (Loop.boot start) es ∧
        MovesFromRest ((Loop.boot start).run es).calls) ↔
      Trace.Along (Trace.total Loop.event) (fun b e => ¬ DropsMotion b e) (Loop.boot start) es := by
  have hiff := Trace.always_iff_along (P := fun b : Loop => NoGhost b.calls)
    (C := fun b e => ¬ DropsMotion b e) Loop.total_coherent
    (fun b e t hb hghost ht => by cases ht; exact noGhost_event_iff hb hghost e)
    (Loop.boot_coherent start) (fun _ => still_iff.mpr (.inl rfl))
    (Trace.run_total Loop.event (Loop.boot start) es)
  exact ⟨fun h => hiff.mp h.1, fun h => ⟨hiff.mpr h, no_ghost_of_along h⟩⟩

/-- Walk, stop, and walk again, each told by the first frame of its state. -/
def walkStopWalk : List Event :=
  [.sample ⟨true, firstFrame forward⟩ 20000000,
    .sample ⟨true, firstFrame { mode := some 1 }⟩ 40000000,
    .sample ⟨true, firstFrame { mode := some 4 }⟩ 60000000]

/-- The walking velocity stays in force through the stop, and the next walk begins with it. -/
theorem stop_leaves_ghost :
    ¬ (Trace.Always (Trace.total Loop.event) (fun b => NoGhost b.calls) (Loop.boot 0)
          walkStopWalk) ∧
      ¬ MovesFromRest ((Loop.boot 0).run walkStopWalk).calls := by
  constructor
  · intro h
    have hstop := h (walkStopWalk.take 2) (walkStopWalk.drop 2) _ rfl (Trace.run_total _ _ _)
    exact absurd (hstop (by decide +kernel)) (by decide +kernel)
  · intro h
    refine absurd (h ((Loop.boot 0).run (walkStopWalk.take 2)).calls
      [.setVelocity .zero] ?_) ?_ <;> decide +kernel

end SvanVoice
