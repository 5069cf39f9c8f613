import SvanVoice.Laws.Watchdog

/-!
# When the watchdog fires

The loop keeps a reading and a flag. This module says what they stand for in terms of the units
alone: the flag says that a check since the last valid sample found it too long ago (`Alarmed`). So
the watchdog fires at the first late check of each silence, and nowhere else: no alarm without a
silence, one for each silence, and none is missed. The clock need not go forward for that.
-/

set_option autoImplicit false

namespace SvanVoice

/-! ## The history of the units -/

/-- The reading of a valid sample. -/
def Event.heard? : Event → Option Int
  | .sample s now => if s.valid then some now else none
  | .check _ => none

/-- The reading of the last valid sample, or the start where there is none. -/
def lastHeard (start : Int) (es : List Event) : Int := (Trace.latest Event.heard? es).getD start

/-- A check since the last valid sample found it more than the limit ago. -/
def Alarmed (start : Int) (es : List Event) : Prop :=
  ∃ pre now post, es = pre ++ .check now :: post ∧ (∀ e ∈ post, e.heard? = none) ∧
    watchdogMs < now - lastHeard start pre

section History

variable {start : Int} {es : List Event} {e : Event}

theorem lastHeard_snoc : lastHeard start (es ++ [e]) = e.heard?.getD (lastHeard start es) := by
  rw [lastHeard, Trace.latest_snoc]
  cases e.heard? with
  | none => rw [Option.none_or, Option.getD_none, lastHeard]
  | some now => rfl

/-- A valid sample ends the alarm. -/
theorem not_alarmed_of_heard {now : Int} (h : e.heard? = some now) :
    ¬ Alarmed start (es ++ [e]) := by
  rintro ⟨pre, now', post, hsplit, hsilent, -⟩
  rcases List.eq_nil_or_concat post with rfl | ⟨rest, last, rfl⟩
  · cases (List.append_inj' hsplit rfl).2
    cases h
  · rw [List.concat_eq_append, ← List.cons_append, ← List.append_assoc] at hsplit
    cases (List.append_inj' hsplit rfl).2
    rw [List.concat_eq_append] at hsilent
    have hlast := hsilent e (List.mem_append_right _ List.mem_cons_self)
    cases h.symm.trans hlast

/-- A unit that is no valid sample keeps the alarm, and a late check raises it. -/
theorem alarmed_of_silent (h : e.heard? = none) :
    Alarmed start (es ++ [e]) ↔
      Alarmed start es ∨ ∃ now, e = .check now ∧ watchdogMs < now - lastHeard start es := by
  constructor
  · rintro ⟨pre, now, post, hsplit, hsilent, hlate⟩
    rcases List.eq_nil_or_concat post with rfl | ⟨rest, last, rfl⟩
    · obtain ⟨rfl, hlast⟩ := List.append_inj' hsplit rfl
      exact .inr ⟨now, (List.cons.inj hlast).1, hlate⟩
    · rw [List.concat_eq_append, ← List.cons_append, ← List.append_assoc] at hsplit
      obtain ⟨rfl, -⟩ := List.append_inj' hsplit rfl
      rw [List.concat_eq_append] at hsilent
      exact .inl ⟨pre, now, rest, rfl, fun e he => hsilent e (List.mem_append_left _ he), hlate⟩
  · rintro (⟨pre, now, post, rfl, hsilent, hlate⟩ | ⟨now, rfl, hlate⟩)
    · refine ⟨pre, now, post ++ [e], by rw [List.append_assoc, List.cons_append], ?_, hlate⟩
      intro e' he'
      rcases List.mem_append.mp he' with hold | hnew
      · exact hsilent e' hold
      · rw [List.mem_singleton.mp hnew, h]
    · exact ⟨es, now, [], rfl, nofun, hlate⟩

end History

/-! ## The loop state stands for the history -/

namespace Loop

/-- The reading and the flag are those of the history. -/
structure Remembers (b : Loop) (start : Int) (es : List Event) : Prop where
  reading : b.lastMsgTime = lastHeard start es
  flag : b.watchdogFired = true ↔ Alarmed start es

/-- **One unit is remembered.** -/
theorem event_remembers {b : Loop} {start : Int} {es : List Event} (h : b.Remembers start es)
    (e : Event) : (b.event e).Remembers start (es ++ [e]) := by
  obtain ⟨hreading, hflag⟩ := h
  cases e with
  | sample s now =>
    cases hv : s.valid with
    | false =>
      have hsilent : (Event.sample s now).heard? = none := by rw [Event.heard?, hv]; rfl
      rw [event, processSample_invalid now hv]
      refine ⟨by rw [lastHeard_snoc, hsilent]; exact hreading, hflag.trans ?_⟩
      rw [alarmed_of_silent hsilent]
      simp only [reduceCtorEq, false_and, exists_false, or_false]
    | true =>
      have hheard : (Event.sample s now).heard? = some now := by rw [Event.heard?, hv]; rfl
      refine ⟨?_, ?_⟩
      · rw [event, processSample_lastMsgTime now hv, lastHeard_snoc, hheard, Option.getD_some]
      · rw [event, processSample_watchdogFired now hv]
        exact iff_of_false Bool.false_ne_true (not_alarmed_of_heard hheard)
  | check now =>
    refine ⟨?_, ?_⟩
    · rw [event, watchdogCheck_lastMsgTime, lastHeard_snoc]
      exact hreading
    · rw [alarmed_of_silent rfl, event]
      cases hf : b.fires now with
      | true =>
        rw [watchdogCheck_fires hf]
        exact iff_of_true rfl (.inr ⟨now, rfl, hreading ▸ (fires_iff.mp hf).1⟩)
      | false =>
        rw [watchdogCheck_quiet hf, hflag]
        refine (or_iff_left_of_imp ?_).symm
        rintro ⟨now', hnow, hlate⟩
        cases hnow
        -- a late check that does not fire finds the alarm raised
        rw [← hflag]
        by_contra hnot
        have hfires := fires_iff.mpr ⟨hreading ▸ hlate, Bool.not_eq_true _ ▸ hnot⟩
        exact Bool.false_ne_true (hf.symm.trans hfires)

theorem run_remembers (start : Int) (es : List Event) :
    ((boot start).run es).Remembers start es := by
  induction es using List.reverseRecOn with
  | nil => exact ⟨rfl, iff_of_false Bool.false_ne_true fun ⟨_, _, _, h, _⟩ => by simp at h⟩
  | append_singleton es e ih =>
    rw [run, List.foldl_append]
    exact event_remembers ih e

/-- The watchdog fires at the first late check of a silence. -/
theorem run_fires_iff (start : Int) (es : List Event) (now : Int) :
    ((boot start).run es).fires now = true ↔
      watchdogMs < now - lastHeard start es ∧ ¬ Alarmed start es := by
  obtain ⟨hreading, hflag⟩ := run_remembers start es
  rw [fires_iff, hreading, ← hflag, Bool.not_eq_true]

end Loop

/-- **The watchdog is exact.** In every run of the loop a check freezes the robot exactly if it is
late and no check since the last valid sample was, and makes no call otherwise; and between two
checks that freeze the robot there is a valid sample. -/
theorem watchdog_exact (start : Int) (es : List Event) (now : Int) :
    (((Loop.boot start).run es).made (.check now) = [.setMode modeStand, .setVelocity .zero] ↔
        watchdogMs < now - lastHeard start es ∧ ¬ Alarmed start es) ∧
      (((Loop.boot start).run es).made (.check now) = [] ↔
        ¬ (watchdogMs < now - lastHeard start es ∧ ¬ Alarmed start es)) ∧
      ∀ pre earlier mid, es = pre ++ .check earlier :: mid →
        ((Loop.boot start).run pre).fires earlier = true →
          ((Loop.boot start).run es).fires now = true → ∃ e ∈ mid, e.heard? ≠ none := by
  rw [← Loop.run_fires_iff, Loop.made_check]
  refine ⟨?_, ?_, ?_⟩
  · split
    · next hf => exact iff_of_true rfl hf
    · next hf => exact iff_of_false nofun hf
  · split
    · next hf => exact iff_of_false nofun fun hnot => hnot hf
    · next hf => exact iff_of_true rfl hf
  · rintro pre earlier mid rfl hfirst hsecond
    by_contra hnone
    have hsilent : ∀ e ∈ mid, e.heard? = none := fun e he => by
      by_contra hheard
      exact hnone ⟨e, he, hheard⟩
    -- the first of the two has raised the alarm
    have hlate := ((Loop.run_fires_iff start pre earlier).mp hfirst).1
    exact ((Loop.run_fires_iff start _ now).mp hsecond).2 ⟨pre, earlier, mid, rfl, hsilent, hlate⟩

end SvanVoice
