import SvanVoice.Laws.Threads
import Mathlib.Data.List.Nodup

/-!
# What a client is told

An answer of `process_text_command` reports what the call did to `current_robot_state`. The record
of assignments says what it did: a call's part of it is fixed by the call's phase (`Accounts`), in
every run and under any interleaving. `answers_account` puts the two together for the web clients:
every call that ends is answered once, with its own result, and the answer tells what the call
assigned, except that an error answer and an exception leave open whether the reply had been
committed before.
-/

set_option autoImplicit false

namespace SvanVoice

/-! ## The part of one call in the record -/

/-- What the call `id` has assigned, in order. -/
def Globals.ledger (g : Globals) (id : Nat) : List Assignment :=
  g.assigned.filter fun a => a.call = id

/-- What a call in a phase has assigned. -/
def Phase.Accounts (id : Nat) (own : List Assignment) : Phase → Prop
  | .entered | .remembered _ | .awaiting | .received _ | .labelled _ => own = []
  | .committed ns | .appended ns | .overfull ns | .ended (.success ns) => own = [⟨id, ns, true⟩]
  -- a call can fail before its commit or after it
  | .failing _ | .ended (.raised _) => own = [] ∨ ∃ ns, own = [⟨id, ns, true⟩]
  | .ended (.error _) =>
    own = [⟨id, safeState, false⟩] ∨ ∃ ns, own = [⟨id, ns, true⟩, ⟨id, safeState, false⟩]

section Turn

variable {libs : Libs} {g g' : Globals} {id : Nat} {c c' : Call} {t : Turn}

theorem ledger_assign (g : Globals) (id i : Nat) (state : StateDict) (fromReply : Bool) :
    (g.assign id state fromReply).ledger i =
      g.ledger i ++ if id = i then [⟨id, state, fromReply⟩] else [] := by
  rw [Globals.ledger, Globals.assign, List.filter_append]
  by_cases h : id = i <;> simp [Globals.ledger, h]

/-- A turn adds nothing to the part of another call. -/
theorem turn_ledger_other {i : Nat} (hne : i ≠ id)
    (h : processTextCommand libs g id c t = some (g', c')) : g'.ledger i = g.ledger i := by
  rcases turn_assigned h with ⟨ns, -, -, rfl⟩ | ⟨e, -, -, rfl⟩ | ⟨-, hsame⟩
  · rw [ledger_assign, if_neg (Ne.symm hne), List.append_nil]
  · rw [ledger_assign, if_neg (Ne.symm hne), List.append_nil]
  · rw [Globals.ledger, hsame]
    rfl

/-- A turn accounts for what it adds to its own part. -/
theorem turn_accounts (h : processTextCommand libs g id c t = some (g', c'))
    (hc : c.phase.Accounts id (g.ledger id)) : c'.phase.Accounts id (g'.ledger id) := by
  revert h
  fun_cases processTextCommand libs g id c t <;> intro h <;> cases h
  case case6.refl ns hphase =>
    rw [hphase] at hc
    show (g.assign id ns true).ledger id = _
    rw [ledger_assign, if_pos rfl, show g.ledger id = [] from hc]
    rfl
  case case11.refl e hphase =>
    rw [hphase] at hc
    show _ ∨ _
    rw [ledger_assign, if_pos rfl]
    rcases hc with hnone | ⟨ns, hone⟩
    · exact .inl (by rw [hnone]; rfl)
    · exact .inr ⟨ns, by rw [hone]; rfl⟩
  -- the call fails before its commit, or after it
  case case5.refl | case15.refl | case16.refl | case18.refl | case19.refl =>
    rw [‹c.phase = _›] at hc
    exact .inl hc
  case case20.refl ns hphase =>
    rw [hphase] at hc
    exact .inr ⟨ns, hc⟩
  -- elsewhere its part stays as it is
  all_goals
    rw [‹c.phase = _›] at hc
    exact hc

end Turn

/-! ## Every call accounts for its part -/

namespace Brain

/-- Every call accounts for its part of the record, and every part is a call's. -/
structure Accounted (b : Brain) : Prop where
  call : ∀ id (c : Call), b.calls[id]? = some c → c.phase.Accounts id (b.globals.ledger id)
  other : ∀ id, b.calls.length ≤ id → b.globals.ledger id = []

variable {libs : Libs} {b t : Brain}

theorem step_accounted {a : BrainAction} (hb : b.Accounted) (h : b.step libs a = some t) :
    t.Accounted := by
  rcases step_cases h with ⟨thread, text, -, hglobals, hcalls⟩ |
    ⟨id, turn, c, c', -, hc, hturn, hcalls⟩
  · refine ⟨fun i c₁ hc₁ => ?_, fun i hi => ?_⟩
    · rw [hglobals]
      rcases Nat.lt_or_ge i b.calls.length with hold | hnew
      · rw [hcalls, List.getElem?_append_left hold] at hc₁
        exact hb.call i c₁ hc₁
      · -- a new call has assigned nothing
        have hlt := (List.getElem?_eq_some_iff.mp hc₁).1
        rw [hcalls, List.length_append, List.length_singleton] at hlt
        obtain rfl : i = b.calls.length := by omega
        rw [hcalls, List.getElem?_concat_length] at hc₁
        cases hc₁
        exact hb.other _ le_rfl
    · rw [hglobals]
      rw [hcalls, List.length_append, List.length_singleton] at hi
      exact hb.other i (Nat.le_of_succ_le hi)
  · have hlt := (List.getElem?_eq_some_iff.mp hc).1
    refine ⟨fun i c₁ hc₁ => ?_, fun i hi => ?_⟩
    · rw [hcalls] at hc₁
      by_cases hid : i = id
      · subst hid
        rw [List.getElem?_set_self hlt] at hc₁
        cases hc₁
        exact turn_accounts hturn (hb.call i c hc)
      · rw [List.getElem?_set_ne (Ne.symm hid)] at hc₁
        rw [turn_ledger_other hid hturn]
        exact hb.call i c₁ hc₁
    · rw [hcalls, List.length_set] at hi
      rw [turn_ledger_other (by omega) hturn]
      exact hb.other i hi

theorem run_accounted {as : List BrainAction} (h : Trace.run (step libs) {} as = some b) :
    b.Accounted :=
  have hstart : Accounted {} := ⟨fun _ _ hc => (by cases hc), fun _ _ => rfl⟩
  Trace.invariant (fun _ _ _ hs ht => step_accounted hs ht) hstart h

/-! ## The web calls that have ended -/

/-- The web call `id` has ended with a result. -/
def Ended (b : Brain) (id : Nat) (r : Result) : Prop :=
  ∃ c : Call, b.calls[id]? = some c ∧ c.thread = .web ∧ c.phase = .ended r

/-- A new call has not ended, and the others are as they were. -/
theorem ended_of_call {thread : Thread} {text : String} {i : Nat} {r : Result}
    (h : b.step libs (.call thread text) = some t) : t.Ended i r ↔ b.Ended i r := by
  cases h
  constructor
  · rintro ⟨c, hc, hthread, hphase⟩
    rcases Nat.lt_or_ge i b.calls.length with hold | hnew
    · rw [List.getElem?_append_left hold] at hc
      exact ⟨c, hc, hthread, hphase⟩
    · have hlt := (List.getElem?_eq_some_iff.mp hc).1
      rw [List.length_append, List.length_singleton] at hlt
      obtain rfl : i = b.calls.length := by omega
      rw [List.getElem?_concat_length] at hc
      cases hc
      cases hphase
  · rintro ⟨c, hc, hthread, hphase⟩
    have hlt := (List.getElem?_eq_some_iff.mp hc).1
    exact ⟨c, by rw [List.getElem?_append_left hlt, hc], hthread, hphase⟩

/-- A turn ends no call but its own, which had not ended before. -/
theorem ended_of_turn {id : Nat} {turn : Turn} (h : b.step libs (.turn id turn) = some t) :
    ∃ c c' : Call, b.calls[id]? = some c ∧ t.phase? id = some c'.phase ∧
      (∀ r, ¬ b.Ended id r) ∧
      ∀ i r, t.Ended i r ↔ b.Ended i r ∨ i = id ∧ c.thread = .web ∧ c'.phase = .ended r := by
  rcases step_cases h with ⟨_, _, hact, -⟩ | ⟨id', turn', c, c', hact, hc, hturn, hcalls⟩
  · cases hact
  · cases hact
    have hthread := turn_thread hturn
    have hself : t.calls[id]? = some c' := by
      rw [hcalls, List.getElem?_set_self (List.getElem?_eq_some_iff.mp hc).1]
    have hgoing : ∀ r, ¬ b.Ended id r := by
      rintro r ⟨c₁, hc₁, -, hphase⟩
      cases hc.symm.trans hc₁
      rw [turn_of_ended (by rw [Call.hasEnded, hphase])] at hturn
      cases hturn
    refine ⟨c, c', hc, by rw [phase?, hself, Option.map_some], hgoing, fun i r => ?_⟩
    by_cases hi : i = id
    · subst hi
      constructor
      · rintro ⟨c₁, hc₁, hth, hphase⟩
        cases hself.symm.trans hc₁
        exact .inr ⟨rfl, hthread.symm.trans hth, hphase⟩
      · rintro (hended | ⟨-, hth, hphase⟩)
        · exact absurd hended (hgoing r)
        · exact ⟨c', hself, hthread.trans hth, hphase⟩
    · rw [Ended, Ended, hcalls, List.getElem?_set_ne (Ne.symm hi)]
      simp only [hi, false_and, or_false]

end Brain

/-! ## The answers -/

/-- A turn that ends its call sends the answer, and no other turn sends one. -/
theorem WebServer.after_responses (w : WebServer) (id : Nat) (c : Call) :
    (w.after id (some c.phase)).responses = w.responses ∧ c.hasEnded = false ∨
      ∃ r, c.phase = .ended r ∧
        (w.after id (some c.phase)).responses = w.responses ++ [(id, r)] := by
  unfold Call.hasEnded
  cases hphase : c.phase with
  | ended r => exact .inr ⟨r, rfl, rfl⟩
  | _ => exact .inl ⟨rfl, rfl⟩

namespace Process

/-- Each web call that has ended has been answered once, with its result, and no other has. -/
structure Answered (p : Process) : Prop where
  once : (p.web.responses.map Prod.fst).Nodup
  own : ∀ id r, (id, r) ∈ p.web.responses ↔ p.brain.Ended id r

variable {libs : Libs} {p q : Process}

theorem step_answered (hp : p.Consistent) (ha : p.Answered) {e : ProcessEvent}
    (h : p.step libs e = some q) : q.Answered := by
  cases step_cases h with
  | main | start | listen | unprinted => exact ⟨ha.once, ha.own⟩
  | request free hstep | utterance heard hstep =>
    exact ⟨ha.once, fun id r => (ha.own id r).trans (Brain.ended_of_call hstep).symm⟩
  | micTurn held hstep =>
    obtain ⟨c, hc, hthread, -⟩ := (hp.answering _).mp held
    obtain ⟨c₁, c', hc₁, -, -, hended⟩ := Brain.ended_of_turn hstep
    cases hc.symm.trans hc₁
    refine ⟨ha.once, fun i r => (ha.own i r).trans ?_⟩
    rw [hended, hthread]
    simp only [reduceCtorEq, false_and, and_false, or_false]
  | @webTurn _ id _ brain held hstep =>
    obtain ⟨c, hc, hthread, -⟩ := hp.webTurn held
    obtain ⟨c₁, c', hc₁, hphase, hgoing, hended⟩ := Brain.ended_of_turn hstep
    cases hc.symm.trans hc₁
    have hresponses := WebServer.after_responses p.web id c'
    rw [← hphase] at hresponses
    rcases hresponses with ⟨hsame, hnot⟩ | ⟨r, hr, hmore⟩
    · refine ⟨by rw [hsame]; exact ha.once, fun i r => ?_⟩
      rw [hsame, ha.own, hended]
      refine (or_iff_left ?_).symm
      rintro ⟨-, -, hr⟩
      rw [Call.hasEnded, hr] at hnot
      cases hnot
    · constructor
      · -- the call had not been answered
        have hnew : id ∉ p.web.responses.map Prod.fst := by
          intro hmem
          obtain ⟨⟨i, s⟩, hanswer, rfl⟩ := List.mem_map.mp hmem
          exact hgoing s ((ha.own i s).mp hanswer)
        rw [hmore, List.map_append, List.map_singleton, ← List.concat_eq_append]
        exact (List.nodup_concat _ _).mpr ⟨hnew, ha.once⟩
      · intro i s
        rw [hmore, List.mem_append, ha.own, hended, List.mem_singleton, Prod.mk.injEq, hr]
        simp only [hthread, true_and, Phase.ended.injEq, eq_comm]

theorem run_answered {es : List ProcessEvent} (h : Trace.run (step libs) {} es = some p) :
    p.Answered := by
  have hstart : Answered {} :=
    ⟨List.nodup_nil, fun _ _ => iff_of_false nofun fun ⟨_, hc, _⟩ => nomatch hc⟩
  exact (Trace.invariant (I := fun p => Consistent p ∧ Answered p)
    (fun _ _ _ hs ht => ⟨step_consistent hs.1 ht, step_answered hs.1 hs.2 ht⟩)
    ⟨consistent_start, hstart⟩ h).2

/-- **Every answer accounts for its call.** In every run of the process each web call that has ended
was answered once, with its own result; a success answer reports the one state the call assigned,
an error answer means that the safe state was its last assignment, and a call that was left by an
exception assigned at most its reply. -/
theorem answers_account (libs : Libs) (es : List ProcessEvent) (p : Process)
    (hrun : Trace.run (step libs) {} es = some p) :
    (p.web.responses.map Prod.fst).Nodup ∧
      (∀ id r, (id, r) ∈ p.web.responses ↔ p.brain.Ended id r) ∧
      ∀ id r, (id, r) ∈ p.web.responses →
        (Phase.ended r).Accounts id (p.brain.globals.ledger id) := by
  obtain ⟨honce, hown⟩ := run_answered hrun
  refine ⟨honce, hown, fun id r hanswer => ?_⟩
  obtain ⟨as, has⟩ := run_scheduled consistent_start hrun
  obtain ⟨c, hc, -, hphase⟩ := (hown id r).mp hanswer
  rw [← hphase]
  exact (Brain.run_accounted (Brain.run_of_scheduled has)).call id c hc

/-- The request is told that its walk is the state it assigned. -/
theorem walk_answered : ∃ p, Trace.run (step plainLibs) {} twoThreads = some p ∧
    (0, .success walkState) ∈ p.web.responses ∧
      p.brain.globals.ledger 0 = [⟨0, walkState, true⟩] := by
  obtain ⟨p, hrun, hanswer⟩ := (Option.any_eq_true
    (fun p : Process => decide ((0, .success walkState) ∈ p.web.responses))
    (Trace.run (step plainLibs) {} twoThreads)).mp (by decide +kernel)
  have hanswer := of_decide_eq_true hanswer
  exact ⟨p, hrun, hanswer,
    (answers_account plainLibs twoThreads p hrun).2.2 0 (.success walkState) hanswer⟩

end Process

end SvanVoice
