import SvanVoice.Laws.Answers
import SvanVoice.Laws.MemoryBound

/-!
# Every call can end

A call has a rank, and each of its turns lowers it. A call that has not ended can take a turn, but
it may have to wait for its thread: a web call for the event loop, which another web call may hold.
`calls_can_end` is about what is possible: from every reachable state of the serving process, steps
of the call's own thread alone lead to its end, no more than eighty of them, and a web call is
answered there. Nothing says that the threads take these steps.

The web server's measure ranks the call nine times over the one that holds the loop: a step of the
holder lowers the second part, and handing the loop to the call lowers the first.

`turns_bounded` is about the code of one call, its two loops opened. The history loop goes over a
list that the other thread may lengthen under it, and ends all the same, for the list is never
longer than six while it is read (`Remembers.short_of_reading`). The loop over the chunks has no
bound but the stream's.
-/

set_option autoImplicit false

namespace SvanVoice

/-! ## One call -/

/-- The turns a call may still take. -/
def Phase.rank : Phase → Nat
  | .entered => 8
  | .remembered _ => 7
  | .awaiting => 6
  | .received _ => 5
  | .labelled _ => 4
  | .committed _ => 3
  | .appended _ => 2
  | .overfull _ | .failing _ => 1
  | .ended _ => 0

section Turn

variable {libs : Libs} {g g' : Globals} {id : Nat} {c c' : Call} {t : Turn}

/-- Each turn lowers the rank. -/
theorem turn_rank (h : processTextCommand libs g id c t = some (g', c')) :
    c'.phase.rank < c.phase.rank := by
  revert h
  fun_cases processTextCommand libs g id c t <;> intro h <;> cases h <;>
    simp only [Phase.rank, ‹c.phase = _›, Nat.reduceLT]

/-- A call that keeps the event loop runs on. -/
theorem turn_of_running (libs : Libs) (g : Globals) (id : Nat) (h : c.suspended = false) :
    ∃ r, processTextCommand libs g id c .runs = some r := by
  cases hphase : c.phase with
  | awaiting => simp only [Call.suspended, hphase, Bool.true_eq_false] at h
  | ended r => simp only [Call.suspended, hphase, Bool.true_eq_false] at h
  | received raw =>
    cases hdecode : decodeReply libs raw with
    | ok ns => exact ⟨_, by simp only [processTextCommand, hphase, hdecode]; rfl⟩
    | error e => exact ⟨_, by simp only [processTextCommand, hphase, hdecode]; rfl⟩
  | appended ns =>
    simp only [processTextCommand, hphase]
    split
    · exact ⟨_, rfl⟩
    · exact ⟨_, rfl⟩
  | _ => exact ⟨_, by simp only [processTextCommand, hphase]; rfl⟩

/-- A call that awaits the model takes its reply. -/
theorem turn_of_suspended (libs : Libs) (g : Globals) (id : Nat) (h : c.suspended = true)
    (hended : c.hasEnded = false) (chunks : List (Option String)) :
    c.phase.rank = 6 ∧ ∃ r, processTextCommand libs g id c (.replies chunks) = some r := by
  cases hphase : c.phase with
  | awaiting => exact ⟨rfl, _, by simp only [processTextCommand, hphase]; rfl⟩
  | ended r => simp only [Call.hasEnded, hphase, Bool.true_eq_false] at hended
  | _ => simp only [Call.suspended, hphase, Bool.false_eq_true] at h

end Turn

/-! ## The process -/

/-- The turns the call `id` may still take, none where there is no such call. -/
def Brain.rank (b : Brain) (id : Nat) : Nat := ((b.phase? id).map Phase.rank).getD 0

section Brain

variable {libs : Libs} {b t : Brain} {id : Nat}

theorem Brain.rank_of_call {c : Call} (hc : b.calls[id]? = some c) : b.rank id = c.phase.rank := by
  rw [Brain.rank, Brain.phase?, hc]
  rfl

/-- A turn lowers the rank of its call, and of no other. -/
theorem Brain.rank_of_turn {turn : Turn} (h : b.step libs (.turn id turn) = some t) :
    t.rank id < b.rank id ∧ ∀ i, i ≠ id → t.rank i = b.rank i := by
  rcases Brain.step_cases h with ⟨_, _, hact, -⟩ | ⟨id', turn', c, c', hact, hc, hturn, hcalls⟩
  · cases hact
  · cases hact
    have hself : t.calls[id]? = some c' := by
      rw [hcalls, List.getElem?_set_self (List.getElem?_eq_some_iff.mp hc).1]
    refine ⟨?_, fun i hi => ?_⟩
    · rw [Brain.rank_of_call hself, Brain.rank_of_call hc]
      exact turn_rank hturn
    · rw [Brain.rank, Brain.rank, Brain.phase?, Brain.phase?, hcalls,
        List.getElem?_set_ne (Ne.symm hi)]

theorem Brain.rank_le (b : Brain) (id : Nat) : b.rank id ≤ 8 := by
  unfold Brain.rank
  cases b.phase? id with
  | none => exact Nat.zero_le _
  | some phase => cases phase <;> exact Nat.le_of_ble_eq_true rfl

/-- A turn keeps every call on its thread. -/
theorem Brain.call_after_turn {turn : Turn} (h : b.step libs (.turn id turn) = some t) {i : Nat}
    {c : Call} (hc : b.calls[i]? = some c) :
    ∃ c' : Call, t.calls[i]? = some c' ∧ c'.thread = c.thread := by
  rcases Brain.step_cases h with ⟨_, _, hact, -⟩ | ⟨id', turn', c₀, c', hact, hc₀, hturn, hcalls⟩
  · cases hact
  · cases hact
    by_cases hi : i = id
    · subst hi
      cases hc.symm.trans hc₀
      refine ⟨c', ?_, turn_thread hturn⟩
      rw [hcalls, List.getElem?_set_self (List.getElem?_eq_some_iff.mp hc).1]
    · exact ⟨c, by rw [hcalls, List.getElem?_set_ne (Ne.symm hi), hc], rfl⟩

end Brain

/-- The thread whose step an event is. -/
def ProcessEvent.thread? : ProcessEvent → Option Thread
  | .main _ => none
  | .mic _ => some .mic
  | .web _ => some .web

/-- After a turn of a call nobody holds the loop, or the call does. -/
theorem WebServer.after_running_or (w : WebServer) (j : Nat) (phase : Option Phase) :
    (w.after j phase).running = none ∨ (w.after j phase).running = some j := by
  fun_cases w.after j phase
  · exact .inl rfl
  · exact .inl rfl
  · exact .inr rfl

namespace Process

/-- The call `id` of the thread is in the process. -/
def Holds (thread : Thread) (id : Nat) (p : Process) : Prop :=
  p.Consistent ∧ p.mainThread = .serving ∧
    ∃ c, p.brain.calls[id]? = some c ∧ c.thread = thread

/-- The call `id` has ended. -/
def Done (id : Nat) (p : Process) : Prop :=
  ∃ c, p.brain.calls[id]? = some c ∧ c.hasEnded = true

/-- The measure of the web server: the call `id`, and the call that holds the loop. -/
def webMeasure (id : Nat) (p : Process) : Nat :=
  9 * p.brain.rank id + (p.web.running.map p.brain.rank).getD 0

section Progress

variable {libs : Libs} {p : Process} {id : Nat}

/-- The call and its thread stay in the process over a turn. -/
theorem Holds.turned {thread : Thread} (hp : p.Holds thread id) {e : ProcessEvent} {q : Process}
    (h : p.step libs e = some q) (hmain : q.mainThread = p.mainThread) {j : Nat} {turn : Turn}
    (hturn : p.brain.step libs (.turn j turn) = some q.brain) : q.Holds thread id := by
  obtain ⟨hconsistent, hserving, c, hc, hthread⟩ := hp
  obtain ⟨c', hc', hthread'⟩ := Brain.call_after_turn hturn hc
  exact ⟨step_consistent hconsistent h, hmain.trans hserving, c', hc', hthread'.trans hthread⟩

/-- A turn of the call that holds the loop, or of the call `id` where none does, lowers the
measure. -/
theorem webMeasure_turn {j : Nat} {turn : Turn} {brain : Brain}
    (hturn : p.brain.step libs (.turn j turn) = some brain)
    (hheld : p.web.running = some j ∨ p.web.running = none ∧ j = id ∧ p.brain.rank id = 6) :
    webMeasure id { p with brain, web := p.web.after j (brain.phase? j) } < webMeasure id p := by
  obtain ⟨hown, hother⟩ := Brain.rank_of_turn hturn
  have hafter :
      ((p.web.after j (brain.phase? j)).running.map brain.rank).getD 0 ≤ brain.rank j := by
    rcases p.web.after_running_or j (brain.phase? j) with hnone | hsome
    · rw [hnone]
      exact Nat.zero_le _
    · rw [hsome]
      exact Nat.le_refl _
  simp only [webMeasure]
  rcases hheld with hrunning | ⟨hnone, rfl, hrank⟩
  · rw [hrunning, Option.map_some, Option.getD_some]
    by_cases hj : j = id
    · subst hj
      omega
    · rw [hother id (Ne.symm hj)]
      omega
  · rw [hnone, Option.map_none, Option.getD_none]
    omega

/-- The web server can go on towards the end of a call. -/
theorem web_progress (hp : p.Holds .web id) (hgoing : ¬ p.Done id) :
    ∃ e q, p.step libs e = some q ∧ (∃ w, e = .web w) ∧ q.Holds .web id ∧
      webMeasure id q < webMeasure id p := by
  obtain ⟨hconsistent, hserving, c, hc, hthread⟩ := hp
  cases hrunning : p.web.running with
  | some j =>
    -- the call that holds the loop runs on
    obtain ⟨c₁, hc₁, hweb, hbusy⟩ := (hconsistent.running j).mp hrunning
    obtain ⟨r, hr⟩ := turn_of_running libs p.brain.globals j ((Call.busy_web hweb).mp hbusy)
    have hturn := Brain.step_turn hc₁ hr
    have hstep := step_web hserving (w := .turn .runs) (by
      rw [WebServer.step, hrunning, Option.bind_some, hturn, Option.map_some])
    exact ⟨_, _, hstep, ⟨_, rfl⟩,
      Holds.turned ⟨hconsistent, hserving, c, hc, hthread⟩ hstep rfl hturn,
      webMeasure_turn hturn (.inl hrunning)⟩
  | none =>
    -- the call waits for its reply, and the loop is free for it
    have hended : c.hasEnded = false := by
      by_contra hended
      exact hgoing ⟨c, hc, Bool.not_eq_false _ ▸ hended⟩
    have hsuspended : c.suspended = true := by
      by_contra hbusy
      have hholds := (hconsistent.running id).mpr
        ⟨c, hc, hthread, (Call.busy_web hthread).mpr (Bool.not_eq_true _ ▸ hbusy)⟩
      cases hrunning.symm.trans hholds
    obtain ⟨hrank, r, hr⟩ :=
      turn_of_suspended libs p.brain.globals id hsuspended hended []
    have hturn := Brain.step_turn hc hr
    have hweb : (p.brain.calls[id]?).any (fun c => c.thread = .web) = true := by
      rw [hc, Option.any_some, hthread]
      rfl
    have hstep := step_web hserving (w := .resume id (.replies [])) (by
      rw [WebServer.step, if_pos ⟨hrunning, hweb⟩, hturn, Option.map_some])
    exact ⟨_, _, hstep, ⟨_, rfl⟩,
      Holds.turned ⟨hconsistent, hserving, c, hc, hthread⟩ hstep rfl hturn,
      webMeasure_turn hturn (.inr ⟨hrunning, rfl, (Brain.rank_of_call hc).trans hrank⟩)⟩

/-- The microphone thread can go on towards the end of its call. -/
theorem mic_progress (hp : p.Holds .mic id) (hgoing : ¬ p.Done id) :
    ∃ e q, p.step libs e = some q ∧ (∃ m, e = .mic m) ∧ q.Holds .mic id ∧
      q.brain.rank id < p.brain.rank id := by
  obtain ⟨hconsistent, hserving, c, hc, hthread⟩ := hp
  have hended : c.hasEnded = false := by
    by_contra hended
    exact hgoing ⟨c, hc, Bool.not_eq_false _ ▸ hended⟩
  have hanswering :=
    (hconsistent.answering id).mpr ⟨c, hc, hthread, (Call.busy_mic hthread).mpr hended⟩
  have hturn : ∃ turn brain, p.brain.step libs (.turn id turn) = some brain := by
    cases hsuspended : c.suspended with
    | false =>
      obtain ⟨r, hr⟩ := turn_of_running libs p.brain.globals id hsuspended
      exact ⟨_, _, Brain.step_turn hc hr⟩
    | true =>
      obtain ⟨-, r, hr⟩ := turn_of_suspended libs p.brain.globals id hsuspended hended []
      exact ⟨_, _, Brain.step_turn hc hr⟩
  obtain ⟨turn, brain, hturn⟩ := hturn
  have hstep := step_mic hserving hanswering (m := .turn turn) (by
    rw [micListenLoop, hturn, Option.map_some])
  exact ⟨_, _, hstep, ⟨_, rfl⟩,
    Holds.turned ⟨hconsistent, hserving, c, hc, hthread⟩ hstep rfl hturn,
    (Brain.rank_of_turn hturn).1⟩

theorem webMeasure_le (id : Nat) (p : Process) : webMeasure id p ≤ 80 := by
  have hcall := p.brain.rank_le id
  have hholder : (p.web.running.map p.brain.rank).getD 0 ≤ 8 := by
    cases p.web.running with
    | none => exact Nat.zero_le _
    | some j => exact p.brain.rank_le j
  simp only [webMeasure]
  omega

/-- A web call that is done has been answered. -/
theorem Done.answered (hanswered : p.Answered) (hdone : p.Done id) (hp : p.Holds .web id) :
    ∃ r, (id, r) ∈ p.web.responses := by
  obtain ⟨c, hc, hended⟩ := hdone
  obtain ⟨-, -, c₁, hc₁, hweb⟩ := hp
  cases hc.symm.trans hc₁
  cases hphase : c.phase with
  | ended r => exact ⟨r, (hanswered.own id r).mpr ⟨c, hc, hweb, hphase⟩⟩
  | _ => simp only [Call.hasEnded, hphase, Bool.false_eq_true] at hended

end Progress

/-- **Every call can end.** From every reachable state of the serving process, whatever other calls
are under way, at most eighty steps of a call's own thread lead to its end, and a web call has been
answered then. -/
theorem calls_can_end (libs : Libs) (es : List ProcessEvent) (p : Process)
    (hrun : Trace.run (step libs) {} es = some p) (hserving : p.mainThread = .serving) (id : Nat)
    (c : Call) (hc : p.brain.calls[id]? = some c) :
    ∃ es' q, Trace.run (step libs) p es' = some q ∧ es'.length ≤ 80 ∧
      (∀ e ∈ es', e.thread? = some c.thread) ∧ q.Done id ∧
        (c.thread = .web → ∃ r, (id, r) ∈ q.web.responses) := by
  have hholds : p.Holds c.thread id :=
    ⟨run_consistent consistent_start hrun, hserving, c, hc, rfl⟩
  cases hthread : c.thread with
  | web =>
    obtain ⟨es', q, hmore, hdone, hq, hall, hlength⟩ :=
      Trace.exists_run (fun p hp => web_progress hp) (hthread ▸ hholds)
    have hanswered := run_answered (Trace.run_append_eq_some.mpr ⟨p, hrun, hmore⟩)
    refine ⟨es', q, hmore, hlength.trans (webMeasure_le id p), ?_, hdone, fun _ => ?_⟩
    · rintro e he
      obtain ⟨w, rfl⟩ := hall e he
      rfl
    · exact hdone.answered hanswered hq
  | mic =>
    obtain ⟨es', q, hmore, hdone, -, hall, hlength⟩ :=
      Trace.exists_run (fun p hp => mic_progress hp) (hthread ▸ hholds)
    refine ⟨es', q, hmore, hlength.trans ?_, ?_, hdone, nofun⟩
    · exact (p.brain.rank_le id).trans (by decide)
    · rintro e he
      obtain ⟨m, rfl⟩ := hall e he
      rfl

/-- The request waits for the model, and another one holds the event loop. -/
def waitingWalk : List ProcessEvent :=
  [.main true, .main true, .web (.request " walk forward\n"), .web (.turn .runs),
    .web (.turn .runs), .web (.request "stand up")]

/-- The walk is answered in the end. -/
theorem waiting_can_end : ∃ p es q, Trace.run (step plainLibs) {} waitingWalk = some p ∧
    p.web.running = some 1 ∧ Trace.run (step plainLibs) p es = some q ∧
      ∃ r, (0, r) ∈ q.web.responses := by
  obtain ⟨p, hrun, hstart⟩ := (Option.any_eq_true
    (fun p : Process => decide (p.mainThread = .serving ∧ p.web.running = some 1 ∧
      p.brain.calls[0]?.map Call.thread = some .web))
    (Trace.run (step plainLibs) {} waitingWalk)).mp (by decide +kernel)
  obtain ⟨hserving, hrunning, hcall⟩ := of_decide_eq_true hstart
  obtain ⟨c, hc, hthread⟩ := Option.map_eq_some_iff.mp hcall
  obtain ⟨es, q, hmore, -, -, -, hanswered⟩ :=
    calls_can_end plainLibs waitingWalk p hrun hserving 0 c hc
  exact ⟨p, es, q, hrun, hrunning, hmore, hanswered hthread⟩

end Process

/-! ## The turns of one call -/

/-- The turns that a call may still take, the chunks of its reply aside. -/
def FinePhase.rank : FinePhase → Nat
  | .stands .entered => 16
  | .reading _ index => 15 - index
  | .stands (.remembered _) => 8
  | .stands .awaiting => 7
  | .streaming _ => 6
  | .stands phase => phase.rank

/-- The action is a turn of the call that is no chunk of its reply. -/
def FineAction.advances (id : Nat) : FineAction → Bool
  | .turn _ (.chunk _) | .call _ _ => false
  | .turn i _ => i == id

/-- The action is a chunk of the call's reply. -/
def FineAction.takesChunk (id : Nat) : FineAction → Bool
  | .turn i (.chunk _) => i == id
  | _ => false

section Turn

variable {libs : Libs} {g g' : Globals} {id : Nat}

/-- A turn outside the loops lowers the rank. -/
theorem turn_rank_stands {c c' : Call} {t : Turn}
    (h : processTextCommand libs g id c t = some (g', c')) :
    (FinePhase.stands c'.phase).rank < (FinePhase.stands c.phase).rank := by
  revert h
  fun_cases processTextCommand libs g id c t <;> intro h <;> cases h <;>
    simp only [FinePhase.rank, Phase.rank, ‹c.phase = _›, Nat.reduceLT]

/-- A call that has raised is all but over. -/
theorem turn_rank_raises {c c' : Call} {e : String}
    (h : processTextCommand libs g id c (.raises e) = some (g', c')) :
    (FinePhase.stands c'.phase).rank ≤ 1 := by
  cases hphase : c.phase <;>
    simp only [processTextCommand, hphase, Option.some.injEq, Prod.mk.injEq, reduceCtorEq] at h <;>
    obtain ⟨-, rfl⟩ := h <;>
    simp only [FinePhase.rank, Phase.rank, Nat.le_refl, Nat.zero_le]

/-- **Every turn but a chunk lowers the rank**, as long as the list is short while it is read. -/
theorem fine_rank {c c' : FineCall} {t : FineTurn}
    (h : processTextCommandFine libs g id c t = some (g', c'))
    (hindex : ∀ shown index, c.phase = .reading shown index → index ≤ memoryLimit + 1)
    (hshort : ∀ shown index, c.phase = .reading shown index →
      g.commandMemory.length ≤ memoryLimit + 1) :
    (if FineAction.advances id (.turn id t) then 1 else 0) + c'.phase.rank ≤ c.phase.rank := by
  have hone : (if FineAction.advances id (.turn id t) then 1 else 0) ≤ 1 := by
    split <;> decide
  revert h
  fun_cases processTextCommandFine libs g id c t <;> intro h
  case case1 hphase _ | case2 hphase _ =>
    cases h
    simp only [hphase, FinePhase.rank]
    omega
  case case3 shown index hphase entry hentry =>
    -- the index is inside the list, so another turn is left
    cases h
    have hlt := (List.getElem?_eq_some_iff.mp hentry).1
    have hlength := hshort shown index hphase
    simp only [hphase, FinePhase.rank, memoryLimit] at hlength ⊢
    omega
  case case4 shown index hphase _ =>
    cases h
    have hle := hindex shown index hphase
    simp only [hphase, FinePhase.rank, memoryLimit] at hle ⊢
    omega
  case case6 phase _ hphase =>
    obtain ⟨⟨g₁, d⟩, hd, hfine⟩ := Option.map_eq_some_iff.mp h
    cases hfine
    have hlt := turn_rank_stands hd
    rw [FineCall.phase_call hphase] at hlt
    rw [hphase]
    exact (Nat.add_le_add_right hone _).trans (Nat.add_comm .. ▸ hlt)
  case case7 hphase =>
    cases h
    simp only [hphase, FinePhase.rank]
    omega
  case case9 content raw hphase =>
    cases h
    simp only [hphase, FinePhase.rank, FineAction.advances, Bool.false_eq_true, if_false]
    omega
  case case11 hphase =>
    cases h
    simp only [hphase, FinePhase.rank, Phase.rank]
    omega
  case case13 e =>
    obtain ⟨⟨g₁, d⟩, hd, hfine⟩ := Option.map_eq_some_iff.mp h
    cases hfine
    show _ + (FinePhase.stands d.phase).rank ≤ _
    cases hphase : c.phase with
    | stands phase =>
      have hlt := turn_rank_stands hd
      rw [FineCall.phase_call hphase] at hlt
      exact (Nat.add_le_add_right hone _).trans (Nat.add_comm .. ▸ hlt)
    | reading shown index =>
      have hraised := turn_rank_raises hd
      have hle := hindex shown index hphase
      simp only [FinePhase.rank, memoryLimit] at hle hraised ⊢
      omega
    | streaming raw =>
      have hraised := turn_rank_raises hd
      simp only [FinePhase.rank] at hraised ⊢
      omega
  all_goals cases h

end Turn

namespace FineBrain

variable {libs : Libs} {b t : FineBrain} {as : List FineAction}

/-- The turns that the call `id` may still take, the chunks of its reply aside. -/
def rank (b : FineBrain) (id : Nat) : Nat := (b.calls[id]?.map fun c => c.phase.rank).getD 16

/-- A call pays for its turns, and no step gives it any. -/
theorem step_pays {a : FineAction} (hrun : Trace.run (scheduled libs) {} as = some b)
    (h : b.scheduled libs a = some t) (id : Nat) :
    (if a.advances id then 1 else 0) + t.rank id ≤ b.rank id := by
  have hb := run_remembers hrun
  rcases step_cases (scheduled_eq_some.mp h).2 with ⟨thread, text, rfl, -, hcalls⟩ |
    ⟨i, turn, c, c', rfl, hc, hturn, hcalls⟩
  · -- a new call has all its turns before it, as it had before it was started
    simp only [FineAction.advances, Bool.false_eq_true, if_false, Nat.zero_add, rank, hcalls]
    rcases Nat.lt_trichotomy id b.calls.length with hlt | rfl | hgt
    · rw [List.getElem?_append_left hlt]
    · rw [List.getElem?_concat_length, List.getElem?_eq_none (Nat.le_refl _)]
      rfl
    · rw [List.getElem?_eq_none (Nat.le_of_lt hgt), List.getElem?_eq_none]
      rw [List.length_append, List.length_singleton]
      exact hgt
  · by_cases hi : i = id
    · subst hi
      have hself : t.calls[i]? = some c' := by
        rw [hcalls, List.getElem?_set_self (List.getElem?_eq_some_iff.mp hc).1]
      rw [rank, rank, hself, hc]
      exact fine_rank hturn
        (fun _ _ hphase => ((hb.shown c (List.mem_of_getElem? hc)).reading _ _ hphase).2)
        (fun _ _ hphase => hb.short_of_reading hrun hc hphase)
    · have hother : FineAction.advances id (.turn i turn) = false := by
        cases turn <;> simp [FineAction.advances, hi]
      rw [hother, rank, rank, hcalls, List.getElem?_set_ne hi]
      exact Nat.le_of_eq (Nat.zero_add _)

theorem run_pays (h : Trace.run (scheduled libs) {} as = some b) (id : Nat) :
    as.countP (FineAction.advances id) + b.rank id ≤ 16 :=
  Trace.countP_le (I := fun b => ∃ as, Trace.run (scheduled libs) {} as = some b)
    (fun b => b.rank id)
    (fun _ a _ ⟨as, hrun⟩ hstep => ⟨as ++ [a], Trace.run_snoc_eq_some.mpr ⟨_, hrun, hstep⟩⟩)
    (fun _ _ _ ⟨_, hrun⟩ hstep => step_pays hrun hstep id) ⟨[], rfl⟩ h

/-- The first call is at its request. -/
def requesting : FineBrain :=
  ⟨{}, [⟨.mic, "", some ⟨[], initialState, ""⟩, .streaming ""⟩]⟩

/-- A call at its request takes any number of chunks, and waits for the next. -/
theorem run_chunks (libs : Libs) (chunks : List (Option String)) : ∃ as b,
    Trace.run (scheduled libs) {} as = some b ∧
      as.countP (FineAction.takesChunk 0) = chunks.length ∧
        ∃ c ∈ b.calls, c.call.hasEnded = false := by
  have hstart : Trace.run (scheduled libs) {}
      [.call .mic "", .turn 0 .runs, .turn 0 .runs, .turn 0 .opens] = some requesting := rfl
  have hcall : requesting.calls[0]? =
      some ⟨.mic, "", some ⟨[], initialState, ""⟩, .streaming ""⟩ := rfl
  have hadmits : ∀ t, requesting.admits (.turn 0 t) = true := fun _ => rfl
  refine ⟨_, _, Trace.run_append_eq_some.mpr ⟨requesting, hstart,
    run_alone hcall hadmits (run_streaming chunks rfl)⟩, ?_, _, List.mem_cons_self, rfl⟩
  rw [List.countP_append, List.map_map, List.countP_map]
  exact (Nat.zero_add _).trans (List.countP_eq_length.mpr fun _ _ => rfl)

end FineBrain

/-- A web call reads six entries while the microphone's last one waits for its pop, and has to pop
one itself. -/
def readsSix : List FineAction :=
  (["one", "two", "three", "four", "five", "six"].zipIdx.flatMap fun (text, i) =>
      standsUp i text i) ++
    [.call .web "seven"] ++ List.replicate 9 (.turn 6 .runs) ++
    [.turn 6 .opens, .turn 6 (.chunk (some standReply)), .turn 6 .closes] ++
    List.replicate 5 (.turn 6 .runs)

/-- Its sixteen turns bring it to its end. -/
example : (Trace.run (FineBrain.scheduled plainLibs) {} readsSix).any
    (fun b => (b.calls[6]?).any fun c => c.call.hasEnded) = true ∧
      readsSix.countP (FineAction.advances 6) = 16 := by
  decide +kernel

end SvanVoice
