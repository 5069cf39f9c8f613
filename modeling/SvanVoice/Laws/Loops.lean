import Mathlib.Data.List.Forall2
import SvanVoice.Laws.Threads
import SvanVoice.Model.Loops

/-!
# What the open loops change

Nothing but the history that a prompt shows. `loops_exact` says so in both directions. A run with
the loops opened is a run of the brain with the loops closed, whose calls differ from it in the
histories alone: a turn inside a loop leaves the closed brain as it is, and the turn that ends the
loop is the closed one (`fine_move`). And every run of the closed brain is a run of the open one, in
which nothing comes between the turns of a loop.

The histories do not matter to any other turn (`scheduled_of_blind`).
-/

set_option autoImplicit false

namespace SvanVoice

/-! ## The histories put aside -/

/-- The phase without the history it holds. -/
def Phase.blind : Phase → Phase
  | .remembered _ => .remembered []
  | phase => phase

/-- The call without the history it has read. -/
def Call.blind (c : Call) : Call :=
  { c with
    prompt := c.prompt.map fun p => { p with history := [] }
    phase := c.phase.blind }

/-- The brain without the histories its calls have read. -/
def Brain.blind (b : Brain) : Brain := { b with calls := b.calls.map Call.blind }

section Blind

variable {libs : Libs} {b b' t : Brain}

theorem Call.busy_blind (c : Call) : c.blind.busy = c.busy := by
  obtain ⟨thread, text, prompt, phase⟩ := c
  cases thread <;> cases phase <;> rfl

/-- No turn reads a history but to put it into the prompt. -/
theorem turn_blind (libs : Libs) (g : Globals) (id : Nat) (c : Call) (t : Turn) :
    (processTextCommand libs g id c.blind t).map (fun r => (r.1, r.2.blind)) =
      (processTextCommand libs g id c t).map (fun r => (r.1, r.2.blind)) := by
  have hprompt : (c.prompt.map fun p => { p with history := [] }).map
      (fun p : Prompt => { p with history := [] }) =
        c.prompt.map fun p => { p with history := [] } := by
    rw [Option.map_map]
    rfl
  cases t with
  | runs =>
    cases hphase : c.phase with
    | received raw =>
      simp only [Call.blind, Phase.blind, processTextCommand, hphase]
      cases decodeReply libs raw <;> simp only [Option.map_some, hprompt]
    | appended ns =>
      simp only [Call.blind, Phase.blind, processTextCommand, hphase]
      split <;> simp only [Option.map_some, hprompt]
    | _ =>
      simp only [Call.blind, Phase.blind, processTextCommand, hphase, Option.map_some,
        Option.map_none, hprompt]
  | replies chunks =>
    cases hphase : c.phase <;>
      simp only [Call.blind, Phase.blind, processTextCommand, hphase, Option.map_some,
        Option.map_none, hprompt]
  | raises e =>
    cases hphase : c.phase <;>
      simp only [Call.blind, Phase.blind, processTextCommand, hphase, Option.map_some,
        Option.map_none, hprompt]

theorem Call.blind_blind (c : Call) : c.blind.blind = c.blind := by
  obtain ⟨thread, text, prompt, phase⟩ := c
  cases prompt <;> cases phase <;> rfl

namespace Brain

theorem getElem?_blind (b : Brain) (id : Nat) :
    b.blind.calls[id]? = b.calls[id]?.map Call.blind := List.getElem?_map

theorem busy_blind {thread : Thread} {i : Nat} : b.blind.Busy thread i ↔ b.Busy thread i := by
  constructor
  · rintro ⟨c', hc', hthread, hbusy⟩
    obtain ⟨c, hc, rfl⟩ := Option.map_eq_some_iff.mp ((b.getElem?_blind i).symm.trans hc')
    exact ⟨c, hc, hthread, c.busy_blind ▸ hbusy⟩
  · rintro ⟨c, hc, hthread, hbusy⟩
    exact ⟨c.blind, by rw [getElem?_blind, hc, Option.map_some], hthread, c.busy_blind ▸ hbusy⟩

theorem admits_blind (b : Brain) (a : BrainAction) : b.blind.admits a = b.admits a := by
  cases a with
  | call thread text =>
    rw [Bool.eq_iff_iff, admits_call, admits_call]
    exact forall_congr' fun i => not_congr busy_blind
  | turn id turn =>
    cases hc : b.calls[id]? with
    | none => simp only [admits, getElem?_blind, hc, Option.map_none]
    | some c =>
      have hc' : b.blind.calls[id]? = some c.blind := by rw [getElem?_blind, hc, Option.map_some]
      rw [Bool.eq_iff_iff, admits_turn hc, admits_turn hc']
      exact forall_congr' fun _ => forall_congr' fun i => imp_congr_left busy_blind

theorem step_blind (libs : Libs) (b : Brain) (a : BrainAction) :
    (b.blind.step libs a).map blind = (b.step libs a).map blind := by
  have hcalls : (b.calls.map Call.blind).map Call.blind = b.calls.map Call.blind := by
    rw [List.map_map]
    exact List.map_congr_left fun c _ => c.blind_blind
  cases a with
  | call thread text =>
    simp only [step, blind, Option.map_some, List.map_append, hcalls]
  | turn id turn =>
    rw [step, step, getElem?_blind]
    cases b.calls[id]? with
    | none => rfl
    | some c =>
      have hturn := congrArg
        (Option.map fun r : Globals × Call => Brain.mk r.1 ((b.calls.map Call.blind).set id r.2))
        (turn_blind libs b.globals id c turn)
      simp only [Option.map_map, Function.comp_def] at hturn
      simpa only [Option.map_some, Option.bind_some, Option.map_map, Function.comp_def, blind,
        List.map_set, hcalls] using hturn

/-- **The histories do not matter**: of two brains that differ in them alone, the threads admit the
same steps, and the brains that they lead to differ in the histories alone. -/
theorem scheduled_of_blind {a : BrainAction} (hb : b.blind = b'.blind)
    (h : b.scheduled libs a = some t) :
    ∃ t', b'.scheduled libs a = some t' ∧ t'.blind = t.blind := by
  obtain ⟨hadmits, hstep⟩ := scheduled_eq_some.mp h
  have hadmits' : b'.admits a = true := by
    rw [← admits_blind, ← hb, admits_blind]
    exact hadmits
  have hstep' : (b'.step libs a).map blind = some t.blind := by
    rw [← step_blind, ← hb, step_blind, hstep, Option.map_some]
  obtain ⟨t', ht', hsame⟩ := Option.map_eq_some_iff.mp hstep'
  exact ⟨t', scheduled_eq_some.mpr ⟨hadmits', ht'⟩, hsame⟩

end Brain

end Blind

/-! ## A turn -/

/-- **What a turn is with the loops closed**: none, where it stays in a loop or enters one, and the
call is at its first statement or at the request; or a turn that differs in the history alone. -/
inductive FineMove (libs : Libs) (id : Nat) (g : Globals) (c : FineCall) (g' : Globals)
    (c' : FineCall) : FineTurn → Prop where
  | inside {t : FineTurn} (globals : g' = g) (same : c'.call = c.call)
      (before : c.call.phase = .entered ∨ c.call.phase = .awaiting) : FineMove libs id g c g' c' t
  | runs (d : Call) (turn : processTextCommand libs g id c.call .runs = some (g', d))
      (same : d.blind = c'.call.blind) : FineMove libs id g c g' c' .runs
  | closes (raw : String)
      (turn : processTextCommand libs g id c.call (.replies [some raw]) = some (g', c'.call)) :
      FineMove libs id g c g' c' .closes
  | raises (e : String)
      (turn : processTextCommand libs g id c.call (.raises e) = some (g', c'.call)) :
      FineMove libs id g c g' c' (.raises e)

section Turn

variable {libs : Libs} {g g' : Globals} {id : Nat} {c c' : FineCall} {t : FineTurn}

theorem rawMessage_single (raw : String) : rawMessage [some raw] = raw := by
  rw [rawMessage]
  simp

theorem FineCall.phase_call {phase : FinePhase} (h : c.phase = phase) :
    c.call.phase = phase.coarse := congrArg FinePhase.coarse h

theorem FineCall.call_inside {phase phase' : FinePhase} (h : c.phase = phase)
    (hcoarse : phase'.coarse = phase.coarse) :
    FineCall.call { c with phase := phase' } = c.call := by
  simp only [FineCall.call, h, hcoarse]

theorem fine_move (h : processTextCommandFine libs g id c t = some (g', c')) :
    FineMove libs id g c g' c' t := by
  revert h
  fun_cases processTextCommandFine libs g id c t <;> intro h
  case case1 hphase hempty =>
    cases h
    refine .runs ⟨c.thread, c.text, c.prompt, .remembered g.commandMemory⟩ ?_ rfl
    simp only [processTextCommand, FineCall.phase_call hphase, FinePhase.coarse]
    rfl
  case case2 hphase _ =>
    cases h
    exact .inside rfl (FineCall.call_inside hphase rfl) (.inl (FineCall.phase_call hphase))
  case case3 hphase _ _ =>
    cases h
    exact .inside rfl (FineCall.call_inside hphase rfl) (.inl (FineCall.phase_call hphase))
  case case4 shown index hphase hend =>
    -- the loop ends with `shown`, where the closed call shows the memory
    cases h
    refine .runs ⟨c.thread, c.text, c.prompt, .remembered g.commandMemory⟩ ?_ rfl
    simp only [processTextCommand, FineCall.phase_call hphase, FinePhase.coarse]
    rfl
  case case6 =>
    obtain ⟨⟨g₁, d⟩, hd, hfine⟩ := Option.map_eq_some_iff.mp h
    cases hfine
    exact .runs d hd rfl
  case case7 hphase =>
    cases h
    exact .inside rfl (FineCall.call_inside hphase rfl) (.inr (FineCall.phase_call hphase))
  case case9 hphase =>
    cases h
    exact .inside rfl (FineCall.call_inside hphase rfl) (.inr (FineCall.phase_call hphase))
  case case11 raw hphase =>
    cases h
    refine .closes raw ?_
    simp only [processTextCommand, FineCall.phase_call hphase, FinePhase.coarse, rawMessage_single]
    rfl
  case case13 e =>
    obtain ⟨⟨g₁, d⟩, hd, hfine⟩ := Option.map_eq_some_iff.mp h
    cases hfine
    exact .raises e hd
  all_goals cases h

/-- A turn keeps its call on its thread. -/
theorem fine_thread (h : processTextCommandFine libs g id c t = some (g', c')) :
    c'.thread = c.thread := by
  cases fine_move h with
  | inside globals same before => exact congrArg Call.thread same
  | runs d turn same =>
    have hd : d.thread = c'.thread := congrArg Call.thread same
    exact hd.symm.trans (turn_thread turn)
  | closes raw turn => exact turn_thread turn
  | raises e turn => exact turn_thread turn

end Turn

/-! ## A step -/

/-- The action that a step is with the loops closed. -/
inductive FineAction.Closed : FineAction → BrainAction → Prop where
  | call (thread : Thread) (text : String) : Closed (.call thread text) (.call thread text)
  | runs (id : Nat) : Closed (.turn id .runs) (.turn id .runs)
  | closes (id : Nat) (raw : String) :
      Closed (.turn id .closes) (.turn id (.replies [some raw]))
  | raises (id : Nat) (e : String) : Closed (.turn id (.raises e)) (.turn id (.raises e))

namespace FineBrain

section Step

variable {libs : Libs} {b t : FineBrain} {a : FineAction}

/-- **What a step does**: it starts a call, or one call takes a turn. -/
theorem step_cases (h : b.step libs a = some t) :
    (∃ thread text, a = .call thread text ∧ t.globals = b.globals ∧
        t.calls = b.calls ++ [{ thread := thread, text := text }]) ∨
      ∃ id turn c c', a = .turn id turn ∧ b.calls[id]? = some c ∧
        processTextCommandFine libs b.globals id c turn = some (t.globals, c') ∧
          t.calls = b.calls.set id c' := by
  cases a with
  | call thread text =>
    cases h
    exact .inl ⟨thread, text, rfl, rfl, rfl⟩
  | turn id turn =>
    obtain ⟨c, hc, hturn⟩ := Option.bind_eq_some_iff.mp h
    obtain ⟨⟨g', c'⟩, hg, rfl⟩ := Option.map_eq_some_iff.mp hturn
    exact .inr ⟨id, turn, c, c', rfl, hc, hg, rfl⟩

/-- A scheduled step is an admitted step. -/
theorem scheduled_eq_some :
    b.scheduled libs a = some t ↔ b.admits a = true ∧ b.step libs a = some t := by
  unfold scheduled
  split
  · next h => exact ⟨fun ht => ⟨h, ht⟩, And.right⟩
  · next h => exact ⟨fun ht => absurd ht (Option.some_ne_none _).symm, fun ht => absurd ht.1 h⟩

theorem getElem?_brain {id : Nat} {c : FineCall} (hc : b.calls[id]? = some c) :
    b.brain.calls[id]? = some c.call := by
  rw [brain, List.getElem?_map, hc, Option.map_some]

/-- The closed brain after a turn: a turn of it, but for the history. -/
theorem scheduled_turn {id : Nat} {c c' : FineCall} {turn : Turn} {d : Call}
    (hc : b.calls[id]? = some c) (hadmits : b.brain.admits (.turn id turn) = true)
    (hturn : processTextCommand libs b.globals id c.call turn = some (t.globals, d))
    (hsame : d.blind = c'.call.blind) (hcalls : t.calls = b.calls.set id c') :
    ∃ next, b.brain.scheduled libs (.turn id turn) = some next ∧
      next.blind = t.brain.blind := by
  refine ⟨_, Brain.scheduled_eq_some.mpr
    ⟨hadmits, Brain.step_turn (getElem?_brain hc) hturn⟩, ?_⟩
  simp only [Brain.blind, brain, hcalls, List.map_set, hsame]

/-- **What a step is with the loops closed**: none, inside a loop, or a step that differs in the
histories alone. -/
theorem scheduled_brain (h : b.scheduled libs a = some t) :
    (t.brain = b.brain ∧ ∃ id turn c, a = .turn id turn ∧ b.calls[id]? = some c ∧
        (c.call.phase = .entered ∨ c.call.phase = .awaiting)) ∨
      ∃ ca d, a.Closed ca ∧ b.brain.scheduled libs ca = some d ∧ d.blind = t.brain.blind := by
  obtain ⟨hadmits, hstep⟩ := scheduled_eq_some.mp h
  rcases step_cases hstep with ⟨thread, text, rfl, hglobals, hcalls⟩ |
    ⟨id, turn, c, c', rfl, hc, hturn, hcalls⟩
  · refine .inr ⟨_, t.brain, .call thread text, Brain.scheduled_eq_some.mpr ⟨hadmits, ?_⟩, rfl⟩
    simp only [Brain.step, brain, hglobals, hcalls, List.map_append, List.map_cons, List.map_nil]
    rfl
  · -- the threads see whose turn it is
    have hadmits' : ∀ turn', b.brain.admits (.turn id turn') = true := fun _ => hadmits
    cases fine_move hturn with
    | inside globals same before =>
      refine .inl ⟨?_, id, turn, c, rfl, hc, before⟩
      obtain ⟨hlt, rfl⟩ := List.getElem?_eq_some_iff.mp hc
      have hlt' : id < (b.calls.map FineCall.call).length := by rwa [List.length_map]
      have hsame : c'.call = (b.calls.map FineCall.call)[id] := by rw [List.getElem_map, same]
      simp only [brain, globals, hcalls, List.map_set]
      rw [hsame, List.set_getElem_self hlt']
    | runs d hd same =>
      obtain ⟨next, hnext, hblind⟩ := scheduled_turn hc (hadmits' _) hd same hcalls
      exact .inr ⟨_, next, .runs id, hnext, hblind⟩
    | closes raw hd =>
      obtain ⟨next, hnext, hblind⟩ := scheduled_turn hc (hadmits' _) hd rfl hcalls
      exact .inr ⟨_, next, .closes id raw, hnext, hblind⟩
    | raises e hd =>
      obtain ⟨next, hnext, hblind⟩ := scheduled_turn hc (hadmits' _) hd rfl hcalls
      exact .inr ⟨_, next, .raises id e, hnext, hblind⟩

/-- A run with the loops opened is a run with the loops closed, but for the histories: its actions
are those of the open run, in their order, that are not inside a loop. -/
theorem run_brain {as : List FineAction} (h : Trace.run (scheduled libs) {} as = some b) :
    ∃ kept cs d, kept.Sublist as ∧ List.Forall₂ FineAction.Closed kept cs ∧
      Trace.run (Brain.scheduled libs) {} cs = some d ∧ d.blind = b.brain.blind := by
  refine Trace.history (I := fun as (b : FineBrain) => ∃ kept cs d, kept.Sublist as ∧
      List.Forall₂ FineAction.Closed kept cs ∧
      Trace.run (Brain.scheduled libs) {} cs = some d ∧ d.blind = b.brain.blind)
    ⟨[], [], {}, List.Sublist.refl _, .nil, rfl, rfl⟩ (fun as a b t _ hstep ih => ?_) h
  obtain ⟨kept, cs, d, hkept, hclosed, hd, hblind⟩ := ih
  rcases scheduled_brain hstep with ⟨hsame, -⟩ | ⟨ca, e, ha, he, hlast⟩
  · exact ⟨kept, cs, d, hkept.trans (List.sublist_append_left as [a]), hclosed, hd,
      hsame ▸ hblind⟩
  · obtain ⟨d', hd', hblind'⟩ := Brain.scheduled_of_blind hblind.symm he
    exact ⟨kept ++ [a], cs ++ [ca], d', hkept.append (List.Sublist.refl _),
      List.rel_append hclosed (.cons ha .nil), Trace.run_snoc_eq_some.mpr ⟨d, hd, hd'⟩,
      hblind'.trans hlast⟩

end Step

end FineBrain

/-! ## Nothing comes between the turns of a loop -/

/-- A turn of a call that leaves the globals alone. -/
def aloneStep (libs : Libs) (g : Globals) (id : Nat) (c : FineCall) (t : FineTurn) :
    Option FineCall :=
  ((processTextCommandFine libs g id c t).filter fun r => r.1 = g).map Prod.snd

section Alone

variable {libs : Libs} {g g' : Globals} {id : Nat} {c c' : FineCall} {t : FineTurn}

theorem aloneStep_eq_some :
    aloneStep libs g id c t = some c' ↔ processTextCommandFine libs g id c t = some (g, c') := by
  rw [aloneStep, Option.map_eq_some_iff]
  constructor
  · rintro ⟨⟨g₁, c₁⟩, hr, rfl⟩
    obtain ⟨hr, hg⟩ := Option.filter_eq_some_iff.mp hr
    obtain rfl : g₁ = g := of_decide_eq_true hg
    exact hr
  · intro h
    exact ⟨(g, c'), Option.filter_eq_some_iff.mpr ⟨h, decide_eq_true rfl⟩, rfl⟩

/-- The comprehension reads the rest of the memory and ends. -/
theorem run_reading (rest : List MemoryEntry) : ∀ {shown : List MemoryEntry} {index : Nat},
    c.phase = .reading shown index → g.commandMemory.drop index = rest →
      Trace.run (aloneStep libs g id) c (List.replicate (rest.length + 1) .runs) =
        some { c with phase := .stands (.remembered (shown ++ rest)) } := by
  induction rest generalizing c with
  | nil =>
    intro shown index hphase hrest
    have hend : g.commandMemory[index]? = none :=
      List.getElem?_eq_none (List.drop_eq_nil_iff.mp hrest)
    refine Trace.run_single.trans (aloneStep_eq_some.mpr ?_)
    simp only [processTextCommandFine, hphase, hend, List.append_nil]
  | cons entry rest ih =>
    intro shown index hphase hrest
    have hentry : g.commandMemory[index]? = some entry := by
      rw [← List.head?_drop, hrest, List.head?_cons]
    have hread : aloneStep libs g id c .runs =
        some { c with phase := .reading (shown ++ [entry]) (index + 1) } := by
      rw [aloneStep_eq_some]
      simp only [processTextCommandFine, hphase, hentry]
    rw [List.length_cons, List.replicate_succ, Trace.run_cons, hread, Option.bind_some,
      ih rfl (by rw [← List.tail_drop, hrest, List.tail_cons]), List.append_assoc]
    rfl

/-- The stream brings all its chunks. -/
theorem run_streaming (chunks : List (Option String)) : ∀ {raw : String},
    c.phase = .streaming raw →
      Trace.run (aloneStep libs g id) c (chunks.map .chunk) =
        some { c with phase := .streaming (raw ++ rawMessage chunks) } := by
  induction chunks generalizing c with
  | nil =>
    intro raw hphase
    rw [List.map_nil, Trace.run_nil, rawMessage]
    simp [← hphase]
  | cons content chunks ih =>
    intro raw hphase
    have hchunk : aloneStep libs g id c (.chunk content) =
        some { c with phase := .streaming (raw ++ content.getD "") } := by
      rw [aloneStep_eq_some]
      simp only [processTextCommandFine, hphase]
    have hmessage : raw ++ content.getD "" ++ rawMessage chunks =
        raw ++ rawMessage (content :: chunks) := by
      cases content <;> simp [rawMessage, String.append_assoc]
    rw [List.map_cons, Trace.run_cons, hchunk, Option.bind_some, ih rfl, hmessage]

/-- A turn with the loops closed is one with the loops opened, or a loop that runs through. -/
theorem fine_of_turn {c c' : Call} {turn : Turn}
    (h : processTextCommand libs g id c turn = some (g', c')) :
    (∃ t, processTextCommandFine libs g id c.fine t = some (g', c'.fine)) ∨
      g' = g ∧ ∃ ts, Trace.run (aloneStep libs g id) c.fine ts = some c'.fine := by
  have hfine : ∀ t', processTextCommand libs g id c.fine.call t' = some (g', c') →
      (processTextCommand libs g id c.fine.call t').map (fun r => (r.1, r.2.fine)) =
        some (g', c'.fine) := fun t' ht' => by rw [ht', Option.map_some]
  cases turn with
  | runs =>
    cases hphase : c.phase with
    | entered =>
      -- the history loop
      simp only [processTextCommand, hphase, Option.some.injEq, Prod.mk.injEq] at h
      obtain ⟨rfl, rfl⟩ := h
      have hstart : c.fine.phase = .stands .entered := congrArg FinePhase.stands hphase
      refine .inr ⟨rfl, ?_⟩
      by_cases hempty : g.commandMemory = []
      · refine ⟨[.runs], Trace.run_single.trans (aloneStep_eq_some.mpr ?_)⟩
        simp only [processTextCommandFine, hstart, hempty, if_true]
        rfl
      · have henter : aloneStep libs g id c.fine .runs =
            some { c.fine with phase := .reading [] 0 } := by
          rw [aloneStep_eq_some]
          simp only [processTextCommandFine, hstart, hempty, if_false]
        refine ⟨.runs :: List.replicate (g.commandMemory.length + 1) .runs, ?_⟩
        rw [Trace.run_cons, henter, Option.bind_some, run_reading g.commandMemory rfl rfl]
        rfl
    | _ =>
      refine .inl ⟨.runs, ?_⟩
      simp only [processTextCommandFine, Call.fine, hphase]
      simpa only [Call.fine, hphase] using hfine .runs h
  | replies chunks =>
    -- the stream, from the request on
    cases hphase : c.phase with
    | awaiting =>
      simp only [processTextCommand, hphase, Option.some.injEq, Prod.mk.injEq] at h
      obtain ⟨rfl, rfl⟩ := h
      have hstart : c.fine.phase = .stands .awaiting := congrArg FinePhase.stands hphase
      have hopen : aloneStep libs g id c.fine .opens =
          some { c.fine with phase := .streaming "" } := by
        rw [aloneStep_eq_some]
        simp only [processTextCommandFine, hstart]
      refine .inr ⟨rfl, .opens :: (chunks.map .chunk ++ [.closes]), ?_⟩
      rw [Trace.run_cons, hopen, Option.bind_some, Trace.run_append, run_streaming chunks rfl,
        Option.bind_some, Trace.run_single, aloneStep_eq_some]
      simp only [processTextCommandFine, String.empty_append]
      rfl
    | _ => simp only [processTextCommand, hphase, reduceCtorEq] at h
  | raises e => exact .inl ⟨.raises e, hfine (.raises e) h⟩

end Alone

namespace FineBrain

section Alone

variable {libs : Libs} {b : FineBrain} {id : Nat} {c c' : FineCall}

/-- A call whose turn it is may go on: no other one has moved. -/
theorem admits_set {t t' : FineTurn} (hc : b.calls[id]? = some c) (hthread : c'.thread = c.thread)
    (h : b.admits (.turn id t) = true) :
    admits { b with calls := b.calls.set id c' } (.turn id t') = true := by
  have hself : (b.calls.set id c')[id]? = some c' :=
    List.getElem?_set_self (List.getElem?_eq_some_iff.mp hc).1
  have hadmits : b.brain.admits (.turn id .runs) = true := h
  have hfree := (Brain.admits_turn (getElem?_brain hc)).mp hadmits
  show Brain.admits (brain ⟨b.globals, b.calls.set id c'⟩) (.turn id .runs) = true
  refine (Brain.admits_turn (getElem?_brain hself)).mpr fun hweb i hi => ?_
  by_contra hne
  obtain ⟨d, hd, hbusy⟩ := hi
  rw [brain, List.map_set, List.getElem?_set_ne (Ne.symm hne)] at hd
  exact hne (hfree (hthread.symm.trans hweb) i ⟨d, hd, hbusy⟩)

/-- A call that leaves the globals alone takes its turns one after the other. -/
theorem run_alone {ts : List FineTurn} (hc : b.calls[id]? = some c)
    (hadmits : ∀ t, b.admits (.turn id t) = true)
    (h : Trace.run (aloneStep libs b.globals id) c ts = some c') :
    Trace.run (scheduled libs) b (ts.map (.turn id)) =
      some { b with calls := b.calls.set id c' } := by
  induction ts generalizing b c with
  | nil =>
    cases h
    obtain ⟨hlt, rfl⟩ := List.getElem?_eq_some_iff.mp hc
    rw [List.set_getElem_self hlt]
    rfl
  | cons t ts ih =>
    obtain ⟨d, hd, hrun⟩ := Option.bind_eq_some_iff.mp h
    have hturn := aloneStep_eq_some.mp hd
    have hstep : b.scheduled libs (.turn id t) = some { b with calls := b.calls.set id d } := by
      refine scheduled_eq_some.mpr ⟨hadmits t, ?_⟩
      rw [step, hc, Option.bind_some, hturn, Option.map_some]
    have hself : (b.calls.set id d)[id]? = some d :=
      List.getElem?_set_self (List.getElem?_eq_some_iff.mp hc).1
    rw [List.map_cons, Trace.run_cons, hstep, Option.bind_some,
      ih (b := ⟨b.globals, b.calls.set id d⟩) hself
        (fun t' => admits_set hc (fine_thread hturn) (hadmits t)) hrun, List.set_set]

/-- The open brain whose calls are in no loop closes to the brain it is. -/
theorem brain_fine (b : Brain) : b.fine.brain = b := by
  have hcalls : (b.calls.map Call.fine).map FineCall.call = b.calls := by
    rw [List.map_map]
    exact List.map_id b.calls
  rw [Brain.fine, brain, hcalls]

/-- A scheduled step with the loops closed is a run with the loops opened. -/
theorem run_of_scheduled {b t : Brain} {a : BrainAction} (h : b.scheduled libs a = some t) :
    ∃ as, Trace.run (scheduled libs) b.fine as = some t.fine := by
  obtain ⟨hadmits, hstep⟩ := Brain.scheduled_eq_some.mp h
  rcases Brain.step_cases hstep with ⟨thread, text, rfl, hglobals, hcalls⟩ |
    ⟨id, turn, c, c', rfl, hc, hturn, hcalls⟩
  · refine ⟨[.call thread text], Trace.run_single.trans (scheduled_eq_some.mpr ⟨?_, ?_⟩)⟩
    · rw [admits, brain_fine]
      exact hadmits
    · simp only [step, Brain.fine, hglobals, hcalls, List.map_append, List.map_cons, List.map_nil]
      rfl
  · have hfine : b.fine.calls[id]? = some c.fine := by
      rw [Brain.fine, List.getElem?_map, hc, Option.map_some]
    have hadmits' : ∀ t', b.fine.admits (.turn id t') = true := fun t' => by
      rw [admits, brain_fine]
      exact hadmits
    have htarget : t.fine = ⟨t.globals, b.fine.calls.set id c'.fine⟩ := by
      simp only [Brain.fine, hcalls, List.map_set]
    rcases fine_of_turn hturn with ⟨t', ht'⟩ | ⟨hglobals, ts, hts⟩
    · refine ⟨[.turn id t'], Trace.run_single.trans
        (scheduled_eq_some.mpr ⟨hadmits' t', ?_⟩)⟩
      have hturn' : processTextCommandFine libs b.fine.globals id c.fine t' =
          some (t.globals, c'.fine) := ht'
      rw [step, hfine, Option.bind_some, hturn', Option.map_some, htarget]
    · refine ⟨ts.map (.turn id), (run_alone hfine hadmits' hts).trans ?_⟩
      rw [htarget, hglobals]
      rfl

/-- A run with the loops closed is a run with the loops opened. -/
theorem run_fine {b : Brain} {as : List BrainAction}
    (h : Trace.run (Brain.scheduled libs) {} as = some b) :
    ∃ fs, Trace.run (scheduled libs) {} fs = some b.fine := by
  refine Trace.history (I := fun _ (b : Brain) => ∃ fs, Trace.run (scheduled libs) {} fs =
    some b.fine) ⟨[], rfl⟩ (fun _ a b t _ hstep ih => ?_) h
  obtain ⟨fs, hfs⟩ := ih
  obtain ⟨more, hmore⟩ := run_of_scheduled hstep
  exact ⟨fs ++ more, Trace.run_append_eq_some.mpr ⟨b.fine, hfs, hmore⟩⟩

end Alone

end FineBrain

end SvanVoice
