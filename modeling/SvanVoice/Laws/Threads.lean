import SvanVoice.Laws.Brain
import SvanVoice.Model.Threads

/-!
# The threads and what they admit

`Process.step_cases` says once what a step of the process does to the brain: nothing, a new call,
or a turn of one call. A call is busy while it keeps its thread to itself: a web call until it
awaits the model or has ended, a microphone call until it has ended. In every run each thread holds
exactly its busy call (`Consistent`), which is what `Brain.admits` asks for.

So the threads and the schedule are the same brain: `threads_exact`. `commands_conserved` follows
each command from the microphone or the network to its call.
-/

set_option autoImplicit false

namespace SvanVoice

/-! ## Stripping -/

/-- A character kept at the front stays there when the end is stripped. -/
theorem dropWhile_rdropWhile {α : Type} (p : α → Bool) {l : List α} (h : l.dropWhile p = l) :
    (l.rdropWhile p).dropWhile p = l.rdropWhile p := by
  cases l with
  | nil => rfl
  | cons a l =>
    have ha : p a = false := by
      by_contra hp
      rw [Bool.not_eq_false] at hp
      rw [List.dropWhile_cons_of_pos hp] at h
      have hlength := (List.dropWhile_suffix p (l := l)).length_le
      rw [h, List.length_cons] at hlength
      omega
    cases hr : (a :: l).rdropWhile p with
    | nil => rfl
    | cons b r =>
      obtain ⟨t, ht⟩ := List.rdropWhile_prefix p (l := a :: l)
      rw [hr, List.cons_append] at ht
      obtain ⟨rfl, -⟩ := List.cons.inj ht
      exact List.dropWhile_cons_of_neg (by rw [ha]; exact Bool.false_ne_true)

@[simp] theorem strip_strip (s : String) : strip (strip s) = strip s := by
  have hfront := List.dropWhile_idempotent isSpace s.toList
  have hend := List.rdropWhile_idempotent isSpace (s.toList.dropWhile isSpace)
  simp only [strip, String.toList_ofList]
  rw [dropWhile_rdropWhile isSpace hfront, hend]

/-! ## Busy calls -/

/-- A call that keeps its thread to itself. -/
def Call.busy (c : Call) : Bool :=
  match c.thread with
  | .web => !c.suspended
  | .mic => !c.hasEnded

theorem Call.busy_web {c : Call} (h : c.thread = .web) : c.busy = true ↔ c.suspended = false := by
  rw [Call.busy, h, Bool.not_eq_true']

theorem Call.busy_mic {c : Call} (h : c.thread = .mic) : c.busy = true ↔ c.hasEnded = false := by
  rw [Call.busy, h, Bool.not_eq_true']

namespace Brain

/-- A call that can take its turn is a step of the brain. -/
theorem step_turn {libs : Libs} {b : Brain} {id : Nat} {t : Turn} {c c' : Call} {g' : Globals}
    (hc : b.calls[id]? = some c) (h : processTextCommand libs b.globals id c t = some (g', c')) :
    b.step libs (.turn id t) = some { globals := g', calls := b.calls.set id c' } := by
  rw [step, hc, Option.bind_some, h, Option.map_some]

/-- The call `i` keeps the thread to itself. -/
def Busy (b : Brain) (thread : Thread) (i : Nat) : Prop :=
  ∃ c, b.calls[i]? = some c ∧ c.thread = thread ∧ c.busy = true

section Busy

variable {libs : Libs} {b t : Brain} {thread : Thread} {i id : Nat}

theorem Busy.lt (h : b.Busy thread i) : i < b.calls.length := by
  obtain ⟨c, hc, -⟩ := h
  exact (List.getElem?_eq_some_iff.mp hc).1

/-- A new call is busy, and the others are as they were. -/
theorem busy_of_call {starter : Thread} {text : String}
    (h : b.step libs (.call starter text) = some t) :
    t.Busy thread i ↔ b.Busy thread i ∨ thread = starter ∧ i = b.calls.length := by
  cases h
  constructor
  · rintro ⟨c, hc, hthread, hbusy⟩
    rcases Nat.lt_or_ge i b.calls.length with hold | hnew
    · rw [List.getElem?_append_left hold] at hc
      exact .inl ⟨c, hc, hthread, hbusy⟩
    · have hlt := (List.getElem?_eq_some_iff.mp hc).1
      rw [List.length_append, List.length_singleton] at hlt
      obtain rfl : i = b.calls.length := by omega
      rw [List.getElem?_concat_length] at hc
      cases hc
      exact .inr ⟨hthread.symm, rfl⟩
  · rintro (⟨c, hc, hthread, hbusy⟩ | ⟨rfl, rfl⟩)
    · have hlt := (List.getElem?_eq_some_iff.mp hc).1
      exact ⟨c, by rw [List.getElem?_append_left hlt, hc], hthread, hbusy⟩
    · exact ⟨_, List.getElem?_concat_length, rfl, by cases thread <;> rfl⟩

/-- A turn decides whether its own call is busy, and no other. -/
theorem busy_of_turn {turn : Turn} {c : Call} (hc : b.calls[id]? = some c)
    (h : b.step libs (.turn id turn) = some t) :
    ∃ c' : Call, t.calls[id]? = some c' ∧ c'.thread = c.thread ∧ ∀ thread i,
      (i = id → (t.Busy thread i ↔ c.thread = thread ∧ c'.busy = true)) ∧
        (i ≠ id → (t.Busy thread i ↔ b.Busy thread i)) := by
  rcases step_cases h with ⟨_, _, hact, -⟩ | ⟨id', turn', c₀, c', hact, hc₀, hturn, hcalls⟩
  · cases hact
  · cases hact
    cases hc.symm.trans hc₀
    have hthread := turn_thread hturn
    have hself : t.calls[id]? = some c' := by
      rw [hcalls, List.getElem?_set_self (List.getElem?_eq_some_iff.mp hc).1]
    refine ⟨c', hself, hthread, fun thread i => ⟨?_, fun hne => ?_⟩⟩
    · rintro rfl
      constructor
      · rintro ⟨c₁, hc₁, hth, hbusy⟩
        cases hself.symm.trans hc₁
        exact ⟨hthread.symm.trans hth, hbusy⟩
      · rintro ⟨hth, hbusy⟩
        exact ⟨c', hself, hthread.trans hth, hbusy⟩
    · rw [Busy, Busy, hcalls, List.getElem?_set_ne (Ne.symm hne)]

/-- A turn of the only call that may be busy on its thread. -/
theorem busy_of_only_turn {turn : Turn} {c : Call} (hc : b.calls[id]? = some c)
    (honly : ∀ i, b.Busy c.thread i → i = id) (h : b.step libs (.turn id turn) = some t) :
    ∃ c' : Call, t.phase? id = some c'.phase ∧ c'.thread = c.thread ∧
      (∀ i, t.Busy c.thread i ↔ i = id ∧ c'.busy = true) ∧
      ∀ other i, other ≠ c.thread → (t.Busy other i ↔ b.Busy other i) := by
  obtain ⟨c', hc', hthread, hbusy⟩ := busy_of_turn hc h
  refine ⟨c', by rw [phase?, hc', Option.map_some], hthread, fun i => ?_, fun other i hne => ?_⟩
  · by_cases hi : i = id
    · rw [(hbusy _ i).1 hi]
      exact and_congr_left' (iff_of_true rfl hi)
    · rw [(hbusy _ i).2 hi]
      exact iff_of_false (fun hb => hi (honly i hb)) (fun hb => hi hb.1)
  · by_cases hi : i = id
    · rw [(hbusy _ i).1 hi]
      refine iff_of_false (fun hb => hne hb.1.symm) ?_
      rintro ⟨c₁, hc₁, hth, -⟩
      subst hi
      cases hc.symm.trans hc₁
      exact hne hth.symm
    · exact (hbusy _ i).2 hi

theorem webLoopFree_iff : b.webLoopFree id = true ↔ ∀ i, b.Busy .web i → i = id := by
  rw [webLoopFree, List.all_eq_true]
  constructor
  · rintro h i ⟨c, hc, hthread, hbusy⟩
    have hfree := h (c, i) (List.mem_zipIdx_iff_getElem?.mpr hc)
    simpa [hthread, (Call.busy_web hthread).mp hbusy] using hfree
  · rintro h ⟨c, i⟩ hmem
    have hc : b.calls[i]? = some c := List.mem_zipIdx_iff_getElem?.mp hmem
    show (c.thread != .web || i == id || c.suspended) = true
    cases hthread : c.thread with
    | mic => rfl
    | web =>
      cases hbusy : c.suspended with
      | true => exact Bool.or_true _
      | false =>
        obtain rfl := h i ⟨c, hc, hthread, (Call.busy_web hthread).mpr hbusy⟩
        rw [BEq.rfl]
        rfl

/-- A thread starts a call when none of its calls is busy. -/
theorem admits_call {text : String} :
    b.admits (.call thread text) = true ↔ ∀ i, ¬ b.Busy thread i := by
  cases thread with
  | web =>
    refine webLoopFree_iff.trans ⟨fun h i hi => ?_, fun h i hi => absurd hi (h i)⟩
    exact absurd (h i hi) (Nat.ne_of_lt hi.lt)
  | mic =>
    refine List.all_eq_true.trans ⟨?_, fun h c hmem => ?_⟩
    · rintro h i ⟨c, hc, hthread, hbusy⟩
      have hended := h c (List.mem_of_getElem? hc)
      rw [hthread, (Call.busy_mic hthread).mp hbusy] at hended
      cases hended
    · obtain ⟨i, hi⟩ := List.getElem?_of_mem hmem
      cases hthread : c.thread with
      | web => rfl
      | mic =>
        cases hended : c.hasEnded with
        | true => rfl
        | false => exact absurd ⟨c, hi, hthread, (Call.busy_mic hthread).mpr hended⟩ (h i)

/-- A microphone call may always take its turn; a web call, while no other one is busy. -/
theorem admits_turn {turn : Turn} {c : Call} (hc : b.calls[id]? = some c) :
    b.admits (.turn id turn) = true ↔ (c.thread = .web → ∀ i, b.Busy .web i → i = id) := by
  have hadmits : b.admits (.turn id turn) = (c.thread == .mic || b.webLoopFree id) := by
    simp only [admits, hc]
  rw [hadmits, Bool.or_eq_true, webLoopFree_iff]
  cases hthread : c.thread with
  | web => simp only [beq_iff_eq, reduceCtorEq, false_or, forall_const]
  | mic => simp only [BEq.rfl, true_or, reduceCtorEq, false_implies]

end Busy

/-- What the brain was told: the thread and the text of each call, in the order of the starts. -/
def received (b : Brain) : List (Thread × String) := b.calls.map fun c => (c.thread, c.text)

section Received

variable {libs : Libs} {b t : Brain}

theorem received_of_call {thread : Thread} {text : String}
    (h : b.step libs (.call thread text) = some t) :
    t.received = b.received ++ [(thread, text)] := by
  cases h
  exact List.map_append

theorem received_of_turn {id : Nat} {turn : Turn} (h : b.step libs (.turn id turn) = some t) :
    t.received = b.received := by
  rcases step_cases h with ⟨_, _, hact, -⟩ | ⟨id', turn', c, c', hact, hc, hturn, hcalls⟩
  · cases hact
  · cases hact
    obtain ⟨hlt, rfl⟩ := List.getElem?_eq_some_iff.mp hc
    have hi : id < b.received.length := by rwa [received, List.length_map]
    have hsame : (c'.thread, c'.text) = b.received[id] := by
      rw [turn_thread hturn, turn_text hturn]
      simp only [received, List.getElem_map]
    rw [received, hcalls, List.map_set, hsame]
    exact List.set_getElem_self hi

theorem received_prefix {a : BrainAction} (h : b.step libs a = some t) :
    b.received <+: t.received := by
  cases a with
  | call thread text =>
    rw [received_of_call h]
    exact List.prefix_append _ _
  | turn id turn => exact received_of_turn h ▸ List.prefix_rfl

end Received

end Brain

/-! ## A step of the process -/

/-- The text the microphone thread has recognized and not printed yet. -/
def Process.pending (p : Process) : Option String :=
  match p.mic with
  | some (.heard text) => some text
  | _ => none

/-- The text that is recognized and not printed after an event. -/
def heardAfter (pending : Option String) : ProcessEvent → Option String
  | .mic (.recognizes text) => some text
  | .mic _ => none
  | .web _ | .main _ => pending

/-- The command an event hands to the brain: a request, stripped, or the text just printed. -/
def commandOf (pending : Option String) : ProcessEvent → Option (Thread × String)
  | .web (.request text) => some (.web, strip text)
  | .mic .runs => pending.map fun text => (.mic, text)
  | _ => none

/-- The commands of a run, in order. -/
def commands (pending : Option String) : List ProcessEvent → List (Thread × String)
  | [] => []
  | e :: es => (commandOf pending e).toList ++ commands (heardAfter pending e) es

/-- No handler leaves the thread in a call. -/
theorem MicException.handled_free (x : MicException) (i : Nat) : x.handled ≠ .answering i := by
  cases x <;> exact nofun

namespace Process

/-- The kinds of step: `main` goes on or starts the microphone thread, that thread is between two
calls, a request fails at its `print`, a call starts on either thread, or a call takes a turn on
either thread. -/
inductive Moves (libs : Libs) (p : Process) : ProcessEvent → Process → Prop where
  | main {runs : Bool} {m : MainThread} (printed : m = .printing → p.mainThread = .printing)
      (started : m = .starting → p.mainThread = .printing) :
      Moves libs p (.main runs) { p with mainThread := m }
  | start (before : p.mainThread = .starting) :
      Moves libs p (.main true) { p with mainThread := .serving, mic := some .starting }
  | listen {e : MicEvent} {l l' : Listener} (held : p.mic = some l) (free : ∀ i, l ≠ .answering i)
      (turnless : ∀ t, e ≠ .turn t) (still : ∀ i, l' ≠ .answering i)
      (silent : commandOf p.pending (.mic e) = none)
      (heard : heardAfter p.pending (.mic e) = pending { p with mic := some l' }) :
      Moves libs p (.mic e) { p with mic := some l' }
  | unprinted : Moves libs p (.web .unprinted) p
  | request {text : String} {brain : Brain} (free : p.web.running = none)
      (step : p.brain.step libs (.call .web (strip text)) = some brain) :
      Moves libs p (.web (.request text))
        { p with brain, web := { p.web with running := some p.brain.calls.length } }
  | utterance {text : String} {brain : Brain} (heard : p.mic = some (.heard text))
      (step : p.brain.step libs (.call .mic text) = some brain) :
      Moves libs p (.mic .runs) { p with brain, mic := some (.answering p.brain.calls.length) }
  | micTurn {id : Nat} {t : Turn} {brain : Brain} (held : p.mic = some (.answering id))
      (step : p.brain.step libs (.turn id t) = some brain) :
      Moves libs p (.mic (.turn t)) { p with brain, mic := some (.after id (brain.phase? id)) }
  | webTurn {e : WebEvent} {id : Nat} {t : Turn} {brain : Brain}
      (held : e = .turn t ∧ p.web.running = some id ∨ e = .resume id t ∧ p.web.running = none ∧
        (p.brain.calls[id]?).any (fun c => c.thread = .web) = true)
      (step : p.brain.step libs (.turn id t) = some brain) :
      Moves libs p (.web e) { p with brain, web := p.web.after id (brain.phase? id) }

section Step

variable {libs : Libs} {p q : Process} {e : ProcessEvent}

theorem pending_handled (p : Process) (x : MicException) :
    pending { p with mic := some x.handled } = none := by
  cases x <;> rfl

/-- Between two calls, and at the start of one, the microphone thread moves alone. -/
theorem moves_of_mic {l l' : Listener} {m : MicEvent} {brain : Brain} (hl : p.mic = some l)
    (h : micListenLoop libs p.brain l m = some (brain, l')) :
    Moves libs p (.mic m) { p with brain, mic := some l' } := by
  have hpending : p.pending = pending { p with mic := some l } := by rw [pending, hl]; rfl
  revert h
  fun_cases micListenLoop libs p.brain l m <;> intro h
  case case7 text =>
    obtain ⟨b', hstep, hb'⟩ := Option.map_eq_some_iff.mp h
    cases hb'
    exact .utterance hl hstep
  case case9 id t =>
    obtain ⟨b', hstep, hb'⟩ := Option.map_eq_some_iff.mp h
    cases hb'
    exact .micTurn hl hstep
  all_goals cases h
  -- it runs on
  case case1.refl | case3.refl | case10.refl | case12.refl =>
    exact .listen hl nofun nofun nofun (by rw [hpending]; rfl) rfl
  case case5.refl => exact .listen hl nofun nofun nofun rfl rfl
  -- an exception leaves the thread, or is handled
  case case2.refl | case11.refl => exact .listen hl nofun nofun nofun rfl rfl
  all_goals
    exact .listen hl nofun nofun (MicException.handled_free _) rfl (pending_handled _ _).symm

/-- **What a step of the process does.** -/
theorem step_cases (h : p.step libs e = some q) : Moves libs p e q := by
  cases e with
  | main runs =>
    simp only [step] at h
    revert h
    fun_cases p.stepMain runs <;> intro h <;> cases h
    case case1.refl hmain => exact .main nofun fun _ => hmain
    case case2.refl hmain => exact .start hmain
    all_goals exact .main nofun nofun
  | mic m =>
    simp only [step] at h
    split at h
    · cases h
    · obtain ⟨l, hl, h⟩ := Option.bind_eq_some_iff.mp h
      obtain ⟨⟨brain, l'⟩, hstep, rfl⟩ := Option.map_eq_some_iff.mp h
      exact moves_of_mic hl hstep
  | web w =>
    simp only [step] at h
    split at h
    · obtain ⟨⟨brain, web⟩, hstep, rfl⟩ := Option.map_eq_some_iff.mp h
      cases w with
      | request text =>
        simp only [WebServer.step] at hstep
        split at hstep
        · next hfree =>
          obtain ⟨b', hcall, hb'⟩ := Option.map_eq_some_iff.mp hstep
          cases hb'
          exact .request hfree hcall
        · cases hstep
      | unprinted =>
        simp only [WebServer.step] at hstep
        split at hstep
        · cases hstep
          exact .unprinted
        · cases hstep
      | turn t =>
        obtain ⟨id, hid, hstep⟩ := Option.bind_eq_some_iff.mp hstep
        obtain ⟨b', hturn, hb'⟩ := Option.map_eq_some_iff.mp hstep
        cases hb'
        exact .webTurn (.inl ⟨rfl, hid⟩) hturn
      | resume id t =>
        simp only [WebServer.step] at hstep
        split at hstep
        · next hfree =>
          obtain ⟨b', hturn, hb'⟩ := Option.map_eq_some_iff.mp hstep
          cases hb'
          exact .webTurn (.inr ⟨rfl, hfree⟩) hturn
        · cases hstep
    · cases h

end Step

/-! ## Each thread holds its busy call -/

theorem Listener.after_eq {id i : Nat} {c : Call} :
    Listener.after id (some c.phase) = .answering i ↔ i = id ∧ c.hasEnded = false := by
  unfold Call.hasEnded
  cases hphase : c.phase with
  | ended r => cases r <;> simp [Listener.after, MicException.handled]
  | _ => simp [Listener.after, eq_comm]

theorem WebServer.after_running {w : WebServer} {id i : Nat} {c : Call} :
    (w.after id (some c.phase)).running = some i ↔ i = id ∧ c.suspended = false := by
  unfold Call.suspended
  cases hphase : c.phase with
  | awaiting => simp [WebServer.after]
  | ended r => simp [WebServer.after]
  | _ => simp [WebServer.after, eq_comm]

/-- Each thread holds exactly its busy call. -/
structure Consistent (p : Process) : Prop where
  unstarted : p.mainThread = .printing ∨ p.mainThread = .starting → p.mic = none
  running : ∀ i, p.web.running = some i ↔ p.brain.Busy .web i
  answering : ∀ i, p.mic = some (.answering i) ↔ p.brain.Busy .mic i

section Consistent

variable {libs : Libs} {p q : Process} {e : ProcessEvent}

/-- A web call that takes a turn is the only one that may be busy. -/
theorem Consistent.webTurn (hp : p.Consistent) {w : WebEvent} {id : Nat} {t : Turn}
    (held : w = .turn t ∧ p.web.running = some id ∨ w = .resume id t ∧ p.web.running = none ∧
      (p.brain.calls[id]?).any (fun c => c.thread = .web) = true) :
    ∃ c, p.brain.calls[id]? = some c ∧ c.thread = .web ∧ ∀ i, p.brain.Busy .web i → i = id := by
  rcases held with ⟨-, hrunning⟩ | ⟨-, hfree, hweb⟩
  · obtain ⟨c, hc, hthread, -⟩ := (hp.running id).mp hrunning
    refine ⟨c, hc, hthread, fun i hi => ?_⟩
    cases hrunning.symm.trans ((hp.running i).mpr hi)
    rfl
  · obtain ⟨c, hc, hthread⟩ := (Option.any_eq_true _ _).mp hweb
    refine ⟨c, hc, of_decide_eq_true hthread, fun i hi => ?_⟩
    cases hfree.symm.trans ((hp.running i).mpr hi)

theorem step_consistent (hp : p.Consistent) (h : p.step libs e = some q) : q.Consistent := by
  cases step_cases h with
  | main printed started =>
    refine ⟨fun hmain => hp.unstarted (.inl ?_), hp.running, hp.answering⟩
    exact hmain.elim printed started
  | start before =>
    have hmic := hp.unstarted (.inr before)
    refine ⟨nofun, hp.running, fun i => ?_⟩
    rw [← hp.answering, hmic]
    exact iff_of_false nofun nofun
  | listen held free turnless still silent heard =>
    refine ⟨fun hmain => ?_, hp.running, fun i => ?_⟩
    · cases held.symm.trans (hp.unstarted hmain)
    · rw [← hp.answering, held, Option.some.injEq, Option.some.injEq]
      exact iff_of_false (still i) (free i)
  | unprinted => exact hp
  | request free hstep =>
    refine ⟨hp.unstarted, fun i => ?_, fun i => ?_⟩
    · rw [Brain.busy_of_call hstep, ← hp.running, free]
      simp [eq_comm]
    · rw [Brain.busy_of_call hstep, ← hp.answering]
      simp
  | utterance heard hstep =>
    refine ⟨fun hmain => ?_, fun i => ?_, fun i => ?_⟩
    · cases heard.symm.trans (hp.unstarted hmain)
    · rw [Brain.busy_of_call hstep, ← hp.running]
      simp
    · rw [Brain.busy_of_call hstep, ← hp.answering, heard]
      simp [eq_comm]
  | micTurn held hstep =>
    obtain ⟨c, hc, hthread, -⟩ := (hp.answering _).mp held
    obtain ⟨c', hphase, hthread', hself, hother⟩ := Brain.busy_of_only_turn hc (fun j hj => by
      rw [hthread, ← hp.answering, held] at hj
      simpa using hj.symm) hstep
    rw [hthread] at hself hother
    refine ⟨fun hmain => ?_, fun i => ?_, fun i => ?_⟩
    · cases held.symm.trans (hp.unstarted hmain)
    · rw [hother .web i nofun]
      exact hp.running i
    · rw [hself, Call.busy_mic (hthread'.trans hthread), hphase, Option.some.injEq,
        Listener.after_eq]
  | webTurn held hstep =>
    obtain ⟨c, hc, hthread, honly⟩ := hp.webTurn held
    obtain ⟨c', hphase, hthread', hself, hother⟩ :=
      Brain.busy_of_only_turn hc (hthread ▸ honly) hstep
    rw [hthread] at hself hother
    refine ⟨hp.unstarted, fun i => ?_, fun i => ?_⟩
    · rw [hself, Call.busy_web (hthread'.trans hthread), hphase, WebServer.after_running]
    · rw [hother .mic i nofun]
      exact hp.answering i

end Consistent

/-! ## Every command becomes a call -/

/-- A request is stripped before it is handed on. -/
theorem strip_of_mem_commands {pending : Option String} {es : List ProcessEvent} {text : String}
    (h : (Thread.web, text) ∈ commands pending es) : strip text = text := by
  induction es generalizing pending with
  | nil => cases h
  | cons e es ih =>
    rcases List.mem_append.mp h with hhere | hrest
    · rw [Option.mem_toList] at hhere
      revert hhere
      fun_cases commandOf pending e <;> intro hhere
      · cases hhere
        exact strip_strip _
      · obtain ⟨_, -, hpair⟩ := Option.map_eq_some_iff.mp hhere
        cases hpair
      · cases hhere
    · exact ih hrest

section Commands

variable {libs : Libs} {p q : Process} {es : List ProcessEvent}

theorem pending_after (p : Process) (id : Nat) (phase : Option Phase) :
    pending { p with mic := some (.after id phase) } = none := by
  unfold pending
  fun_cases Listener.after id phase <;> rfl

/-- A step hands at most one command to the brain, and it becomes the last call. -/
theorem step_commands (hp : p.Consistent) {e : ProcessEvent} (h : p.step libs e = some q) :
    q.pending = heardAfter p.pending e ∧
      q.brain.received = p.brain.received ++ (commandOf p.pending e).toList := by
  cases step_cases h with
  | main => exact ⟨rfl, (List.append_nil _).symm⟩
  | start before =>
    refine ⟨?_, (List.append_nil _).symm⟩
    show none = p.pending
    rw [pending, hp.unstarted (.inr before)]
  | listen held free turnless still silent heard =>
    rw [silent]
    exact ⟨heard.symm, (List.append_nil _).symm⟩
  | unprinted => exact ⟨rfl, (List.append_nil _).symm⟩
  | request free hstep => exact ⟨rfl, Brain.received_of_call hstep⟩
  | utterance heard hstep =>
    refine ⟨rfl, ?_⟩
    rw [pending, heard]
    exact Brain.received_of_call hstep
  | micTurn held hstep =>
    refine ⟨pending_after p _ _, ?_⟩
    rw [Brain.received_of_turn hstep]
    exact (List.append_nil _).symm
  | @webTurn w _ _ _ held hstep =>
    refine ⟨rfl, ?_⟩
    have hsilent : commandOf p.pending (.web w) = none := by
      rcases held with ⟨rfl, -⟩ | ⟨rfl, -⟩ <;> rfl
    rw [hsilent, Brain.received_of_turn hstep]
    exact (List.append_nil _).symm

theorem run_commands (hp : p.Consistent) (h : Trace.run (step libs) p es = some q) :
    q.brain.received = p.brain.received ++ commands p.pending es := by
  induction es generalizing p with
  | nil =>
    cases h
    exact (List.append_nil _).symm
  | cons e es ih =>
    obtain ⟨u, hu, hrun⟩ := Option.bind_eq_some_iff.mp h
    obtain ⟨hpending, hreceived⟩ := step_commands hp hu
    rw [ih (step_consistent hp hu) hrun, hpending, hreceived, List.append_assoc, commands]

end Commands

theorem consistent_start : Consistent {} where
  unstarted _ := rfl
  running _ := iff_of_false nofun fun ⟨_, hc, _⟩ => nomatch hc
  answering _ := iff_of_false nofun fun ⟨_, hc, _⟩ => nomatch hc

/-- **No command is lost.** In every run of the process the calls are the commands, each once and
in order: the requests, stripped, and the recognized texts that were printed. -/
theorem commands_conserved (libs : Libs) (es : List ProcessEvent) (p : Process)
    (hrun : Trace.run (step libs) {} es = some p) : p.brain.received = commands none es :=
  run_commands consistent_start hrun

/-- A request waits for the model while the microphone puts the robot to sleep, and is then
answered. -/
def twoThreads : List ProcessEvent :=
  [.main true, .main true, .mic .runs, .web (.request " walk forward\n"), .web (.turn .runs),
    .web (.turn .runs), .mic .runs, .mic (.recognizes "go to sleep"), .mic .runs,
    .mic (.turn .runs), .mic (.turn .runs), .mic (.turn (.replies [some sleepReply])),
    .mic (.turn .runs), .mic (.turn .runs), .mic (.turn .runs), .mic (.turn .runs),
    .web (.resume 0 (.replies [some walkReply])), .web (.turn .runs), .web (.turn .runs),
    .web (.turn .runs), .web (.turn .runs)]

/-- Both commands are calls. -/
theorem two_commands_received : ∃ p, Trace.run (step plainLibs) {} twoThreads = some p ∧
    p.brain.received = [(.web, "walk forward"), (.mic, "go to sleep")] := by
  obtain ⟨p, hrun⟩ := Option.isSome_iff_exists.mp
    (show (Trace.run (step plainLibs) {} twoThreads).isSome = true by decide +kernel)
  refine ⟨p, hrun, ?_⟩
  rw [commands_conserved plainLibs twoThreads p hrun]
  decide +kernel

/-! ## The threads refine the schedule -/

section Refine

variable {libs : Libs} {p q : Process} {es : List ProcessEvent}

/-- The turn that an event is, with the number of its call. -/
def turnOf (p : Process) : ProcessEvent → Option (Nat × Turn)
  | .mic (.turn t) =>
    match p.mic with
    | some (.answering id) => some (id, t)
    | _ => none
  | .web (.turn t) => p.web.running.map fun id => (id, t)
  | .web (.resume id t) => some (id, t)
  | _ => none

/-- A step of the threads leaves the brain alone or is a scheduled step of it, a turn if that is
one. -/
theorem step_scheduled (hp : p.Consistent) {e : ProcessEvent} (h : p.step libs e = some q) :
    q.brain = p.brain ∨ ∃ a, p.brain.scheduled libs a = some q.brain ∧
      ∀ id t, a = .turn id t → p.turnOf e = some (id, t) := by
  cases step_cases h with
  | main | start | listen | unprinted => exact .inl rfl
  | request free hstep =>
    have hidle : ∀ i, ¬ p.brain.Busy .web i := fun i hi => by
      cases free.symm.trans ((hp.running i).mpr hi)
    exact .inr ⟨_, Brain.scheduled_eq_some.mpr ⟨Brain.admits_call.mpr hidle, hstep⟩, nofun⟩
  | utterance heard hstep =>
    have hidle : ∀ i, ¬ p.brain.Busy .mic i := fun i hi => by
      cases heard.symm.trans ((hp.answering i).mpr hi)
    exact .inr ⟨_, Brain.scheduled_eq_some.mpr ⟨Brain.admits_call.mpr hidle, hstep⟩, nofun⟩
  | micTurn held hstep =>
    obtain ⟨c, hc, hthread, -⟩ := (hp.answering _).mp held
    have hmic : c.thread ≠ .web := fun hweb => by cases hthread.symm.trans hweb
    refine .inr ⟨_, Brain.scheduled_eq_some.mpr
      ⟨(Brain.admits_turn hc).mpr fun hweb => absurd hweb hmic, hstep⟩, fun id t hturn => ?_⟩
    cases hturn
    rw [turnOf, held]
  | webTurn held hstep =>
    obtain ⟨c, hc, -, honly⟩ := hp.webTurn held
    refine .inr ⟨_, Brain.scheduled_eq_some.mpr ⟨(Brain.admits_turn hc).mpr fun _ => honly, hstep⟩,
      fun id t hturn => ?_⟩
    cases hturn
    rcases held with ⟨rfl, hrunning⟩ | ⟨rfl, -⟩
    · rw [turnOf, hrunning, Option.map_some]
    · rfl

theorem run_consistent (hp : p.Consistent) (h : Trace.run (step libs) p es = some q) :
    q.Consistent :=
  Trace.invariant (I := Consistent) (fun _ _ _ hs ht => step_consistent hs ht) hp h

/-- A run of the threads is a scheduled run of the brain. -/
theorem run_scheduled (hp : p.Consistent) (h : Trace.run (step libs) p es = some q) :
    ∃ as, Trace.run (Brain.scheduled libs) p.brain as = some q.brain := by
  obtain ⟨as, has, -⟩ := Trace.exists_image (g := brain)
    (fun _ _ _ hs ht => step_consistent hs ht) (fun _ _ _ hs ht => step_scheduled hs ht) hp h
  exact ⟨as, has⟩

/-- The threads are up, and the microphone thread listens or is in a call. -/
structure Ready (p : Process) : Prop where
  consistent : p.Consistent
  serving : p.mainThread = .serving
  mic : p.mic = some .listening ∨ ∃ i, p.mic = some (.answering i)

theorem step_mic (hmain : p.mainThread = .serving) {l l' : Listener} {m : MicEvent} {brain : Brain}
    (hl : p.mic = some l) (h : micListenLoop libs p.brain l m = some (brain, l')) :
    p.step libs (.mic m) = some { p with brain, mic := some l' } := by
  simp only [step, hmain, reduceCtorEq, if_false, hl, Option.bind_some, h, Option.map_some]

theorem step_web (hmain : p.mainThread = .serving) {w : WebEvent} {brain : Brain} {web : WebServer}
    (h : p.web.step libs p.brain w = some (brain, web)) :
    p.step libs (.web w) = some { p with brain, web } := by
  simp only [step, hmain, if_true, h, Option.map_some]

/-- After the last handler the thread listens again. -/
theorem run_glitched (hmain : p.mainThread = .serving) {e : String}
    (h : p.mic = some (.glitched e)) :
    Trace.run (step libs) p [.mic .runs, .mic .runs] = some { p with mic := some .listening } := by
  have hslept : step libs { p with mic := some .sleeping } (.mic .runs) =
      some { p with mic := some .listening } :=
    step_mic (p := { p with mic := some .sleeping }) hmain rfl rfl
  rw [Trace.run_cons, step_mic hmain h rfl, Option.bind_some, Trace.run_single]
  exact hslept

/-- The listening thread can hear a text and start its call. -/
theorem run_listening (hmain : p.mainThread = .serving) (h : p.mic = some .listening)
    {text : String} {brain : Brain} (hcall : p.brain.step libs (.call .mic text) = some brain) :
    Trace.run (step libs) p [.mic .runs, .mic (.recognizes text), .mic .runs] =
      some { p with brain, mic := some (.answering p.brain.calls.length) } := by
  have hheard : step libs { p with mic := some .recognizing } (.mic (.recognizes text)) =
      some { p with mic := some (.heard text) } :=
    step_mic (p := { p with mic := some .recognizing }) hmain rfl rfl
  have hprinted : step libs { p with mic := some (.heard text) } (.mic .runs) =
      some { p with brain, mic := some (.answering p.brain.calls.length) } := by
    refine step_mic (p := { p with mic := some (.heard text) }) hmain rfl ?_
    rw [micListenLoop, hcall, Option.map_some]
  rw [Trace.run_cons, step_mic hmain h rfl, Option.bind_some, Trace.run_cons]
  exact (congrArg (Option.bind · _) hheard).trans (Trace.run_single.trans hprinted)

/-- The thread in a call can let it take its turn, and listens again if it has ended. -/
theorem run_answering (hmain : p.mainThread = .serving) {id : Nat}
    (h : p.mic = some (.answering id)) {turn : Turn} {brain : Brain}
    (hturn : p.brain.step libs (.turn id turn) = some brain) :
    ∃ es l, Trace.run (step libs) p es = some { p with brain, mic := some l } ∧
      (l = .listening ∨ l = .answering id) := by
  have hstep : step libs p (.mic (.turn turn)) =
      some { p with brain, mic := some (.after id (brain.phase? id)) } := by
    refine step_mic hmain h ?_
    rw [micListenLoop, hturn, Option.map_some]
  cases hafter : Listener.after id (brain.phase? id) with
  | glitched e =>
    refine ⟨[.mic (.turn turn), .mic .runs, .mic .runs], .listening, ?_, .inl rfl⟩
    rw [Trace.run_cons, hstep, Option.bind_some]
    exact run_glitched (p := { p with brain, mic := some _ }) hmain (congrArg some hafter)
  | listening =>
    exact ⟨_, _, Trace.run_single.trans hstep, .inl hafter⟩
  | answering i =>
    refine ⟨_, _, Trace.run_single.trans hstep, .inr ?_⟩
    revert hafter
    fun_cases Listener.after id (brain.phase? id) <;> intro hafter
    · cases hafter
    · cases hafter
    · rfl
  | _ =>
    revert hafter
    fun_cases Listener.after id (brain.phase? id) <;> intro hafter <;> cases hafter

/-- The threads can do every scheduled step, and be ready again. -/
theorem Ready.follows (hp : p.Ready) {a : BrainAction} {t : Brain}
    (h : p.brain.scheduled libs a = some t)
    (hstripped : ∀ text, a = .call .web text → strip text = text) :
    ∃ es q, Trace.run (step libs) p es = some q ∧ q.brain = t ∧ q.Ready := by
  obtain ⟨hadmits, hstep⟩ := Brain.scheduled_eq_some.mp h
  have hcons : ∀ {es q}, Trace.run (step libs) p es = some q → q.Consistent :=
    run_consistent hp.consistent
  cases a with
  | call thread text =>
    have hnone := Brain.admits_call.mp hadmits
    cases thread with
    | web =>
      have hfree : p.web.running = none := by
        cases hrunning : p.web.running with
        | none => rfl
        | some i => exact absurd ((hp.consistent.running i).mp hrunning) (hnone i)
      have hrequest := Trace.run_single.trans (step_web hp.serving (w := .request text) (by
        rw [WebServer.step, if_pos hfree, hstripped text rfl, hstep, Option.map_some]))
      exact ⟨_, _, hrequest, rfl, hcons hrequest, hp.serving, hp.mic⟩
    | mic =>
      have hlistening : p.mic = some .listening := by
        refine hp.mic.resolve_right ?_
        rintro ⟨i, hi⟩
        exact hnone i ((hp.consistent.answering i).mp hi)
      have hheard := run_listening hp.serving hlistening hstep
      exact ⟨_, _, hheard, rfl, hcons hheard, hp.serving, .inr ⟨_, rfl⟩⟩
  | turn id turn =>
    obtain ⟨c, hc, hsome⟩ := Option.bind_eq_some_iff.mp hstep
    have hended : c.hasEnded = false := by
      by_contra hended
      rw [turn_of_ended (Bool.not_eq_false _ ▸ hended)] at hsome
      cases hsome
    cases hthread : c.thread with
    | mic =>
      have hbusy : p.brain.Busy .mic id := ⟨c, hc, hthread, (Call.busy_mic hthread).mpr hended⟩
      obtain ⟨es, l, hrun, hl⟩ :=
        run_answering hp.serving ((hp.consistent.answering id).mpr hbusy) hstep
      refine ⟨es, _, hrun, rfl, hcons hrun, hp.serving, ?_⟩
      exact hl.imp (congrArg some) fun h => ⟨id, congrArg some h⟩
    | web =>
      have honly := (Brain.admits_turn hc).mp hadmits hthread
      have hturn : ∃ w, p.web.step libs p.brain w =
          some (t, p.web.after id (t.phase? id)) := by
        cases hbusy : c.suspended with
        | false =>
          have hrunning := (hp.consistent.running id).mpr
            ⟨c, hc, hthread, (Call.busy_web hthread).mpr hbusy⟩
          refine ⟨.turn turn, ?_⟩
          rw [WebServer.step, hrunning, Option.bind_some, hstep, Option.map_some]
        | true =>
          -- the call that waits is the only one that may be busy, so none has the loop
          have hfree : p.web.running = none := by
            cases hrunning : p.web.running with
            | none => rfl
            | some i =>
              have hi := (hp.consistent.running i).mp hrunning
              obtain rfl := honly i hi
              obtain ⟨c₁, hc₁, -, hb⟩ := hi
              cases hc.symm.trans hc₁
              rw [Call.busy_web hthread, hbusy] at hb
              cases hb
          have hweb : (p.brain.calls[id]?).any (fun c => c.thread = .web) = true := by
            rw [hc, Option.any_some, hthread]
            rfl
          refine ⟨.resume id turn, ?_⟩
          rw [WebServer.step, if_pos ⟨hfree, hweb⟩, hstep, Option.map_some]
      obtain ⟨w, hw⟩ := hturn
      have hrun := Trace.run_single.trans (step_web hp.serving hw)
      exact ⟨_, _, hrun, rfl, hcons hrun, hp.serving, hp.mic⟩

/-- Every scheduled run of the brain with stripped requests is one of the threads. -/
theorem exists_ready {as : List BrainAction} {b : Brain}
    (h : Trace.run (Brain.scheduled libs) {} as = some b)
    (hstripped : ∀ text, (Thread.web, text) ∈ b.received → strip text = text) :
    ∃ es p, Trace.run (step libs) {} es = some p ∧ p.brain = b ∧ p.Ready := by
  refine Trace.history
    (I := fun _ b => (∀ text, (Thread.web, text) ∈ b.received → strip text = text) →
      ∃ es p, Trace.run (step libs) {} es = some p ∧ p.brain = b ∧ p.Ready)
    (fun _ => ?_) (fun as a b t _ ht ih hall => ?_) h hstripped
  · -- first the threads come up
    have hup : Trace.run (step libs) {} [.main true, .main true, .mic .runs] =
        some { mainThread := .serving, mic := some .listening } := rfl
    exact ⟨_, _, hup, rfl, run_consistent consistent_start hup, rfl, .inl rfl⟩
  · obtain ⟨-, hstep⟩ := Brain.scheduled_eq_some.mp ht
    have hkept := Brain.received_prefix hstep
    obtain ⟨es, p, hrun, rfl, hready⟩ := ih fun text htext => hall text (hkept.mem htext)
    have hhere : ∀ text, a = .call .web text → strip text = text := by
      rintro text rfl
      refine hall text ?_
      rw [Brain.received_of_call hstep]
      exact List.mem_append_right _ List.mem_cons_self
    obtain ⟨es', q, hmore, hq, hready'⟩ := hready.follows ht hhere
    exact ⟨es ++ es', q, Trace.run_append_eq_some.mpr ⟨p, hrun, hmore⟩, hq, hready'⟩

end Refine

/-- **The threads are the schedule.** What the brain can be in a run of the threads is what it can
be in a scheduled run in which the texts of the web calls are stripped. -/
theorem threads_exact (libs : Libs) (b : Brain) :
    (∃ es p, Trace.run (step libs) {} es = some p ∧ p.brain = b) ↔
      ∃ as, Trace.run (Brain.scheduled libs) {} as = some b ∧
        ∀ text, (Thread.web, text) ∈ b.received → strip text = text := by
  constructor
  · rintro ⟨es, p, hrun, rfl⟩
    obtain ⟨as, has⟩ := run_scheduled consistent_start hrun
    refine ⟨as, has, fun text htext => ?_⟩
    rw [run_commands consistent_start hrun] at htext
    exact strip_of_mem_commands htext
  · rintro ⟨as, has, hstripped⟩
    obtain ⟨es, p, hrun, hbrain, -⟩ := exists_ready has hstripped
    exact ⟨es, p, hrun, hbrain⟩

end Process

end SvanVoice
