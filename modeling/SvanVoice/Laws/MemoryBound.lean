import SvanVoice.Laws.Loops
import SvanVoice.Laws.Memory

/-!
# How far the command memory can drift

`memory_is_window` has a condition on the run. This module has none but the threads themselves:
whatever the interleaving, at most two calls are between their append and the end of their update,
one of each thread (`run_oneEach`). So two writers share the memory, and it is held by them
(`SlidingWindow.Window.step_held`). A call that builds its prompt is a reader among them: it goes
over the list by index while they append and pop (`SlidingWindow.Window.Read`).

`memory_bounded` is what the prompt can rely on. The memory is always the end of the log of appended
entries, never longer than seven, and between the updates it has at most five entries and lacks at
most one of the last five. A prompt has entries of the log in their order; that it may miss one in
the middle is `second_entry_missed`.
-/

set_option autoImplicit false

namespace SvanVoice

open SlidingWindow

/-! ## Lists -/

section Lists

variable {α β : Type}

/-- A property that at most one place has is counted at most once. -/
theorem countP_le_one {p : α → Bool} {l : List α}
    (h : ∀ (i j : Nat) (a b : α), l[i]? = some a → l[j]? = some b → p a = true → p b = true →
      i = j) :
    l.countP p ≤ 1 := by
  induction l with
  | nil => exact Nat.zero_le _
  | cons x l ih =>
    have hrest : l.countP p ≤ 1 := ih fun i j a b ha hb hpa hpb =>
      Nat.succ.inj (h (i + 1) (j + 1) a b ha hb hpa hpb)
    rw [List.countP_cons]
    split
    · next hx =>
      -- the first place has it, so no later one does
      have hnone : l.countP p = 0 := by
        refine List.countP_eq_zero.mpr fun a ha hpa => ?_
        obtain ⟨j, hj⟩ := List.getElem?_of_mem ha
        cases h 0 (j + 1) x a rfl hj hx hpa
      rw [hnone]
    · exact hrest

/-- A list around one of its places, before and after that place is set. -/
theorem exists_around {l : List α} {i : Nat} {a : α} (a' : α) (ha : l[i]? = some a) :
    ∃ pre post, l = pre ++ a :: post ∧ l.set i a' = pre ++ a' :: post := by
  obtain ⟨hi, ha⟩ := List.getElem?_eq_some_iff.mp ha
  obtain ⟨pre, post, hsplit, -, hset⟩ :
      ∃ pre post, l = pre ++ l[i] :: post ∧ pre.length = i ∧ l.set i a' = pre ++ a' :: post :=
    List.exists_of_set hi
  exact ⟨pre, post, ha ▸ hsplit, hset⟩

/-- Setting one place to what gains an entry adds the entry, at some place. -/
theorem filterMap_set_gains {f : α → Option β} {l : List α} {i : Nat} {a a' : α} {e : β}
    (ha : l[i]? = some a) (hnone : f a = none) (hsome : f a' = some e) :
    ((l.set i a').filterMap f).Perm (l.filterMap f ++ [e]) := by
  obtain ⟨pre, post, hsplit, hset⟩ := exists_around a' ha
  rw [hset, hsplit]
  simp only [List.filterMap_append, List.filterMap_cons, hnone, hsome]
  exact List.perm_middle.trans (List.perm_append_singleton _ _).symm

theorem filterMap_set_same {f : α → Option β} {l : List α} {i : Nat} {a a' : α}
    (ha : l[i]? = some a) (hsame : f a' = f a) : (l.set i a').filterMap f = l.filterMap f := by
  obtain ⟨pre, post, hsplit, hset⟩ := exists_around a' ha
  rw [hset, hsplit]
  simp only [List.filterMap_append, List.filterMap_cons, hsame]

theorem countP_add_le {p q r s : α → Bool} {l : List α}
    (h : ∀ a, (if p a then 1 else 0) + (if q a then 1 else 0) ≤
      (if r a then 1 else 0) + (if s a then 1 else 0)) :
    l.countP p + l.countP q ≤ l.countP r + l.countP s := by
  induction l with
  | nil => exact Nat.le_refl _
  | cons a l ih =>
    have ha := h a
    simp only [List.countP_cons]
    omega

end Lists

/-! ## Calls -/

/-- A call of the thread between its append and the end of its update. -/
def Call.shortens (thread : Thread) (c : Call) : Bool :=
  decide (c.thread = thread) && (c.untested || c.popping)

theorem Call.shortens_split (c : Call) :
    (if c.untested then 1 else 0) + (if c.popping then 1 else 0) ≤
      (if c.shortens .web then 1 else 0) + (if c.shortens .mic then 1 else 0) := by
  have hnot : ¬ (c.untested = true ∧ c.popping = true) := by
    unfold untested popping
    cases c.phase <;> simp
  cases hthread : c.thread <;> cases hu : c.untested <;> cases hp : c.popping <;>
    simp_all [shortens]

/-- The history it has read is no part of what a call does to the memory. -/
theorem Call.update_blind (c : Call) : c.blind.untested = c.untested ∧
    c.blind.popping = c.popping ∧ c.blind.recorded = c.recorded := by
  obtain ⟨thread, text, prompt, phase⟩ := c
  cases phase <;> exact ⟨rfl, rfl, rfl⟩

/-! ## One call of each thread -/

namespace Brain

variable {libs : Libs} {b t : Brain}

/-- On each thread at most one call is busy. -/
def OneEach (b : Brain) : Prop := ∀ thread i j, b.Busy thread i → b.Busy thread j → i = j

theorem scheduled_oneEach {a : BrainAction} (h : b.scheduled libs a = some t) (hb : b.OneEach) :
    t.OneEach := by
  obtain ⟨hadmits, hstep⟩ := scheduled_eq_some.mp h
  intro thread i j hi hj
  cases a with
  | call starter text =>
    rw [busy_of_call hstep] at hi hj
    have hnone := admits_call.mp hadmits
    rcases hi with hi | ⟨rfl, rfl⟩
    · rcases hj with hj | ⟨rfl, rfl⟩
      · exact hb thread i j hi hj
      · exact absurd hi (hnone i)
    · rcases hj with hj | ⟨-, rfl⟩
      · exact absurd hj (hnone j)
      · rfl
  | turn id turn =>
    obtain ⟨c, hc, hsome⟩ := Option.bind_eq_some_iff.mp hstep
    obtain ⟨c', -, -, hbusy⟩ := busy_of_turn hc hstep
    cases hown : decide (c.thread = .web ∧ thread = .web) with
    | true =>
      -- the web call that takes a turn is the only one that may be busy
      obtain ⟨hweb, rfl⟩ := of_decide_eq_true hown
      have honly : ∀ k, t.Busy .web k → k = id := fun k hk => by
        by_contra hne
        exact hne ((admits_turn hc).mp hadmits hweb k (((hbusy .web k).2 hne).mp hk))
      rw [honly i hi, honly j hj]
    | false =>
      have hkept : ∀ k, t.Busy thread k → b.Busy thread k := fun k hk => by
        by_cases hk' : k = id
        · subst hk'
          obtain ⟨rfl, -⟩ := ((hbusy thread k).1 rfl).mp hk
          cases hth : c.thread with
          | web => simp only [hth, and_self, decide_true, Bool.true_eq_false] at hown
          | mic =>
            refine ⟨c, hc, hth, (Call.busy_mic hth).mpr ?_⟩
            by_contra hended
            rw [turn_of_ended (Bool.not_eq_false _ ▸ hended)] at hsome
            cases hsome
        · exact ((hbusy thread k).2 hk').mp hk
      exact hb thread i j (hkept i hi) (hkept j hj)

/-- Such a call is busy. -/
theorem busy_of_shortens {thread : Thread} {c : Call} {i : Nat} (h : c.shortens thread = true)
    (hc : b.calls[i]? = some c) : b.Busy thread i := by
  obtain ⟨hthread, hupdates⟩ := Bool.and_eq_true_iff.mp h
  refine ⟨c, hc, of_decide_eq_true hthread, ?_⟩
  have hgoing : c.suspended = false ∧ c.hasEnded = false := by
    cases hphase : c.phase <;>
      simp [Call.untested, Call.popping, hphase] at hupdates <;>
      simp [Call.suspended, Call.hasEnded, hphase]
  cases hth : c.thread with
  | web => exact (Call.busy_web hth).mpr hgoing.1
  | mic => exact (Call.busy_mic hth).mpr hgoing.2

theorem run_oneEach {as : List BrainAction} (h : Trace.run (scheduled libs) {} as = some b) :
    b.OneEach := by
  have hstart : OneEach {} := fun _ _ _ hi => by
    obtain ⟨c, hc, -⟩ := hi
    cases hc
  exact Trace.invariant (fun _ _ _ hs ht => scheduled_oneEach ht hs) hstart h

/-- On each thread at most one call is between its append and the end of its update. -/
theorem OneEach.shortens (hb : b.OneEach) (thread : Thread) :
    b.calls.countP (Call.shortens thread) ≤ 1 :=
  countP_le_one fun i j _ _ hi hj hpi hpj =>
    hb thread i j (busy_of_shortens hpi hi) (busy_of_shortens hpj hj)

theorem writers_le (b : Brain) : b.calls.countP Call.untested + b.calls.countP Call.popping ≤
    b.calls.countP (Call.shortens .web) + b.calls.countP (Call.shortens .mic) :=
  countP_add_le fun c => Call.shortens_split c

/-- At most two calls are between their append and the end of their update. -/
theorem OneEach.writers (hb : b.OneEach) :
    b.calls.countP Call.untested + b.calls.countP Call.popping ≤ 2 :=
  b.writers_le.trans (Nat.add_le_add (hb.shortens .web) (hb.shortens .mic))

/-- While a call keeps its thread with something else, at most one is. -/
theorem OneEach.writers_of_busy (hb : b.OneEach) {i : Nat} {c : Call} (hc : b.calls[i]? = some c)
    (hbusy : c.busy = true) (helse : c.untested = false ∧ c.popping = false) :
    b.calls.countP Call.untested + b.calls.countP Call.popping ≤ 1 := by
  have hnone : b.calls.countP (Call.shortens c.thread) = 0 := by
    refine List.countP_eq_zero.mpr fun c' hmem hshortens => ?_
    obtain ⟨j, hj⟩ := List.getElem?_of_mem hmem
    obtain rfl := hb c.thread i j ⟨c, hc, rfl, hbusy⟩ (busy_of_shortens hshortens hj)
    cases hc.symm.trans hj
    simp [Call.shortens, helse.1, helse.2] at hshortens
  have hsplit := b.writers_le
  have hweb := hb.shortens .web
  have hmic := hb.shortens .mic
  cases hthread : c.thread with
  | web =>
    rw [hthread] at hnone
    omega
  | mic =>
    rw [hthread] at hnone
    omega

/-! ## The log of the appends -/

/-- The calls have the entries of the log, and each step's. -/
theorem step_recorded {a : BrainAction} (h : b.step libs a = some t) :
    (t.calls.filterMap Call.recorded).Perm
      (b.calls.filterMap Call.recorded ++ (b.appending a).toList) := by
  rcases step_cases h with ⟨thread, text, rfl, hglobals, hcalls⟩ |
    ⟨id, turn, c, c', rfl, hc, hturn, hcalls⟩
  · rw [hcalls, List.filterMap_append]
    rfl
  rw [hcalls]
  cases turn_memoryMove hturn with
  | commit ns before after commits memory =>
    have hsilent : c'.recorded = none := by rw [Call.recorded, after]
    have hsame : c'.recorded = c.recorded := by rw [hsilent, Call.recorded, before]
    rw [appending_of_silent hc hturn (.inr hsilent), filterMap_set_same hc hsame]
    exact .of_eq (List.append_nil _).symm
  | append ns now before after commits memory =>
    have happended : b.appending (.turn id turn) = some ⟨c'.text, ns⟩ := by
      rw [now, appending, hc, Option.bind_some, before, turn_text hturn]
    rw [happended]
    exact filterMap_set_gains hc (by rw [Call.recorded, before]) (by rw [Call.recorded, after])
  | test ns now before after text same =>
    have hsame : c'.recorded = c.recorded := by
      split at after
      · simp only [Call.recorded, after, before, text]
      · simp only [Call.recorded, after, before, text]
    rw [appending_of_silent hc hturn (.inl (by rw [Call.waiting, before])),
      filterMap_set_same hc hsame]
    exact .of_eq (List.append_nil _).symm
  | pop ns before after text commits memory =>
    have hsame : c'.recorded = c.recorded := by simp only [Call.recorded, after, before, text]
    rw [appending_of_silent hc hturn (.inl (by rw [Call.waiting, before])),
      filterMap_set_same hc hsame]
    exact .of_eq (List.append_nil _).symm
  | none silent silent' idle late commits memory =>
    rw [appending_of_silent hc hturn (.inr silent'),
      filterMap_set_same hc (silent'.trans silent.symm)]
    exact .of_eq (List.append_nil _).symm

/-- Between the updates no writer is at work, and the calls have appended what has succeeded. -/
theorem quiet_window (log : List MemoryEntry) (h : ∀ c ∈ b.calls, c.updating = false) :
    (b.windowOf log).untested = 0 ∧ (b.windowOf log).popping = 0 ∧
      b.calls.filterMap Call.recorded = b.calls.filterMap Call.succeeded := by
  have hnot : ∀ c ∈ b.calls, c.untested = false ∧ c.popping = false := fun c hc => by
    have hupdating := h c hc
    simp only [Call.updating, Bool.or_eq_false_iff] at hupdating
    exact ⟨hupdating.1.2, hupdating.2⟩
  refine ⟨?_, ?_, List.filterMap_congr fun c hc => Call.recorded_eq_succeeded (h c hc)⟩
  · exact List.countP_eq_zero.mpr fun c hc hu => Bool.false_ne_true ((hnot c hc).1.symm.trans hu)
  · exact List.countP_eq_zero.mpr fun c hc hp => Bool.false_ne_true ((hnot c hc).2.symm.trans hp)

/-- The histories are no part of the window and of the log. -/
theorem windowOf_blind (b : Brain) (log : List MemoryEntry) :
    b.blind.windowOf log = b.windowOf log := by
  have hcount : ∀ p : Call → Bool, (∀ c : Call, p c.blind = p c) →
      b.blind.calls.countP p = b.calls.countP p := fun p hp => by
    rw [blind, List.countP_map]
    exact congrArg (fun q => b.calls.countP q) (funext hp)
  exact Window.ext rfl rfl (hcount _ fun c => c.update_blind.1)
    (hcount _ fun c => c.update_blind.2.1)

theorem recorded_blind (b : Brain) :
    b.blind.calls.filterMap Call.recorded = b.calls.filterMap Call.recorded := by
  rw [blind, List.filterMap_map]
  exact List.filterMap_congr fun c _ => c.update_blind.2.2

end Brain

/-! ## The history as it is read -/

/-- What a call has read of the memory, whose log the window has: the entries up to its index, in
the loop, and a short part of the log, for its prompt and in it. -/
structure FineCall.Shows (w : Window MemoryEntry) (c : FineCall) : Prop where
  reading : ∀ shown index, c.phase = .reading shown index →
    w.Read shown index ∧ index ≤ memoryLimit + 1
  read : ∀ history, c.phase = .stands (.remembered history) →
    history.Sublist w.entries ∧ history.length ≤ memoryLimit + 1
  shown : ∀ prompt, c.prompt = some prompt →
    prompt.history.Sublist w.entries ∧ prompt.history.length ≤ memoryLimit + 1

/-- What was read stays in order when the log grows and entries are popped. -/
theorem FineCall.Shows.mono {w w' : Window MemoryEntry} {c : FineCall} (h : c.Shows w)
    (hentries : w.entries <+: w'.entries) (hdropped : w.dropped ≤ w'.dropped) : c.Shows w' where
  reading := fun shown index hphase =>
    (h.reading shown index hphase).imp_left fun hread => hread.mono hentries hdropped
  read := fun history hphase =>
    (h.read history hphase).imp_left fun hsub => hsub.trans hentries.sublist
  shown := fun prompt hprompt =>
    (h.shown prompt hprompt).imp_left fun hsub => hsub.trans hentries.sublist

section Turn

variable {libs : Libs} {g g' : Globals} {id : Nat}

/-- A call reads the history at its first statement, and its prompt shows the history it has
read. -/
theorem turn_history {c c' : Call} {t : Turn}
    (h : processTextCommand libs g id c t = some (g', c')) :
    (∀ history, c'.phase = .remembered history → t = .runs ∧ c.phase = .entered) ∧
      ∀ prompt, c'.prompt = some prompt →
        c.prompt = some prompt ∨ c.phase = .remembered prompt.history := by
  revert h
  fun_cases processTextCommand libs g id c t <;> intro h <;> cases h
  case case1.refl hphase => exact ⟨fun _ _ => ⟨rfl, hphase⟩, fun _ hprompt => .inl hprompt⟩
  case case2.refl history hphase prompt =>
    refine ⟨fun _ hread => (by cases hread), fun p hp => .inr ?_⟩
    rw [hphase, ← Option.some.inj hp]
  all_goals exact ⟨fun _ hread => (by cases hread), fun _ hprompt => .inl hprompt⟩

/-- A call that holds a history stands at its prompt. -/
theorem FineCall.stands_of_remembered {c : FineCall} {history : List MemoryEntry}
    (h : c.call.phase = .remembered history) : c.phase = .stands (.remembered history) := by
  cases hphase : c.phase with
  | stands phase =>
    rw [FineCall.phase_call hphase] at h
    exact congrArg FinePhase.stands h
  | _ =>
    rw [FineCall.phase_call hphase] at h
    cases h

/-- A turn outside the loops reads nothing. -/
theorem FineCall.Shows.turned {w : Window MemoryEntry} {c : FineCall} {d : Call} {t : Turn}
    (hc : c.Shows w) (h : processTextCommand libs g id c.call t = some (g', d))
    (hstarted : t = .runs → c.call.phase ≠ .entered) : d.fine.Shows w := by
  obtain ⟨hread, hshown⟩ := turn_history h
  refine ⟨fun _ _ hphase => (by cases hphase), fun history hphase => ?_, fun prompt hprompt => ?_⟩
  · obtain ⟨hruns, hentered⟩ := hread history (FinePhase.stands.inj hphase)
    exact absurd hentered (hstarted hruns)
  · rcases hshown prompt hprompt with hsame | hheld
    · exact hc.shown prompt hsame
    · exact hc.read prompt.history (FineCall.stands_of_remembered hheld)

/-- **A turn reads the memory as it is**, one entry at a time. -/
theorem turn_shows_fine {w : Window MemoryEntry} {c c' : FineCall} {t : FineTurn}
    (h : processTextCommandFine libs g id c t = some (g', c'))
    (hmemory : w.memory = g.commandMemory)
    (hsuffix : w.memory <:+ w.entries)
    (hshort : ∀ shown index, c.phase = .reading shown index → w.memory.length ≤ memoryLimit + 1)
    (hc : c.Shows w) : c'.Shows w := by
  revert h
  fun_cases processTextCommandFine libs g id c t <;> intro h
  case case1 =>
    -- the memory is empty
    cases h
    refine ⟨fun _ _ hphase => (by cases hphase), fun history hphase => ?_, hc.shown⟩
    cases hphase
    exact ⟨List.nil_sublist _, Nat.zero_le _⟩
  case case2 =>
    cases h
    refine ⟨fun shown index hphase => ?_, fun _ hphase => (by cases hphase), hc.shown⟩
    cases hphase
    exact ⟨w.read_start, Nat.zero_le _⟩
  case case3 shown index hphase entry hentry =>
    cases h
    refine ⟨fun _ _ hphase' => ?_, fun _ hphase' => (by cases hphase'), hc.shown⟩
    cases hphase'
    rw [← hmemory] at hentry
    have hindex := (List.getElem?_eq_some_iff.mp hentry).1
    have hlength := hshort shown index hphase
    exact ⟨(hc.reading shown index hphase).1.next hsuffix hentry, by omega⟩
  case case4 shown index hphase hend =>
    cases h
    refine ⟨fun _ _ hphase' => (by cases hphase'), fun history hphase' => ?_, hc.shown⟩
    cases hphase'
    obtain ⟨hread, hindex⟩ := hc.reading shown index hphase
    exact ⟨hread.sublist, hread.counted ▸ hindex⟩
  case case6 phase hnot hphase =>
    obtain ⟨⟨g₁, d⟩, hd, hfine⟩ := Option.map_eq_some_iff.mp h
    cases hfine
    exact hc.turned hd fun _ hentered => hnot ((FineCall.phase_call hphase).symm.trans hentered)
  case case13 e =>
    obtain ⟨⟨g₁, d⟩, hd, hfine⟩ := Option.map_eq_some_iff.mp h
    cases hfine
    exact hc.turned hd fun hruns => by cases hruns
  case case7 | case9 | case11 =>
    -- the request and its chunks
    cases h
    exact ⟨fun _ _ hphase => (by cases hphase), fun _ hphase => (by cases hphase), hc.shown⟩
  all_goals cases h

end Turn

/-! ## The runs of the threads -/

namespace FineBrain

/-- The entry that a step appends to the memory. -/
def appending (b : FineBrain) : FineAction → Option MemoryEntry
  | .turn id .runs => b.brain.appending (.turn id .runs)
  | _ => none

/-- The entries that a run appends, in order. -/
def appends (libs : Libs) (as : List FineAction) : List MemoryEntry :=
  Trace.outputs (scheduled libs) appending {} as

variable {libs : Libs} {b t : FineBrain} {a : FineAction} {as : List FineAction}

theorem appends_snoc (h : Trace.run (scheduled libs) {} as = some b) (a : FineAction) :
    appends libs (as ++ [a]) = appends libs as ++ (b.appending a).toList := Trace.outputs_snoc h

/-- What a step appends, it appends with the loops closed. -/
theorem appending_closed {ca : BrainAction} (h : a.Closed ca) :
    b.appending a = b.brain.appending ca := by
  cases h <;> rfl

/-- Nothing is appended inside a loop. -/
theorem appending_inside {id : Nat} {turn : FineTurn} {c : FineCall} (hc : b.calls[id]? = some c)
    (h : c.call.phase = .entered ∨ c.call.phase = .awaiting) :
    b.appending (.turn id turn) = none := by
  cases turn with
  | runs =>
    rw [appending, Brain.appending, getElem?_brain hc, Option.bind_some]
    rcases h with h | h <;> rw [h]
  | _ => rfl

/-- **The threads are writers of a window**, and their calls have the entries of its log. -/
theorem scheduled_windowOf (h : b.scheduled libs a = some t) (log : List MemoryEntry) :
    (t.brain.windowOf (log ++ (b.appending a).toList) = b.brain.windowOf log ∨
        ∃ op, (b.brain.windowOf log).step memoryLimit op =
          some (t.brain.windowOf (log ++ (b.appending a).toList))) ∧
      (t.brain.calls.filterMap Call.recorded).Perm
        (b.brain.calls.filterMap Call.recorded ++ (b.appending a).toList) := by
  rcases scheduled_brain h with ⟨hsame, id, turn, c, rfl, hc, hinside⟩ |
    ⟨ca, d, hclosed, hd, hblind⟩
  · rw [appending_inside hc hinside, hsame, Option.toList_none, List.append_nil, List.append_nil]
    exact ⟨.inl rfl, List.Perm.refl _⟩
  · have hstep := (Brain.scheduled_eq_some.mp hd).2
    rw [appending_closed hclosed, ← Brain.windowOf_blind t.brain, ← Brain.recorded_blind t.brain,
      ← hblind, Brain.windowOf_blind, Brain.recorded_blind]
    refine ⟨(Brain.step_windowOf hstep log).imp_right ?_, Brain.step_recorded hstep⟩
    rintro ⟨op, hop, -⟩
    exact ⟨op, hop⟩

/-- On each thread at most one call is busy. -/
theorem run_oneEach (h : Trace.run (scheduled libs) {} as = some b) : b.brain.OneEach := by
  obtain ⟨_, _, d, -, -, hd, hblind⟩ := run_brain h
  have hbusy : ∀ {thread i}, b.brain.Busy thread i → d.Busy thread i := fun hi =>
    Brain.busy_blind.mp (hblind ▸ Brain.busy_blind.mpr hi)
  exact fun thread i j hi hj => Brain.run_oneEach hd thread i j (hbusy hi) (hbusy hj)

/-- **What holds in every run**: two writers hold the memory, the calls have the entries of the
log, and what they have read are parts of it. -/
structure Remembers (libs : Libs) (as : List FineAction) (b : FineBrain) : Prop where
  held : (b.brain.windowOf (appends libs as)).Held memoryLimit 2
  logged : (b.brain.calls.filterMap Call.recorded).Perm (appends libs as)
  shown : ∀ c ∈ b.calls, c.Shows (b.brain.windowOf (appends libs as))

theorem Remembers.short (hrun : Trace.run (scheduled libs) {} as = some b)
    (h : b.Remembers libs as) : b.globals.commandMemory.length ≤ memoryLimit + 2 := by
  have hbounded : b.globals.commandMemory.length ≤ memoryLimit +
      b.brain.calls.countP Call.untested + b.brain.calls.countP Call.popping := h.held.bounded
  have hwriters := (run_oneEach hrun).writers
  omega

/-- While a call reads the memory, only the other thread writes to it. -/
theorem Remembers.short_of_reading (hrun : Trace.run (scheduled libs) {} as = some b)
    (h : b.Remembers libs as) {id index : Nat} {c : FineCall} {shown : List MemoryEntry}
    (hc : b.calls[id]? = some c) (hphase : c.phase = .reading shown index) :
    b.globals.commandMemory.length ≤ memoryLimit + 1 := by
  have hbounded : b.globals.commandMemory.length ≤ memoryLimit +
      b.brain.calls.countP Call.untested + b.brain.calls.countP Call.popping := h.held.bounded
  have hentered : c.call.phase = .entered := FineCall.phase_call hphase
  have hbusy : c.call.busy = true := by
    cases hthread : c.call.thread with
    | web => rw [Call.busy_web hthread, Call.suspended, hentered]
    | mic => rw [Call.busy_mic hthread, Call.hasEnded, hentered]
  have hwriters := (run_oneEach hrun).writers_of_busy (getElem?_brain hc) hbusy
    (by rw [Call.untested, Call.popping, hentered]; exact ⟨rfl, rfl⟩)
  omega

theorem step_remembers (hrun : Trace.run (scheduled libs) {} as = some b)
    (h : b.scheduled libs a = some t) (hb : b.Remembers libs as) :
    t.Remembers libs (as ++ [a]) := by
  obtain ⟨hwindow, hrecorded⟩ := scheduled_windowOf h (appends libs as)
  rw [← appends_snoc hrun] at hwindow
  have hlater : (b.brain.windowOf (appends libs as)).entries <+:
        (t.brain.windowOf (appends libs (as ++ [a]))).entries ∧
      (b.brain.windowOf (appends libs as)).dropped ≤
        (t.brain.windowOf (appends libs (as ++ [a]))).dropped := by
    rcases hwindow with hsame | ⟨op, hop⟩
    · rw [hsame]
      exact ⟨List.prefix_rfl, Nat.le_refl _⟩
    · exact Window.step_dropped hop
  have hkept : ∀ c ∈ b.calls, c.Shows (t.brain.windowOf (appends libs (as ++ [a]))) :=
    fun c hc => (hb.shown c hc).mono hlater.1 hlater.2
  refine ⟨?_, ?_, fun c₁ hmem => ?_⟩
  · rcases hwindow with hsame | ⟨op, hop⟩
    · exact hsame ▸ hb.held
    · exact Window.step_held (by decide) hop (run_oneEach hrun).writers hb.held
  · rw [appends_snoc hrun]
    exact hrecorded.trans (hb.logged.append_right _)
  · rcases step_cases (scheduled_eq_some.mp h).2 with ⟨thread, text, rfl, -, hcalls⟩ |
      ⟨id, turn, c, c', rfl, hc, hturn, hcalls⟩
    · rcases List.mem_append.mp (hcalls ▸ hmem) with hold | hnew
      · exact hkept c₁ hold
      · -- a new call has read nothing
        rw [List.mem_singleton.mp hnew]
        exact ⟨fun _ _ hphase => (by cases hphase), fun _ hphase => (by cases hphase),
          fun _ hprompt => (by cases hprompt)⟩
    · rcases List.mem_or_eq_of_mem_set (hcalls ▸ hmem) with hold | rfl
      · exact hkept c₁ hold
      · have hc' := turn_shows_fine hturn rfl hb.held.suffix
          (fun _ _ hphase => hb.short_of_reading hrun hc hphase)
          (hb.shown c (List.mem_of_getElem? hc))
        exact hc'.mono hlater.1 hlater.2

theorem run_remembers (h : Trace.run (scheduled libs) {} as = some b) : b.Remembers libs as :=
  Trace.history (I := fun as (b : FineBrain) => b.Remembers libs as)
    ⟨⟨List.suffix_refl _, Nat.le_refl _, Nat.zero_le _⟩, List.Perm.refl _,
      fun _ hc => absurd hc List.not_mem_nil⟩
    (fun _ _ _ _ hrun hstep hb => step_remembers hrun hstep hb) h

end FineBrain

/-- **The memory never drifts far.** In every run that the threads schedule, with the loops opened
and no other condition, the memory is the end of the log of the appended entries and has at most
seven, and a prompt shows at most six entries of the log, in the order of the log. Whenever no call
is in its update, the log is made up of the commands that have succeeded, and the memory has at most
the last five of it, and at least the last four. -/
theorem memory_bounded (libs : Libs) (as : List FineAction) (b : FineBrain)
    (hrun : Trace.run (FineBrain.scheduled libs) {} as = some b) :
    (b.globals.commandMemory <:+ FineBrain.appends libs as ∧
        b.globals.commandMemory.length ≤ memoryLimit + 2) ∧
      (∀ c ∈ b.calls, ∀ prompt, c.prompt = some prompt →
        prompt.history.Sublist (FineBrain.appends libs as) ∧
          prompt.history.length ≤ memoryLimit + 1) ∧
      ((∀ c ∈ b.calls, c.call.updating = false) →
        (b.calls.filterMap fun c => c.call.succeeded).Perm (FineBrain.appends libs as) ∧
          b.globals.commandMemory.length ≤ memoryLimit ∧
            min (memoryLimit - 1) (FineBrain.appends libs as).length ≤
              b.globals.commandMemory.length) := by
  have hb := FineBrain.run_remembers hrun
  refine ⟨⟨hb.held.suffix, hb.short hrun⟩, fun c hc => (hb.shown c hc).shown, fun hquiet => ?_⟩
  obtain ⟨⟨-, henough, hbounded⟩, hlog, -⟩ := hb
  have hquiet' : ∀ c ∈ b.brain.calls, c.updating = false := fun c hc => by
    obtain ⟨c₀, hc₀, rfl⟩ := List.mem_map.mp hc
    exact hquiet c₀ hc₀
  obtain ⟨huntested, hpopping, hentries⟩ :=
    Brain.quiet_window (FineBrain.appends libs as) hquiet'
  rw [hpopping] at henough
  rw [huntested, hpopping] at hbounded
  rw [hentries, FineBrain.brain, List.filterMap_map] at hlog
  exact ⟨hlog, hbounded, henough⟩

/-- The call `id` of the microphone starts with `shown` entries in the memory, reads them all, and
commits and appends its reply in one chunk. -/
def standsUp (id : Nat) (text : String) (shown : Nat) : List FineAction :=
  [.call .mic text] ++ List.replicate (if shown = 0 then 2 else shown + 3) (.turn id .runs) ++
    [.turn id .opens, .turn id (.chunk (some standReply)), .turn id .closes] ++
    List.replicate 4 (.turn id .runs)

/-- The memory is too long by one entry when a web call reads its first one; then the oldest entry
is popped, and the call reads on at its second index. -/
def poppedWhileRead : List FineAction :=
  (["one", "two", "three", "four", "five", "six"].zipIdx.flatMap fun (text, i) =>
      standsUp i text i) ++
    [.call .web "seven", .turn 6 .runs, .turn 6 .runs, .turn 5 .runs] ++
    List.replicate 6 (.turn 6 .runs)

/-- The prompt misses the second entry, and has the others in order. -/
theorem second_entry_missed : ∃ b,
    Trace.run (FineBrain.scheduled plainLibs) {} poppedWhileRead = some b ∧
      ∃ c ∈ b.calls, ∃ prompt, c.prompt = some prompt ∧
        prompt.history.map MemoryEntry.text = ["one", "three", "four", "five", "six"] ∧
          prompt.history.Sublist (FineBrain.appends plainLibs poppedWhileRead) := by
  obtain ⟨b, hrun, hb⟩ := (Option.any_eq_true
    (fun b : FineBrain => decide (∃ c ∈ b.calls, ∃ prompt ∈ c.prompt,
      prompt.history.map MemoryEntry.text = ["one", "three", "four", "five", "six"]))
    (Trace.run (FineBrain.scheduled plainLibs) {} poppedWhileRead)).mp (by decide +kernel)
  obtain ⟨c, hc, prompt, hprompt, htexts⟩ := of_decide_eq_true hb
  have hshown := (memory_bounded plainLibs poppedWhileRead b hrun).2.1 c hc prompt hprompt
  exact ⟨b, hrun, c, hc, prompt, hprompt, htexts, hshown.1⟩

end SvanVoice
