import SvanVoice.Laws.Brain
import SvanVoice.Library.SlidingWindow

/-!
# The command memory

`command_memory` is meant as the window of the last `memoryLimit` commands that succeeded, in the
order in which their states were committed. The commit is made under the lock; the append, the test
of the length and the pop after it are not. So the updates of two calls, one of the web loop and one
of the microphone, interleave.

Two things can go wrong, and `memory_is_window` says that nothing else does. An entry can be
appended before that of an earlier commit. And a call can find the memory too long by an entry that
another call is about to pop, and pop one too many. In a run where neither happens (`Undisturbed`),
the memory is the window whenever no call is in its update.

The brain is a `SlidingWindow` (`step_window`): its entries are those of the calls that have
appended, in the order of the commits, which is the order of the appends by `Logged.ordered`.
-/

set_option autoImplicit false

namespace SvanVoice

open SlidingWindow

/-! ## A call's update -/

namespace Call

/-- The call has not committed yet. -/
def early (c : Call) : Bool :=
  match c.phase with
  | .entered | .remembered _ | .awaiting | .received _ | .labelled _ => true
  | _ => false

/-- The call has committed and is to append its entry. -/
def waiting (c : Call) : Bool :=
  match c.phase with
  | .committed _ => true
  | _ => false

/-- The call has appended its entry and is to test the length. -/
def untested (c : Call) : Bool :=
  match c.phase with
  | .appended _ => true
  | _ => false

/-- The call has found the memory too long and is to pop an entry. -/
def popping (c : Call) : Bool :=
  match c.phase with
  | .overfull _ => true
  | _ => false

/-- The call is between its commit and the end of its update of the memory. -/
def updating (c : Call) : Bool := c.waiting || c.untested || c.popping

/-- The entry of a call that has appended it. -/
def recorded (c : Call) : Option MemoryEntry :=
  match c.phase with
  | .appended ns | .overfull ns | .ended (.success ns) => some ⟨c.text, ns⟩
  | _ => none

/-- The entry of a call that has succeeded. -/
def succeeded (c : Call) : Option MemoryEntry := c.success?.map fun ns => ⟨c.text, ns⟩

/-- Outside its update, a call has appended its entry exactly if it has succeeded. -/
theorem recorded_eq_succeeded {c : Call} (h : c.updating = false) : c.recorded = c.succeeded := by
  cases hphase : c.phase with
  | appended ns => simp [updating, waiting, untested, hphase] at h
  | overfull ns => simp [updating, waiting, untested, popping, hphase] at h
  | ended r => cases r <;> simp [recorded, succeeded, success?, hphase]
  | _ => simp [recorded, succeeded, success?, hphase]

end Call

/-- The calls that have committed their reply, in the order of the commits. -/
def Globals.commits (g : Globals) : List Nat :=
  (g.assigned.filter Assignment.fromReply).map Assignment.call

/-- **What a turn does to the memory**, and where it takes its call. -/
inductive MemoryMove (id : Nat) (turn : Turn) (g : Globals) (c : Call) (g' : Globals) (c' : Call) :
    Prop where
  | commit (ns : StateDict) (before : c.phase = .labelled ns) (after : c'.phase = .committed ns)
      (commits : g'.commits = g.commits ++ [id]) (memory : g'.commandMemory = g.commandMemory)
  | append (ns : StateDict) (now : turn = .runs) (before : c.phase = .committed ns)
      (after : c'.phase = .appended ns) (commits : g'.commits = g.commits)
      (memory : g'.commandMemory = g.commandMemory ++ [⟨c'.text, ns⟩])
  | test (ns : StateDict) (now : turn = .runs) (before : c.phase = .appended ns)
      (after : c'.phase = if memoryLimit < g.commandMemory.length then .overfull ns
        else .ended (.success ns))
      (text : c'.text = c.text) (same : g' = g)
  | pop (ns : StateDict) (before : c.phase = .overfull ns)
      (after : c'.phase = .ended (.success ns)) (text : c'.text = c.text)
      (commits : g'.commits = g.commits) (memory : g'.commandMemory = g.commandMemory.tail)
  | none (silent : c.recorded = none) (silent' : c'.recorded = none) (idle : c'.waiting = false)
      (late : c.early = false → c'.early = false) (commits : g'.commits = g.commits)
      (memory : g'.commandMemory = g.commandMemory)

theorem commits_assign (g : Globals) (id : Nat) (state : StateDict) (fromReply : Bool) :
    (g.assign id state fromReply).commits = g.commits ++ if fromReply then [id] else [] := by
  cases fromReply <;>
    simp [Globals.commits, Globals.assign, List.filter_append]

theorem turn_memoryMove {libs : Libs} {g g' : Globals} {id : Nat} {c c' : Call} {turn : Turn}
    (h : processTextCommand libs g id c turn = some (g', c')) :
    MemoryMove id turn g c g' c' := by
  revert h
  fun_cases processTextCommand libs g id c turn <;> intro h <;> cases h
  case case6 ns hphase => exact .commit ns hphase rfl (commits_assign g id ns true) rfl
  case case7 ns hphase => exact .append ns rfl hphase rfl rfl rfl
  case case8 ns hphase hlong => exact .test ns rfl hphase (if_pos hlong).symm rfl rfl
  case case9 ns hphase hshort => exact .test ns rfl hphase (if_neg hshort).symm rfl rfl
  case case10 ns hphase => exact .pop ns hphase rfl rfl rfl rfl
  case case11 e hphase =>
    refine .none ?_ rfl rfl (fun _ => rfl) ?_ rfl
    · rw [Call.recorded, hphase]
    · exact (commits_assign g id safeState false).trans (List.append_nil _)
  all_goals
    refine .none ?_ rfl rfl (fun hlate => ?_) rfl rfl
    · simp only [Call.recorded, ‹c.phase = _›]
    · -- a call that is still early now was early before
      first
      | rfl
      | simp only [Call.early, ‹c.phase = _›, Bool.true_eq_false] at hlate

/-! ## The brain as a window -/

namespace Brain

/-- The entry of the call with a number, if it has appended it. -/
def recorded (b : Brain) (id : Nat) : Option MemoryEntry := b.calls[id]?.bind Call.recorded

/-- The call with a number has committed and is to append its entry. -/
def waiting (b : Brain) (id : Nat) : Bool := b.calls[id]?.any Call.waiting

/-- The memory, with the entries appended so far in the order of their commits. -/
def window (b : Brain) : Window MemoryEntry where
  entries := b.globals.commits.filterMap b.recorded
  memory := b.globals.commandMemory
  untested := b.calls.countP Call.untested
  popping := b.calls.countP Call.popping

/-- The commands that have succeeded, in the order of their commits. -/
def successes (b : Brain) : List MemoryEntry :=
  b.globals.commits.filterMap fun id => b.calls[id]?.bind Call.succeeded

/-- **The memory is the window**: whenever no call is in its update, it holds the last `memoryLimit`
commands that have succeeded, in the order of their commits. -/
def WindowHolds (b : Brain) : Prop :=
  (∀ c ∈ b.calls, c.updating = false) →
    b.globals.commandMemory = b.successes.rtake memoryLimit

instance (b : Brain) : Decidable b.WindowHolds := inferInstanceAs (Decidable (_ → _))

/-- The call that runs in this step, with its number. -/
def running (b : Brain) : BrainAction → Option (Nat × Call)
  | .turn id .runs => b.calls[id]?.map fun c => (id, c)
  | _ => none

/-- The step does not disturb an update: an append finds no earlier commit still to be appended, and
a test that finds the memory too long finds it so by more than the pops already decided. -/
structure Undisturbed (b : Brain) (a : BrainAction) : Prop where
  inOrder : ∀ A ∈ b.running a, A.2.waiting = true →
    ∀ i ∈ b.globals.commits.takeWhile (· != A.1), b.waiting i = false
  settled : ∀ A ∈ b.running a, A.2.untested = true → b.window.Settled memoryLimit

instance (b : Brain) (a : BrainAction) : Decidable (b.Undisturbed a) :=
  have : Decidable (b.window.Settled memoryLimit) := inferInstanceAs (Decidable (_ → _))
  decidable_of_iff
    ((∀ A ∈ b.running a, A.2.waiting = true →
        ∀ i ∈ b.globals.commits.takeWhile (· != A.1), b.waiting i = false) ∧
      ∀ A ∈ b.running a, A.2.untested = true → b.window.Settled memoryLimit)
    ⟨fun h => ⟨h.1, h.2⟩, fun h => ⟨h.inOrder, h.settled⟩⟩

/-- The entry that a step appends to the memory. -/
def appending (b : Brain) : BrainAction → Option MemoryEntry
  | .turn id .runs =>
    b.calls[id]?.bind fun c =>
      match c.phase with
      | .committed ns => some ⟨c.text, ns⟩
      | _ => none
  | _ => none

/-- The memory with a log of what was appended. -/
def windowOf (b : Brain) (log : List MemoryEntry) : Window MemoryEntry where
  entries := log
  memory := b.globals.commandMemory
  untested := b.calls.countP Call.untested
  popping := b.calls.countP Call.popping

/-- The log of the commits: each call once, after its commit, and none appended before an earlier
one. -/
structure Logged (b : Brain) : Prop where
  nodup : b.globals.commits.Nodup
  late : ∀ id ∈ b.globals.commits, ∃ c, b.calls[id]? = some c ∧ c.early = false
  listed : ∀ id, b.waiting id = true → id ∈ b.globals.commits
  ordered : b.globals.commits.Pairwise fun i j => b.waiting i = true → b.recorded j = none

/-! ## The window of a log -/

section Step

variable {b t : Brain}

/-- Setting one call moves a count by that call alone. -/
theorem countP_set (p : Call → Bool) {id : Nat} {c : Call} (c' : Call)
    (hc : b.calls[id]? = some c) (hcalls : t.calls = b.calls.set id c') :
    t.calls.countP p + (if p c then 1 else 0) = b.calls.countP p + if p c' then 1 else 0 := by
  obtain ⟨hid, hget⟩ := List.getElem?_eq_some_iff.mp hc
  have hset := List.countP_set (p := p) (a := c') hid
  rw [hget, ← hcalls] at hset
  have hpos : (if p c then 1 else 0) ≤ b.calls.countP p := by
    split
    · next hp => exact List.countP_pos_iff.mpr ⟨c, List.mem_of_getElem? hc, hp⟩
    · exact Nat.zero_le _
  omega

/-- A call with no entry is not between its append and its pop. -/
theorem not_updating_of_silent {c : Call} (h : c.recorded = none) :
    c.untested = false ∧ c.popping = false := by
  cases hphase : c.phase with
  | appended ns => simp [Call.recorded, hphase] at h
  | overfull ns => simp [Call.recorded, hphase] at h
  | _ => simp [Call.untested, Call.popping, hphase]

/-- A turn of a call with no entry before and after it keeps the counts of the window. -/
theorem turned_counts {id : Nat} {c c' : Call} (hc : b.calls[id]? = some c)
    (hcalls : t.calls = b.calls.set id c') (hsilent : c.recorded = none)
    (hsilent' : c'.recorded = none) :
    t.calls.countP Call.untested = b.calls.countP Call.untested ∧
      t.calls.countP Call.popping = b.calls.countP Call.popping := by
  obtain ⟨hu, hp⟩ := not_updating_of_silent hsilent
  obtain ⟨hu', hp'⟩ := not_updating_of_silent hsilent'
  have huntested := countP_set Call.untested c' hc hcalls
  have hpopping := countP_set Call.popping c' hc hcalls
  rw [hu, hu'] at huntested
  rw [hp, hp'] at hpopping
  exact ⟨Nat.add_right_cancel huntested, Nat.add_right_cancel hpopping⟩

/-- A turn of a call appends an entry exactly if it is the append. -/
theorem appending_of_silent {libs : Libs} {id : Nat} {c c' : Call} {g' : Globals} {turn : Turn}
    (hc : b.calls[id]? = some c)
    (hturn : processTextCommand libs b.globals id c turn = some (g', c'))
    (h : c.waiting = false ∨ c'.recorded = none) : b.appending (.turn id turn) = none := by
  cases turn with
  | runs =>
    rw [appending, hc, Option.bind_some]
    split
    · next ns hphase =>
      simp only [processTextCommand, hphase, Option.some.injEq, Prod.mk.injEq] at hturn
      obtain ⟨-, rfl⟩ := hturn
      simp [Call.waiting, Call.recorded, hphase] at h
    · rfl
  | _ => rfl

/-- **The brain is a window with writers.** Whatever log it is given, a step leaves the window, or
is a step of a writer: a test only where a call is to test the length. -/
theorem step_windowOf {libs : Libs} {a : BrainAction} (h : b.step libs a = some t)
    (log : List MemoryEntry) :
    t.windowOf (log ++ (b.appending a).toList) = b.windowOf log ∨
      ∃ op, (b.windowOf log).step memoryLimit op =
          some (t.windowOf (log ++ (b.appending a).toList)) ∧
        (op = .test → ∃ A ∈ b.running a, A.2.untested = true) := by
  rcases step_cases h with ⟨thread, text, rfl, hglobals, hcalls⟩ |
    ⟨id, turn, c, c', rfl, hc, hturn, hcalls⟩
  · refine .inl (Window.ext (List.append_nil _) (congrArg Globals.commandMemory hglobals) ?_ ?_)
    · show t.calls.countP Call.untested = b.calls.countP Call.untested
      rw [hcalls, List.countP_append]
      rfl
    · show t.calls.countP Call.popping = b.calls.countP Call.popping
      rw [hcalls, List.countP_append]
      rfl
  have huntested := countP_set Call.untested c' hc hcalls
  have hpopping := countP_set Call.popping c' hc hcalls
  cases turn_memoryMove hturn with
  | commit ns before after commits memory =>
    have hsilent : c'.recorded = none := by rw [Call.recorded, after]
    rw [appending_of_silent hc hturn (.inr hsilent)]
    simp only [Call.untested, Call.popping, before, after, Nat.add_right_cancel_iff]
      at huntested hpopping
    exact .inl (Window.ext (List.append_nil _) memory huntested hpopping)
  | append ns now before after commits memory =>
    have happended : b.appending (.turn id turn) = some ⟨c'.text, ns⟩ := by
      rw [now, appending, hc, Option.bind_some, before, turn_text hturn]
    rw [happended]
    simp only [Call.untested, Call.popping, before, after, Bool.false_eq_true, if_false, if_true,
      Nat.add_zero] at huntested hpopping
    refine .inr ⟨.append ⟨c'.text, ns⟩, congrArg some (Eq.symm ?_), nofun⟩
    exact Window.ext rfl memory huntested hpopping
  | test ns now before after text same =>
    rw [appending_of_silent hc hturn (.inl (by rw [Call.waiting, before]))]
    have hfound : c'.untested = false ∧
        c'.popping = decide (memoryLimit < b.globals.commandMemory.length) := by
      split at after
      · next hlong => simp [Call.untested, Call.popping, after, hlong]
      · next hshort => simp [Call.untested, Call.popping, after, hshort]
    have hwas : c.untested = true ∧ c.popping = false := by
      simp [Call.untested, Call.popping, before]
    have hrunning : (id, c) ∈ b.running (.turn id turn) := by
      rw [now, Option.mem_def, running, hc, Option.map_some]
    rw [hwas.1, hfound.1] at huntested
    rw [hwas.2, hfound.2] at hpopping
    simp only [Bool.false_eq_true, if_false, if_true, Nat.add_zero, decide_eq_true_eq]
      at huntested hpopping
    have hsome : (b.windowOf log).untested ≠ 0 := by
      show b.calls.countP Call.untested ≠ 0
      omega
    refine .inr ⟨.test, ?_, fun _ => ⟨(id, c), hrunning, hwas.1⟩⟩
    rw [Window.step_test hsome]
    exact congrArg some (Window.ext (List.append_nil _) (congrArg Globals.commandMemory same)
      (Nat.eq_sub_of_add_eq huntested) hpopping).symm
  | pop ns before after text commits memory =>
    rw [appending_of_silent hc hturn (.inl (by rw [Call.waiting, before]))]
    simp only [Call.untested, Call.popping, before, after, Bool.false_eq_true, if_false, if_true,
      Nat.add_zero] at huntested hpopping
    have hsome : (b.windowOf log).popping ≠ 0 := by
      show b.calls.countP Call.popping ≠ 0
      omega
    refine .inr ⟨.pop, ?_, nofun⟩
    rw [Window.step, if_neg hsome]
    exact congrArg some (Window.ext (List.append_nil _) memory huntested
      (Nat.eq_sub_of_add_eq hpopping)).symm
  | none silent silent' idle late commits memory =>
    rw [appending_of_silent hc hturn (.inr silent')]
    obtain ⟨hu, hp⟩ := turned_counts hc hcalls silent silent'
    exact .inl (Window.ext (List.append_nil _) memory hu hp)

/-! ## The log of the commits -/

/-- A step that appends nothing and commits nothing keeps the log. -/
theorem logged_same (hb : b.Logged) (hcommits : t.globals.commits = b.globals.commits)
    (hrecorded : ∀ j, t.recorded j = b.recorded j)
    (hwaiting : ∀ j, t.waiting j = true → b.waiting j = true)
    (hlate : ∀ (j : Nat) (c : Call), b.calls[j]? = some c → c.early = false →
      ∃ c', t.calls[j]? = some c' ∧ c'.early = false) : t.Logged where
  nodup := hcommits ▸ hb.nodup
  late := fun id hid => by
    obtain ⟨c, hc, hearly⟩ := hb.late id (hcommits ▸ hid)
    exact hlate id c hc hearly
  listed := fun id hid => hcommits ▸ hb.listed id (hwaiting id hid)
  ordered := by
    rw [hcommits]
    refine hb.ordered.imp fun {i j} hij hi => ?_
    rw [hrecorded]
    exact hij (hwaiting i hi)

/-- A commit joins the log as the latest. -/
theorem logged_commit (hb : b.Logged) {id : Nat} {c c' : Call} (hc : b.calls[id]? = some c)
    (hearly : c.early = true) (hc' : t.calls[id]? = some c') (hlate : c'.early = false)
    (hsilent : b.recorded id = none) (hsilent' : t.recorded id = none)
    (hother : ∀ j, j ≠ id → t.calls[j]? = b.calls[j]?)
    (hcommits : t.globals.commits = b.globals.commits ++ [id]) : t.Logged := by
  have hnew : id ∉ b.globals.commits := by
    intro hmem
    obtain ⟨c₀, hc₀, hlate₀⟩ := hb.late id hmem
    cases hc.symm.trans hc₀
    exact Bool.false_ne_true (hlate₀.symm.trans hearly)
  have hne : ∀ {j}, j ∈ b.globals.commits → j ≠ id := fun hj h => hnew (h ▸ hj)
  have hrecorded : ∀ j, t.recorded j = b.recorded j := by
    intro j
    by_cases hj : j = id
    · rw [hj, hsilent, hsilent']
    · rw [recorded, recorded, hother j hj]
  refine ⟨?_, ?_, ?_, ?_⟩
  · rw [hcommits, List.nodup_append_comm, List.singleton_append, List.nodup_cons]
    exact ⟨hnew, hb.nodup⟩
  · rw [hcommits]
    intro j hj
    rcases List.mem_append.mp hj with hold | hlast
    · rw [hother j (hne hold)]
      exact hb.late j hold
    · rw [List.mem_singleton.mp hlast]
      exact ⟨c', hc', hlate⟩
  · rw [hcommits]
    intro j hj
    by_cases hid : j = id
    · exact List.mem_append_right _ (List.mem_singleton.mpr hid)
    · rw [waiting, hother j hid] at hj
      exact List.mem_append_left _ (hb.listed j hj)
  · rw [hcommits, List.pairwise_append]
    refine ⟨?_, List.pairwise_singleton _ _, fun i _ j hj _ => ?_⟩
    · refine hb.ordered.imp_of_mem fun {i j} hi hj hij hwaits => ?_
      rw [waiting, hother i (hne hi)] at hwaits
      rw [hrecorded]
      exact hij hwaits
    · rw [List.mem_singleton.mp hj]
      exact hsilent'

/-- An append whose call is the first that waits keeps the log, and its entry comes last. -/
theorem logged_append (hb : b.Logged) {id : Nat} {c' : Call} {entry : MemoryEntry}
    (hwaits : b.waiting id = true) (hsilent : b.recorded id = none)
    (hc' : t.calls[id]? = some c') (hlate : c'.early = false) (hdone : t.waiting id = false)
    (hentry : t.recorded id = some entry) (hother : ∀ j, j ≠ id → t.calls[j]? = b.calls[j]?)
    (hfirst : ∀ i ∈ b.globals.commits.takeWhile (· != id), b.waiting i = false)
    (hcommits : t.globals.commits = b.globals.commits) :
    t.Logged ∧ t.window.entries = b.window.entries ++ [entry] := by
  obtain ⟨pre, post, hsplit⟩ := List.append_of_mem (hb.listed id hwaits)
  have hnodup := hb.nodup
  rw [hsplit, List.nodup_middle, List.nodup_cons, List.mem_append, not_or] at hnodup
  obtain ⟨⟨hpre, hpost⟩, -⟩ := hnodup
  have hbefore : b.globals.commits.takeWhile (· != id) = pre := by
    rw [hsplit, List.takeWhile_append_of_pos, List.takeWhile_cons, if_neg, List.append_nil]
    · simp
    · intro i hi
      exact bne_iff_ne.mpr fun h => hpre (h ▸ hi)
  rw [hbefore] at hfirst
  have hrecorded : ∀ j, j ≠ id → t.recorded j = b.recorded j := fun j hj => by
    rw [recorded, recorded, hother j hj]
  have hordered := hb.ordered
  rw [hsplit, List.pairwise_append, List.pairwise_cons] at hordered
  obtain ⟨hordpre, ⟨hlater, hordpost⟩, hacross⟩ := hordered
  have hlater' : ∀ j ∈ post, b.recorded j = none := fun j hj => hlater j hj hwaits
  refine ⟨⟨hcommits ▸ hb.nodup, ?_, ?_, ?_⟩, ?_⟩
  · rw [hcommits]
    intro j hj
    by_cases hid : j = id
    · exact ⟨c', hid ▸ hc', hlate⟩
    · rw [hother j hid]
      exact hb.late j hj
  · rw [hcommits]
    intro j hj
    by_cases hid : j = id
    · rw [hid, hdone] at hj
      cases hj
    · rw [waiting, hother j hid] at hj
      exact hb.listed j hj
  · -- of the calls up to the appended one, none waits any more
    have hidle : ∀ i ∈ pre, t.waiting i = true → False := by
      intro i hi hwaiting
      rw [waiting, hother i fun h => hpre (h ▸ hi)] at hwaiting
      exact Bool.false_ne_true ((hfirst i hi).symm.trans hwaiting)
    have hidle' : t.waiting id = true → False := fun h => Bool.false_ne_true (hdone.symm.trans h)
    rw [hcommits, hsplit, List.pairwise_append, List.pairwise_cons]
    refine ⟨?_, ⟨fun j _ hw => (hidle' hw).elim, ?_⟩, fun i hi j _ hw => (hidle i hi hw).elim⟩
    · exact hordpre.imp_of_mem fun hi _ _ hw => (hidle _ hi hw).elim
    · refine hordpost.imp_of_mem fun {i j} hi hj hij hw => ?_
      rw [waiting, hother i fun h => hpost (h ▸ hi)] at hw
      rw [hrecorded j fun h => hpost (h ▸ hj)]
      exact hij hw
  · rw [window, window, hcommits]
    exact filterMap_newest hsplit hb.nodup hsilent hentry hrecorded hlater'

/-- The entries of a brain whose log reads the same. -/
theorem entries_of_same (hcommits : t.globals.commits = b.globals.commits)
    (hrecorded : ∀ j, t.recorded j = b.recorded j) : t.window.entries = b.window.entries := by
  have hsame : t.recorded = b.recorded := funext hrecorded
  rw [window, window, hcommits, hsame]

/-- A new call is no part of the log. -/
theorem call_log {thread : Thread} {text : String} (hb : b.Logged)
    (hglobals : t.globals = b.globals)
    (hcalls : t.calls = b.calls ++ [{ thread := thread, text := text }]) :
    t.Logged ∧ t.window.entries = b.window.entries := by
  have hold : ∀ {j : Nat} {c : Call}, b.calls[j]? = some c → t.calls[j]? = some c := by
    intro j c hc
    rw [hcalls, List.getElem?_append_left (List.getElem?_eq_some_iff.mp hc).1]
    exact hc
  have hnew : ∀ j : Nat, b.calls[j]? = none →
      ∀ c ∈ t.calls[j]?, c.recorded = none ∧ c.waiting = false := by
    intro j hj c hc
    rw [hcalls, List.getElem?_append_right (List.getElem?_eq_none_iff.mp hj)] at hc
    rw [List.mem_singleton.mp (List.mem_of_getElem? hc)]
    exact ⟨rfl, rfl⟩
  have hrecorded : ∀ j, t.recorded j = b.recorded j := by
    intro j
    unfold recorded
    cases hj : b.calls[j]? with
    | some c => rw [hold hj]
    | none =>
      cases hc : t.calls[j]? with
      | none => rfl
      | some c => exact (hnew j hj c hc).1
  refine ⟨logged_same hb (by rw [hglobals]) hrecorded (fun j hj => ?_)
    (fun j c hc hlate => ⟨c, hold hc, hlate⟩), entries_of_same (by rw [hglobals]) hrecorded⟩
  cases hc : b.calls[j]? with
  | some c => rwa [waiting, hold hc, ← hc] at hj
  | none =>
    obtain ⟨c, hc', hwaits⟩ := (Option.any_eq_true _ _).mp hj
    exact absurd ((hnew j hc c hc').2.symm.trans hwaits) Bool.false_ne_true

end Step

/-! ## One turn -/

section Turn

variable {b t : Brain} {id : Nat} {c c' : Call}

theorem turned_self (hc : b.calls[id]? = some c) (hcalls : t.calls = b.calls.set id c') :
    t.calls[id]? = some c' := by
  rw [hcalls, List.getElem?_set_self (List.getElem?_eq_some_iff.mp hc).1]

theorem turned_other (hcalls : t.calls = b.calls.set id c') {j : Nat} (hj : j ≠ id) :
    t.calls[j]? = b.calls[j]? := by
  rw [hcalls, List.getElem?_set_ne hj.symm]

/-- Where the call's entry stays, the whole log reads the same. -/
theorem turned_recorded (hc : b.calls[id]? = some c) (hcalls : t.calls = b.calls.set id c')
    (hsame : c'.recorded = c.recorded) (j : Nat) : t.recorded j = b.recorded j := by
  by_cases hj : j = id
  · rw [hj, recorded, recorded, hc, turned_self hc hcalls, Option.bind_some, Option.bind_some,
      hsame]
  · rw [recorded, recorded, turned_other hcalls hj]

/-- A turn after which its call does not wait, and that leaves its entry, keeps the log. -/
theorem turned_log (hb : b.Logged) (hc : b.calls[id]? = some c)
    (hcalls : t.calls = b.calls.set id c') (hsame : c'.recorded = c.recorded)
    (hcommits : t.globals.commits = b.globals.commits) (hidle : c'.waiting = false)
    (hlate : c.early = false → c'.early = false) :
    t.Logged ∧ t.window.entries = b.window.entries := by
  have hrecorded := turned_recorded hc hcalls hsame
  refine ⟨logged_same hb hcommits hrecorded (fun j hj => ?_) (fun j c₀ hc₀ hlate₀ => ?_),
    entries_of_same hcommits hrecorded⟩
  · by_cases hid : j = id
    · rw [hid, waiting, turned_self hc hcalls, Option.any_some, hidle] at hj
      cases hj
    · rwa [waiting, turned_other hcalls hid] at hj
  · by_cases hid : j = id
    · subst hid
      cases hc.symm.trans hc₀
      exact ⟨c', turned_self hc hcalls, hlate hlate₀⟩
    · exact ⟨c₀, (turned_other hcalls hid).trans hc₀, hlate₀⟩

/-- A commit joins the log and has no entry. -/
theorem commit_log (hb : b.Logged) (hc : b.calls[id]? = some c)
    (hcalls : t.calls = b.calls.set id c') {ns : StateDict} (before : c.phase = .labelled ns)
    (after : c'.phase = .committed ns)
    (hcommits : t.globals.commits = b.globals.commits ++ [id]) :
    t.Logged ∧ t.window.entries = b.window.entries := by
  have hsilent : c.recorded = none := by rw [Call.recorded, before]
  have hsilent' : c'.recorded = none := by rw [Call.recorded, after]
  have hrecorded := turned_recorded hc hcalls (hsilent'.trans hsilent.symm)
  have hnone : b.recorded id = none := by rw [recorded, hc, Option.bind_some, hsilent]
  constructor
  · exact logged_commit hb hc (by rw [Call.early, before]) (turned_self hc hcalls)
      (by rw [Call.early, after]) hnone ((hrecorded id).trans hnone)
      (fun j hj => turned_other hcalls hj) hcommits
  · have hsame : t.recorded = b.recorded := funext hrecorded
    simp only [window, hcommits, hsame, List.filterMap_append, List.filterMap_cons, hnone,
      List.filterMap_nil, List.append_nil]

/-- An append in order adds its entry at the end. -/
theorem append_log (hb : b.Logged) (hc : b.calls[id]? = some c)
    (hcalls : t.calls = b.calls.set id c') {ns : StateDict} (before : c.phase = .committed ns)
    (after : c'.phase = .appended ns) (hcommits : t.globals.commits = b.globals.commits)
    (hfirst : ∀ i ∈ b.globals.commits.takeWhile (· != id), b.waiting i = false) :
    t.Logged ∧ t.window.entries = b.window.entries ++ [⟨c'.text, ns⟩] := by
  have hc' := turned_self hc hcalls
  have hwaits : b.waiting id = true := by simp [waiting, hc, Call.waiting, before]
  have hsilent : b.recorded id = none := by simp [recorded, hc, Call.recorded, before]
  have hdone : t.waiting id = false := by simp [waiting, hc', Call.waiting, after]
  have hentry : t.recorded id = some ⟨c'.text, ns⟩ := by simp [recorded, hc', Call.recorded, after]
  exact logged_append hb hwaits hsilent hc' (by rw [Call.early, after]) hdone hentry
    (fun j hj => turned_other hcalls hj) hfirst hcommits

end Turn

section Run

variable {libs : Libs} {b t : Brain} {a : BrainAction}

/-- An undisturbed step keeps the log in order, and adds to it what it appends. -/
theorem step_log (h : b.step libs a = some t) (hcond : b.Undisturbed a) (hb : b.Logged) :
    t.Logged ∧ t.window.entries = b.window.entries ++ (b.appending a).toList := by
  rcases step_cases h with ⟨thread, text, rfl, hglobals, hcalls⟩ |
    ⟨id, turn, c, c', rfl, hc, hturn, hcalls⟩
  · obtain ⟨hlogged, hsame⟩ := call_log hb hglobals hcalls
    exact ⟨hlogged, hsame.trans (List.append_nil _).symm⟩
  have hkept : c.waiting = false ∨ c'.recorded = none →
      t.Logged ∧ t.window.entries = b.window.entries →
        t.Logged ∧ t.window.entries = b.window.entries ++ (b.appending (.turn id turn)).toList :=
    fun hnone hlog => by
      rw [appending_of_silent hc hturn hnone]
      exact ⟨hlog.1, hlog.2.trans (List.append_nil _).symm⟩
  cases turn_memoryMove hturn with
  | commit ns before after commits memory =>
    exact hkept (.inr (by rw [Call.recorded, after]))
      (commit_log hb hc hcalls before after commits)
  | append ns now before after commits memory =>
    have hrunning : (id, c) ∈ b.running (.turn id turn) := by
      rw [now, Option.mem_def, running, hc, Option.map_some]
    have happended : b.appending (.turn id turn) = some ⟨c'.text, ns⟩ := by
      rw [now, appending, hc, Option.bind_some, before, turn_text hturn]
    rw [happended]
    exact append_log hb hc hcalls before after commits
      (hcond.inOrder (id, c) hrunning (by rw [Call.waiting, before]))
  | test ns now before after text same =>
    have hkeeps : c'.recorded = c.recorded ∧ c'.waiting = false ∧ c'.early = false := by
      split at after <;> simp [Call.recorded, Call.waiting, Call.early, after, before, text]
    obtain ⟨hentry, hidle, hlate⟩ := hkeeps
    exact hkept (.inl (by rw [Call.waiting, before]))
      (turned_log hb hc hcalls hentry (by rw [same]) hidle fun _ => hlate)
  | pop ns before after text commits memory =>
    exact hkept (.inl (by rw [Call.waiting, before]))
      (turned_log hb hc hcalls (by simp [Call.recorded, before, after, text]) commits
        (by rw [Call.waiting, after]) fun _ => by rw [Call.early, after])
  | none silent silent' idle late commits memory =>
    exact hkept (.inr silent')
      (turned_log hb hc hcalls (silent'.trans silent.symm) commits idle late)

/-- **The brain is a sliding window.** An undisturbed step keeps the log, and leaves the window or
is a step of it, whose test is settled. -/
theorem step_window (h : b.step libs a = some t) (hcond : b.Undisturbed a) (hb : b.Logged) :
    t.Logged ∧ (t.window = b.window ∨ ∃ op, b.window.step memoryLimit op = some t.window ∧
      (op = .test → b.window.Settled memoryLimit)) := by
  obtain ⟨hlogged, hentries⟩ := step_log h hcond hb
  have hstep := step_windowOf h b.window.entries
  rw [← hentries] at hstep
  refine ⟨hlogged, ?_⟩
  rcases hstep with hsame | ⟨op, hop, htest⟩
  · exact .inl hsame
  · refine .inr ⟨op, hop, fun heq => ?_⟩
    obtain ⟨A, hA, huntested⟩ := htest heq
    exact hcond.settled A hA huntested

/-- Between the updates a balanced window is the window of the successes. -/
theorem windowHolds_of_balanced (h : b.window.Balanced memoryLimit) : b.WindowHolds := by
  intro hquiet
  have huntested : b.window.untested = 0 := List.countP_eq_zero.mpr fun c hc hu => by
    have hupdating := hquiet c hc
    rw [Call.updating, hu, Bool.or_true, Bool.true_or] at hupdating
    cases hupdating
  have hpopping : b.window.popping = 0 := List.countP_eq_zero.mpr fun c hc hp => by
    have hupdating := hquiet c hc
    rw [Call.updating, hp, Bool.or_true] at hupdating
    cases hupdating
  have hentries : b.window.entries = b.successes := by
    refine List.filterMap_congr fun id _ => ?_
    unfold recorded
    cases hc : b.calls[id]? with
    | none => rfl
    | some c => exact Call.recorded_eq_succeeded (hquiet c (List.mem_of_getElem? hc))
  exact hentries ▸ Window.eq_rtake h huntested hpopping

end Run

end Brain

/-- **When the memory is the window.** In every run of the brain, under any interleaving, whose
steps disturb no update, the memory holds the last `memoryLimit` commands that have succeeded, in
the order of their commits, whenever no call is in its update. -/
theorem memory_is_window (libs : Libs) (as : List BrainAction)
    (hcond : Trace.Along (Brain.step libs) Brain.Undisturbed {} as) :
    Trace.Always (Brain.step libs) Brain.WindowHolds {} as := by
  intro pre post b hsplit hrun
  subst hsplit
  have hstart : ({} : Brain).Logged ∧ ({} : Brain).window.Balanced memoryLimit := by
    refine ⟨⟨List.nodup_nil, nofun, nofun, List.Pairwise.nil⟩, ⟨List.suffix_refl _, ?_, ?_⟩⟩
    · decide
    · decide
  have hall := Trace.invariant_along
    (I := fun b : Brain => b.Logged ∧ b.window.Balanced memoryLimit) (fun b a t hb hc ht => ?_)
    hstart hcond.left hrun
  · exact Brain.windowHolds_of_balanced hall.2
  · obtain ⟨hlogged, hbalanced⟩ := hb
    obtain ⟨hlogged', hsame | ⟨op, hop, hsettled⟩⟩ := Brain.step_window ht hc hlogged
    · exact ⟨hlogged', hsame ▸ hbalanced⟩
    · exact ⟨hlogged', Window.step_balanced hop hsettled hbalanced⟩

/-- Four commands in turn, then one of the web loop and one of the microphone, both committed. -/
def twoCommitted : List BrainAction :=
  (List.range 4).flatMap (fun i => ask i .web "stand up" ++ answer i standReply ++ finish i) ++
    ask 4 .web "stand up" ++ ask 5 .mic "walk forward" ++ answer 4 standReply ++ answer 5 walkReply

/-- The two calls end their updates by turns, in the order given. -/
def twoFinish (turns : List Nat) : List BrainAction :=
  twoCommitted ++ turns.map fun id => .turn id .runs

/-- Two overlapping updates that do not disturb each other fill the window. -/
theorem overlap_in_order :
    (Trace.run (Brain.scheduled plainLibs) {} (twoFinish [4, 4, 5, 5, 5])).any
        (fun b => b.successes.length = 6 ∧ b.globals.commandMemory.length = 5) = true ∧
      Trace.Always (Brain.step plainLibs) Brain.WindowHolds {} (twoFinish [4, 4, 5, 5, 5]) :=
  ⟨by decide +kernel, memory_is_window plainLibs (twoFinish [4, 4, 5, 5, 5]) (by decide +kernel)⟩

/-- The microphone's entry is appended before that of the earlier commit, and stays before it. In
the other run both calls find the memory too long by one entry, and both pop. -/
theorem overlap_breaks_window :
    (Trace.run (Brain.scheduled plainLibs) {} (twoFinish [5, 5, 4, 4, 4])).any
        (fun b => ¬ b.WindowHolds) = true ∧
      (Trace.run (Brain.scheduled plainLibs) {} (twoFinish [4, 5, 4, 5, 4, 5])).any
        (fun b => ¬ b.WindowHolds ∧ b.successes.length = 6 ∧
          b.globals.commandMemory.length = 4) = true := by
  decide +kernel

end SvanVoice
