import Mathlib.Data.List.DropRight
import Mathlib.Data.List.Nodup

/-!
# A sliding window written in separate steps

Writers share a list that is to hold the last `limit` entries. A writer appends its entry, tests the
length, and pops the oldest entry where it found the list too long. The three are separate steps,
and the steps of several writers interleave.

A `Window` is the list, every entry appended so far, and how many writers have appended without
having tested, and found the list too long without having popped. `Balanced` bounds the list's
length, the pops already decided aside: it is at least the window's, and at most one more for each
writer that has not tested. Every step keeps it (`step_balanced`) but one: a test that finds the
list too long only because of pops that are decided and not done pops one entry too many. Between
the updates a balanced list is the window (`eq_rtake`).

`Held` is what remains of it with no condition on the tests but the number of writers: with at most
`k` of them between their steps, the list falls short of the window by fewer than `k` entries.

A reader that goes over the list by index while the writers work may miss an entry, when a pop moves
the list under it. `Read` says what it gets all the same: entries of the log, in their order.

The last section is about the entries as a log of commits: what an append adds to the log where the
appends come in the order of the commits.
-/

set_option autoImplicit false

namespace SlidingWindow

variable {ε : Type*}

/-- The list, the entries appended so far, and the writers between their steps. -/
@[ext] structure Window (ε : Type*) where
  entries : List ε
  memory : List ε
  untested : ℕ
  popping : ℕ

/-- A writer's step. -/
inductive Op (ε : Type*) where
  | append (entry : ε)
  | test
  | pop

namespace Window

/-- One step of one writer. -/
def step (limit : ℕ) (w : Window ε) : Op ε → Option (Window ε)
  | .append entry =>
    some ⟨w.entries ++ [entry], w.memory ++ [entry], w.untested + 1, w.popping⟩
  | .test =>
    if w.untested = 0 then none
    else if limit < w.memory.length then
      some { w with untested := w.untested - 1, popping := w.popping + 1 }
    else some { w with untested := w.untested - 1 }
  | .pop =>
    if w.popping = 0 then none
    else some { w with memory := w.memory.tail, popping := w.popping - 1 }

/-- A test that finds the list too long finds it too long by more than the pops already decided. -/
def Settled (limit : ℕ) (w : Window ε) : Prop :=
  limit < w.memory.length → limit + w.popping < w.memory.length

/-- The list is the end of the log, and its length is balanced. -/
structure Balanced (limit : ℕ) (w : Window ε) : Prop where
  suffix : w.memory <:+ w.entries
  enough : min limit w.entries.length + w.popping ≤ w.memory.length
  bounded : w.memory.length ≤ limit + w.untested + w.popping

section Step

variable {limit : ℕ} {w w' : Window ε}

theorem append_balanced (h : Balanced limit w) (entry : ε) :
    Balanced limit ⟨w.entries ++ [entry], w.memory ++ [entry], w.untested + 1, w.popping⟩ := by
  obtain ⟨⟨older, hsuffix⟩, henough, hbounded⟩ := h
  refine ⟨⟨older, ?_⟩, ?_, ?_⟩
  · rw [← List.append_assoc, hsuffix]
  · simp only [List.length_append, List.length_singleton]
    omega
  · simp only [List.length_append, List.length_singleton]
    omega

theorem pop_balanced (h : Balanced limit w) (hpop : w.popping ≠ 0) :
    Balanced limit { w with memory := w.memory.tail, popping := w.popping - 1 } := by
  obtain ⟨hsuffix, henough, hbounded⟩ := h
  refine ⟨(List.tail_suffix w.memory).trans hsuffix, ?_, ?_⟩
  · simp only [List.length_tail]
    omega
  · simp only [List.length_tail]
    omega

/-- A test decides on one pop if it finds the list too long, and on none otherwise. -/
theorem step_test (h : w.untested ≠ 0) : w.step limit .test =
    some { w with
      untested := w.untested - 1
      popping := w.popping + if limit < w.memory.length then 1 else 0 } := by
  rw [step, if_neg h]
  split
  · rfl
  · rfl

theorem test_balanced (h : Balanced limit w) (hsettled : w.Settled limit) :
    Balanced limit { w with
      untested := w.untested - 1
      popping := w.popping + if limit < w.memory.length then 1 else 0 } := by
  obtain ⟨hsuffix, henough, hbounded⟩ := h
  by_cases hlong : limit < w.memory.length
  · -- the entry to pop is one more than those to be popped already
    have hmore := hsettled hlong
    rw [if_pos hlong]
    refine ⟨hsuffix, ?_, ?_⟩ <;> dsimp only <;> omega
  · rw [if_neg hlong]
    refine ⟨hsuffix, henough, ?_⟩
    dsimp only
    omega

/-- **Every step keeps the balance**, if each test is settled. -/
theorem step_balanced {op : Op ε} (h : w.step limit op = some w')
    (hsettled : op = .test → w.Settled limit) (hw : Balanced limit w) : Balanced limit w' := by
  cases op with
  | append entry =>
    cases h
    exact append_balanced hw entry
  | test =>
    have hsome : w.untested ≠ 0 := fun hnone => by
      rw [step, if_pos hnone] at h
      cases h
    rw [step_test hsome, Option.some.injEq] at h
    exact h ▸ test_balanced hw (hsettled rfl)
  | pop =>
    simp only [step, Option.ite_none_left_eq_some, Option.some.injEq] at h
    obtain ⟨hsome, rfl⟩ := h
    exact pop_balanced hw hsome

/-- **Between the updates** a balanced list is the window. -/
theorem eq_rtake (h : Balanced limit w) (hun : w.untested = 0) (hpop : w.popping = 0) :
    w.memory = w.entries.rtake limit := by
  obtain ⟨hsuffix, henough, hbounded⟩ := h
  have hle := hsuffix.length_le
  have hdrop := List.suffix_iff_eq_drop.mp hsuffix
  rw [hdrop, List.rtake]
  congr 1
  omega

/-! ### Several writers -/

/-- The list is the end of the log, and at most `k - 1` entries too short, the pops already decided
aside. -/
structure Held (limit k : ℕ) (w : Window ε) : Prop where
  suffix : w.memory <:+ w.entries
  enough : min (limit + 1 - k) w.entries.length + w.popping ≤ w.memory.length
  bounded : w.memory.length ≤ limit + w.untested + w.popping

/-- **Every step of `k` writers holds the list**, whatever they find. -/
theorem step_held {k : ℕ} (hk : k ≤ limit + 1) {op : Op ε} (h : w.step limit op = some w')
    (hwriters : w.untested + w.popping ≤ k) (hw : Held limit k w) : Held limit k w' := by
  obtain ⟨hsuffix, henough, hbounded⟩ := hw
  cases op with
  | append entry =>
    cases h
    obtain ⟨older, hsuffix⟩ := hsuffix
    refine ⟨⟨older, by rw [← List.append_assoc, hsuffix]⟩, ?_, ?_⟩
    · simp only [List.length_append, List.length_singleton]
      omega
    · simp only [List.length_append, List.length_singleton]
      omega
  | test =>
    have hsome : w.untested ≠ 0 := fun hnone => by
      rw [step, if_pos hnone] at h
      cases h
    rw [step_test hsome, Option.some.injEq] at h
    subst h
    by_cases hlong : limit < w.memory.length
    · -- the other writers have decided on at most `k - 1` pops
      rw [if_pos hlong]
      refine ⟨hsuffix, ?_, ?_⟩ <;> dsimp only <;> omega
    · rw [if_neg hlong]
      refine ⟨hsuffix, henough, ?_⟩
      dsimp only
      omega
  | pop =>
    simp only [step, Option.ite_none_left_eq_some, Option.some.injEq] at h
    obtain ⟨hsome, rfl⟩ := h
    refine ⟨(List.tail_suffix w.memory).trans hsuffix, ?_, ?_⟩
    · simp only [List.length_tail]
      omega
    · simp only [List.length_tail]
      omega

/-! ### A reader -/

/-- The entries popped so far. -/
def dropped (w : Window ε) : ℕ := w.entries.length - w.memory.length

/-- A reader that goes over the list by index has read `shown`: one entry for each index, in the
order of the log, and none beyond the entry that was last at such an index. -/
structure Read (w : Window ε) (shown : List ε) (index : ℕ) : Prop where
  counted : shown.length = index
  inOrder : shown.Sublist (w.entries.take (w.dropped + index))

theorem read_start (w : Window ε) : w.Read [] 0 := ⟨rfl, List.nil_sublist _⟩

/-- A writer's step pops no entry twice, and takes none out of the log. -/
theorem step_dropped {op : Op ε} (h : w.step limit op = some w') :
    w.entries <+: w'.entries ∧ w.dropped ≤ w'.dropped := by
  cases op with
  | append entry =>
    cases h
    refine ⟨List.prefix_append _ _, ?_⟩
    simp only [dropped, List.length_append, List.length_singleton]
    omega
  | test =>
    have hsome : w.untested ≠ 0 := fun hnone => by
      rw [step, if_pos hnone] at h
      cases h
    rw [step_test hsome, Option.some.injEq] at h
    exact h ▸ ⟨List.prefix_refl _, Nat.le_refl _⟩
  | pop =>
    simp only [step, Option.ite_none_left_eq_some, Option.some.injEq] at h
    obtain ⟨-, rfl⟩ := h
    refine ⟨List.prefix_refl _, ?_⟩
    simp only [dropped, List.length_tail]
    omega

section Read

variable {shown : List ε} {index : ℕ}

/-- The reader has read entries of the log, in their order. -/
theorem Read.sublist (h : w.Read shown index) : shown.Sublist w.entries :=
  h.inOrder.trans (List.take_sublist _ _)

/-- **The reader takes the entry at its index**: it is later in the log than those it has read. -/
theorem Read.next {entry : ε} (h : w.Read shown index) (hsuffix : w.memory <:+ w.entries)
    (hentry : w.memory[index]? = some entry) : w.Read (shown ++ [entry]) (index + 1) := by
  have hplace : w.entries[w.dropped + index]? = some entry := by
    rw [List.suffix_iff_eq_drop.mp hsuffix, List.getElem?_drop] at hentry
    exact hentry
  refine ⟨by rw [List.length_append, h.counted, List.length_singleton], ?_⟩
  rw [← Nat.add_assoc, List.take_add_one, hplace, Option.toList_some]
  exact h.inOrder.append (List.Sublist.refl _)

/-- **The reader loses nothing** to the writers: what it has read stays in order. -/
theorem Read.mono (h : w.Read shown index) (hentries : w.entries <+: w'.entries)
    (hdropped : w.dropped ≤ w'.dropped) : w'.Read shown index := by
  have hprefix : w.entries.take (w.dropped + index) <+: w'.entries.take (w'.dropped + index) :=
    List.prefix_take_iff.mpr ⟨(List.take_prefix _ _).trans hentries,
      (List.length_take_le _ _).trans (Nat.add_le_add_right hdropped index)⟩
  exact ⟨h.counted, h.inOrder.trans hprefix.sublist⟩

end Read

end Step

end Window

/-! ## A log of commits -/

section Log

variable {ι : Type*} {ids pre post : List ι} {old new : ι → Option ε} {id : ι}

/-- **What an append adds to the log**: where nothing committed later is appended, the new entry
comes last. -/
theorem filterMap_newest {entry : ε} (hsplit : ids = pre ++ id :: post) (hnodup : ids.Nodup)
    (hold : old id = none) (hnew : new id = some entry) (hother : ∀ i, i ≠ id → new i = old i)
    (hlater : ∀ i ∈ post, old i = none) :
    ids.filterMap new = ids.filterMap old ++ [entry] := by
  subst hsplit
  rw [List.nodup_middle, List.nodup_cons, List.mem_append, not_or] at hnodup
  obtain ⟨⟨hpre, hpost⟩, -⟩ := hnodup
  have hearlier : pre.filterMap new = pre.filterMap old :=
    List.filterMap_congr fun i hi => hother i fun h => hpre (h ▸ hi)
  have hnone : post.filterMap old = [] := List.filterMap_eq_nil_iff.mpr hlater
  have hnone' : post.filterMap new = [] := by
    rw [List.filterMap_congr fun i hi => hother i fun h => hpost (h ▸ hi), hnone]
  simp only [List.filterMap_append, List.filterMap_cons, hold, hnew, hearlier, hnone, hnone',
    List.append_nil]

end Log

end SlidingWindow
