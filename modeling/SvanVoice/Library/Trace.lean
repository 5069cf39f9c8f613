import Mathlib.Data.List.Basic
import Mathlib.Data.List.Induction

/-!
# Runs of a machine with guarded steps

A machine is a function `step : σ → α → Option σ`: the state an action leads to, or `none` where
the action is not enabled. A run is a list of actions, each enabled where it is taken. A total
machine is the guarded one that is always enabled (`total`), and its run is the left fold.

Two readings of a property over a run are used throughout. `Always` speaks of the states a run
visits, its first and last included; `Along` speaks of its steps, each seen as the state before it
and the action taken. Both quantify over the prefixes of the run, so neither mentions the recursion
of `run`. `always_iff_along` is the rule that turns a step law into a run law and back: when each
step keeps `P` exactly if it meets `C`, a run keeps `P` throughout exactly if all its steps meet
`C`.

The last sections collect what the steps of a run put out (`outputs`), and read a log of calls
through the latest entry of one kind.
-/

set_option autoImplicit false

namespace Trace

variable {σ α β : Type*}

/-- The state a list of actions leads to, when every action is enabled where it is taken. -/
def run (step : σ → α → Option σ) : σ → List α → Option σ
  | s, [] => some s
  | s, a :: as => (step s a).bind fun t => run step t as

/-- The guarded machine of a total one. -/
def total (f : σ → α → σ) (s : σ) (a : α) : Option σ := some (f s a)

/-- Every state the run visits satisfies `P`. -/
def Always (step : σ → α → Option σ) (P : σ → Prop) (s : σ) (as : List α) : Prop :=
  ∀ pre post t, as = pre ++ post → run step s pre = some t → P t

/-- Every step of the run satisfies `C`, a condition on the state before it and its action. -/
def Along (step : σ → α → Option σ) (C : σ → α → Prop) (s : σ) (as : List α) : Prop :=
  ∀ pre a post t, as = pre ++ a :: post → run step s pre = some t → C t a

variable {step : σ → α → Option σ}

@[simp] theorem run_nil (s : σ) : run step s [] = some s := rfl

theorem run_cons (s : σ) (a : α) (as : List α) :
    run step s (a :: as) = (step s a).bind fun t => run step t as := rfl

@[simp] theorem run_single {s : σ} {a : α} : run step s [a] = step s a := Option.bind_fun_some _

theorem run_append (s : σ) (as bs : List α) :
    run step s (as ++ bs) = (run step s as).bind fun t => run step t bs := by
  induction as generalizing s with
  | nil => rfl
  | cons a as ih =>
    simp only [List.cons_append, run_cons, Option.bind_assoc]
    exact congrArg _ (funext fun t => ih t)

/-- A run that ends splits at any of its cuts. -/
theorem run_append_eq_some {s u : σ} {as bs : List α} :
    run step s (as ++ bs) = some u ↔ ∃ t, run step s as = some t ∧ run step t bs = some u := by
  rw [run_append, Option.bind_eq_some_iff]

/-- A run of one more action is the run, then the step. -/
theorem run_snoc_eq_some {s u : σ} {as : List α} {a : α} :
    run step s (as ++ [a]) = some u ↔ ∃ t, run step s as = some t ∧ step t a = some u := by
  simp only [run_append_eq_some, run_cons, run_nil, Option.bind_fun_some]

@[simp] theorem run_total (f : σ → α → σ) (s : σ) (as : List α) :
    run (total f) s as = some (as.foldl f s) := by
  induction as generalizing s with
  | nil => rfl
  | cons a as ih => exact ih (f s a)

/-! ## Properties over a run -/

theorem always_nil {P : σ → Prop} {s : σ} : Always step P s [] ↔ P s := by
  constructor
  · intro h
    exact h [] [] s rfl rfl
  · intro hs pre post t hsplit hrun
    obtain ⟨rfl, rfl⟩ := List.append_eq_nil_iff.mp hsplit.symm
    cases hrun
    exact hs

theorem always_cons {P : σ → Prop} {s : σ} {a : α} {as : List α} :
    Always step P s (a :: as) ↔ P s ∧ ∀ t, step s a = some t → Always step P t as := by
  constructor
  · intro h
    refine ⟨h [] (a :: as) s rfl rfl, fun t ht pre post u hsplit hrun => ?_⟩
    refine h (a :: pre) post u (by rw [hsplit]; rfl) ?_
    rw [run_cons, ht]
    exact hrun
  · intro h pre post u hsplit hrun
    obtain ⟨hs, hrest⟩ := h
    cases pre with
    | nil => cases hrun; exact hs
    | cons b pre =>
      obtain ⟨rfl, rfl⟩ := List.cons.inj hsplit
      obtain ⟨t, ht, hrun⟩ := Option.bind_eq_some_iff.mp hrun
      exact hrest t ht pre post u rfl hrun

theorem along_cons {C : σ → α → Prop} {s : σ} {a : α} {as : List α} :
    Along step C s (a :: as) ↔ C s a ∧ ∀ t, step s a = some t → Along step C t as := by
  constructor
  · intro h
    refine ⟨h [] a as s rfl rfl, fun t ht pre b post u hsplit hrun => ?_⟩
    refine h (a :: pre) b post u (by rw [hsplit]; rfl) ?_
    rw [run_cons, ht]
    exact hrun
  · intro h pre b post u hsplit hrun
    obtain ⟨hs, hrest⟩ := h
    cases pre with
    | nil =>
      obtain ⟨rfl, rfl⟩ := List.cons.inj hsplit
      cases hrun
      exact hs
    | cons c pre =>
      obtain ⟨rfl, rfl⟩ := List.cons.inj hsplit
      obtain ⟨t, ht, hrun⟩ := Option.bind_eq_some_iff.mp hrun
      exact hrest t ht pre b post u rfl hrun

theorem along_nil {C : σ → α → Prop} {s : σ} : Along step C s [] := by
  intro pre a post t hsplit
  exact absurd hsplit.symm (by simp only [List.append_eq_nil_iff, reduceCtorEq, and_false,
    not_false_eq_true])

/-- A run is checked step by step. -/
instance decidableAlong {C : σ → α → Prop} [∀ s a, Decidable (C s a)] :
    ∀ s as, Decidable (Along step C s as)
  | _, [] => .isTrue along_nil
  | s, a :: as =>
    have : Decidable (∀ t, step s a = some t → Along step C t as) :=
      match step s a with
      | none => .isTrue fun _ ht => absurd ht (Option.some_ne_none _).symm
      | some t =>
        have : Decidable (Along step C t as) := decidableAlong t as
        decidable_of_iff (Along step C t as)
          ⟨fun hall _ ht => Option.some.inj ht ▸ hall, fun hall => hall t rfl⟩
    decidable_of_iff (C s a ∧ ∀ t, step s a = some t → Along step C t as) along_cons.symm

/-- A condition on every step holds on every first part of the run. -/
theorem Along.left {C : σ → α → Prop} {s : σ} {as bs : List α}
    (h : Along step C s (as ++ bs)) : Along step C s as :=
  fun pre a post t hsplit hrun =>
    h pre a (post ++ bs) t (by rw [hsplit, List.append_assoc]; rfl) hrun

/-- A condition on every step holds on what follows a first part that ends. -/
theorem Along.right {C : σ → α → Prop} {s t : σ} {as bs : List α}
    (h : Along step C s (as ++ bs)) (hrun : run step s as = some t) : Along step C t bs := by
  intro pre a post u hsplit hpre
  refine h (as ++ pre) a post u (by rw [hsplit, List.append_assoc]) ?_
  exact run_append_eq_some.mpr ⟨t, hrun, hpre⟩

/-- One more step that meets the condition. -/
theorem along_snoc {C : σ → α → Prop} {s t : σ} {as : List α} {a : α} (h : Along step C s as)
    (hrun : run step s as = some t) (ha : C t a) : Along step C s (as ++ [a]) := by
  intro pre b post u hsplit hpre
  rcases List.eq_nil_or_concat post with rfl | ⟨rest, last, rfl⟩
  · obtain ⟨rfl, hb⟩ := List.append_inj' hsplit rfl
    cases hb
    cases hrun.symm.trans hpre
    exact ha
  · rw [List.concat_eq_append, ← List.cons_append, ← List.append_assoc] at hsplit
    exact h pre b rest u (List.append_inj' hsplit rfl).1 hpre

/-- **The invariant rule.** What the first state has and every step of the run keeps, under a
condition that every step meets, the last state has. -/
theorem invariant_along {I : σ → Prop} {C : σ → α → Prop}
    (keeps : ∀ s a t, I s → C s a → step s a = some t → I t) {s u : σ} {as : List α}
    (hs : I s) (hC : Along step C s as) (hrun : run step s as = some u) : I u := by
  induction as generalizing s with
  | nil => cases hrun; exact hs
  | cons a as ih =>
    obtain ⟨t, ht, hrun⟩ := Option.bind_eq_some_iff.mp hrun
    obtain ⟨hc, hrest⟩ := along_cons.mp hC
    exact ih (keeps s a t hs hc ht) (hrest t ht) hrun

/-- The invariant rule where every step keeps it. -/
theorem invariant {I : σ → Prop} (keeps : ∀ s a t, I s → step s a = some t → I t) {s u : σ}
    {as : List α} (hs : I s) (hrun : run step s as = some u) : I u :=
  invariant_along (C := fun _ _ => True) (fun s a t h _ => keeps s a t h) hs
    (fun _ _ _ _ _ _ => trivial) hrun

/-- **The history rule.** What holds of the empty history and is carried over each further step
holds of every history and the state it leads to. -/
theorem history {I : List α → σ → Prop} {s u : σ} {as : List α} (start : I [] s)
    (carries : ∀ as a t u, run step s as = some t → step t a = some u → I as t → I (as ++ [a]) u)
    (hrun : run step s as = some u) : I as u := by
  induction as using List.reverseRecOn generalizing u with
  | nil => cases hrun; exact start
  | append_singleton as a ih =>
    obtain ⟨t, ht, hstep⟩ := run_snoc_eq_some.mp hrun
    exact carries as a t u ht hstep (ih ht)

/-- Two step conditions that agree where the invariant holds agree along every run. -/
theorem along_congr {I : σ → Prop} {C C' : σ → α → Prop}
    (keeps : ∀ s a t, I s → step s a = some t → I t) (agree : ∀ s a, I s → (C s a ↔ C' s a))
    {s : σ} {as : List α} (hI : I s) : Along step C s as ↔ Along step C' s as := by
  have hreach : ∀ pre t, run step s pre = some t → I t := fun _ _ h => invariant keeps hI h
  constructor
  · intro h pre a post t hsplit hrun
    exact (agree t a (hreach pre t hrun)).mp (h pre a post t hsplit hrun)
  · intro h pre a post t hsplit hrun
    exact (agree t a (hreach pre t hrun)).mpr (h pre a post t hsplit hrun)

/-- **The exactness rule.** Where each step from a good state keeps `P` exactly if it meets `C`, a
run keeps `P` in all its states exactly if all its steps meet `C`. -/
theorem always_iff_along {I P : σ → Prop} {C : σ → α → Prop}
    (keeps : ∀ s a t, I s → step s a = some t → I t)
    (exact_step : ∀ s a t, I s → P s → step s a = some t → (P t ↔ C s a))
    {s u : σ} {as : List α} (hI : I s) (hP : P s) (hrun : run step s as = some u) :
    Always step P s as ↔ Along step C s as := by
  induction as generalizing s with
  | nil => exact ⟨fun _ => along_nil, fun _ => always_nil.mpr hP⟩
  | cons a as ih =>
    obtain ⟨t, ht, hrun⟩ := Option.bind_eq_some_iff.mp hrun
    have hstep := exact_step s a t hI hP ht
    have hIt := keeps s a t hI ht
    rw [always_cons, along_cons]
    constructor
    · intro hall
      obtain ⟨-, h⟩ := hall
      have hPt : P t := h t ht [] as t rfl rfl
      refine ⟨hstep.mp hPt, fun t' ht' => ?_⟩
      cases ht.symm.trans ht'
      exact (ih hIt hPt hrun).mp (h t ht)
    · intro hall
      obtain ⟨hc, h⟩ := hall
      refine ⟨hP, fun t' ht' => ?_⟩
      cases ht.symm.trans ht'
      exact (ih hIt (hstep.mpr hc) hrun).mpr (h t ht)

/-- **The progress rule.** Where from each good state short of the goal some step leads to a good
state of lower rank, a run leads to the goal, no longer than the rank. -/
theorem exists_run {I G : σ → Prop} {P : α → Prop} {rank : σ → ℕ}
    (progress : ∀ s, I s → ¬ G s → ∃ a t, step s a = some t ∧ P a ∧ I t ∧ rank t < rank s)
    {s : σ} (hs : I s) :
    ∃ as t, run step s as = some t ∧ G t ∧ I t ∧ (∀ a ∈ as, P a) ∧ as.length ≤ rank s := by
  induction hrank : rank s using Nat.strongRecOn generalizing s with
  | _ n ih =>
    by_cases hgoal : G s
    · exact ⟨[], s, rfl, hgoal, hs, nofun, Nat.zero_le _⟩
    · obtain ⟨a, t, hstep, ha, ht, hlt⟩ := progress s hs hgoal
      obtain ⟨as, u, hrun, hu, hI, hall, hlength⟩ := ih (rank t) (hrank ▸ hlt) ht rfl
      refine ⟨a :: as, u, Option.bind_eq_some_iff.mpr ⟨t, hstep, hrun⟩, hu, hI, ?_, ?_⟩
      · intro a' ha'
        rcases List.mem_cons.mp ha' with rfl | hrest
        · exact ha
        · exact hall a' hrest
      · rw [List.length_cons, ← hrank]
        exact Nat.succ_le_of_lt (Nat.lt_of_le_of_lt hlength hlt)

/-- **The potential rule.** Where every step that counts lowers what a good state holds and no other
step raises it, a run counts no more steps than the first state holds. -/
theorem countP_le {I : σ → Prop} {p : α → Bool} (holds : σ → ℕ)
    (keeps : ∀ s a t, I s → step s a = some t → I t)
    (pays : ∀ s a t, I s → step s a = some t → (if p a then 1 else 0) + holds t ≤ holds s)
    {s u : σ} {as : List α} (hs : I s) (hrun : run step s as = some u) :
    as.countP p + holds u ≤ holds s := by
  induction as generalizing s with
  | nil =>
    cases hrun
    exact Nat.le_of_eq (by rw [List.countP_nil, Nat.zero_add])
  | cons a as ih =>
    obtain ⟨t, ht, hrun⟩ := Option.bind_eq_some_iff.mp hrun
    have hfirst := pays s a t hs ht
    have hrest := ih (keeps s a t hs ht) hrun
    rw [List.countP_cons]
    omega

/-- **The simulation rule.** Where each step of one machine is the image of a step of another, and
none where that has none, each run is the image of a run. -/
theorem run_map {τ γ : Type*} {step' : τ → γ → Option τ} {g : σ → τ} {h : α → γ}
    (image : ∀ s a, step' (g s) (h a) = (step s a).map g) (s : σ) (as : List α) :
    run step' (g s) (as.map h) = (run step s as).map g := by
  induction as generalizing s with
  | nil => rfl
  | cons a as ih =>
    rw [List.map_cons, run_cons, run_cons, image]
    cases step s a with
    | none => rfl
    | some t => exact ih t

/-- **The projection rule.** Where each step of a machine is a step of a part of it, or leaves the
part alone, each run is a run of the part. -/
theorem run_filterMap {τ γ : Type*} {step' : τ → γ → Option τ} {g : σ → τ} {f : α → Option γ}
    (part : ∀ s a t, step s a = some t →
      (∃ c, f a = some c ∧ step' (g s) c = some (g t)) ∨ f a = none ∧ g t = g s)
    {s u : σ} {as : List α} (hrun : run step s as = some u) :
    run step' (g s) (as.filterMap f) = some (g u) := by
  induction as generalizing s with
  | nil =>
    cases hrun
    rfl
  | cons a as ih =>
    obtain ⟨t, ht, hrun⟩ := Option.bind_eq_some_iff.mp hrun
    rcases part s a t ht with ⟨c, ha, hc⟩ | ⟨hnone, hsame⟩
    · rw [List.filterMap_cons_some ha]
      exact Option.bind_eq_some_iff.mpr ⟨g t, hc, ih hrun⟩
    · rw [List.filterMap_cons_none hnone, ← hsame]
      exact ih hrun

/-- **The stuttering rule.** Where each step of one machine leaves its image in another alone or is
a step of it, the image of each run is a run, each of whose steps is the image of a step. -/
theorem exists_image {τ γ : Type*} {step' : τ → γ → Option τ} {g : σ → τ} {I : σ → Prop}
    {R : σ → α → γ → Prop} (keeps : ∀ s a t, I s → step s a = some t → I t)
    (image : ∀ s a t, I s → step s a = some t →
      g t = g s ∨ ∃ c, step' (g s) c = some (g t) ∧ R s a c)
    {s u : σ} {as : List α} (hs : I s) (hrun : run step s as = some u) :
    ∃ cs, run step' (g s) cs = some (g u) ∧ ∀ c ∈ cs, ∃ pre a post t,
      as = pre ++ a :: post ∧ run step s pre = some t ∧ R t a c := by
  induction as generalizing s with
  | nil =>
    cases hrun
    exact ⟨[], rfl, nofun⟩
  | cons a as ih =>
    obtain ⟨t, ht, hrun⟩ := Option.bind_eq_some_iff.mp hrun
    obtain ⟨cs, hcs, hall⟩ := ih (keeps s a t hs ht) hrun
    have hlater : ∀ c ∈ cs, ∃ pre a' post t',
        a :: as = pre ++ a' :: post ∧ run step s pre = some t' ∧ R t' a' c := by
      intro c hc
      obtain ⟨pre, a', post, t', rfl, hpre, hR⟩ := hall c hc
      exact ⟨a :: pre, a', post, t', rfl, Option.bind_eq_some_iff.mpr ⟨t, ht, hpre⟩, hR⟩
    rcases image s a t hs ht with hsame | ⟨c, hc, hR⟩
    · exact ⟨cs, hsame ▸ hcs, hlater⟩
    · refine ⟨c :: cs, Option.bind_eq_some_iff.mpr ⟨_, hc, hcs⟩, fun c' hc' => ?_⟩
      rcases List.mem_cons.mp hc' with rfl | hrest
      · exact ⟨[], a, as, s, rfl, rfl, hR⟩
      · exact hlater c' hrest

/-! ## What the steps put out -/

/-- What `f` reads off the steps of a run, in their order. -/
def outputs (step : σ → α → Option σ) (f : σ → α → Option β) : σ → List α → List β
  | _, [] => []
  | s, a :: as => (f s a).toList ++ ((step s a).map fun t => outputs step f t as).getD []

/-- One more step puts out what `f` reads off it. -/
theorem outputs_snoc {f : σ → α → Option β} {s t : σ} {as : List α} {a : α}
    (hrun : run step s as = some t) :
    outputs step f s (as ++ [a]) = outputs step f s as ++ (f t a).toList := by
  induction as generalizing s with
  | nil =>
    cases hrun
    rw [List.nil_append, outputs, outputs, List.nil_append]
    cases step t a with
    | none => exact List.append_nil _
    | some u => exact List.append_nil _
  | cons a' as ih =>
    obtain ⟨u, hu, hrun⟩ := Option.bind_eq_some_iff.mp hrun
    rw [List.cons_append, outputs, outputs, hu, Option.map_some, Option.map_some,
      Option.getD_some, Option.getD_some, ih hrun, List.append_assoc]

/-! ## The latest entry of a log -/

/-- The latest entry of a log that `f` reads, as `f` reads it. -/
def latest (f : α → Option β) (log : List α) : Option β := (log.filterMap f).getLast?

theorem latest_append (f : α → Option β) (log more : List α) :
    latest f (log ++ more) = (latest f more).or (latest f log) := by
  simp only [latest, List.filterMap_append, List.getLast?_append]

/-- The latest entry after one more: that one, if `f` reads it. -/
@[simp] theorem latest_snoc (f : α → Option β) (log : List α) (a : α) :
    latest f (log ++ [a]) = (f a).or (latest f log) := by
  rw [latest_append]
  cases h : f a <;> simp only [latest, List.filterMap_cons, List.filterMap_nil, h,
    List.getLast?_nil, List.getLast?_singleton]

end Trace
