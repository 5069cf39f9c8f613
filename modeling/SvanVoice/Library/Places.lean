import Mathlib.Data.List.Forall2
import Mathlib.Data.List.Pairwise
import Mathlib.Data.List.ReduceOption

/-!
# Places in a history

A reader of a growing list may see some of its entries only, see them late and see them more than
once. It is in order (`InOrder`) when the places of what it sees never go back.

A log answers to a list of sources (`AnswersTo`) when each of its entries is asked for by the source
at some place, or is the writer's own. Where the sources were read from a history themselves, the
log answers to the history (`AnswersTo.through`), and two readings in order make one in order
(`pairwise_through`).
-/

set_option autoImplicit false

namespace Places

variable {α β : Type*}

/-! ## Reading in order -/

/-- The entries of `xs` are entries of the history, at places that never go back. -/
def InOrder (xs history : List α) : Prop :=
  ∃ ks : List ℕ, ks.Pairwise (· ≤ ·) ∧ xs.map some = ks.map (history[·]?)

variable {xs ys history : List α} {x : α}

theorem place_lt {ks : List ℕ} (h : xs.map some = ks.map (history[·]?)) :
    ∀ k ∈ ks, k < history.length := by
  intro k hk
  have hmem : history[k]? ∈ xs.map some := h ▸ List.mem_map_of_mem hk
  obtain ⟨x, -, hx⟩ := List.mem_map.mp hmem
  exact (List.getElem?_eq_some_iff.mp hx.symm).1

theorem inOrder_nil (history : List α) : InOrder [] history := ⟨[], List.Pairwise.nil, rfl⟩

theorem InOrder.mem (h : InOrder xs history) : ∀ x ∈ xs, x ∈ history := by
  obtain ⟨ks, -, hplaces⟩ := h
  intro x hx
  have hmem : some x ∈ ks.map (history[·]?) := hplaces ▸ List.mem_map_of_mem hx
  obtain ⟨k, -, hk⟩ := List.mem_map.mp hmem
  exact List.mem_of_getElem? hk

/-- More of the history at its end leaves the places as they are. -/
theorem InOrder.append (h : InOrder xs history) (more : List α) :
    InOrder xs (history ++ more) := by
  obtain ⟨ks, hsorted, hplaces⟩ := h
  refine ⟨ks, hsorted, hplaces.trans (List.map_congr_left fun k hk => ?_)⟩
  exact (List.getElem?_append_left (place_lt hplaces k hk)).symm

/-- The latest entry has the last place. -/
theorem InOrder.snoc (h : InOrder xs history) (hx : history.getLast? = some x) :
    InOrder (xs ++ [x]) history := by
  obtain ⟨ks, hsorted, hplaces⟩ := h
  refine ⟨ks ++ [history.length - 1], ?_, ?_⟩
  · refine List.pairwise_append.mpr ⟨hsorted, List.pairwise_singleton _ _, fun k hk l hl => ?_⟩
    rw [List.mem_singleton.mp hl]
    exact Nat.le_sub_one_of_lt (place_lt hplaces k hk)
  · rw [List.map_append, List.map_append, hplaces, List.map_singleton, List.map_singleton,
      ← hx, List.getLast?_eq_getElem?]

/-- The first part of what is read in order. -/
theorem InOrder.left (h : InOrder (xs ++ ys) history) : InOrder xs history := by
  obtain ⟨ks, hsorted, hplaces⟩ := h
  rw [List.map_append] at hplaces
  obtain ⟨js, ls, rfl, hjs, -⟩ := List.append_eq_map_iff.mp hplaces
  exact ⟨js, (List.pairwise_append.mp hsorted).1, hjs.symm⟩

/-! ## Logs that answer to a list -/

section AnswersTo

variable {own : β → Prop} {asks : α → β → Prop} {sources : List α} {places : List (Option ℕ)}
  {log : List β} {entry : β}

/-- The source at a place asks for the entry; an entry without a place is the writer's own. -/
def AskedAt (own : β → Prop) (asks : α → β → Prop) (sources : List α) : Option ℕ → β → Prop
  | some k, entry => ∃ a, sources[k]? = some a ∧ asks a entry
  | none, entry => own entry

/-- Each entry of the log is asked for at its place. -/
def AnswersTo (own : β → Prop) (asks : α → β → Prop) (sources : List α) :
    List (Option ℕ) → List β → Prop :=
  List.Forall₂ (AskedAt own asks sources)

/-- More sources at the end leave the places as they are. -/
theorem AnswersTo.append_sources (h : AnswersTo own asks sources places log) (more : List α) :
    AnswersTo own asks (sources ++ more) places log := by
  refine List.Forall₂.imp (fun place entry hasked => ?_) h
  cases place with
  | none => exact hasked
  | some k =>
    obtain ⟨a, ha, hasks⟩ := hasked
    refine ⟨a, ?_, hasks⟩
    rw [List.getElem?_append_left (List.getElem?_eq_some_iff.mp ha).1]
    exact ha

/-- Further entries that are all asked for at one place. -/
theorem AnswersTo.append (h : AnswersTo own asks sources places log) {place : Option ℕ}
    {more : List β} (hmore : ∀ entry ∈ more, AskedAt own asks sources place entry) :
    AnswersTo own asks sources (places ++ List.replicate more.length place) (log ++ more) := by
  rw [← List.map_const']
  exact List.rel_append h (List.forall₂_map_left_iff.mpr (List.forall₂_same.mpr hmore))

/-- What an entry answers to. -/
theorem AnswersTo.of_mem (h : AnswersTo own asks sources places log) (hentry : entry ∈ log) :
    own entry ∨ ∃ a ∈ sources, asks a entry := by
  induction h with
  | nil => cases hentry
  | @cons place entry' places log hasked _ ih =>
    rcases List.mem_cons.mp hentry with rfl | hrest
    · cases place with
      | none => exact .inl hasked
      | some k =>
        obtain ⟨a, ha, hasks⟩ := hasked
        exact .inr ⟨a, List.mem_of_getElem? ha, hasks⟩
    · exact ih hrest

/-- The places of a log, where its sources were read at places of their own. -/
def through (ks : List ℕ) (places : List (Option ℕ)) : List (Option ℕ) :=
  places.map (Option.bind · (ks[·]?))

/-- A log answers to the history that its sources were read from. -/
theorem AnswersTo.through {ks : List ℕ} (h : AnswersTo own asks sources places log)
    (hread : sources.map some = ks.map (history[·]?)) :
    AnswersTo own asks history (through ks places) log := by
  refine List.forall₂_map_left_iff.mpr (List.Forall₂.imp (fun place entry hasked => ?_) h)
  cases place with
  | none => exact hasked
  | some j =>
    obtain ⟨a, ha, hasks⟩ := hasked
    have hplace : (ks.map (history[·]?))[j]? = some (some a) := by
      rw [← hread, List.getElem?_map, ha, Option.map_some]
    rw [List.getElem?_map] at hplace
    obtain ⟨k, hk, hhistory⟩ := Option.map_eq_some_iff.mp hplace
    show AskedAt own asks history (ks[j]?) entry
    rw [hk]
    exact ⟨a, hhistory, hasks⟩

/-- A later place of a sorted list is no smaller. -/
theorem le_of_getElem? {ks : List ℕ} (hks : ks.Pairwise (· ≤ ·)) {i j k l : ℕ} (hij : i ≤ j)
    (hi : ks[i]? = some k) (hj : ks[j]? = some l) : k ≤ l := by
  obtain ⟨hilt, rfl⟩ := List.getElem?_eq_some_iff.mp hi
  obtain ⟨hjlt, rfl⟩ := List.getElem?_eq_some_iff.mp hj
  rcases Nat.eq_or_lt_of_le hij with rfl | hlt
  · exact Nat.le_refl _
  · exact List.pairwise_iff_getElem.mp hks i j hilt hjlt hlt

/-- Places in order, through places in order, are in order. -/
theorem pairwise_through {ks : List ℕ} (hks : ks.Pairwise (· ≤ ·))
    (hplaces : places.reduceOption.Pairwise (· ≤ ·)) :
    (through ks places).reduceOption.Pairwise (· ≤ ·) := by
  have hreduce : (through ks places).reduceOption = places.reduceOption.filterMap (ks[·]?) := by
    simp only [through, List.reduceOption, List.filterMap_filterMap, List.filterMap_map]
    rfl
  rw [hreduce, List.pairwise_filterMap]
  exact hplaces.imp fun hij k hk l hl => le_of_getElem? hks hij hk hl

end AnswersTo

end Places
