import Mathlib.Order.Interval.Set.UnorderedInterval

/-!
# A linear order with one unordered value

`WithNaN α` is a linear order `α` with one more value, `nan`, for which every `<` is false. It is
the order of a floating-point type seen through its comparisons. `stdMin` and `stdMax` are the C++
library's `std::min` and `std::max`: each returns its first argument unless one strict comparison
says otherwise, so on `α` they are the lattice operations and on `nan` the order of the arguments
decides.

`confine` is the nesting of the two that keeps a value between two bounds. On a number it is the
nearest number between the bounds (`nearest_confine`); on `nan` it is a bound (`confine_nan`), so
its answer is a number in every case (`exists_confine`).
-/

set_option autoImplicit false

variable {α : Type*}

/-- A value of `α`, or the unordered `nan`. -/
inductive WithNaN (α : Type*) where
  | nan
  | num (x : α)
  deriving DecidableEq

namespace WithNaN

/-- The strict order: `nan` is below nothing and above nothing. -/
protected def Lt [LT α] : WithNaN α → WithNaN α → Prop
  | num x, num y => x < y
  | _, _ => False

instance [LT α] : LT (WithNaN α) := ⟨WithNaN.Lt⟩

theorem num_lt_num [LT α] {x y : α} : (num x < num y) ↔ x < y := Iff.rfl

theorem not_nan_lt [LT α] (b : WithNaN α) : ¬ nan < b := id

instance decidableLt [LT α] [DecidableLT α] : DecidableLT (WithNaN α)
  | num x, num y => inferInstanceAs (Decidable (x < y))
  | nan, _ => .isFalse id
  | num _, nan => .isFalse id

/-- A function on the numbers; `nan` stays. -/
def map {β : Type*} (f : α → β) : WithNaN α → WithNaN β
  | nan => nan
  | num x => num (f x)

variable [LinearOrder α]

/-- `std::min(a, b)`: `b` where `b < a`, else `a`. -/
def stdMin (a b : WithNaN α) : WithNaN α := if b < a then b else a

/-- `std::max(a, b)`: `b` where `a < b`, else `a`. -/
def stdMax (a b : WithNaN α) : WithNaN α := if a < b then b else a

/-- A value kept between two bounds, the upper bound applied first. -/
def confine (v lo hi : WithNaN α) : WithNaN α := stdMax lo (stdMin hi v)

theorem stdMin_num (x y : α) : stdMin (num x) (num y) = num (min x y) := by
  unfold stdMin
  by_cases h : y < x
  · rw [if_pos (num_lt_num.mpr h), min_eq_right h.le]
  · rw [if_neg (fun hn => h (num_lt_num.mp hn)), min_eq_left (not_lt.mp h)]

theorem stdMax_num (x y : α) : stdMax (num x) (num y) = num (max x y) := by
  unfold stdMax
  by_cases h : x < y
  · rw [if_pos (num_lt_num.mpr h), max_eq_right h.le]
  · rw [if_neg (fun hn => h (num_lt_num.mp hn)), max_eq_left (not_lt.mp h)]

/-- The unordered value loses to the first argument. -/
theorem stdMin_nan (a : WithNaN α) : stdMin a nan = a := if_neg (not_nan_lt a)

theorem confine_num (x lo hi : α) :
    confine (num x) (num lo) (num hi) = num (max lo (min hi x)) := by
  rw [confine, stdMin_num, stdMax_num]

/-- `nan` is confined to a bound: the upper one, where the bounds are in order. -/
theorem confine_nan (lo hi : α) : confine nan (num lo) (num hi) = num (max lo hi) := by
  rw [confine, stdMin_nan, stdMax_num]

/-- A number between the bounds is left as it is. -/
theorem confine_of_mem {x lo hi : α} (hlo : lo ≤ x) (hhi : x ≤ hi) :
    confine (num x) (num lo) (num hi) = num x := by
  rw [confine_num, min_eq_right hhi, max_eq_right hlo]

/-- `y` is the value between `lo` and `hi` nearest to `x`: of the values between the bounds, none
but `y` lies between `x` and `y`. -/
def Nearest (lo hi x y : α) : Prop :=
  y ∈ Set.Icc lo hi ∧ ∀ z ∈ Set.Icc lo hi, z ∈ Set.uIcc x y → z = y

/-- The place of a number between two bounds is the nearest value between them. -/
theorem nearest_max_min {lo hi : α} (h : lo ≤ hi) (x : α) :
    Nearest lo hi x (max lo (min hi x)) := by
  refine ⟨⟨le_max_left _ _, max_le h (min_le_left _ _)⟩, fun z hz hbetween => ?_⟩
  obtain ⟨hlo, hhi⟩ := hz
  rcases le_total x lo with hbelow | habove
  · -- below the bounds: the nearest value is `lo`
    rw [min_eq_right (hbelow.trans h), max_eq_left hbelow] at hbetween ⊢
    rw [Set.uIcc_of_le hbelow] at hbetween
    exact le_antisymm hbetween.2 hlo
  rcases le_total x hi with hinside | hbeyond
  · -- between the bounds: the nearest value is `x`
    rw [min_eq_right hinside, max_eq_right habove] at hbetween ⊢
    rw [Set.uIcc_self] at hbetween
    exact Set.mem_singleton_iff.mp hbetween
  · -- above the bounds: the nearest value is `hi`
    rw [min_eq_left hbeyond, max_eq_right h] at hbetween ⊢
    rw [Set.uIcc_of_ge hbeyond] at hbetween
    exact le_antisymm hhi hbetween.1

/-- A number is confined to the nearest value between the bounds. -/
theorem nearest_confine (x : α) {lo hi : α} (h : lo ≤ hi) :
    ∃ y, confine (num x) (num lo) (num hi) = num y ∧ Nearest lo hi x y :=
  ⟨max lo (min hi x), confine_num x lo hi, nearest_max_min h x⟩

/-- Whatever the value, the confined one is a number between the bounds. -/
theorem exists_confine (v : WithNaN α) {lo hi : α} (h : lo ≤ hi) :
    ∃ y, confine v (num lo) (num hi) = num y ∧ lo ≤ y ∧ y ≤ hi := by
  cases v with
  | nan => exact ⟨max lo hi, confine_nan lo hi, le_max_left lo hi, max_le h le_rfl⟩
  | num x =>
    exact ⟨max lo (min hi x), confine_num x lo hi, le_max_left _ _, max_le h (min_le_left _ _)⟩

/-! ## Functions that keep the order -/

section Map

variable {β : Type*} [LinearOrder β] {f : α → β} (hf : Monotone f)

include hf

theorem map_stdMin (a b : WithNaN α) : (stdMin a b).map f = stdMin (a.map f) (b.map f) := by
  cases a with
  | nan => cases b <;> rfl
  | num x =>
    cases b with
    | nan => rfl
    | num y => rw [stdMin_num, map, map, map, stdMin_num, hf.map_min]

theorem map_stdMax (a b : WithNaN α) : (stdMax a b).map f = stdMax (a.map f) (b.map f) := by
  cases a with
  | nan => cases b <;> rfl
  | num x =>
    cases b with
    | nan => rfl
    | num y => rw [stdMax_num, map, map, map, stdMax_num, hf.map_max]

/-- A value may be confined before or after, if the bounds go through the function too. -/
theorem map_confine (v lo hi : WithNaN α) :
    (confine v lo hi).map f = confine (v.map f) (lo.map f) (hi.map f) := by
  rw [confine, map_stdMax hf, map_stdMin hf, confine]

end Map

end WithNaN
