import Mathlib.Data.List.Basic

/-!
# Edge pulses over a lossy link

A sender announces a value only when it changes: on a change it presses for `n` frames, one frame a
value, and it is silent for the rest of the block of equal values. A receiver latches the value of
each pressed frame it hears and ignores the silent ones. The link loses frames.

The sender keeps the value it last sent and how many presses it still owes. The receiver keeps only
the latched value, so the two can disagree: the latch is right exactly when enough of the right
frames arrive. The first result says where the presses are, the others how many are enough.

* `pressed_iff`: from a fresh sender, a frame is pressed exactly if it is one of the first `n` of
  its block (`blockStart`), so a block is announced `n` times, or as often as it is long
  (`Block.countP_pressed`).
* `ms_of_silent`: so a silent frame and the `n` frames before it carry one value.
* `hear_of_losesFewer`: and if fewer than `n` frames in a row are ever lost, the latch is the sent
  value after each delivered frame, however short the blocks are.
* `foldl_hear_steady`: from any sender and any latch, a steady run of one value reaches the latch
  exactly if the sender presses at its start or the latch holds the value already.
-/

set_option autoImplicit false

namespace EdgePulse

variable {μ : Type*} [DecidableEq μ]

/-- The sender: the value of the last frame and the presses still owed. -/
structure Sender (μ : Type*) where
  last : μ
  hold : ℕ
  deriving DecidableEq

/-- Presses owed at the frame that carries `m`: reloaded to `n` by a change. -/
def Sender.owed (n : ℕ) (s : Sender μ) (m : μ) : ℕ := if m = s.last then s.hold else n

/-- One frame: it is pressed while presses are owed, and pays for one. -/
def Sender.send (n : ℕ) (s : Sender μ) (m : μ) : Sender μ × Bool :=
  (⟨m, s.owed n m - 1⟩, decide (0 < s.owed n m))

/-- The frames of a list of values: each value with whether its frame is pressed. -/
def frames (n : ℕ) : Sender μ → List μ → List (μ × Bool)
  | _, [] => []
  | s, m :: ms => (m, (s.send n m).2) :: frames n (s.send n m).1 ms

/-- The receiver: a pressed frame sets the latch. -/
def hear (cur : μ) (f : μ × Bool) : μ := if f.2 then f.1 else cur

theorem owed_same (n : ℕ) {s : Sender μ} {m : μ} (h : m = s.last) : s.owed n m = s.hold := if_pos h

theorem owed_change (n : ℕ) {s : Sender μ} {m : μ} (h : m ≠ s.last) : s.owed n m = n := if_neg h

/-- A silent frame leaves the sender owing nothing. -/
theorem send_of_owed_zero {n : ℕ} {s : Sender μ} {m : μ} (h : s.owed n m = 0) :
    s.send n m = (⟨m, 0⟩, false) := by
  simp only [Sender.send, h, Nat.zero_sub, Nat.lt_irrefl, decide_false]

@[simp] theorem frames_length (n : ℕ) (s : Sender μ) (ms : List μ) :
    (frames n s ms).length = ms.length := by
  induction ms generalizing s with
  | nil => rfl
  | cons m ms ih => simp only [frames, List.length_cons, ih]

/-- A frame carries the value it was sent for. -/
theorem frames_fst (n : ℕ) (s : Sender μ) (ms : List μ) : (frames n s ms).map Prod.fst = ms := by
  induction ms generalizing s with
  | nil => rfl
  | cons m ms ih => simp only [frames, List.map_cons, ih]

theorem value_of_frame {n : ℕ} {s : Sender μ} {ms : List μ} {k : ℕ} {f : μ × Bool}
    (h : (frames n s ms)[k]? = some f) : ms[k]? = some f.1 := by
  have hk := congrArg (fun l => l[k]?) (frames_fst n s ms)
  simp only [List.getElem?_map, h, Option.map_some] at hk
  exact hk.symm

/-! ## Blocks -/

/-- Where the block of equal values that holds the place `i` begins. -/
def blockStart (ms : List μ) : ℕ → ℕ
  | 0 => 0
  | i + 1 => if ms[i]? = ms[i + 1]? then blockStart ms i else i + 1

/-- A maximal block: `len` places from `start` on carry `m`, and neither neighbour does. -/
structure Block (ms : List μ) (start len : ℕ) (m : μ) : Prop where
  steady : ∀ i, start ≤ i → i < start + len → ms[i]? = some m
  left : ∀ i, i + 1 = start → ms[i]? ≠ some m
  right : ms[start + len]? ≠ some m

theorem blockStart_le (ms : List μ) (i : ℕ) : blockStart ms i ≤ i := by
  induction i with
  | zero => exact Nat.le_refl 0
  | succ i ih =>
    rw [blockStart]
    split
    · exact Nat.le_succ_of_le ih
    · exact Nat.le_refl _

/-- From where its block begins, every place up to `i` carries the value at `i`. -/
theorem getElem?_of_blockStart {ms : List μ} {i j : ℕ} (hstart : blockStart ms i ≤ j)
    (hj : j ≤ i) : ms[j]? = ms[i]? := by
  induction i with
  | zero => rw [Nat.le_zero.mp hj]
  | succ i ih =>
    rcases Nat.lt_or_eq_of_le hj with hlt | rfl
    · rw [blockStart] at hstart
      split at hstart
      · next hsame => rw [← hsame, ih hstart (Nat.le_of_lt_succ hlt)]
      · omega
    · rfl

/-- The place before a block carries another value. -/
theorem getElem?_before_blockStart {ms : List μ} {i j : ℕ} (h : j + 1 = blockStart ms i) :
    ms[j]? ≠ ms[i]? := by
  induction i with
  | zero => cases h
  | succ i ih =>
    rw [blockStart] at h
    split at h
    · next hsame =>
      rw [← hsame]
      exact ih h
    · next hchange =>
      obtain rfl : j = i := Nat.succ.inj h
      exact hchange

/-- All places of a block find the same beginning. -/
theorem Block.blockStart_eq {ms : List μ} {start len : ℕ} {m : μ} (h : Block ms start len m)
    {i : ℕ} (hstart : start ≤ i) (hi : i < start + len) : blockStart ms i = start := by
  have hm := h.steady i hstart hi
  rcases Nat.lt_trichotomy (blockStart ms i) start with hlt | heq | hgt
  · -- the place before the block would carry its value
    obtain ⟨j, rfl⟩ : ∃ j, start = j + 1 := ⟨start - 1, by omega⟩
    have hj : ms[j]? = ms[i]? := getElem?_of_blockStart (by omega) (by omega)
    exact absurd (hj.trans hm) (h.left j rfl)
  · exact heq
  · -- the block would change its value within
    obtain ⟨j, hj⟩ : ∃ j, j + 1 = blockStart ms i := ⟨blockStart ms i - 1, by omega⟩
    have hle := blockStart_le ms i
    exact absurd ((h.steady j (by omega) (by omega)).trans hm.symm) (getElem?_before_blockStart hj)

/-- The sender after a list of values. -/
def after (n : ℕ) (s : Sender μ) (ms : List μ) : Sender μ :=
  ms.foldl (fun s m => (s.send n m).1) s

/-- A frame is sent by the sender that the values before it leave. -/
theorem getElem?_frames (n : ℕ) (s : Sender μ) (ms : List μ) (i : ℕ) :
    (frames n s ms)[i]? =
      ms[i]?.map fun m => (m, ((after n s (ms.take i)).send n m).2) := by
  induction ms generalizing s i with
  | nil => rfl
  | cons m ms ih =>
    cases i with
    | zero => rfl
    | succ i => exact ih (s.send n m).1 i

theorem after_take_succ {n : ℕ} {s : Sender μ} {ms : List μ} {i : ℕ} {m : μ}
    (h : ms[i]? = some m) :
    after n s (ms.take (i + 1)) = ((after n s (ms.take i)).send n m).1 := by
  rw [List.take_add_one, h, after, List.foldl_append]
  rfl

/-- **What is owed at a place**: `n` less the frames of its block before it. The induction is on the
place; within a block each frame pays for one, and a change reloads. -/
theorem owed_at {n : ℕ} {s : Sender μ} {ms : List μ} {i : ℕ} {m : μ} (hm : ms[i]? = some m)
    (hne : m ≠ s.last) : (after n s (ms.take i)).owed n m = n - (i - blockStart ms i) := by
  induction i generalizing m with
  | zero => exact owed_change n hne
  | succ i ih =>
    have hi : i < ms.length := Nat.lt_of_succ_lt (List.getElem?_eq_some_iff.mp hm).1
    obtain ⟨m₀, hm₀⟩ : ∃ m₀, ms[i]? = some m₀ := ⟨_, List.getElem?_eq_getElem hi⟩
    rw [after_take_succ hm₀, blockStart, hm₀, hm]
    by_cases hsame : m₀ = m
    · subst hsame
      have hle := blockStart_le ms i
      have hpaid : ((after n s (ms.take i)).send n m₀).1.owed n m₀ =
          (after n s (ms.take i)).owed n m₀ - 1 := owed_same n rfl
      rw [if_pos rfl, hpaid, ih hm₀ hne]
      omega
    · rw [if_neg (fun h => hsame (Option.some.inj h)), owed_change n (Ne.symm hsame)]
      omega

/-- **Where the presses are.** A frame whose value is not the one the sender began with is pressed
exactly if it is one of the first `n` frames of its block. -/
theorem pressed_iff {n : ℕ} {s : Sender μ} {ms : List μ} {i : ℕ} {m : μ} {b : Bool}
    (h : (frames n s ms)[i]? = some (m, b)) (hne : m ≠ s.last) :
    b = true ↔ i - blockStart ms i < n := by
  rw [getElem?_frames] at h
  obtain ⟨m', hm, heq⟩ := Option.map_eq_some_iff.mp h
  obtain ⟨rfl, rfl⟩ := Prod.mk.inj heq
  rw [Sender.send, decide_eq_true_eq, owed_at hm hne]
  omega

/-- The first `n` of `len` places. -/
theorem countP_range'_lt (start len n : ℕ) :
    (List.range' start len).countP (fun i => decide (i - start < n)) = min n len := by
  induction len with
  | zero => rw [List.range'_zero, List.countP_nil, Nat.min_zero]
  | succ len ih =>
    rw [List.range'_concat, List.countP_append, ih, List.countP_singleton, Nat.one_mul,
      Nat.add_sub_cancel_left]
    by_cases h : len < n
    · rw [if_pos (decide_eq_true h)]
      omega
    · rw [if_neg (by rw [decide_eq_false h]; exact Bool.false_ne_true)]
      omega

/-- **How often a block is announced**: `n` times, or as often as it is long. -/
theorem Block.countP_pressed {n : ℕ} {s : Sender μ} {ms : List μ} {start len : ℕ} {m : μ}
    (h : Block ms start len m) (hne : m ≠ s.last) :
    (List.range' start len).countP (fun i => (frames n s ms)[i]?.any Prod.snd) = min n len := by
  rw [← countP_range'_lt start len n]
  refine List.countP_congr fun i hi => ?_
  obtain ⟨hstart, hi⟩ := List.mem_range'_1.mp hi
  have hm := h.steady i hstart hi
  obtain ⟨⟨m', b⟩, hf⟩ : ∃ f, (frames n s ms)[i]? = some f :=
    ⟨_, (getElem?_frames n s ms i).trans (by rw [hm]; rfl)⟩
  have hvalue := value_of_frame hf
  cases hm.symm.trans hvalue
  rw [hf, Option.any_some, pressed_iff hf hne, h.blockStart_eq hstart hi, decide_eq_true_eq]

/-- **A silent frame of a fresh sender** and the `n` frames before it carry one value. -/
theorem ms_of_silent {n : ℕ} {s : Sender μ} {ms : List μ} (hfresh : s.last ∉ ms) {k : ℕ} {m : μ}
    (h : (frames n s ms)[k]? = some (m, false)) :
    n ≤ k ∧ ∀ j, k ≤ j + n → j ≤ k → ms[j]? = some m := by
  have hm : ms[k]? = some m := value_of_frame h
  have hne : m ≠ s.last := fun hlast => hfresh (hlast ▸ List.mem_of_getElem? hm)
  -- the frame is not one of the first `n` of its block, so the block reaches back over them
  have hold : ¬ k - blockStart ms k < n := fun hlt =>
    Bool.false_ne_true ((pressed_iff h hne).mpr hlt)
  have hle := blockStart_le ms k
  refine ⟨by omega, fun j hj hjk => ?_⟩
  have hstart : blockStart ms k ≤ j := by omega
  exact (getElem?_of_blockStart hstart hjk).trans hm

/-! ## Bounded loss -/

/-- The frames at the delivered places. -/
def picked (fs : List (μ × Bool)) (ks : List ℕ) : List (μ × Bool) := ks.filterMap (fs[·]?)

/-- The places are delivered in order from `next` on, and fewer than `n` frames in a row are lost
before each. -/
def LosesFewer (n : ℕ) : ℕ → List ℕ → Prop
  | _, [] => True
  | next, k :: ks => next ≤ k ∧ k < next + n ∧ LosesFewer n (k + 1) ks

instance decidableLosesFewer (n : ℕ) : ∀ next ks, Decidable (LosesFewer n next ks)
  | _, [] => .isTrue trivial
  | next, k :: ks =>
    have := decidableLosesFewer n (k + 1) ks
    inferInstanceAs (Decidable (next ≤ k ∧ k < next + n ∧ LosesFewer n (k + 1) ks))

/-- A first part of the delivery loses no more than the whole. -/
theorem LosesFewer.left {n : ℕ} {ks js : List ℕ} :
    ∀ {next : ℕ}, LosesFewer n next (ks ++ js) → LosesFewer n next ks := by
  induction ks with
  | nil => exact fun _ => trivial
  | cons k ks ih => exact fun ⟨hle, hlt, hrest⟩ => ⟨hle, hlt, ih hrest⟩

/-- One delivered frame: if the latch agrees with the frame before the gap, and the gap is shorter
than a pulse, the latch agrees with the delivered frame. -/
theorem hear_after_gap {n : ℕ} {s : Sender μ} {ms : List μ} (hfresh : s.last ∉ ms) {next k : ℕ}
    {cur : μ} {f : μ × Bool} (hcur : next = 0 ∨ ms[next - 1]? = some cur) (hle : next ≤ k)
    (hlt : k < next + n) (hf : (frames n s ms)[k]? = some f) : hear cur f = f.1 := by
  obtain ⟨m, b⟩ := f
  cases b with
  | true => rfl
  | false =>
    -- a silent frame's block reaches back over the gap
    obtain ⟨hn, hall⟩ := ms_of_silent hfresh hf
    have hpos : next ≠ 0 := by omega
    have hm := hall (next - 1) (by omega) (by omega)
    have hcm := (hcur.resolve_left hpos).symm.trans hm
    exact Option.some.inj hcm

/-- The run form of `hear_after_gap`, by induction on the delivered places. -/
theorem foldl_hear_last {n : ℕ} {s : Sender μ} {ms : List μ} (hfresh : s.last ∉ ms)
    {ks : List ℕ} : ∀ {next : ℕ} {cur : μ}, (next = 0 ∨ ms[next - 1]? = some cur) →
      LosesFewer n next ks → (∀ k ∈ ks, k < ms.length) → ∀ k, ks.getLast? = some k →
        ms[k]? = some ((picked (frames n s ms) ks).foldl hear cur) := by
  induction ks with
  | nil => intro next cur _ _ _ k hk; cases hk
  | cons k₀ ks ih =>
    intro next cur hcur hloss hmem k hk
    obtain ⟨hle, hlt, hloss⟩ := hloss
    have hlen : k₀ < (frames n s ms).length := by
      rw [frames_length]
      exact hmem k₀ List.mem_cons_self
    have hf : (frames n s ms)[k₀]? = some ((frames n s ms)[k₀]) := List.getElem?_eq_getElem hlen
    have hheard := hear_after_gap hfresh hcur hle hlt hf
    have hvalue := value_of_frame hf
    have hpick : picked (frames n s ms) (k₀ :: ks) =
        (frames n s ms)[k₀] :: picked (frames n s ms) ks := by
      simp only [picked, List.filterMap_cons, hf]
    rw [hpick, List.foldl_cons, hheard]
    cases ks with
    | nil =>
      cases hk
      exact hvalue
    | cons k₁ ks =>
      rw [List.getLast?_cons_cons] at hk
      exact ih (.inr hvalue) hloss (fun j hj => hmem j (List.mem_cons_of_mem _ hj)) k hk

/-- **Bounded loss.** Where a fresh sender's frames are delivered in order and fewer than `n` in a
row are lost, the latch is the value of the frame delivered last. -/
theorem hear_of_losesFewer {n : ℕ} {s : Sender μ} {ms : List μ} (hfresh : s.last ∉ ms)
    {ks : List ℕ} (hloss : LosesFewer n 0 ks) (hmem : ∀ k ∈ ks, k < ms.length) {k : ℕ}
    (hk : ks.getLast? = some k) (cur : μ) :
    ms[k]? = some ((picked (frames n s ms) ks).foldl hear cur) :=
  foldl_hear_last hfresh (.inl rfl) hloss hmem k hk

/-! ## A steady run -/

omit [DecidableEq μ] in
/-- Frames that all carry the latched value leave the latch. -/
theorem foldl_hear_same {m : μ} {fs : List (μ × Bool)} (h : ∀ f ∈ fs, f.1 = m) :
    fs.foldl hear m = m := by
  induction fs with
  | nil => rfl
  | cons f fs ih =>
    have hf : hear m f = m := by
      rw [hear, h f List.mem_cons_self]
      exact ite_self m
    rw [List.foldl_cons, hf]
    exact ih fun g hg => h g (List.mem_cons_of_mem f hg)

/-- A sender that owes nothing for the value it last sent is silent while that value lasts. -/
theorem foldl_hear_spent {n : ℕ} {m cur : μ} {ms : List μ} (h : ∀ m' ∈ ms, m' = m) :
    (frames n ⟨m, 0⟩ ms).foldl hear cur = cur := by
  induction ms with
  | nil => rfl
  | cons m' ms ih =>
    obtain rfl := h m' List.mem_cons_self
    have hsend : (⟨m', 0⟩ : Sender μ).send n m' = (⟨m', 0⟩, false) :=
      send_of_owed_zero (owed_same n rfl)
    simp only [frames, hsend, List.foldl_cons]
    exact ih fun m'' hm => h m'' (List.mem_cons_of_mem _ hm)

/-- **A steady run reaches the latch** exactly if the value is new to the sender, or the sender
still owes presses for it, or the latch holds it already. -/
theorem foldl_hear_steady {n : ℕ} (hn : 0 < n) {s : Sender μ} {m cur : μ} {ms : List μ}
    (hne : ms ≠ []) (h : ∀ m' ∈ ms, m' = m) :
    (frames n s ms).foldl hear cur = m ↔ m ≠ s.last ∨ 0 < s.hold ∨ cur = m := by
  cases ms with
  | nil => exact absurd rfl hne
  | cons m' ms =>
    obtain rfl := h m' List.mem_cons_self
    have hrest : ∀ m'' ∈ ms, m'' = m' := fun m'' hm => h m'' (List.mem_cons_of_mem _ hm)
    have hall : ∀ (t : Sender μ), ∀ f ∈ frames n t ms, f.1 = m' := by
      intro t f hf
      have hmap : f.1 ∈ (frames n t ms).map Prod.fst := List.mem_map_of_mem hf
      rw [frames_fst] at hmap
      exact hrest _ hmap
    rw [frames, List.foldl_cons]
    by_cases howed : 0 < s.owed n m'
    · -- the first frame is pressed: the latch takes the value and keeps it
      have hheard : hear cur (m', (s.send n m').2) = m' := by
        simp only [hear, Sender.send, howed, decide_true, if_true]
      rw [hheard, foldl_hear_same (hall _)]
      refine iff_of_true rfl ?_
      by_cases hlast : m' = s.last
      · rw [owed_same n hlast] at howed
        exact .inr (.inl howed)
      · exact .inl hlast
    · -- the first frame is silent, and so are the others: the latch keeps what it had
      have hzero : s.owed n m' = 0 := Nat.eq_zero_of_not_pos howed
      have hlast : m' = s.last := by
        by_contra hne
        rw [owed_change n hne] at hzero
        omega
      have hhold : s.hold = 0 := (owed_same n hlast).symm.trans hzero
      have hsend := send_of_owed_zero hzero
      have hheard : hear cur (m', false) = cur := rfl
      rw [hsend, hheard, foldl_hear_spent hrest]
      constructor
      · exact fun hcur => .inr (.inr hcur)
      · rintro (hne | hpos | hcur)
        · exact absurd hlast hne
        · omega
        · exact hcur

end EdgePulse
