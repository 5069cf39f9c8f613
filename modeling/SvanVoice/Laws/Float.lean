import SvanVoice.Laws.Limits
import SvanVoice.Model.Float

/-!
# The exact link and the link in floats

The other laws are about exact rationals. The law here carries them over to floats: the link in
floats is the exact link with its axes and velocities rounded, step for step (`link_rounds`). It
makes the same mode changes at the same steps, and every velocity it passes is the `float` nearest
to the exact one. So no limit and no rounding in the program is off by one in the last place: the
publisher rounds twice, to a double and to a `float`, which for two decimals within the limits is
as good as once (`round32_round64`), and a limit may be rounded before or after it is applied, since
rounding keeps the order (`clampedAxes32_rounded`).

`loop_rounds` says the same of the bridge alone, for any samples. A message's axes are floats
already (`round_ofBits`), so on received messages only the limits are rounded.
-/

set_option autoImplicit false

namespace SvanVoice

/-! ## Rounded values -/

theorem monotone_round32 : Monotone round32 := by
  intro x y h
  have hround := BinaryFloat.round_mono (f := binary32) h
  unfold round32
  by_cases hx : overflow32 ≤ binary32.round x
  · rw [if_pos hx, if_pos (hx.trans hround)]
  by_cases hx' : binary32.round x ≤ -overflow32
  · rw [if_neg hx, if_pos hx']
    exact bot_le
  rw [if_neg hx, if_neg hx']
  split_ifs with hy hy'
  · exact le_top
  · exact absurd (hround.trans hy') hx'
  · exact WithBot.coe_le_coe.mpr (WithTop.coe_le_coe.mpr hround)

theorem monotone_roundNumber : Monotone roundNumber := by
  intro x y h
  cases x with
  | bot => exact bot_le
  | coe x =>
    cases y with
    | bot => exact absurd (le_bot_iff.mp h) WithBot.coe_ne_bot
    | coe y =>
      cases y with
      | top => exact le_top
      | coe y =>
        cases x with
        | top => exact absurd (top_le_iff.mp (WithBot.coe_le_coe.mp h)) WithTop.coe_ne_top
        | coe x => exact monotone_round32 (WithTop.coe_le_coe.mp (WithBot.coe_le_coe.mp h))

theorem round_clamp (v lo hi : F32) : (clamp v lo hi).round = clamp v.round lo.round hi.round :=
  WithNaN.map_confine monotone_roundNumber v lo hi

theorem overflow32_pos : 0 < overflow32 := pow_pos two_pos _

/-- A rational that rounds to less than the overflow rounds to a number. -/
theorem round_ofRat {q : ℚ} (h : |binary32.round q| < overflow32) :
    (F32.ofRat q).round = F32.ofRat (binary32.round q) := by
  obtain ⟨hlo, hhi⟩ := abs_lt.mp h
  have hround : round32 q = ((binary32.round q : WithTop ℚ) : WithBot (WithTop ℚ)) := by
    rw [round32, if_neg hhi.not_ge, if_neg hlo.not_ge]
  exact congrArg WithNaN.num hround

theorem round_ofRat_zero : (F32.ofRat 0).round = F32.ofRat 0 := by decide +kernel

theorem round_limits : (F32.ofRat maxVx).round = F32.ofRat maxVx32 ∧
    (F32.ofRat maxVy).round = F32.ofRat maxVy32 ∧ (F32.ofRat maxWz).round = F32.ofRat maxWz32 := by
  decide +kernel

theorem round_neg_limits : (F32.ofRat (-maxVx)).round = F32.ofRat (-maxVx32) ∧
    (F32.ofRat (-maxVy)).round = F32.ofRat (-maxVy32) ∧
      (F32.ofRat (-maxWz)).round = F32.ofRat (-maxWz32) := by
  decide +kernel

/-! ## The rounded image -/

/-- A message with its axes rounded. -/
def JoyData.rounded (msg : JoyData) : JoyData := { msg with axes := msg.axes.map F32.round }

def Velocity.rounded (v : Velocity) : Velocity := ⟨v.vx.round, v.vy.round, v.wz.round⟩

def SdkCall.rounded : SdkCall → SdkCall
  | .setVelocity v => .setVelocity v.rounded
  | call => call

def Loop.rounded (b : Loop) : Loop := { b with calls := b.calls.map SdkCall.rounded }

def Event.rounded : Event → Event
  | .sample s now => .sample { s with data := s.data.rounded } now
  | .check now => .check now

def Link.rounded (l : Link) : Link where
  publisher := l.publisher
  sent := l.sent.map fun f => (f.1, f.2.rounded)
  bridge := l.bridge.rounded

/-! ## The bridge -/

theorem zero_rounded : Velocity.zero.rounded = .zero := by
  rw [Velocity.rounded, Velocity.zero, round_ofRat_zero]

/-- **The limits may be rounded before or after they are applied.** -/
theorem clampedAxes32_rounded (msg : JoyData) :
    clampedAxes32 msg.rounded = (clampedAxes msg).rounded := by
  obtain ⟨hx, hy, hw⟩ := round_limits
  obtain ⟨hx', hy', hw'⟩ := round_neg_limits
  have haxis : ∀ (i : ℕ) (hi : i < 6), msg.rounded.axes[i] = (msg.axes[i]).round :=
    fun i hi => Vector.getElem_map _ hi
  simp only [clampedAxes32, clampedAxes, Velocity.rounded, round_clamp, hx, hy, hw, hx', hy', hw',
    JoyData.rawVx, JoyData.rawVy, JoyData.rawWz, haxis]

theorem enter_rounded (b : Loop) (mode : Int) : b.rounded.enter mode = (b.enter mode).rounded := by
  unfold Loop.enter
  by_cases h : mode ≠ b.lastMode
  · rw [if_pos h, if_pos (show mode ≠ b.rounded.lastMode from h)]
    simp only [Loop.rounded, List.map_append, List.map_cons, List.map_nil, SdkCall.rounded]
  · rw [if_neg h, if_neg (show ¬ mode ≠ b.rounded.lastMode from h)]

theorem drive_rounded (b : Loop) (v : Velocity) :
    b.rounded.drive v.rounded = (b.drive v).rounded := by
  unfold Loop.drive
  by_cases h : b.lastMode = modeMove
  · rw [if_pos h, if_pos (show b.rounded.lastMode = modeMove from h)]
    simp only [Loop.rounded, List.map_append, List.map_cons, List.map_nil, SdkCall.rounded]
  · rw [if_neg h, if_neg (show ¬ b.rounded.lastMode = modeMove from h)]

theorem processSample_rounded (b : Loop) (s : Sample) (now : Int) :
    b.rounded.processSample32 { s with data := s.data.rounded } now =
      (b.processSample s now).rounded := by
  unfold Loop.processSample32 Loop.processSample
  by_cases h : s.valid = true
  · rw [if_pos h, if_pos h]
    dsimp only
    rw [← drive_rounded, ← enter_rounded, ← clampedAxes32_rounded]
    rfl
  · rw [if_neg h, if_neg h]

theorem watchdogCheck_rounded (b : Loop) (now : Int) :
    b.rounded.watchdogCheck now = (b.watchdogCheck now).rounded := by
  unfold Loop.watchdogCheck
  have hfires : b.rounded.fires now = b.fires now := rfl
  rw [hfires]
  split
  · simp only [Loop.rounded, List.map_append, List.map_cons, List.map_nil, SdkCall.rounded,
      zero_rounded]
  · rfl

theorem event_rounded (b : Loop) (e : Event) :
    b.rounded.event32 e.rounded = (b.event e).rounded := by
  cases e with
  | sample s now => exact processSample_rounded b s now
  | check now => exact watchdogCheck_rounded b now

/-- **The bridge in floats** makes the rounded calls of the exact bridge, on any samples. -/
theorem loop_rounds (b : Loop) (es : List Event) :
    b.rounded.run32 (es.map Event.rounded) = (b.run es).rounded := by
  induction es generalizing b with
  | nil => rfl
  | cons e es ih =>
    rw [List.map_cons, Loop.run32, List.foldl_cons, event_rounded]
    exact ih (b.event e)

/-! ## The publisher -/

/-- Two decimals within the limits are rounded to a `float` as well by way of a double. -/
theorem round32_round64 {k : ℤ} (h : |k| ≤ 80) :
    binary32.round (binary64.round (k / 100)) = binary32.round (k / 100) := by
  have hall : ∀ n ∈ List.range 81,
      binary32.round (binary64.round ((n : ℚ) / 100)) = binary32.round ((n : ℚ) / 100) := by
    decide +kernel
  obtain ⟨n, rfl | rfl⟩ := Int.eq_nat_or_neg k
  · rw [Int.cast_natCast]
    exact hall n (List.mem_range.mpr (by rw [abs_of_nonneg (Int.natCast_nonneg n)] at h; omega))
  · have hn := hall n (List.mem_range.mpr (by
      rw [abs_neg, abs_of_nonneg (Int.natCast_nonneg n)] at h
      omega))
    rw [Int.cast_neg, Int.cast_natCast, neg_div, BinaryFloat.round_neg, BinaryFloat.round_neg,
      BinaryFloat.round_neg, hn]

/-- A clip of two decimals to a limit of two decimals has two decimals. -/
theorem exists_clip_decimals (v : Option ℚ) {limit : ℚ} {n : ℤ} (hlimit : limit = n / 100)
    (hn : 0 ≤ n) : ∃ k : ℤ, |k| ≤ n ∧ clip (velocityOf v) (-limit) limit = k / 100 := by
  have hpos : (0 : ℚ) ≤ 100 := by norm_num
  have hmono : Monotone fun k : ℤ => (k : ℚ) / 100 := fun a b h =>
    div_le_div_of_nonneg_right (Int.cast_le.mpr h) hpos
  obtain ⟨m, hm⟩ : ∃ m : ℤ, velocityOf v = m / 100 := by
    refine ⟨Rounding.roundHalfEven (v.getD 0 * 10 ^ 2), ?_⟩
    rw [velocityOf, Rounding.roundTo]
    norm_num
  refine ⟨min (max m (-n)) n, abs_le.mpr ⟨?_, min_le_right _ _⟩, ?_⟩
  · exact le_min (le_max_right _ _) (neg_le_self hn)
  · have hneg : -limit = ((-n : ℤ) : ℚ) / 100 := by rw [hlimit, Int.cast_neg, neg_div]
    rw [clip, hm, hneg, hlimit]
    exact ((hmono.map_min).trans (congrArg (min · _) hmono.map_max)).symm

/-- **An axis in floats** is the exact axis rounded, for one of the limits. -/
theorem axis_rounded (v : Option ℚ) {limit : ℚ} {n : ℤ} (hlimit : limit = n / 100) (hn : 0 ≤ n)
    (hmax : n ≤ 80) :
    (F32.ofRat (-clip (velocityOf64 v) (-binary64.round limit) (binary64.round limit))).round =
      (F32.ofRat (-clip (velocityOf v) (-limit) limit)).round := by
  have hclip : clip (velocityOf64 v) (-binary64.round limit) (binary64.round limit) =
      binary64.round (clip (velocityOf v) (-limit) limit) := by
    rw [clip, clip, velocityOf64, ← BinaryFloat.round_neg, ← BinaryFloat.monotone_round.map_max,
      ← BinaryFloat.monotone_round.map_min]
  obtain ⟨k, hk, hdecimals⟩ := exists_clip_decimals v hlimit hn
  have htwice : round32 (-binary64.round (k / 100)) = round32 (-(k / 100)) := by
    simp only [round32, BinaryFloat.round_neg, round32_round64 (hk.trans hmax)]
  rw [hclip, hdecimals]
  exact congrArg WithNaN.num htwice

theorem axesOf32_rounded (state : StateDict) (noise : ℚ) :
    axesOf32 state noise = (axesOf state noise).map F32.round := by
  have hx := axis_rounded state.xVelocity (n := 50) (by norm_num : (1 / 2 : ℚ) = _) (by decide)
    (by decide)
  have hy := axis_rounded state.yVelocity (n := 40) (by norm_num : (2 / 5 : ℚ) = _) (by decide)
    (by decide)
  have hw := axis_rounded state.yawVelocity (n := 80) (by norm_num : (4 / 5 : ℚ) = _) (by decide)
    (by decide)
  have hset : ∀ (axes : Vector F32 6) (i : ℕ) (v : F32) (h : i < 6),
      axes.setIfInBounds i v = axes.set i v h := fun axes i v h => by
    ext1 j hj
    rw [Vector.getElem_setIfInBounds, Vector.getElem_set]
  simp (disch := decide) only [axesOf32, axesOf, hx, hy, hw, hset,
    apply_ite (Vector.map F32.round), Vector.map_set, Vector.map_replicate, round_ofRat_zero,
    neg_div]

/-- The frame in floats is the frame rounded, and the publisher goes on the same. -/
theorem publishMovement32_rounded (p : DDSPublisher) (state : StateDict) (noise : ℚ) :
    p.publishMovement32 state noise =
      ((p.publishMovement state noise).1, (p.publishMovement state noise).2.rounded) := by
  unfold DDSPublisher.publishMovement32 DDSPublisher.publishMovement
  dsimp only
  rw [axesOf32_rounded]
  split <;> rfl

/-! ## The link -/

/-- A step in floats is the exact step rounded, and is enabled where that is. -/
theorem step_rounded (l : Link) (a : LinkAction) :
    l.rounded.step32 a = (l.step a).map Link.rounded := by
  cases a with
  | publish snapshot noise =>
    simp only [Link.step32, Link.step, publishMovement32_rounded, Link.rounded, List.map_append,
      List.map_cons, List.map_nil, Option.map_some]
  | boot now => rfl
  | deliver k now =>
    simp only [Link.step32, Link.step, Link.rounded, List.getElem?_map, Option.map_map]
    refine congrArg (Option.map · _) (funext fun f => ?_)
    exact congrArg (Link.mk l.publisher _) (processSample_rounded l.bridge ⟨true, f.2⟩ now)
  | invalid data now => rfl
  | check now =>
    exact congrArg (fun b => some (Link.mk l.publisher _ b)) (watchdogCheck_rounded l.bridge now)

/-- **The link in floats is the exact link rounded**, over every run: the same frames are delivered,
the same modes are set at the same steps, and each velocity is the `float` nearest to the exact
one. -/
theorem link_rounds (start : Int) (as : List LinkAction) :
    Trace.run Link.step32 (Link.init start) as =
      (Trace.run Link.step (Link.init start) as).map Link.rounded := by
  have hrun := Trace.run_map step_rounded (Link.init start) as
  rwa [List.map_id'] at hrun

/-! ## Bits -/

theorem magnitude_infinityBits : binary32.magnitude infinityBits = overflow32 := by decide +kernel

/-- The number of a value is below infinity's exactly if the value rounds below the overflow. -/
theorem code_lt_infinityBits {q : ℚ} (h : 0 ≤ q) :
    binary32.code q < infinityBits ↔ binary32.round q < overflow32 := by
  rw [← magnitude_infinityBits, ← BinaryFloat.magnitude_code h]
  exact BinaryFloat.strictMono_magnitude.lt_iff_lt.symm

/-- A `float` read from a sign and a number. -/
theorem ofBits_signed (negative : Bool) {k : ℕ} (h : k ≤ infinityBits) :
    F32.ofBits (signed negative k) =
      if k < infinityBits then
        F32.ofRat (if negative then -binary32.magnitude k else binary32.magnitude k)
      else .num (if negative then ⊥ else ((⊤ : WithTop ℚ) : WithBot (WithTop ℚ))) := by
  have hk : k < 2 ^ 31 := h.trans_lt (by decide)
  have hnat : (signed negative k).toNat = (if negative then 2 ^ 31 else 0) + k := by
    rw [signed, BitVec.toNat_ofNat]
    exact Nat.mod_eq_of_lt (by split <;> omega)
  have hnumber : (signed negative k).toNat % 2 ^ 31 = k := by
    rw [hnat]
    split <;> omega
  have hmsb : (signed negative k).msb = negative := by
    rw [BitVec.msb_eq_decide, hnat]
    cases negative
    · exact decide_eq_false (by rw [if_neg Bool.false_ne_true]; omega)
    · exact decide_eq_true (by rw [if_pos rfl]; omega)
  simp only [F32.ofBits, hnumber, hmsb]
  by_cases hlt : k < infinityBits
  · rw [if_pos hlt, if_pos hlt]
  · rw [if_neg hlt, if_neg hlt, if_pos (h.antisymm (not_lt.mp hlt))]

/-- Rounding by the sign and the magnitude. -/
theorem round32_eq (q : ℚ) :
    round32 q =
      if binary32.round |q| < overflow32 then
        (((if q < 0 then -binary32.round |q| else binary32.round |q| : ℚ) : WithTop ℚ) :
          WithBot (WithTop ℚ))
      else if q < 0 then ⊥ else ((⊤ : WithTop ℚ) : WithBot (WithTop ℚ)) := by
  have hpos := overflow32_pos
  have hnonneg : 0 ≤ binary32.round |q| := BinaryFloat.round_nonneg (abs_nonneg q)
  unfold round32
  by_cases hneg : q < 0
  · have hround : binary32.round q = -binary32.round |q| := by
      rw [abs_of_neg hneg, BinaryFloat.round_neg, neg_neg]
    rw [hround, if_neg (by linarith), if_pos hneg, if_pos hneg]
    by_cases hfits : binary32.round |q| < overflow32
    · rw [if_pos hfits, if_neg (mt neg_le_neg_iff.mp hfits.not_ge)]
    · rw [if_neg hfits, if_pos (neg_le_neg (not_lt.mp hfits))]
  · have hround : binary32.round q = binary32.round |q| := by rw [abs_of_nonneg (not_lt.mp hneg)]
    rw [hround, if_neg hneg, if_neg hneg]
    by_cases hfits : binary32.round |q| < overflow32
    · rw [if_pos hfits, if_neg hfits.not_ge, if_neg (by linarith)]
    · rw [if_neg hfits, if_pos (not_lt.mp hfits)]

/-- **A value goes through the bits of a `float`** with the rounding of a `float`. -/
theorem ofBits_toBits (v : F32) : F32.ofBits v.toBits = v.round := by
  cases v with
  | nan => decide +kernel
  | num x =>
    cases x with
    | bot => exact ofBits_signed true le_rfl
    | coe x =>
      cases x with
      | top => exact ofBits_signed false le_rfl
      | coe q =>
        have hcode := code_lt_infinityBits (abs_nonneg q)
        refine (ofBits_signed _ (min_le_right _ _)).trans ?_
        change _ = WithNaN.num (round32 q)
        rw [round32_eq]
        by_cases hfits : binary32.round |q| < overflow32
        · rw [min_eq_left (hcode.mpr hfits).le, if_pos (hcode.mpr hfits), if_pos hfits,
            BinaryFloat.magnitude_code (abs_nonneg q)]
          simp only [decide_eq_true_eq, F32.ofRat]
        · rw [min_eq_right (not_lt.mp (mt hcode.mp hfits)), if_neg (lt_irrefl _), if_neg hfits]
          simp only [decide_eq_true_eq]

/-- **A `float` read from its bits is rounded already.** -/
theorem round_ofBits (b : BitVec 32) : (F32.ofBits b).round = F32.ofBits b := by
  have hvalue : ∀ k < infinityBits, ∀ q, |q| = binary32.magnitude k → binary32.round q = q →
      (F32.ofRat q).round = F32.ofRat q := by
    intro k hk q habs hround
    refine (round_ofRat ?_).trans (congrArg F32.ofRat hround)
    rw [hround, habs, ← magnitude_infinityBits]
    exact BinaryFloat.strictMono_magnitude hk
  have hnonneg : ∀ k, 0 ≤ binary32.magnitude k := fun k =>
    (by decide +kernel : binary32.magnitude 0 = 0).ge.trans
      (BinaryFloat.strictMono_magnitude.monotone (Nat.zero_le k))
  unfold F32.ofBits
  dsimp only
  split_ifs with hlt hneg heq hneg
  · refine hvalue _ hlt _ (by rw [abs_neg, abs_of_nonneg (hnonneg _)]) ?_
    rw [BinaryFloat.round_neg, BinaryFloat.round_magnitude]
  · exact hvalue _ hlt _ (abs_of_nonneg (hnonneg _)) (BinaryFloat.round_magnitude _)
  all_goals rfl

end SvanVoice
