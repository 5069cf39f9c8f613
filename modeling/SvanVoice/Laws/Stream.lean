import SvanVoice.Model.Wire
import Mathlib.Tactic.IntervalCases

/-!
# The stream at its cursor

What the generated code of a message does to a stream. A stream is seen with its cursor between two
parts of its buffer (`CdrStream.between`), so that a write is a list put in front of the cursor and
a read takes a list from behind it. Each primitive has one law within the buffer and one past its
end; the message's laws are the primitives' laws in a row.

A host of the other byte order swaps what it copied. The swapped words are those of the stream's
order (`swapped_words`, `spread_byteSwap`), so no law below the swap mentions the host.
-/

set_option autoImplicit false

namespace SvanVoice

open ByteOrder

/-! ## Byte swapping -/

/-- Each byte goes to the place of its mirror image. -/
theorem extractLsb_byteSwap4 (u : BitVec 32) {b : ℕ} (hb : b < 4) :
    (byteSwap4 u).extractLsb' (8 * b) 8 = u.extractLsb' (8 * (3 - b)) 8 := by
  ext i hi
  rw [BitVec.getElem_extractLsb', BitVec.getElem_extractLsb']
  simp only [byteSwap4, BitVec.getLsbD_or, BitVec.getLsbD_and, BitVec.getLsbD_shiftLeft,
    BitVec.getLsbD_ushiftRight]
  interval_cases b <;> interval_cases i <;> simp

theorem digits_four (x : BitVec 32) :
    digits 4 x.toNat = (List.range 4).map fun b => x.extractLsb' (8 * b) 8 := by
  have hbyte : ∀ b, x.extractLsb' (8 * b) 8 = BitVec.ofNat 8 (x.toNat / 256 ^ b) := fun b => by
    rw [BitVec.extractLsb', Nat.shiftRight_eq_div_pow, pow_mul]
    rfl
  simp only [hbyte, digits, List.range, List.range.loop, List.map_cons, List.map_nil,
    Nat.div_div_eq_div_mul, pow_zero, Nat.div_one]
  rfl

theorem digits_byteSwap4 (x : BitVec 32) :
    digits 4 (byteSwap4 x).toNat = (digits 4 x.toNat).reverse := by
  rw [digits_four, digits_four]
  simp only [List.range, List.range.loop, List.map_cons, List.map_nil]
  rw [extractLsb_byteSwap4 x (by decide), extractLsb_byteSwap4 x (by decide),
    extractLsb_byteSwap4 x (by decide), extractLsb_byteSwap4 x (by decide)]
  rfl

/-- A swapped word lies in memory as the word of the other order. -/
theorem toBytes_byteSwap (e : Endianness) (t : Primitive) (x : t.Word) :
    toBytes e (byteSwap t x) = toBytes e.other x := by
  cases t with
  | uint8 => exact toBytes_other rfl
  | float => exact toBytes_other (digits_byteSwap4 x)

/-- Bytes read in one order and swapped are read in the other. -/
theorem byteSwap_ofBytes (e : Endianness) (t : Primitive) {bs : List Byte}
    (h : bs.length = t.size) : byteSwap t (ofBytes e t.size bs) = ofBytes e.other t.size bs := by
  have hbytes := toBytes_byteSwap e.other t (ofBytes e t.size bs)
  rw [other_other, toBytes_ofBytes h] at hbytes
  exact (ofBytes_toBytes _).symm.trans (congrArg (ofBytes e.other t.size) hbytes)

/-- What `read` makes of the bytes it copied is their words in the stream's order. -/
theorem swapped_words (s : CdrStream) (t : Primitive) {k : ℕ} {bs : List Byte}
    (h : t.size * k ≤ bs.length) :
    (if 1 < t.size && s.swapEndianness then (words s.native t.size k bs).map (byteSwap t)
      else words s.native t.size k bs) = words s.streamEndianness t.size k bs := by
  by_cases hsame : s.native = s.streamEndianness
  · have hswap : s.swapEndianness = false := bne_eq_false_iff_eq.mpr hsame
    rw [hswap, Bool.and_false, if_neg Bool.false_ne_true, hsame]
  · have hother := ne_iff_other.mp hsame
    have hswap : s.swapEndianness = true := bne_iff_ne.mpr hsame
    have hwords : (words s.native t.size k bs).map (byteSwap t) =
        words s.streamEndianness t.size k bs := by
      ext1 i hi
      have hlast : t.size * i + t.size ≤ t.size * k := Nat.mul_le_mul_left t.size hi
      rw [Vector.getElem_map, words, words, Vector.getElem_ofFn, Vector.getElem_ofFn, hother]
      refine byteSwap_ofBytes _ t ?_
      rw [List.length_take, List.length_drop]
      exact min_eq_left (Nat.le_sub_of_add_le' (hlast.trans h))
    cases t with
    | float => rw [hswap]; exact hwords
    | uint8 => exact (Vector.map_id _).symm.trans hwords

theorem spread_byteSwap (e : Endianness) (t : Primitive) {k : ℕ} (values : Vector t.Word k) :
    spread e (values.map (byteSwap t)) = spread e.other values := by
  rw [spread, spread, Vector.toList_map, List.flatMap_map]
  exact congrArg (List.flatMap · _) (funext fun x => toBytes_byteSwap e t x)

/-! ## The cursor in its buffer -/

namespace CdrStream

/-- The stream with its cursor between two parts of its buffer. -/
def between (s : CdrStream) (front rest : List Byte) : CdrStream :=
  { s with buffer := front ++ rest, position := front.length }

variable {s : CdrStream} {front rest bs : List Byte} {n : ℕ}

@[simp] theorem position_between : (s.between front rest).position = front.length := rfl

@[simp] theorem native_between : (s.between front rest).native = s.native := rfl

theorem load_between (h : n ≤ rest.length) : (s.between front rest).load n = .ok (rest.take n) := by
  have hfits : front.length + n ≤ (front ++ rest).length := by
    rw [List.length_append]
    exact Nat.add_le_add_left h _
  unfold load
  exact (if_pos hfits).trans (congrArg (fun l => Except.ok (List.take n l)) List.drop_left)

theorem store_between (h : bs.length ≤ rest.length) :
    (s.between front rest).store bs = .ok (s.between front (bs ++ rest.drop bs.length)) := by
  have hfits : front.length + bs.length ≤ (front ++ rest).length := by
    rw [List.length_append]
    exact Nat.add_le_add_left h _
  unfold store
  exact (if_pos hfits).trans (congrArg
    (fun l => Except.ok { s with buffer := l, position := front.length })
    (overwrite_append front rest bs))

theorem advance_between (h : n ≤ rest.length) :
    (s.between front rest).advance n = s.between (front ++ rest.take n) (rest.drop n) := by
  rw [advance, between, between, List.append_assoc, List.take_append_drop, List.length_append,
    List.length_take, min_eq_left h]

theorem admits_between {size : ℕ} (hsize : s.bufferSize = some size) :
    (s.between front rest).admits n = decide (front.length + n ≤ size) := by
  rw [admits, between, hsize]
  rfl

end CdrStream

/-! ## Primitives at the cursor -/

namespace Cdr

open CdrStream

variable {lib : StreamLib} {s : CdrStream} {front rest : List Byte} {t : Primitive}
  {size g k : ℕ}

section Within

variable (hlib : lib.Documented) (hsize : s.bufferSize = some size)
  (hg : padding (min t.size s.maxAlignment) front.length = g)

include hlib hsize hg

theorem align_between (addZeroes : Bool) (hfits : front.length + g ≤ size)
    (hmem : g ≤ rest.length) :
    lib.align (s.between front rest) t.size addZeroes =
      .ok (s.between (front ++ if addZeroes then List.replicate g 0 else rest.take g)
        (rest.drop g)) := by
  have hgap : (s.between front rest).gap t.size = g := hg
  have hadmits : (s.between front rest).admits ((s.between front rest).gap t.size) := by
    rw [hgap, admits_between hsize]
    exact decide_eq_true hfits
  rw [hlib.align_moves _ _ _ hadmits, hgap]
  cases addZeroes with
  | false => exact congrArg Except.ok (advance_between hmem)
  | true =>
    have hzeros : (List.replicate g (0 : Byte)).length = g := List.length_replicate
    rw [if_pos rfl, store_between (hzeros.trans_le hmem), hzeros]
    refine congrArg Except.ok ((advance_between ?_).trans ?_)
    · rw [List.length_append, hzeros]
      exact Nat.le_add_right _ _
    · rw [List.take_left' hzeros, List.drop_left' hzeros]
      rfl

/-- **`read` within the buffer** gives the words in the stream's order, and moves past them. -/
theorem readPrimitive_between (hk : 0 < k) (hmax : size ≤ sizeMax)
    (hfits : front.length + (g + t.size * k) ≤ size) (hmem : g + t.size * k ≤ rest.length) :
    readPrimitive lib t k (s.between front rest) =
      .ok (words s.streamEndianness t.size k (rest.drop g),
        s.between (front ++ rest.take (g + t.size * k)) (rest.drop (g + t.size * k))) := by
  have hpos : 0 < t.size * k := Nat.mul_pos (by cases t <;> decide) hk
  have hnext : (front ++ rest.take g).length = front.length + g := by
    rw [List.length_append, List.length_take, min_eq_left (by omega)]
  have hleft : t.size * k ≤ (rest.drop g).length := by
    rw [List.length_drop]
    omega
  unfold readPrimitive
  rw [if_neg (by rw [position_between]; omega),
    align_between hlib hsize hg false (by omega) (by omega), if_neg Bool.false_ne_true]
  dsimp only [Bind.bind, Except.bind]
  rw [hlib.bytesAvailable, admits_between hsize, hnext, if_pos (decide_eq_true (by omega)),
    load_between hleft]
  dsimp only
  rw [hlib.incrPosition _ _ (by rw [position_between, hnext]; omega), advance_between hleft]
  have hbytes : t.size * k ≤ ((rest.drop g).take (t.size * k)).length := by
    rw [List.length_take, min_eq_left hleft]
  refine congrArg Except.ok (Prod.ext ((swapped_words s t hbytes).trans (words_take _)) ?_)
  rw [List.append_assoc, ← List.take_add, List.drop_drop]

/-- **`read` past the buffer's size** is refused. -/
theorem readPrimitive_refused (hlong : size < front.length + (g + t.size * k))
    (hmem : size ≤ front.length + rest.length) :
    readPrimitive lib t k (s.between front rest) = .error .refused := by
  unfold readPrimitive
  by_cases hposition : (s.between front rest).position = sizeMax
  · rw [if_pos hposition]
  rw [if_neg hposition]
  by_cases hfits : front.length + g ≤ size
  · have hnext : (front ++ rest.take g).length = front.length + g := by
      rw [List.length_append, List.length_take, min_eq_left (by omega)]
    rw [align_between hlib hsize hg false hfits (by omega), if_neg Bool.false_ne_true]
    dsimp only [Bind.bind, Except.bind]
    rw [hlib.bytesAvailable, admits_between hsize, hnext,
      if_neg (mt of_decide_eq_true (by omega))]
  · have hgap : (s.between front rest).gap t.size = g := hg
    rw [hlib.align_fails _ _ _ (by
      rw [hgap, admits_between hsize]
      exact decide_eq_false hfits)]
    rfl

/-- **`write` within the buffer** leaves zeros in the gap and the words in the stream's order. -/
theorem writePrimitive_between (values : Vector t.Word k) (hk : 0 < k) (hmax : size ≤ sizeMax)
    (hfits : front.length + (g + t.size * k) ≤ size) (hmem : g + t.size * k ≤ rest.length) :
    writePrimitive lib t values (s.between front rest) =
      .ok (s.between (front ++ List.replicate g 0 ++ spread s.streamEndianness values)
        (rest.drop (g + t.size * k))) := by
  have hpos : 0 < t.size * k := Nat.mul_pos (by cases t <;> decide) hk
  have hnext : (front ++ List.replicate g (0 : Byte)).length = front.length + g := by
    rw [List.length_append, List.length_replicate]
  have hbytes : ∀ e, (spread e values).length = t.size * k := fun e => length_spread values
  have hleft : t.size * k ≤ (rest.drop g).length := by
    rw [List.length_drop]
    omega
  unfold writePrimitive
  rw [if_neg (by rw [position_between]; omega),
    align_between hlib hsize hg true (by omega) (by omega), if_pos rfl]
  dsimp only [Bind.bind, Except.bind]
  rw [hlib.bytesAvailable, admits_between hsize, hnext, if_pos (decide_eq_true (by omega)),
    native_between, store_between ((hbytes s.native).trans_le hleft)]
  dsimp only
  have hrest : (rest.drop g).drop (spread s.native values).length =
      rest.drop (g + t.size * k) := by rw [hbytes, List.drop_drop]
  -- the cursor moves past what was written, in either order
  have hmove : ∀ e, lib.incrPosition (s.between (front ++ List.replicate g 0)
      (spread e values ++ rest.drop (g + t.size * k))) (t.size * k) =
        s.between (front ++ List.replicate g 0 ++ spread e values)
          (rest.drop (g + t.size * k)) := fun e => by
    rw [hlib.incrPosition _ _ (by rw [position_between, hnext]; omega),
      advance_between (by rw [List.length_append, hbytes]; exact Nat.le_add_right _ _),
      List.take_left' (hbytes e), List.drop_left' (hbytes e)]
  have hspread : (1 < t.size && s.swapEndianness) = false →
      spread s.native values = spread s.streamEndianness values := fun h => by
    by_cases hsame : s.native = s.streamEndianness
    · rw [hsame]
    · cases t with
      | float => exact absurd h (ne_false_of_eq_true (bne_iff_ne.mpr hsame))
      | uint8 =>
        have hswap := spread_byteSwap s.native .uint8 values
        rw [ne_iff_other.mp hsame, ← hswap]
        exact congrArg (spread s.native) (Vector.map_id values).symm
  change (if (1 < t.size && s.swapEndianness) = true then _ else _) = _
  rw [hrest]
  cases hswap : (1 < t.size && s.swapEndianness) with
  | false => rw [if_neg Bool.false_ne_true, hmove, hspread hswap]
  | true =>
    have hother : s.streamEndianness = s.native.other :=
      ne_iff_other.mp (bne_iff_ne.mp (Bool.and_eq_true_iff.mp hswap).2)
    rw [if_pos rfl, load_between (by rw [List.length_append, hbytes]; exact Nat.le_add_right _ _)]
    dsimp only
    rw [words_take, native_between, words_spread,
      spread_byteSwap, ← hother, store_between (by
        rw [List.length_append, hbytes, hbytes]
        exact Nat.le_add_right _ _), hbytes, List.drop_left' (hbytes s.native)]
    dsimp only
    rw [hmove]

end Within

/-- **`read` at a place** `p` of a buffer of true size, to a place `q`. -/
theorem readPrimitive_at (hlib : lib.Documented) {bs : List Byte} {p q : ℕ}
    (hsize : s.bufferSize = some bs.length) (hg : padding (min t.size s.maxAlignment) p = g)
    (hk : 0 < k) (hmax : bs.length ≤ sizeMax) (hp : p ≤ bs.length) (hq : p + g + t.size * k = q) :
    readPrimitive lib t k (s.between (bs.take p) (bs.drop p)) =
      if q ≤ bs.length then
        .ok (words s.streamEndianness t.size k (bs.drop (p + g)),
          s.between (bs.take q) (bs.drop q))
      else .error .refused := by
  have hfront : (bs.take p).length = p := List.length_take_of_le hp
  have hrest : (bs.drop p).length = bs.length - p := List.length_drop
  rw [← hfront] at hg
  subst hq
  split_ifs with hfits
  · rw [readPrimitive_between hlib hsize hg hk hmax (by omega) (by omega), ← List.take_add,
      List.drop_drop, List.drop_drop, Nat.add_assoc]
  · exact readPrimitive_refused hlib hsize hg (by omega) (by omega)

/-- **`write` at a place** `p` with room up to a place `q`. -/
theorem writePrimitive_at (hlib : lib.Documented) {p q : ℕ} (hsize : s.bufferSize = some size)
    (hp : front.length = p) (hg : padding (min t.size s.maxAlignment) p = g)
    (values : Vector t.Word k) (hk : 0 < k) (hmax : size ≤ sizeMax)
    (hq : p + g + t.size * k = q) (hfits : q ≤ size) (hmem : q ≤ p + rest.length) :
    writePrimitive lib t values (s.between front rest) =
      .ok (s.between (front ++ List.replicate g 0 ++ spread s.streamEndianness values)
        (rest.drop (q - p))) := by
  subst hp hq
  rw [writePrimitive_between hlib hsize hg values hk hmax (by omega) (by omega)]
  congr 3
  omega

/-- **`move` without a buffer** moves past the values. -/
theorem movePrimitive_free (hlib : lib.Documented) (hfree : s.bufferSize = none)
    (hg : s.gap t.size = g) (hmax : s.position + g < sizeMax) :
    movePrimitive lib t k s = .ok (s.advance (g + t.size * k)) := by
  have hadmits : s.admits (s.gap t.size) := by rw [admits, hfree]; rfl
  unfold movePrimitive
  rw [if_neg (by omega), hlib.align_moves _ _ _ hadmits, if_neg Bool.false_ne_true, hg]
  dsimp only [Bind.bind, Except.bind, Except.map]
  rw [hlib.incrPosition _ _ (show s.position + g ≠ sizeMax by omega)]
  simp only [advance, Nat.add_assoc]

/-! ## The generated code at the cursor -/

theorem plainStruct_joyDataProps : PlainStruct joyDataProps := by
  refine ⟨_, _, rfl, rfl, rfl, ?_⟩
  decide

/-- The switch box streams the members in their order, and nothing in between. -/
theorem switchBox_eq (hlib : lib.Documented) {α : Type}
    {priority axes buttons : α → CdrStream → Except Stop (α × CdrStream)} (a : α) (s : CdrStream) :
    switchBox lib priority axes buttons a s =
      (priority a s).bind fun r => (axes r.1 r.2).bind fun r => buttons r.1 r.2 := by
  have hhook : ∀ h s, h.primitive → lib.hook joyDataProps h s = .ok s :=
    fun h s => hlib.hook _ h s plainStruct_joyDataProps
  have hmember : ∀ mId isArray (body : α → CdrStream → Except Stop (α × CdrStream)) a s,
      member lib mId isArray body a s = body a s := by
    intro mId isArray body a s
    cases isArray <;> simp only [member, hhook (.startMember mId) _ rfl,
      hhook (.startConsecutive true true) _ rfl, hhook .finishConsecutive _ rfl,
      hhook (.finishMember mId) _ rfl, Bind.bind, Except.bind, if_true, Bool.false_eq_true,
      if_false] <;> cases body a s <;> rfl
  have hentities : lib.entities joyDataProps =
      [⟨1, 0, false, .final, false⟩, ⟨1, 1, false, .final, false⟩, ⟨1, 2, false, .final, false⟩] :=
    hlib.entities _ _ plainStruct_joyDataProps
  simp only [switchBox, hhook .startStruct _ rfl, hhook .finishStruct _ rfl, hentities,
    List.foldlM_cons, List.foldlM_nil, hmember, Bind.bind, Except.bind, Pure.pure, Except.pure]
  cases priority a s with
  | error stop => rfl
  | ok r =>
    dsimp only
    cases axes r.1 r.2 with
    | error stop => rfl
    | ok r =>
      dsimp only
      cases buttons r.1 r.2 <;> rfl

/-- The members' bytes in an order, with the gap before the axes. -/
def body (e : Endianness) (m : JoyDataBits) (gap : List Byte) : List Byte :=
  spread e #v[m.priority] ++ gap ++ spread e m.axes ++ spread e m.buttons

/-- The members that start a list of bytes. -/
def layout (e : Endianness) (bs : List Byte) : JoyDataBits where
  priority := (words e Primitive.uint8.size 1 bs).get 0
  axes := words e Primitive.float.size 6 (bs.drop 4)
  buttons := words e Primitive.uint8.size 12 (bs.drop 28)

theorem gap_start (h : 4 ≤ s.maxAlignment) :
    padding (min Primitive.uint8.size s.maxAlignment) 0 = 0 ∧
      padding (min Primitive.float.size s.maxAlignment) 1 = 3 ∧
        padding (min Primitive.uint8.size s.maxAlignment) 28 = 0 := by
  have hbyte : min Primitive.uint8.size s.maxAlignment = 1 :=
    min_eq_left ((by decide : Primitive.uint8.size ≤ 4).trans h)
  have hword : min Primitive.float.size s.maxAlignment = 4 := min_eq_left h
  rw [hbyte, hword]
  decide

/-- **`read` of a message** takes the first forty bytes, and refuses fewer. -/
theorem read_between (hlib : lib.Documented) (m : JoyDataBits) {bs : List Byte}
    (halign : 4 ≤ s.maxAlignment) (hsize : s.bufferSize = some bs.length)
    (hmax : bs.length ≤ sizeMax) :
    (read lib m (s.between [] bs)).map Prod.fst =
      if 40 ≤ bs.length then .ok (layout s.streamEndianness bs) else .error .refused := by
  obtain ⟨hpriority, haxes, hbuttons⟩ := gap_start halign
  have hstart : lib.setMode (s.between [] bs) = s.between (bs.take 0) (bs.drop 0) :=
    hlib.setMode _
  rw [read, switchBox_eq hlib, hstart,
    readPrimitive_at hlib hsize hpriority Nat.one_pos hmax (Nat.zero_le _) (q := 1) rfl]
  by_cases hfirst : 1 ≤ bs.length
  · rw [if_pos hfirst]
    dsimp only [Bind.bind, Except.bind]
    rw [readPrimitive_at hlib hsize haxes (k := 6) (by decide) hmax hfirst (q := 28) rfl]
    by_cases hsecond : 28 ≤ bs.length
    · rw [if_pos hsecond]
      dsimp only
      rw [readPrimitive_at hlib hsize hbuttons (k := 12) (by decide) hmax hsecond (q := 40) rfl]
      by_cases hall : 40 ≤ bs.length
      · rw [if_pos hall, if_pos hall]
        rfl
      · rw [if_neg hall, if_neg hall]
        rfl
    · rw [if_neg hsecond, if_neg (by omega)]
      rfl
  · rw [if_neg hfirst, if_neg (by omega)]
    rfl

/-- **`write` of a message** leaves its forty bytes, with zeros in the gap. -/
theorem write_between (hlib : lib.Documented) (m : JoyDataBits) (halign : 4 ≤ s.maxAlignment)
    (hsize : s.bufferSize = some size) (hmax : size ≤ sizeMax) (hfits : 40 ≤ size)
    (hmem : 40 ≤ rest.length) :
    write lib m (s.between [] rest) =
      .ok (s.between (body s.streamEndianness m (List.replicate 3 0)) (rest.drop 40)) := by
  obtain ⟨hpriority, haxes, hbuttons⟩ := gap_start halign
  have hstart : lib.setMode (s.between [] rest) = s.between [] rest := hlib.setMode _
  have hfirst : (spread s.streamEndianness #v[m.priority]).length = 1 := length_spread _
  have hsecond : (spread s.streamEndianness #v[m.priority] ++ List.replicate 3 0 ++
      spread s.streamEndianness m.axes).length = 28 := by
    rw [List.length_append, List.length_append, hfirst, length_spread]
    rfl
  rw [write, switchBox_eq hlib, hstart, writePrimitive_at hlib hsize rfl hpriority #v[m.priority]
    Nat.one_pos hmax (q := 1) rfl (by omega) (by omega)]
  dsimp only [Bind.bind, Except.bind]
  rw [List.nil_append, List.replicate_zero, List.nil_append,
    writePrimitive_at hlib hsize hfirst haxes m.axes (by decide) hmax (q := 28) rfl (by omega)
      (by rw [List.length_drop]; omega)]
  dsimp only
  rw [writePrimitive_at hlib hsize hsecond hbuttons m.buttons (by decide) hmax (q := 40) rfl hfits
    (by rw [List.length_drop, List.length_drop]; omega)]
  rw [List.replicate_zero, List.append_nil, List.drop_drop, List.drop_drop]
  rfl

/-- **`move` over a message** goes forty bytes. -/
theorem move_free (hlib : lib.Documented) (halign : 4 ≤ s.maxAlignment)
    (hfree : s.bufferSize = none) : (move lib s).map CdrStream.position = .ok 40 := by
  obtain ⟨hpriority, haxes, hbuttons⟩ := gap_start halign
  have hstart : lib.setMode s = { s with position := 0 } := hlib.setMode _
  have hmove : ∀ (t : Primitive) (k p g q : ℕ), padding (min t.size s.maxAlignment) p = g →
      p + g < sizeMax → p + (g + t.size * k) = q →
        movePrimitive lib t k { s with position := p } = .ok { s with position := q } :=
    fun t k p g q hg hmax hq => hq ▸ movePrimitive_free hlib hfree hg hmax
  rw [move, switchBox_eq hlib, hstart, hmove _ _ _ _ 1 hpriority (by decide) rfl]
  dsimp only [Bind.bind, Except.bind]
  rw [hmove _ _ _ _ 28 haxes (by decide) rfl]
  dsimp only
  rw [hmove _ _ _ _ 40 hbuttons (by decide) rfl]
  rfl

end Cdr

end SvanVoice
