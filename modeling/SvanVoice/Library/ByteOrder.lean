import Mathlib.Data.Nat.Log
import Mathlib.Data.List.Basic
import Mathlib.Algebra.Order.Ring.Nat
import Mathlib.Tactic.Ring

/-!
# Words as bytes

A word of `n` bytes is a bit vector of width `8 * n`. `toBytes` lays it out in memory in one of the
two byte orders, `ofBytes` reads it back, and the two undo each other (`ofBytes_toBytes`,
`toBytes_ofBytes`). The bytes of one order are those of the other reversed, so a word whose bytes
are reversed is a word of the other order (`toBytes_other`).

`spread` and `words` do the same for an array of words, end to end. `overwrite` is a write into a
buffer, and `padding` is the gap before the next multiple of an alignment.
-/

set_option autoImplicit false

namespace ByteOrder

abbrev Byte := BitVec 8

/-- The order of a word's bytes in memory. -/
inductive Endianness where
  | little
  | big
  deriving DecidableEq

/-- The other byte order. -/
def Endianness.other : Endianness → Endianness
  | .little => .big
  | .big => .little

/-- A list of bytes, least byte first, put into an order, and back. -/
def Endianness.arrange : Endianness → List Byte → List Byte
  | .little, bs => bs
  | .big, bs => bs.reverse

variable {e : Endianness} {n k : ℕ}

@[simp] theorem other_other : e.other.other = e := by
  cases e <;> rfl

theorem ne_iff_other {e' : Endianness} : e ≠ e' ↔ e' = e.other := by
  cases e <;> cases e' <;> simp only [Endianness.other, ne_eq, reduceCtorEq, not_true_eq_false,
    not_false_eq_true]

@[simp] theorem arrange_arrange (bs : List Byte) : e.arrange (e.arrange bs) = bs := by
  cases e with
  | little => rfl
  | big => exact List.reverse_reverse bs

@[simp] theorem length_arrange (bs : List Byte) : (e.arrange bs).length = bs.length := by
  cases e with
  | little => rfl
  | big => exact List.length_reverse

theorem arrange_other (bs : List Byte) : e.other.arrange bs = e.arrange bs.reverse := by
  cases e with
  | little => rfl
  | big => exact (List.reverse_reverse bs).symm

/-! ## Digits -/

/-- The lowest `n` bytes of a number, least first. -/
def digits : ℕ → ℕ → List Byte
  | 0, _ => []
  | n + 1, v => BitVec.ofNat 8 v :: digits n (v / 256)

/-- The number with the given bytes, least first. -/
def value : List Byte → ℕ
  | [] => 0
  | b :: bs => b.toNat + 256 * value bs

@[simp] theorem length_digits (n v : ℕ) : (digits n v).length = n := by
  induction n generalizing v with
  | zero => rfl
  | succ n ih => rw [digits, List.length_cons, ih]

theorem value_digits (n v : ℕ) : value (digits n v) = v % 256 ^ n := by
  induction n generalizing v with
  | zero => rw [digits, value, pow_zero, Nat.mod_one]
  | succ n ih =>
    have hsplit : v % (256 * 256 ^ n) = v % 256 + 256 * (v / 256 % 256 ^ n) := Nat.mod_mul
    rw [digits, value, ih, BitVec.toNat_ofNat, pow_succ' 256]
    exact hsplit.symm

theorem digits_value (bs : List Byte) : digits bs.length (value bs) = bs := by
  induction bs with
  | nil => rfl
  | cons b bs ih =>
    have hb : b.toNat < 256 := b.isLt
    have hrest : (b.toNat + 256 * value bs) / 256 = value bs := by omega
    rw [List.length_cons, value, digits, hrest, ih]
    congr 1
    apply BitVec.eq_of_toNat_eq
    rw [BitVec.toNat_ofNat]
    omega

/-! ## One word -/

/-- A word's bytes in memory. -/
def toBytes (e : Endianness) (x : BitVec (8 * n)) : List Byte := e.arrange (digits n x.toNat)

/-- The word with the given bytes in memory. -/
def ofBytes (e : Endianness) (n : ℕ) (bs : List Byte) : BitVec (8 * n) :=
  BitVec.ofNat (8 * n) (value (e.arrange bs))

@[simp] theorem length_toBytes (x : BitVec (8 * n)) : (toBytes e x).length = n := by
  rw [toBytes, length_arrange, length_digits]

@[simp] theorem ofBytes_toBytes (x : BitVec (8 * n)) : ofBytes e n (toBytes e x) = x := by
  apply BitVec.eq_of_toNat_eq
  have hbase : 256 ^ n = 2 ^ (8 * n) := by rw [pow_mul]; rfl
  rw [ofBytes, toBytes, arrange_arrange, value_digits, BitVec.toNat_ofNat, hbase, Nat.mod_mod,
    Nat.mod_eq_of_lt x.isLt]

theorem value_lt (bs : List Byte) : value bs < 256 ^ bs.length := by
  induction bs with
  | nil => exact Nat.one_pos
  | cons b bs ih =>
    have hb : b.toNat < 256 := b.isLt
    rw [value, List.length_cons, pow_succ']
    omega

theorem toBytes_ofBytes {bs : List Byte} (h : bs.length = n) : toBytes e (ofBytes e n bs) = bs := by
  subst h
  have hbase : 2 ^ (8 * bs.length) = 256 ^ bs.length := by rw [pow_mul]; rfl
  have hlt : value (e.arrange bs) < 256 ^ bs.length := by
    have hvalue := value_lt (e.arrange bs)
    rwa [length_arrange] at hvalue
  rw [toBytes, ofBytes, BitVec.toNat_ofNat, hbase, Nat.mod_eq_of_lt hlt,
    ← length_arrange (e := e) bs, digits_value, arrange_arrange]

/-- A word with its bytes reversed has the bytes of the other order. -/
theorem toBytes_other {x y : BitVec (8 * n)} (h : digits n y.toNat = (digits n x.toNat).reverse) :
    toBytes e y = toBytes e.other x := by
  rw [toBytes, toBytes, h, arrange_other]

theorem ofBytes_eq_iff {bs : List Byte} (h : bs.length = n) {x : BitVec (8 * n)} :
    ofBytes e n bs = x ↔ bs = toBytes e x := by
  constructor
  · rintro rfl
    exact (toBytes_ofBytes h).symm
  · rintro rfl
    exact ofBytes_toBytes x

/-! ## Arrays -/

/-- The bytes of an array of words, end to end. -/
def spread (e : Endianness) (ws : Vector (BitVec (8 * n)) k) : List Byte :=
  ws.toList.flatMap (toBytes e)

/-- The array of `k` words that starts a list of bytes. -/
def words (e : Endianness) (n k : ℕ) (bs : List Byte) : Vector (BitVec (8 * n)) k :=
  .ofFn fun i => ofBytes e n ((bs.drop (n * i)).take n)

/-- The parts of a list of parts of one length. -/
theorem drop_flatMap {α β : Type*} {f : α → List β} (hf : ∀ a, (f a).length = n) {l : List α}
    {i : ℕ} (hi : i < l.length) (rest : List β) :
    ((l.flatMap f ++ rest).drop (n * i)).take n = f l[i] := by
  induction l generalizing i with
  | nil => exact absurd hi (Nat.not_lt_zero i)
  | cons a l ih =>
    rw [List.flatMap_cons, List.append_assoc]
    cases i with
    | zero => rw [mul_zero, List.drop_zero, List.take_left' (hf a), List.getElem_cons_zero]
    | succ i =>
      have hskip : n * (i + 1) = (f a).length + n * i := by rw [hf a, mul_add, mul_one, add_comm]
      rw [hskip, ← List.drop_drop, List.drop_left, List.getElem_cons_succ]
      exact ih (Nat.lt_of_succ_lt_succ hi)

theorem length_flatMap_const {α β : Type*} {f : α → List β} (hf : ∀ a, (f a).length = n)
    (l : List α) : (l.flatMap f).length = n * l.length := by
  induction l with
  | nil => rfl
  | cons a l ih => rw [List.flatMap_cons, List.length_append, hf, ih, List.length_cons]; ring

@[simp] theorem length_spread (ws : Vector (BitVec (8 * n)) k) : (spread e ws).length = n * k := by
  rw [spread, length_flatMap_const length_toBytes, Vector.length_toList]

/-- An array is read from its own bytes only. -/
theorem words_take (bs : List Byte) : words e n k (bs.take (n * k)) = words e n k bs := by
  ext1 i hi
  have hword : n ≤ n * k - n * i := Nat.le_sub_of_add_le' (Nat.mul_le_mul_left n hi)
  rw [words, words, Vector.getElem_ofFn, Vector.getElem_ofFn, List.drop_take, List.take_take,
    min_eq_left hword]

/-- An array is read back from its bytes, whatever follows them. -/
theorem words_spread (ws : Vector (BitVec (8 * n)) k) (rest : List Byte) :
    words e n k (spread e ws ++ rest) = ws := by
  ext1 i hi
  have hlist : i < ws.toList.length := by rwa [Vector.length_toList]
  rw [words, Vector.getElem_ofFn, spread, drop_flatMap length_toBytes hlist, ofBytes_toBytes,
    Vector.getElem_toList]

/-- The words of a list of bytes lie in it end to end. -/
theorem spread_words {bs : List Byte} (h : n * k ≤ bs.length) :
    spread e (words e n k bs) = bs.take (n * k) := by
  rw [spread, words, Vector.toList_ofFn]
  induction k with
  | zero => rfl
  | succ k ih =>
    have hword : ((bs.drop (n * k)).take n).length = n := by
      rw [List.length_take, List.length_drop]
      exact min_eq_left (Nat.le_sub_of_add_le' h)
    have hfirst : n * k ≤ bs.length := (Nat.mul_le_mul_left n k.le_succ).trans h
    rw [List.ofFn_succ_last, List.flatMap_append, List.flatMap_singleton, Fin.val_last,
      toBytes_ofBytes hword, mul_add_one, List.take_add]
    exact congrArg (· ++ _) (ih hfirst)

/-! ## Buffers -/

/-- A buffer with `bs` written over it from `position` on. -/
def overwrite (buffer : List Byte) (position : ℕ) (bs : List Byte) : List Byte :=
  buffer.take position ++ bs ++ buffer.drop (position + bs.length)

/-- Bytes written where a first part ends stand behind it. -/
theorem overwrite_append (front rest bs : List Byte) :
    overwrite (front ++ rest) front.length bs = front ++ (bs ++ rest.drop bs.length) := by
  rw [overwrite, List.take_left, ← List.drop_drop, List.drop_left, List.append_assoc]

theorem length_overwrite {buffer bs : List Byte} {position : ℕ}
    (h : position + bs.length ≤ buffer.length) :
    (overwrite buffer position bs).length = buffer.length := by
  simp only [overwrite, List.length_append, List.length_take, List.length_drop]
  omega

theorem overwrite_nil (buffer : List Byte) (position : ℕ) :
    overwrite buffer position [] = buffer := by
  rw [overwrite, List.append_nil, List.length_nil, Nat.add_zero, List.take_append_drop]

/-- Two writes, the second where the first ends, are one. -/
theorem overwrite_overwrite {buffer bs cs : List Byte} {position : ℕ}
    (h : position ≤ buffer.length) :
    overwrite (overwrite buffer position bs) (position + bs.length) cs =
      overwrite buffer position (bs ++ cs) := by
  have hfront : (buffer.take position ++ bs).length = position + bs.length := by
    rw [List.length_append, List.length_take_of_le h]
  have hsecond := overwrite_append (buffer.take position ++ bs)
    (buffer.drop (position + bs.length)) cs
  rw [hfront, List.drop_drop] at hsecond
  refine hsecond.trans ?_
  simp only [overwrite, List.length_append, List.append_assoc, Nat.add_assoc]

/-- The gap from a position to the next multiple of an alignment. -/
def padding (alignment position : ℕ) : ℕ := (alignment - position % alignment) % alignment

end ByteOrder
