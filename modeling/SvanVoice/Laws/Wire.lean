import SvanVoice.Laws.Stream

/-!
# Samples as bytes

The codec of the topic's type, from the outside. `IsPayload` is the format, stated without streams:
an identifier, two bytes that nothing reads, and the members in the order that the identifier names.
`sample_round_trip` is the law of a sender and a receiver, `reception_exact` the law of a receiver
alone: what it accepts is exactly the format, from whatever source. Data that is short by up to
three bytes is accepted as well, since the memory it is copied to is padded with zeros.

Two things in the source look like reads or writes past the end and are not. The serializer tells
its stream the size of header and members for the members alone, and the reader subtracts the
header's size from a size that might be smaller. Memory has the members' forty bytes in the one
case, and is never shorter than a header in the other.
-/

set_option autoImplicit false

namespace SvanVoice

open ByteOrder

/-! ## The header -/

/-- The bytes that name an encoding and its order. -/
def encapsulation : EncodingVersion → Endianness → List Byte
  | .xcdrV1, .big => [0x00, 0x00]
  | .xcdrV1, .little => [0x00, 0x01]
  | .xcdrV2, .big => [0x00, 0x06]
  | .xcdrV2, .little => [0x00, 0x07]

/-- The bytes of the identifier that an assertion excludes. -/
def nativeEncapsulation : List Byte := [0xc0, 0x00]

section Header

variable {e : Endianness} {version : EncodingVersion} {data : List Byte}

@[simp] theorem length_encapsulation : (encapsulation version e).length = 2 := by
  cases version <;> cases e <;> rfl

/-- The identifiers have the same bytes on every host. -/
theorem toBytes_rtpsCdr (native : Endianness) :
    toBytes native (rtpsCdr native version e) = encapsulation version e := by
  cases native <;> cases version <;> cases e <;> decide

theorem toBytes_rtpsSampleNative (native : Endianness) :
    toBytes native (rtpsSampleNative native) = nativeEncapsulation := by
  cases native <;> decide

theorem readHeader_of_encapsulation (native : Endianness)
    (h : data.take 2 = encapsulation version e) :
    readHeader native data = .ok (version, e) := by
  have hlength : 2 ≤ data.length := by
    have htake := congrArg List.length h
    rw [List.length_take, length_encapsulation] at htake
    omega
  rw [readHeader, if_neg hlength.not_gt, h, ← toBytes_rtpsCdr native, ofBytes_toBytes]
  cases native <;> cases version <;> cases e <;> rfl

theorem readHeader_of_native (native : Endianness) (h : data.take 2 = nativeEncapsulation) :
    readHeader native data = .error .aborted := by
  have hlength : 2 ≤ data.length := by
    have htake := congrArg List.length h
    rw [List.length_take, nativeEncapsulation, List.length_cons, List.length_singleton] at htake
    omega
  rw [readHeader, if_neg hlength.not_gt, h, ← toBytes_rtpsSampleNative native,
    ofBytes_toBytes]
  cases native <;> rfl

theorem readHeader_of_other (native : Endianness) (hlength : 2 ≤ data.length)
    (hother : ∀ version e, data.take 2 ≠ encapsulation version e)
    (hnative : data.take 2 ≠ nativeEncapsulation) : readHeader native data = .error .refused := by
  have hbytes : (data.take 2).length = 2 := List.length_take_of_le hlength
  have hne : ∀ version e, ofBytes native 2 (data.take 2) ≠ rtpsCdr native version e :=
    fun version e h => hother version e (by
      rw [← toBytes_rtpsCdr native]
      exact (ofBytes_eq_iff hbytes).mp h)
  have hneNative : ofBytes native 2 (data.take 2) ≠ rtpsSampleNative native := fun h =>
    hnative (by
      rw [← toBytes_rtpsSampleNative native]
      exact (ofBytes_eq_iff hbytes).mp h)
  unfold readHeader rtpsCdrEncLe
  rw [if_neg hlength.not_gt]
  dsimp only
  rw [if_neg hneNative]
  cases native <;> simp only [Bind.bind, Except.bind, hne, or_self, if_false]

end Header

/-! ## Payloads -/

/-- **A payload of a message**: its encoding and order, two bytes that nothing reads, the members in
that order, and whatever follows them. -/
def IsPayload (m : JoyDataBits) (data : List Byte) : Prop :=
  ∃ version e options gap rest, options.length = 2 ∧ gap.length = 3 ∧
    data = encapsulation version e ++ options ++ Cdr.body e m gap ++ rest

namespace Cdr

theorem length_body (e : Endianness) (m : JoyDataBits) {gap : List Byte} (hgap : gap.length = 3) :
    (body e m gap).length = 40 := by
  rw [body, List.length_append, List.length_append, List.length_append, length_spread,
    length_spread, length_spread, hgap]
  rfl

/-- The members are read back from their bytes. -/
theorem layout_body (e : Endianness) (m : JoyDataBits) {gap : List Byte} (hgap : gap.length = 3)
    (rest : List Byte) : layout e (body e m gap ++ rest) = m := by
  have hfirst : (spread e #v[m.priority] ++ gap).length = 4 := by
    rw [List.length_append, length_spread, hgap]
    rfl
  have hsecond : (spread e #v[m.priority] ++ gap ++ spread e m.axes).length = 28 := by
    rw [List.length_append, hfirst, length_spread]
    rfl
  rw [layout, body]
  congr 1
  · rw [List.append_assoc, List.append_assoc, List.append_assoc, words_spread]
    rfl
  · rw [List.append_assoc, List.append_assoc, List.drop_left' hfirst, words_spread]
  · rw [List.append_assoc, List.drop_left' hsecond, words_spread]

/-- Forty bytes are the members that they hold. -/
theorem body_layout (e : Endianness) {bs : List Byte} (h : 40 ≤ bs.length) :
    body e (layout e bs) ((bs.drop 1).take 3) ++ bs.drop 40 = bs := by
  have hpriority : spread e #v[(layout e bs).priority] = bs.take 1 := by
    have hword : #v[(layout e bs).priority] = words e Primitive.uint8.size 1 bs := by
      ext1 i hi
      obtain rfl : i = 0 := by omega
      rfl
    rw [hword]
    exact spread_words (n := 1) (by omega)
  have haxes : spread e (layout e bs).axes = (bs.drop 4).take 24 :=
    spread_words (n := 4) (by rw [List.length_drop]; omega)
  have hbuttons : spread e (layout e bs).buttons = (bs.drop 28).take 12 :=
    spread_words (n := 1) (by rw [List.length_drop]; omega)
  calc body e (layout e bs) ((bs.drop 1).take 3) ++ bs.drop 40
      = bs.take 1 ++ (bs.drop 1).take 3 ++ (bs.drop 4).take 24 ++ (bs.drop 28).take 12 ++
          bs.drop 40 := by rw [body, hpriority, haxes, hbuttons]
    _ = bs.take 40 ++ bs.drop 40 := by rw [← List.take_add, ← List.take_add, ← List.take_add]
    _ = bs := List.take_append_drop 40 bs

end Cdr

theorem IsPayload.parts {m : JoyDataBits} {data : List Byte} (h : IsPayload m data) :
    44 ≤ data.length ∧ ∃ version e, data.take 2 = encapsulation version e ∧
      Cdr.layout e (data.drop headerSize) = m := by
  obtain ⟨version, e, options, gap, rest, hoptions, hgap, rfl⟩ := h
  have hheader : (encapsulation version e ++ options).length = headerSize := by
    rw [List.length_append, length_encapsulation, hoptions]
    rfl
  refine ⟨?_, version, e, ?_, ?_⟩
  · rw [List.length_append, List.length_append, hheader, Cdr.length_body e m hgap]
    exact Nat.le_add_right _ _
  · rw [List.append_assoc, List.append_assoc, List.take_left' length_encapsulation]
  · rw [List.append_assoc, List.drop_left' hheader, Cdr.layout_body e m hgap]

theorem isPayload_layout {data : List Byte} {version : EncodingVersion} {e : Endianness}
    (hheader : data.take 2 = encapsulation version e) (h : 44 ≤ data.length) :
    IsPayload (Cdr.layout e (data.drop headerSize)) data := by
  have hlong : 40 ≤ (data.drop headerSize).length := by
    rw [List.length_drop]
    exact Nat.le_sub_of_add_le h
  have hbody := Cdr.body_layout e hlong
  refine ⟨version, e, (data.drop 2).take 2, ((data.drop headerSize).drop 1).take 3,
    (data.drop headerSize).drop 40, ?_, ?_, ?_⟩
  · rw [List.length_take, List.length_drop]
    omega
  · rw [List.length_take, List.length_drop, List.length_drop, headerSize]
    omega
  · rw [List.append_assoc, hbody, ← hheader, ← List.take_add]
    exact (List.take_append_drop headerSize data).symm

/-- More bytes behind a payload are ignored. -/
theorem IsPayload.append {m : JoyDataBits} {data : List Byte} (h : IsPayload m data)
    (more : List Byte) : IsPayload m (data ++ more) := by
  obtain ⟨version, e, options, gap, rest, hoptions, hgap, rfl⟩ := h
  exact ⟨version, e, options, gap, rest ++ more, hoptions, hgap, List.append_assoc _ _ _⟩

/-- **A payload has one message.** -/
theorem IsPayload.unique {m m' : JoyDataBits} {data : List Byte} (h : IsPayload m data)
    (h' : IsPayload m' data) : m = m' := by
  obtain ⟨-, version, e, hheader, rfl⟩ := h.parts
  obtain ⟨-, version', e', hheader', rfl⟩ := h'.parts
  have hsame := hheader.symm.trans hheader'
  obtain rfl : e = e' := by
    cases version <;> cases e <;> cases version' <;> cases e' <;>
      first | rfl | exact absurd hsame (by decide)
  rfl

theorem IsPayload.not_native {m : JoyDataBits} {data : List Byte} (h : IsPayload m data) :
    ¬ nativeEncapsulation <+: data := by
  obtain ⟨-, version, e, hheader, -⟩ := h.parts
  rw [List.prefix_iff_eq_take]
  intro hnative
  have hsame := hnative.trans hheader
  cases version <;> cases e <;> exact absurd hsame (by decide)

/-! ## Receiving -/

section Receive

variable {lib : StreamLib} {native : Endianness} {data : List Byte} {m : JoyDataBits}

/-- Reading past the header, in a buffer of true size. -/
theorem deserialize_of_header (hlib : lib.Documented) {version : EncodingVersion} {e : Endianness}
    (hheader : readHeader native data = .ok (version, e)) (hlength : headerSize ≤ data.length)
    (hmax : data.length ≤ sizeMax) :
    deserializeSampleFromBuffer lib native data data.length m =
      if 44 ≤ data.length then .ok (Cdr.layout e (data.drop headerSize)) else .error .refused := by
  have hrest : (data.drop headerSize).length = data.length - 4 := List.length_drop
  have hsub : sizeSub data.length headerSize = (data.drop headerSize).length := by
    have hfour : headerSize = 4 := rfl
    have htop : sizeMax = 2 ^ 64 - 1 := rfl
    rw [sizeSub, hrest]
    omega
  have halign : 4 ≤ (cdrStream native version e).maxAlignment := by
    cases version with
    | xcdrV1 => exact (by decide : 4 ≤ 8)
    | xcdrV2 => exact le_rfl
  have hne : data ≠ [] := by
    rintro rfl
    exact absurd hlength (by decide)
  have hread := Cdr.read_between (s := { cdrStream native version e with
    bufferSize := some (data.drop headerSize).length }) hlib m halign rfl (by omega)
  have horder : (cdrStream native version e).streamEndianness = e := by
    cases version <;> rfl
  unfold deserializeSampleFromBuffer
  rw [if_neg hne, hheader]
  dsimp only [Bind.bind, Except.bind]
  rw [hlib.setBuffer, hsub]
  refine hread.trans ?_
  rw [hrest, horder]
  split_ifs <;> first | rfl | omega

/-- What comes of serialized data: a message it is a payload of, or nothing, or the end of the
process; never a read outside it. -/
theorem deserialize_cases (hlib : lib.Documented) (native : Endianness) (m : JoyDataBits)
    (hlength : data = [] ∨ headerSize ≤ data.length)
    (hmax : data.length ≤ sizeMax) :
    (∃ m', deserializeSampleFromBuffer lib native data data.length m = .ok m' ∧ IsPayload m' data) ∨
      (deserializeSampleFromBuffer lib native data data.length m = .error .aborted ∧
        nativeEncapsulation <+: data) ∨
      (deserializeSampleFromBuffer lib native data data.length m = .error .refused ∧
        (∀ m', ¬ IsPayload m' data) ∧ ¬ nativeEncapsulation <+: data) := by
  have hnative : nativeEncapsulation <+: data ↔ data.take 2 = nativeEncapsulation := by
    rw [List.prefix_iff_eq_take]
    exact eq_comm
  rcases hlength with rfl | hlength
  · exact .inr (.inr ⟨rfl, fun m' h => absurd h.parts.1 (by decide), by decide⟩)
  have hne : data ≠ [] := by
    rintro rfl
    exact absurd hlength (by decide)
  by_cases hend : data.take 2 = nativeEncapsulation
  · refine .inr (.inl ⟨?_, hnative.mpr hend⟩)
    unfold deserializeSampleFromBuffer
    rw [if_neg hne, readHeader_of_native native hend]
    rfl
  by_cases hnamed : ∃ version e, data.take 2 = encapsulation version e
  · obtain ⟨version, e, hheader⟩ := hnamed
    have hread := deserialize_of_header (m := m) hlib
      (readHeader_of_encapsulation native hheader) hlength hmax
    by_cases hlong : 44 ≤ data.length
    · rw [if_pos hlong] at hread
      exact .inl ⟨_, hread, isPayload_layout hheader hlong⟩
    · rw [if_neg hlong] at hread
      exact .inr (.inr ⟨hread, fun m' h => hlong h.parts.1, mt hnative.mp hend⟩)
  · refine .inr (.inr ⟨?_, fun m' h => ?_, mt hnative.mp hend⟩)
    · unfold deserializeSampleFromBuffer
      rw [if_neg hne, readHeader_of_other native ((by decide : 2 ≤ headerSize).trans hlength)
        (fun version e h => hnamed ⟨version, e, h⟩) hend]
      rfl
    · obtain ⟨-, version, e, hheader, -⟩ := h.parts
      exact hnamed ⟨version, e, hheader⟩

/-! ## Memory -/

/-- Bytes with zeros behind them up to a multiple of four. -/
def padded (bs : List Byte) : List Byte := bs ++ List.replicate (padding 4 bs.length) 0

theorem resize_eq (fresh : ℕ → Byte) {n : ℕ} (h : n ≤ 2 ^ 64) :
    resize fresh n = (List.range n).map fresh ++ List.replicate (padding 4 n) 0 := by
  have hpad : sizeSub 0 n % 4 = padding 4 n := by
    rw [sizeSub, padding]
    omega
  unfold resize
  split_ifs with hzero
  · rw [hzero]
    rfl
  · rw [hpad]

/-- The copying loop writes the first `size` bytes of the pieces. -/
theorem copyIov_eq {size : ℕ} {iov : List (List Byte)} {off : ℕ} (hoff : off ≤ size)
    (hsize : size ≤ data.length) :
    copyIov size iov off data = .ok (overwrite data off (iov.flatten.take (size - off))) := by
  induction iov generalizing off data with
  | nil => rw [copyIov, List.flatten_nil, List.take_nil, overwrite_nil]
  | cons v iov ih =>
    by_cases hmore : off < size
    · have hbytes : (if size < v.length + off then size - off else v.length) =
          min (size - off) v.length := by
        split_ifs <;> omega
      have hpiece : (v.take (min (size - off) v.length)).length = min (size - off) v.length := by
        rw [List.length_take, min_assoc, min_self]
      have hlength : (overwrite data off (v.take (min (size - off) v.length))).length =
          data.length := length_overwrite (by omega)
      have hnext : overwrite (overwrite data off (v.take (min (size - off) v.length)))
          (off + (v.take (min (size - off) v.length)).length)
          (iov.flatten.take (size - (off + min (size - off) v.length))) = _ :=
        overwrite_overwrite (hoff.trans hsize)
      rw [hpiece] at hnext
      have htake : v.take (min (size - off) v.length) = v.take (size - off) := by
        rw [← List.take_take, List.take_length]
      have hrest : iov.flatten.take (size - (off + min (size - off) v.length)) =
          iov.flatten.take (size - off - v.length) := by
        congr 1
        omega
      rw [copyIov, if_pos hmore]
      dsimp only
      rw [hbytes, if_pos (by omega), ih (by omega) (by omega), hnext, htake, hrest,
        List.flatten_cons, List.take_append]
    · obtain rfl : off = size := by omega
      rw [copyIov, if_neg hmore, Nat.sub_self, List.take_zero, overwrite_nil]

/-- **What lies in memory** once the pieces are copied: their first `size` bytes, padded. Nothing
of the fresh memory is left. -/
theorem copyIov_resize (fresh : ℕ → Byte) {size : ℕ} {iov : List (List Byte)}
    (hsize : size ≤ 2 ^ 64) (henough : size ≤ iov.flatten.length) :
    copyIov size iov 0 (resize fresh size) = .ok (padded (iov.flatten.take size)) := by
  have htake : (iov.flatten.take size).length = size := List.length_take_of_le henough
  have hfresh : ((List.range size).map fresh).length = size := by
    rw [List.length_map, List.length_range]
  rw [resize_eq fresh hsize, copyIov_eq (Nat.zero_le _) (by
    rw [List.length_append, hfresh]
    exact Nat.le_add_right _ _), overwrite, List.take_zero, List.nil_append, Nat.sub_zero,
    Nat.zero_add, htake, List.drop_left' hfresh, padded, htake]

/-- What comes of received bytes. -/
theorem serdataFromSerIov_cases (hlib : lib.Documented) (native : Endianness) (fresh : ℕ → Byte)
    {iov : List (List Byte)} {size : ℕ} (henough : size ≤ iov.flatten.length)
    (hsize : size + 4 ≤ 2 ^ 64) :
    (∃ m, serdataFromSerIov lib native fresh iov size = .ok (some m) ∧
        IsPayload m (padded (iov.flatten.take size))) ∨
      (serdataFromSerIov lib native fresh iov size = .error .aborted ∧
        nativeEncapsulation <+: padded (iov.flatten.take size)) ∨
      (serdataFromSerIov lib native fresh iov size = .ok none ∧
        (∀ m, ¬ IsPayload m (padded (iov.flatten.take size))) ∧
        ¬ nativeEncapsulation <+: padded (iov.flatten.take size)) := by
  have htake : (iov.flatten.take size).length = size := List.length_take_of_le henough
  have hlength : (padded (iov.flatten.take size)).length = size + padding 4 size := by
    rw [padded, List.length_append, htake, List.length_replicate]
  have hwhole : padded (iov.flatten.take size) = [] ∨
      headerSize ≤ (padded (iov.flatten.take size)).length := by
    rw [← List.length_eq_zero_iff, hlength, headerSize, padding]
    omega
  have hmax : (padded (iov.flatten.take size)).length ≤ sizeMax := by
    rw [hlength, sizeMax, padding]
    omega
  have hdata : serdataFromSerIov lib native fresh iov size =
      orNull (deserializeSampleFromBuffer lib native (padded (iov.flatten.take size))
        (padded (iov.flatten.take size)).length {}) := by
    rw [serdataFromSerIov, copyIov_resize fresh (by omega) henough]
    rfl
  rw [hdata]
  rcases deserialize_cases hlib native {} hwhole hmax with
    ⟨m, hread, hpayload⟩ | ⟨hread, hnative⟩ | ⟨hread, hnone⟩
  · rw [hread]
    exact .inl ⟨m, rfl, hpayload⟩
  · rw [hread]
    exact .inr (.inl ⟨rfl, hnative⟩)
  · rw [hread]
    exact .inr (.inr ⟨rfl, hnone⟩)

/-- **What the bridge accepts**, of any bytes from anywhere: exactly the payloads of messages, each
as its message, whatever the pieces, the host and the contents of fresh memory. Bytes that start
with the excluded identifier end the process; all others are dropped. Memory outside the buffer is
never touched. -/
theorem reception_exact (hlib : lib.Documented) (native : Endianness) (fresh : ℕ → Byte)
    {iov : List (List Byte)} {size : ℕ} (henough : size ≤ iov.flatten.length)
    (hsize : size + 4 ≤ 2 ^ 64) :
    (∀ m, serdataFromSerIov lib native fresh iov size = .ok (some m) ↔
      IsPayload m (padded (iov.flatten.take size))) ∧
    (serdataFromSerIov lib native fresh iov size = .error .aborted ↔
      nativeEncapsulation <+: padded (iov.flatten.take size)) ∧
    serdataFromSerIov lib native fresh iov size ≠ .error .overrun := by
  rcases serdataFromSerIov_cases hlib native fresh henough hsize with
    ⟨m, hread, hpayload⟩ | ⟨hread, hnative⟩ | ⟨hread, hnone, hnative⟩
  · rw [hread]
    refine ⟨fun m' => ⟨?_, fun h' => ?_⟩, ⟨fun h => ?_, fun h => ?_⟩, fun h => ?_⟩
    · rintro ⟨⟩
      exact hpayload
    · rw [hpayload.unique h']
    · cases h
    · exact absurd h hpayload.not_native
    · cases h
  · rw [hread]
    refine ⟨fun m' => ⟨fun h => ?_, fun h => ?_⟩, iff_of_true rfl hnative, fun h => ?_⟩
    · cases h
    · exact absurd hnative h.not_native
    · cases h
  · rw [hread]
    refine ⟨fun m' => ⟨fun h => ?_, fun h => ?_⟩, ⟨fun h => ?_, fun h => ?_⟩, fun h => ?_⟩
    · cases h
    · exact absurd h (hnone m')
    · cases h
    · exact absurd h hnative
    · cases h

/-- Two bytes of data that starts with the excluded identifier. -/
theorem native_received :
    (∀ m, serdataFromSerIov .plain .little (fun _ => 0) [[0xc0, 0x00]] 2 = .ok (some m) ↔
      IsPayload m (padded ([[0xc0, 0x00]].flatten.take 2))) ∧
    (serdataFromSerIov .plain .little (fun _ => 0) [[0xc0, 0x00]] 2 = .error .aborted ↔
      nativeEncapsulation <+: padded ([[0xc0, 0x00]].flatten.take 2)) ∧
    serdataFromSerIov .plain .little (fun _ => 0) [[0xc0, 0x00]] 2 ≠ .error .overrun :=
  reception_exact StreamLib.plain_documented .little (fun _ => 0) (by decide) (by decide)

/-- A payload is received as its message, in any pieces. -/
theorem serdataFromSerIov_payload (hlib : lib.Documented) (native : Endianness) (fresh : ℕ → Byte)
    {iov : List (List Byte)} (h : IsPayload m iov.flatten)
    (hsize : iov.flatten.length + 4 ≤ 2 ^ 64) :
    serdataFromSerIov lib native fresh iov iov.flatten.length = .ok (some m) := by
  have hpadded : IsPayload m (padded (iov.flatten.take iov.flatten.length)) := by
    rw [List.take_length]
    exact h.append _
  rcases serdataFromSerIov_cases hlib native fresh le_rfl hsize with
    ⟨m', hread, hpayload⟩ | ⟨-, hnative⟩ | ⟨-, hnone, -⟩
  · rw [hread, hpayload.unique hpadded]
  · exact absurd hnative hpadded.not_native
  · exact absurd hpadded (hnone m)

end Receive

/-! ## Sending -/

/-- The bytes of a message in an encoding, from a host of a byte order. -/
def serialized (version : EncodingVersion) (native : Endianness) (m : JoyDataBits) : List Byte :=
  encapsulation version native ++ [0, 0] ++ Cdr.body native m (List.replicate 3 0)

theorem length_serialized (version : EncodingVersion) (native : Endianness) (m : JoyDataBits) :
    (serialized version native m).length = 44 := by
  rw [serialized, List.length_append, List.length_append, length_encapsulation,
    Cdr.length_body native m List.length_replicate]
  rfl

theorem isPayload_serialized (version : EncodingVersion) (native : Endianness) (m : JoyDataBits) :
    IsPayload m (serialized version native m) :=
  ⟨version, native, [0, 0], List.replicate 3 0, [], rfl, rfl, (List.append_nil _).symm⟩

/-- The serializer writes the bytes of the message, and fills its memory with them. -/
theorem serdataFromSample_eq {lib : StreamLib} (hlib : lib.Documented) (native : Endianness)
    (fresh : ℕ → Byte) (version : EncodingVersion) (m : JoyDataBits) :
    serdataFromSample lib native fresh version m = .ok (some (serialized version native m)) := by
  have halign : 4 ≤ (cdrStream native version native).maxAlignment := by
    cases version with
    | xcdrV1 => exact (by decide : 4 ≤ 8)
    | xcdrV2 => exact le_rfl
  have hfree : (cdrStream native version native).bufferSize = none := by
    cases version <;> rfl
  have horder : (cdrStream native version native).streamEndianness = native := by
    cases version <;> rfl
  have hmemory : (resize fresh 44).length = 44 := by
    rw [resize_eq fresh (by decide), List.length_append, List.length_map, List.length_range]
    rfl
  have hbody : ((resize fresh 44).drop headerSize).length = 40 := by
    rw [List.length_drop, hmemory]
    rfl
  have hwrite := Cdr.write_between (s := { cdrStream native version native with
    bufferSize := some 44 }) hlib m halign rfl
      (by decide) (by decide) hbody.ge
  have hsz : getSerializedSize lib native version = .ok 40 := Cdr.move_free hlib halign hfree
  have hinto : serializeInto lib native version (resize fresh 44) 44 m =
      .ok (serialized version native m) := by
    unfold serializeInto
    rw [if_neg (by decide), if_neg (by rw [hmemory]; decide), hlib.setBuffer]
    refine (congrArg (Except.bind · _) hwrite).trans ?_
    have hheader : finishHeader (writeHeader native version) 44 =
        encapsulation version native ++ [0, 0] := by
      rw [writeHeader, toBytes_rtpsCdr]
      cases version <;> cases native <;> rfl
    have hrest : ((resize fresh 44).drop headerSize).drop 40 = [] :=
      List.drop_eq_nil_of_le hbody.le
    rw [hrest, horder]
    change Except.ok (_ ++ (_ ++ [])) = _
    rw [hheader, List.append_nil, serialized]
  unfold serdataFromSample
  rw [hsz]
  exact congrArg orNull hinto

/-- **Round trip.** A message is serialized, on any host and in either encoding, to bytes that any
host reads back as the message, in whatever pieces they arrive. -/
theorem sample_round_trip {lib lib' : StreamLib} (hlib : lib.Documented) (hlib' : lib'.Documented)
    (native native' : Endianness) (fresh fresh' : ℕ → Byte) (version : EncodingVersion)
    (m : JoyDataBits) :
    ∃ bytes, serdataFromSample lib native fresh version m = .ok (some bytes) ∧
      ∀ iov : List (List Byte), iov.flatten = bytes →
        serdataFromSerIov lib' native' fresh' iov bytes.length = .ok (some m) := by
  refine ⟨_, serdataFromSample_eq hlib native fresh version m, ?_⟩
  rintro iov hiov
  have hlength : iov.flatten.length = 44 := by rw [hiov, length_serialized]
  rw [← hiov]
  refine serdataFromSerIov_payload hlib' native' fresh' ?_ (by rw [hlength]; decide)
  rw [hiov]
  exact isPayload_serialized version native m

/-- From a big host in the second encoding to a little one. -/
theorem big_to_little_round_trip :
    ∃ bytes, serdataFromSample .plain .big (fun _ => 0xff) .xcdrV2 { priority := 50 } =
        .ok (some bytes) ∧
      ∀ iov : List (List Byte), iov.flatten = bytes →
        serdataFromSerIov .plain .little (fun _ => 0xee) iov bytes.length =
          .ok (some { priority := 50 }) :=
  sample_round_trip StreamLib.plain_documented StreamLib.plain_documented .big .little
    (fun _ => 0xff) (fun _ => 0xee) .xcdrV2 { priority := 50 }

end SvanVoice
