import SvanVoice.Library.ByteOrder
import SvanVoice.Model.Float

/-!
# Frames as bytes (`JoyData.hpp`, `JoyData.cpp`, `cdr_stream.hpp`, `datatopic.hpp`)

A frame crosses the network as the bytes of a serialized sample: a header of four bytes that names
the encoding and its byte order, and the members one after the other, each aligned to its own size.
`serdataFromSample` writes such bytes, `serdataFromSerIov` takes received bytes, in any pieces, and
reads the sample that the bridge's `take` hands out. Both run the generated code of `JoyData_` over
a stream, which is a cursor in a buffer. The kind of data is always a whole sample; a key alone
(`SDK_KEY`) is left out.

The stream classes are declared in the headers and defined in a library that is not part of the
repository. What the program calls of it is a parameter, `StreamLib`, and `StreamLib.Documented` is
what the headers say of it. The host's byte order and the contents of fresh memory are parameters
as well. Sizes are unbounded except where a subtraction can wrap (`sizeSub`).

Every way to stop short is explicit (`Stop`): a function returns `false`, an assertion fails, which
ends the process in a build without `NDEBUG` such as this one, or memory outside a buffer is
touched.
-/

set_option autoImplicit false

namespace SvanVoice

open ByteOrder

/-! ## The message as bits -/

/-- The arithmetic types of the message, `uint8_t` and `float`. -/
inductive Primitive where
  | uint8
  | float
  deriving DecidableEq

/-- `sizeof(T)`. -/
def Primitive.size : Primitive → ℕ
  | .uint8 => 1
  | .float => 4

abbrev Primitive.Word (t : Primitive) := BitVec (8 * t.size)

/-- `byte_swap` of four bytes, by masks and shifts. -/
def byteSwap4 (u : BitVec 32) : BitVec 32 :=
  let u := ((u &&& 0x0000FFFF#32) <<< 16) ||| ((u &&& 0xFFFF0000#32) >>> 16)
  ((u &&& 0x00FF00FF#32) <<< 8) ||| ((u &&& 0xFF00FF00#32) >>> 8)

/-- `byte_swap`. -/
def byteSwap : (t : Primitive) → t.Word → t.Word
  | .uint8, x => x
  | .float, u => byteSwap4 u

/-- `JoyData_`. -/
structure JoyDataBits where
  priority : Primitive.uint8.Word := 0
  axes : Vector Primitive.float.Word 6 := .replicate 6 0
  buttons : Vector Primitive.uint8.Word 12 := .replicate 12 0
  deriving DecidableEq

/-! A word of the message as the value it stands for, and back. -/

def F32.ofWord (w : Primitive.float.Word) : F32 := F32.ofBits w
def F32.toWord (v : F32) : Primitive.float.Word := v.toBits
def byteOfWord (w : Primitive.uint8.Word) : UInt8 := ⟨w⟩
def byteToWord (b : UInt8) : Primitive.uint8.Word := b.toBitVec

/-- The message that the bits mean. -/
def JoyDataBits.message (m : JoyDataBits) : JoyData :=
  ⟨byteOfWord m.priority, m.axes.map F32.ofWord, m.buttons.map byteOfWord⟩

/-- The bits of a message. -/
def JoyData.bits (msg : JoyData) : JoyDataBits :=
  ⟨byteToWord msg.priority, msg.axes.map F32.toWord, msg.buttons.map byteToWord⟩

/-! ## The stream -/

/-- How a function stops short. -/
inductive Stop where
  | refused
  | aborted
  | overrun
  deriving DecidableEq

/-- `SIZE_MAX`. -/
def sizeMax : ℕ := 2 ^ 64 - 1

/-- A difference of two sizes. -/
def sizeSub (a b : ℕ) : ℕ := (2 ^ 64 + a - b) % 2 ^ 64

/-- `cdr_stream`: the byte orders of the host and of the stream, the largest alignment, the memory
from the buffer pointer on, the size passed with it, and the cursor's offset. A stream without a
buffer has no size. -/
structure CdrStream where
  native : Endianness
  streamEndianness : Endianness
  maxAlignment : ℕ
  buffer : List Byte := []
  bufferSize : Option ℕ := none
  position : ℕ := 0

namespace CdrStream

/-- `swap_endianness`. -/
def swapEndianness (s : CdrStream) : Bool := s.native != s.streamEndianness

/-- Reads from memory at the cursor. -/
def load (s : CdrStream) (n : ℕ) : Except Stop (List Byte) :=
  if s.position + n ≤ s.buffer.length then .ok ((s.buffer.drop s.position).take n)
  else .error .overrun

/-- Writes to memory at the cursor. -/
def store (s : CdrStream) (bs : List Byte) : Except Stop CdrStream :=
  if s.position + bs.length ≤ s.buffer.length then
    .ok { s with buffer := overwrite s.buffer s.position bs }
  else .error .overrun

/-- The stream with its cursor moved. -/
def advance (s : CdrStream) (n : ℕ) : CdrStream := { s with position := s.position + n }

/-- The gap from the cursor to an alignment. -/
def gap (s : CdrStream) (alignment : ℕ) : ℕ := padding (min alignment s.maxAlignment) s.position

/-- The cursor may move by `n` within the buffer's size. -/
def admits (s : CdrStream) (n : ℕ) : Bool := s.bufferSize.all fun size => s.position + n ≤ size

end CdrStream

/-! ## The type's properties -/

inductive Extensibility where
  | final
  | appendable
  | mutable
  deriving DecidableEq

/-- `entity_properties`: depth and member id, and what decides whether it needs a header. -/
structure EntityProperties where
  depth : ℕ
  mId : ℕ
  isOptional : Bool
  eExt : Extensibility
  mustUnderstand : Bool := true
  deriving DecidableEq

/-- `get_type_props`. -/
def joyDataProps : List EntityProperties :=
  [⟨0, 0, false, .final, true⟩, ⟨1, 0, false, .final, false⟩, ⟨1, 1, false, .final, false⟩,
    ⟨1, 2, false, .final, false⟩]

/-- A root with members that need no header and may be missing. -/
def PlainStruct (props : List EntityProperties) : Prop :=
  ∃ root members, props = root :: members ∧ root.depth = 0 ∧ root.eExt = .final ∧
    ∀ p ∈ members, p.depth = 1 ∧ p.eExt = .final ∧ p.isOptional = false ∧ p.mustUnderstand = false

/-! ## The stream library -/

/-- The calls of the generated code around the members it streams. -/
inductive Hook where
  | startStruct
  | finishStruct
  | startMember (mId : ℕ)
  | finishMember (mId : ℕ)
  | startConsecutive (isArray primitive : Bool)
  | finishConsecutive

/-- Not the start of an array of constructed values, which have a header in between. -/
def Hook.primitive : Hook → Bool
  | .startConsecutive _ primitive => primitive
  | _ => true

/-- What the program calls of the stream classes. `entities` is what `first_entity` and
`next_entity` go through, by declaration order. -/
structure StreamLib where
  setBuffer : CdrStream → List Byte → ℕ → CdrStream
  setMode : CdrStream → CdrStream
  align : CdrStream → ℕ → Bool → Except Stop CdrStream
  bytesAvailable : CdrStream → ℕ → Bool
  incrPosition : CdrStream → ℕ → CdrStream
  entities : List EntityProperties → List EntityProperties
  hook : List EntityProperties → Hook → CdrStream → Except Stop CdrStream

/-- What the headers say of these calls. -/
structure StreamLib.Documented (lib : StreamLib) : Prop where
  /-- sets the buffer and its size, and resets the position -/
  setBuffer : ∀ s buffer size,
    lib.setBuffer s buffer size = { s with buffer, bufferSize := some size, position := 0 }
  /-- resets the cursor position -/
  setMode : ∀ s, lib.setMode s = { s with position := 0 }
  /-- moves the cursor to the alignment, and zeroes the bytes it moves over if told to -/
  align_moves : ∀ s alignment addZeroes, s.admits (s.gap alignment) →
    lib.align s alignment addZeroes =
      (if addZeroes then s.store (List.replicate (s.gap alignment) 0) else .ok s).map
        (·.advance (s.gap alignment))
  /-- returns whether the cursor could be moved -/
  align_fails : ∀ s alignment addZeroes, s.admits (s.gap alignment) = false →
    lib.align s alignment addZeroes = .error .refused
  /-- returns whether so many bytes can be read -/
  bytesAvailable : ∀ s n, lib.bytesAvailable s n = s.admits n
  /-- moves the cursor if it is not at `SIZE_MAX` -/
  incrPosition : ∀ s n, s.position ≠ sizeMax → lib.incrPosition s n = s.advance n
  /-- all members are streamed in declaration order -/
  entities : ∀ root members, PlainStruct (root :: members) →
    lib.entities (root :: members) = members
  /-- headers are written and read where they are necessary -/
  hook : ∀ props h s, PlainStruct props → h.primitive → lib.hook props h s = .ok s

/-- A library that does what the headers say, and nothing else. -/
def StreamLib.plain : StreamLib where
  setBuffer s buffer size := { s with buffer, bufferSize := some size, position := 0 }
  setMode s := { s with position := 0 }
  align s alignment addZeroes :=
    if s.admits (s.gap alignment) then
      (if addZeroes then s.store (List.replicate (s.gap alignment) 0) else .ok s).map
        (·.advance (s.gap alignment))
    else .error .refused
  bytesAvailable := CdrStream.admits
  incrPosition s n := if s.position = sizeMax then s else s.advance n
  entities := List.tail
  hook _ _ s := .ok s

theorem StreamLib.plain_documented : StreamLib.plain.Documented where
  setBuffer _ _ _ := rfl
  setMode _ := rfl
  align_moves s alignment addZeroes h := if_pos h
  align_fails s alignment addZeroes h := if_neg (by rw [h]; exact Bool.false_ne_true)
  bytesAvailable _ _ := rfl
  incrPosition s n h := if_neg h
  entities _ _ _ := rfl
  hook _ _ _ _ _ := rfl

/-! ## Primitives -/

namespace Cdr

variable (lib : StreamLib)

/-- `read` of `k` values. -/
def readPrimitive (t : Primitive) (k : ℕ) (s : CdrStream) :
    Except Stop (Vector t.Word k × CdrStream) :=
  if s.position = sizeMax then .error .refused
  else do
    let s ← lib.align s t.size false
    if lib.bytesAvailable s (t.size * k) then do
      let bytes ← s.load (t.size * k)
      let values := words s.native t.size k bytes
      let values := if 1 < t.size && s.swapEndianness then values.map (byteSwap t) else values
      .ok (values, lib.incrPosition s (t.size * k))
    else .error .refused

/-- `write` of `k` values. They are swapped where they lie in the buffer. -/
def writePrimitive (t : Primitive) {k : ℕ} (values : Vector t.Word k) (s : CdrStream) :
    Except Stop CdrStream :=
  if s.position = sizeMax then .error .refused
  else do
    let s ← lib.align s t.size true
    if lib.bytesAvailable s (t.size * k) then do
      let s ← s.store (spread s.native values)
      if 1 < t.size && s.swapEndianness then do
        let bytes ← s.load (t.size * k)
        let s ← s.store (spread s.native ((words s.native t.size k bytes).map (byteSwap t)))
        .ok (lib.incrPosition s (t.size * k))
      else .ok (lib.incrPosition s (t.size * k))
    else .error .refused

/-- `move` over `k` values; `max` is the same. -/
def movePrimitive (t : Primitive) (k : ℕ) (s : CdrStream) : Except Stop CdrStream :=
  if s.position = sizeMax then .ok s
  else do
    let s ← lib.align s t.size false
    .ok (lib.incrPosition s (t.size * k))

/-! ## The generated code -/

/-- One case of the switch box. -/
def member {α : Type} (mId : ℕ) (isArray : Bool)
    (body : α → CdrStream → Except Stop (α × CdrStream)) (a : α) (s : CdrStream) :
    Except Stop (α × CdrStream) := do
  let s ← lib.hook joyDataProps (.startMember mId) s
  let s ← if isArray then lib.hook joyDataProps (.startConsecutive true true) s else .ok s
  let (a, s) ← body a s
  let s ← if isArray then lib.hook joyDataProps .finishConsecutive s else .ok s
  let s ← lib.hook joyDataProps (.finishMember mId) s
  .ok (a, s)

/-- The loop over the members, each by its id. -/
def switchBox {α : Type} (priority axes buttons : α → CdrStream → Except Stop (α × CdrStream))
    (a : α) (s : CdrStream) : Except Stop (α × CdrStream) := do
  let s ← lib.hook joyDataProps .startStruct s
  let (a, s) ← (lib.entities joyDataProps).foldlM (fun r prop =>
    match prop.mId with
    | 0 => member lib 0 false priority r.1 r.2
    | 1 => member lib 1 true axes r.1 r.2
    | 2 => member lib 2 true buttons r.1 r.2
    | _ => .ok r) (a, s)
  let s ← lib.hook joyDataProps .finishStruct s
  .ok (a, s)

/-- `read` into an instance. -/
def read (m : JoyDataBits) (s : CdrStream) : Except Stop (JoyDataBits × CdrStream) :=
  switchBox lib
    (fun m s => do
      let (v, s) ← readPrimitive lib .uint8 1 s
      .ok ({ m with priority := v[0] }, s))
    (fun m s => do
      let (axes, s) ← readPrimitive lib .float 6 s
      .ok ({ m with axes }, s))
    (fun m s => do
      let (buttons, s) ← readPrimitive lib .uint8 12 s
      .ok ({ m with buttons }, s))
    m (lib.setMode s)

/-- `write` of an instance. -/
def write (m : JoyDataBits) (s : CdrStream) : Except Stop CdrStream :=
  (switchBox lib
    (fun _ s => do .ok ((), ← writePrimitive lib .uint8 #v[m.priority] s))
    (fun _ s => do .ok ((), ← writePrimitive lib .float m.axes s))
    (fun _ s => do .ok ((), ← writePrimitive lib .uint8 m.buttons s))
    () (lib.setMode s)).map Prod.snd

/-- `move` over an instance. -/
def move (s : CdrStream) : Except Stop CdrStream :=
  (switchBox lib
    (fun _ s => do .ok ((), ← movePrimitive lib .uint8 1 s))
    (fun _ s => do .ok ((), ← movePrimitive lib .float 6 s))
    (fun _ s => do .ok ((), ← movePrimitive lib .uint8 12 s))
    () (lib.setMode s)).map Prod.snd

end Cdr

/-! ## The header -/

/-- `encoding_version`. -/
inductive EncodingVersion where
  | xcdrV1
  | xcdrV2
  deriving DecidableEq

/-- `xcdr_v1_stream` and `xcdr_v2_stream`. -/
def cdrStream (native : Endianness) : EncodingVersion → Endianness → CdrStream
  | .xcdrV1, e => { native, streamEndianness := e, maxAlignment := 8 }
  | .xcdrV2, e => { native, streamEndianness := e, maxAlignment := 4 }

/-- `DDSI_RTPS_HEADER_SIZE`. -/
def headerSize : ℕ := 4

/-- `DDSI_RTPS_CDR_BE` and the like, as a host of either byte order defines them. -/
def rtpsCdr : Endianness → EncodingVersion → Endianness → BitVec (8 * 2)
  | .little, .xcdrV1, .big => 0x0000
  | .little, .xcdrV1, .little => 0x0100
  | .little, .xcdrV2, .big => 0x0600
  | .little, .xcdrV2, .little => 0x0700
  | .big, .xcdrV1, .big => 0x0000
  | .big, .xcdrV1, .little => 0x0001
  | .big, .xcdrV2, .big => 0x0006
  | .big, .xcdrV2, .little => 0x0007

/-- `DDSI_RTPS_SAMPLE_NATIVE`. -/
def rtpsSampleNative : Endianness → BitVec (8 * 2)
  | .little => 0x00c0
  | .big => 0xc000

/-- `DDSI_RTPS_CDR_ENC_LE`, with its assertion. -/
def rtpsCdrEncLe (native : Endianness) (x : BitVec (8 * 2)) : Except Stop Bool :=
  if x = rtpsSampleNative native then .error .aborted
  else
    match native with
    | .little => .ok (x &&& 0x0100 == 0x0100)
    | .big => .ok (x &&& 0x0001 == 0x0001)

/-- `write_header`, of a final type. -/
def writeHeader (native : Endianness) (version : EncodingVersion) : List Byte :=
  toBytes native (rtpsCdr native version native) ++ [0, 0]

/-- `finish_header`. -/
def finishHeader (header : List Byte) (bytesWritten : ℕ) : List Byte :=
  header.set 3 (BitVec.ofNat 8 ((4 - bytesWritten % 4) % 4))

/-- `read_header`, of a final type. -/
def readHeader (native : Endianness) (data : List Byte) :
    Except Stop (EncodingVersion × Endianness) := do
  if data.length < 2 then .error .overrun
  else do
    let hdr := ofBytes native 2 (data.take 2)
    let le ← rtpsCdrEncLe native hdr
    let e := if le then Endianness.little else .big
    if hdr = rtpsCdr native .xcdrV1 .little ∨ hdr = rtpsCdr native .xcdrV1 .big then
      .ok (.xcdrV1, e)
    else if hdr = rtpsCdr native .xcdrV2 .little ∨ hdr = rtpsCdr native .xcdrV2 .big then
      .ok (.xcdrV2, e)
    else .error .refused

/-! ## Serialized data -/

/-- `resize`: memory that is zero at its very end. `fresh` is what lies in it before. -/
def resize (fresh : ℕ → Byte) (requestedSize : ℕ) : List Byte :=
  if requestedSize = 0 then []
  else (List.range requestedSize).map fresh ++ List.replicate (sizeSub 0 requestedSize % 4) 0

/-- A result, or the null pointer where a function returned `false`. -/
def orNull {α : Type} : Except Stop α → Except Stop (Option α)
  | .ok a => .ok (some a)
  | .error .refused => .ok none
  | .error stop => .error stop

section Serdata

variable (lib : StreamLib) (native : Endianness) (fresh : ℕ → Byte)

/-- `get_serialized_size`. -/
def getSerializedSize (version : EncodingVersion) : Except Stop ℕ :=
  (Cdr.move lib (cdrStream native version native)).map CdrStream.position

/-- `serialize_into`: the memory after it. The stream starts behind the header and is told the
size of both. -/
def serializeInto (version : EncodingVersion) (data : List Byte) (bufSz : ℕ) (m : JoyDataBits) :
    Except Stop (List Byte) :=
  if bufSz < headerSize then .error .aborted
  else if data.length < headerSize then .error .overrun
  else do
    let str := lib.setBuffer (cdrStream native version native) (data.drop headerSize) bufSz
    let str ← Cdr.write lib m str
    .ok (finishHeader (writeHeader native version) bufSz ++ str.buffer)

/-- `serdata_from_sample`. -/
def serdataFromSample (version : EncodingVersion) (m : JoyDataBits) :
    Except Stop (Option (List Byte)) :=
  orNull do
    let sz ← getSerializedSize lib native version
    let sz := sz + headerSize
    serializeInto lib native version (resize fresh sz) sz m

/-- `deserialize_sample_from_buffer`. The null pointer is the empty memory. -/
def deserializeSampleFromBuffer (data : List Byte) (bufSz : ℕ) (sample : JoyDataBits) :
    Except Stop JoyDataBits :=
  if data = [] then .error .refused
  else do
    let (version, e) ← readHeader native data
    let str := lib.setBuffer (cdrStream native version e) (data.drop headerSize)
      (sizeSub bufSz headerSize)
    (Cdr.read lib sample str).map Prod.fst

/-- The copying loop of `serdata_from_ser_iov`. -/
def copyIov (size : ℕ) : List (List Byte) → ℕ → List Byte → Except Stop (List Byte)
  | [], _, data => .ok data
  | v :: iov, off, data =>
    if off < size then
      let nBytes := if size < v.length + off then size - off else v.length
      if off + nBytes ≤ data.length then
        copyIov size iov (off + nBytes) (overwrite data off (v.take nBytes))
      else .error .overrun
    else .ok data

/-- `serdata_from_ser_iov`, with the sample that `getT` reads. -/
def serdataFromSerIov (iov : List (List Byte)) (size : ℕ) : Except Stop (Option JoyDataBits) := do
  let data ← copyIov size iov 0 (resize fresh size)
  orNull (deserializeSampleFromBuffer lib native data data.length {})

/-! ## The bridge on bytes -/

/-- One unit of the bridge's work where samples arrive as bytes. -/
inductive ByteEvent where
  | payload (iov : List (List Byte)) (size : ℕ) (now : Int)
  | check (now : Int)

/-- The loop after one unit. Data that gives no sample is dropped before `take` returns it. Samples
from the network come through `serdata_from_ser`, whose pieces are a chain of fragments that a
library function copies; `serdata_from_ser_iov` stands for it here, which does the same over a
vector of pieces. -/
def Loop.receive (b : Loop) : ByteEvent → Except Stop Loop
  | .payload iov size now => do
    match ← serdataFromSerIov lib native fresh iov size with
    | some m => .ok (b.processSample32 ⟨true, m.message⟩ now)
    | none => .ok b
  | .check now => .ok (b.watchdogCheck now)

/-- The loop after a list of units. -/
def Loop.runBytes (b : Loop) (es : List ByteEvent) : Except Stop Loop :=
  es.foldlM (Loop.receive lib native fresh) b

/-- The link with a topic of payloads. -/
structure WireLink where
  publisher : DDSPublisher := {}
  sent : List (StateDict × List Byte) := []
  bridge : Loop

/-- One step of the link. `writer` is the serializer of the publisher's library, and `cut` the
pieces in which a payload arrives. -/
def WireLink.step (writer : JoyDataBits → List Byte) (cut : List Byte → List (List Byte))
    (l : WireLink) : LinkAction → Option WireLink
  | .publish snapshot noise =>
    let (publisher, frame) := l.publisher.publishMovement32 snapshot noise
    some { l with publisher, sent := l.sent ++ [(snapshot, writer frame.bits)] }
  | .boot now => some { l with bridge := .boot now }
  | .deliver k now => do
    let f ← l.sent[k]?
    let bridge ← (l.bridge.receive lib native fresh (.payload (cut f.2) f.2.length now)).toOption
    some { l with bridge }
  | .invalid data now => some { l with bridge := l.bridge.processSample32 ⟨false, data⟩ now }
  | .check now => some { l with bridge := l.bridge.watchdogCheck now }

end Serdata

end SvanVoice
