import SvanVoice.Laws.Envelope
import SvanVoice.Laws.Float
import SvanVoice.Laws.Wire

/-!
# The bridge on bytes

The codec's laws, put under the bridge and under the link. Whatever bytes reach the bridge, it makes
the calls of the exact bridge on the messages among them, rounded (`bytes_heard`), and none past a
limit (`bytes_enveloped`). Over a topic of payloads, with any serializer that writes payloads, the
link is the exact link rounded (`wire_link_rounds`): the bytes lose nothing and add nothing.

One kind of data does end the process, by an assertion, wherever the bridge was.
-/

set_option autoImplicit false

namespace SvanVoice

open ByteOrder

/-! ## Messages and their bits -/

/-- The axes of a received message are floats already. -/
theorem message_rounded (m : JoyDataBits) : m.message.rounded = m.message := by
  have haxes : (m.axes.map F32.ofWord).map F32.round = m.axes.map F32.ofWord := by
    rw [Vector.map_map]
    exact Vector.map_congr_left fun b _ => round_ofBits b
  exact congrArg (JoyData.mk _ · _) haxes

/-- A message that goes through its bits is rounded, and otherwise the same. -/
theorem message_bits (msg : JoyData) : msg.bits.message = msg.rounded := by
  have haxes : (msg.axes.map F32.toWord).map F32.ofWord = msg.axes.map F32.round := by
    rw [Vector.map_map]
    exact Vector.map_congr_left fun v _ => ofBits_toBits v
  have hbuttons : (msg.buttons.map byteToWord).map byteOfWord = msg.buttons := by
    rw [Vector.map_map]
    exact Vector.map_id _
  exact congrArg₂ (JoyData.mk _) haxes hbuttons

theorem rounded_rounded (msg : JoyData) : msg.rounded.rounded = msg.rounded := by
  have hbits := message_rounded msg.bits
  rwa [message_bits] at hbits

/-! ## The bridge -/

/-- The data a unit brings, as it lies in memory. -/
def ByteEvent.data : ByteEvent → List Byte
  | .payload iov size _ => padded (iov.flatten.take size)
  | .check _ => []

/-- The pieces hold as many bytes as they are said to. -/
def ByteEvent.Sound : ByteEvent → Prop
  | .payload iov size _ => size ≤ iov.flatten.length ∧ size + 4 ≤ 2 ^ 64
  | .check _ => True

/-- What the exact bridge hears of units on bytes: payloads as valid samples, other data not at
all. -/
inductive Hears : List ByteEvent → List Event → Prop
  | nil : Hears [] []
  | payload {iov : List (List Byte)} {size : ℕ} {now : Int} {m : JoyDataBits}
      {bs : List ByteEvent} {es : List Event} : IsPayload m (padded (iov.flatten.take size)) →
      Hears bs es →
        Hears (.payload iov size now :: bs) (.sample ⟨true, m.message⟩ now :: es)
  | noise {iov : List (List Byte)} {size : ℕ} {now : Int} {bs : List ByteEvent}
      {es : List Event} : (∀ m, ¬ IsPayload m (padded (iov.flatten.take size))) →
      Hears bs es → Hears (.payload iov size now :: bs) es
  | check {now : Int} {bs : List ByteEvent} {es : List Event} : Hears bs es →
      Hears (.check now :: bs) (.check now :: es)

section Receive

variable {lib : StreamLib} {native : Endianness} {fresh : ℕ → Byte}

/-- A received message is processed as the exact bridge processes it. -/
theorem processSample_message (b : Loop) (m : JoyDataBits) (now : Int) :
    b.rounded.processSample32 ⟨true, m.message⟩ now =
      (b.processSample ⟨true, m.message⟩ now).rounded := by
  have hstep := processSample_rounded b ⟨true, m.message⟩ now
  rwa [message_rounded] at hstep

theorem receive_some {iov : List (List Byte)} {size : ℕ} {m : JoyDataBits}
    (h : serdataFromSerIov lib native fresh iov size = .ok (some m)) (b : Loop) (now : Int) :
    b.receive lib native fresh (.payload iov size now) =
      .ok (b.processSample32 ⟨true, m.message⟩ now) := by
  rw [Loop.receive, h]
  rfl

theorem receive_none {iov : List (List Byte)} {size : ℕ}
    (h : serdataFromSerIov lib native fresh iov size = .ok none) (b : Loop) (now : Int) :
    b.receive lib native fresh (.payload iov size now) = .ok b := by
  rw [Loop.receive, h]
  rfl

theorem receive_check (b : Loop) (now : Int) :
    b.rounded.receive lib native fresh (.check now) = .ok (b.watchdogCheck now).rounded :=
  congrArg Except.ok (watchdogCheck_rounded b now)

theorem runBytes_cons (b : Loop) (e : ByteEvent) (bs : List ByteEvent) :
    b.runBytes lib native fresh (e :: bs) =
      (b.receive lib native fresh e).bind fun b => b.runBytes lib native fresh bs := rfl

/-- Units without the excluded identifier are heard, and the bridge runs on. -/
theorem exists_hears (hlib : lib.Documented) (native : Endianness) (fresh : ℕ → Byte)
    {bs : List ByteEvent} (hsound : ∀ e ∈ bs, e.Sound)
    (hsafe : ∀ e ∈ bs, ¬ nativeEncapsulation <+: e.data) :
    ∃ es, Hears bs es ∧ ∀ b : Loop,
      b.rounded.runBytes lib native fresh bs = .ok (b.run es).rounded := by
  induction bs with
  | nil => exact ⟨[], .nil, fun b => rfl⟩
  | cons e bs ih =>
    obtain ⟨es, hears, hrun⟩ := ih (fun e he => hsound e (List.mem_cons_of_mem _ he))
      (fun e he => hsafe e (List.mem_cons_of_mem _ he))
    cases e with
    | check now =>
      refine ⟨_, .check hears, fun b => ?_⟩
      rw [runBytes_cons, receive_check]
      exact hrun _
    | payload iov size now =>
      obtain ⟨henough, hsize⟩ := hsound _ List.mem_cons_self
      have hnative := hsafe _ List.mem_cons_self
      rcases serdataFromSerIov_cases hlib native fresh henough hsize with
        ⟨m, hread, hpayload⟩ | ⟨-, hends⟩ | ⟨hread, hnone, -⟩
      · refine ⟨_, .payload hpayload hears, fun b => ?_⟩
        rw [runBytes_cons, receive_some hread, processSample_message]
        exact hrun _
      · exact absurd hends hnative
      · refine ⟨_, .noise hnone hears, fun b => ?_⟩
        rw [runBytes_cons, receive_none hread]
        exact hrun b

/-- Data that starts with the excluded identifier ends the process, whatever came before. -/
theorem runBytes_aborts (hlib : lib.Documented) (native : Endianness) (fresh : ℕ → Byte)
    {bs : List ByteEvent} (hsound : ∀ e ∈ bs, e.Sound)
    (hends : ∃ e ∈ bs, nativeEncapsulation <+: e.data) (b : Loop) :
    b.rounded.runBytes lib native fresh bs = .error .aborted := by
  induction bs generalizing b with
  | nil =>
    obtain ⟨e, he, -⟩ := hends
    exact absurd he List.not_mem_nil
  | cons e bs ih =>
    have hrest : ∀ e ∈ bs, e.Sound := fun e he => hsound e (List.mem_cons_of_mem _ he)
    have hlater : ¬ nativeEncapsulation <+: e.data → ∃ e ∈ bs, nativeEncapsulation <+: e.data := by
      intro hnot
      obtain ⟨e', he', hprefix⟩ := hends
      rcases List.mem_cons.mp he' with rfl | hmem
      · exact absurd hprefix hnot
      · exact ⟨e', hmem, hprefix⟩
    cases e with
    | check now =>
      rw [runBytes_cons, receive_check]
      exact ih hrest (hlater (by decide : ¬ nativeEncapsulation <+: [])) _
    | payload iov size now =>
      obtain ⟨henough, hsize⟩ := hsound _ List.mem_cons_self
      rcases serdataFromSerIov_cases hlib native fresh henough hsize with
        ⟨m, hread, hpayload⟩ | ⟨hread, -⟩ | ⟨hread, -, hnot⟩
      · rw [runBytes_cons, receive_some hread, processSample_message]
        exact ih hrest (hlater hpayload.not_native) _
      · rw [runBytes_cons, Loop.receive, hread]
        rfl
      · rw [runBytes_cons, receive_none hread]
        exact ih hrest (hlater hnot) b

/-- **The bridge on any bytes** makes the calls of the exact bridge on the messages among them,
rounded, or ends, at data that starts with the excluded identifier. -/
theorem bytes_heard (hlib : lib.Documented) (native : Endianness) (fresh : ℕ → Byte)
    {bs : List ByteEvent} (hsound : ∀ e ∈ bs, e.Sound) :
    ((∀ e ∈ bs, ¬ nativeEncapsulation <+: e.data) → ∃ es, Hears bs es ∧ ∀ b : Loop,
        b.rounded.runBytes lib native fresh bs = .ok (b.run es).rounded) ∧
      ((∃ e ∈ bs, nativeEncapsulation <+: e.data) → ∀ b : Loop,
        b.rounded.runBytes lib native fresh bs = .error .aborted) :=
  ⟨exists_hears hlib native fresh hsound, runBytes_aborts hlib native fresh hsound⟩

/-- Half speed forward with the move button pressed. -/
def forwardBits : JoyDataBits where
  priority := 50
  axes := #v[0, 0x3f000000, 0, 0, 0, 0]
  buttons := #v[0, 0, 1, 0, 0, 0, 0, 0, 0, 0, 0, 0]

/-- A payload from a host of the other byte order in two pieces, noise, and a check. -/
def mixedBytes : List ByteEvent :=
  [.payload [(serialized .xcdrV2 .big forwardBits).take 5,
      (serialized .xcdrV2 .big forwardBits).drop 5] 44 0,
    .payload [[0x01, 0x02, 0x03]] 3 1, .check 2]

theorem mixedBytes_sound : ∀ e ∈ mixedBytes, e.Sound := by
  intro e he
  simp only [mixedBytes, List.mem_cons, List.not_mem_nil, or_false] at he
  rcases he with rfl | rfl | rfl
  · exact ⟨by decide +kernel, by decide⟩
  · exact ⟨by decide, by decide⟩
  · exact trivial

theorem mixedBytes_safe : ∀ e ∈ mixedBytes, ¬ nativeEncapsulation <+: e.data := by
  decide +kernel

/-- The bridge on the mixed bytes. -/
theorem mixed_bytes_heard : ∃ es, Hears mixedBytes es ∧ ∀ b : Loop,
    b.rounded.runBytes .plain .little (fun _ => 0) mixedBytes = .ok (b.run es).rounded :=
  (bytes_heard StreamLib.plain_documented .little (fun _ => 0) mixedBytes_sound).1 mixedBytes_safe

/-! ## The limits in floats -/

/-- Each component is a number of at most its limit, the limit being a `float`. -/
def Velocity.Enveloped32 (v : Velocity) : Prop :=
  ∃ x y w : ℚ, v = ⟨F32.ofRat x, F32.ofRat y, F32.ofRat w⟩ ∧ |x| ≤ maxVx32 ∧ |y| ≤ maxVy32 ∧
    |w| ≤ maxWz32

/-- A number within a bound is rounded to a number within the rounded bound. -/
theorem round_within {q bound : ℚ} (h : |q| ≤ bound) (hbound : binary32.round bound < overflow32) :
    (F32.ofRat q).round = F32.ofRat (binary32.round q) ∧
      |binary32.round q| ≤ binary32.round bound := by
  obtain ⟨hlo, hhi⟩ := abs_le.mp h
  have hround : |binary32.round q| ≤ binary32.round bound := by
    rw [abs_le, ← BinaryFloat.round_neg]
    exact ⟨BinaryFloat.round_mono hlo, BinaryFloat.round_mono hhi⟩
  exact ⟨round_ofRat (hround.trans_lt hbound), hround⟩

theorem rounded_enveloped {v : Velocity} (h : v.Enveloped) : v.rounded.Enveloped32 := by
  obtain ⟨x, y, w, rfl, hx, hy, hw⟩ := h
  obtain ⟨hvx, hx⟩ := round_within hx (by decide +kernel)
  obtain ⟨hvy, hy⟩ := round_within hy (by decide +kernel)
  obtain ⟨hwz, hw⟩ := round_within hw (by decide +kernel)
  exact ⟨_, _, _, by rw [Velocity.rounded, hvx, hvy, hwz], hx, hy, hw⟩

/-- **No bytes pass a limit.** Whatever data arrives, every velocity the bridge passes is a number
within the limits. -/
theorem bytes_enveloped (hlib : lib.Documented) (native : Endianness) (fresh : ℕ → Byte)
    {bs : List ByteEvent} (hsound : ∀ e ∈ bs, e.Sound) {start : Int} {b : Loop}
    (hrun : (Loop.boot start).runBytes lib native fresh bs = .ok b)
    {v : Velocity} (hv : .setVelocity v ∈ b.calls) : v.Enveloped32 := by
  have hboot : (Loop.boot start).rounded = Loop.boot start := rfl
  have hsafe : ∀ e ∈ bs, ¬ nativeEncapsulation <+: e.data := fun e he hends => by
    have haborts := runBytes_aborts hlib native fresh hsound ⟨e, he, hends⟩ (Loop.boot start)
    rw [hboot, hrun] at haborts
    cases haborts
  obtain ⟨es, -, hheard⟩ := exists_hears hlib native fresh hsound hsafe
  have hstate := hheard (Loop.boot start)
  rw [hboot, hrun] at hstate
  cases hstate
  obtain ⟨call, hcall, hrounded⟩ := List.mem_map.mp hv
  cases call with
  | setVelocity w =>
    cases hrounded
    have hstart : Enveloped (Loop.boot start).calls := fun v hv => by
      cases List.mem_singleton.mp hv
    exact rounded_enveloped (run_enveloped hstart es w hcall)
  | setMode mode => cases hrounded
  | shutdown => cases hrounded

end Receive

theorem forward_received :
    serdataFromSerIov .plain .little (fun _ => 0) [serialized .xcdrV2 .big forwardBits] 44 =
      .ok (some forwardBits) := by
  have hflatten : [serialized .xcdrV2 .big forwardBits].flatten =
      serialized .xcdrV2 .big forwardBits := List.flatten_singleton
  have hpayload : IsPayload forwardBits [serialized .xcdrV2 .big forwardBits].flatten := by
    rw [hflatten]
    exact isPayload_serialized _ _ _
  have hread := serdataFromSerIov_payload StreamLib.plain_documented .little (fun _ => 0) hpayload
    (by rw [hflatten, length_serialized]; decide)
  rwa [hflatten, length_serialized] at hread

def forwardBytes : List ByteEvent := [.payload [serialized .xcdrV2 .big forwardBits] 44 0]

theorem forwardBytes_sound : ∀ e ∈ forwardBytes, e.Sound := by
  intro e he
  cases List.mem_singleton.mp he
  exact ⟨by decide +kernel, by decide⟩

/-- Half speed forward, from bytes. -/
theorem forward_bytes_enveloped : (clampedAxes32 forwardBits.message).Enveloped32 :=
  bytes_enveloped StreamLib.plain_documented .little (fun _ => 0) forwardBytes_sound
    (b := (Loop.boot 0).processSample32 ⟨true, forwardBits.message⟩ 0)
    (by rw [forwardBytes, runBytes_cons, receive_some forward_received]; rfl) (by decide +kernel)

/-! ## The link -/

/-- The exact link as it is on bytes: its frames are payloads, and its velocities rounded. -/
def Link.onBytes (writer : JoyDataBits → List Byte) (l : Link) : WireLink where
  publisher := l.publisher
  sent := l.sent.map fun f => (f.1, writer f.2.rounded.bits)
  bridge := l.bridge.rounded

/-- A step on bytes is the exact step on bytes. -/
theorem wireStep_onBytes {lib : StreamLib} (hlib : lib.Documented) (native : Endianness)
    (fresh : ℕ → Byte) {writer : JoyDataBits → List Byte} {cut : List Byte → List (List Byte)}
    (hwriter : ∀ m, IsPayload m (writer m) ∧ (writer m).length + 4 ≤ 2 ^ 64)
    (hcut : ∀ bs, (cut bs).flatten = bs) (l : Link) (a : LinkAction) :
    (l.onBytes writer).step lib native fresh writer cut a =
      (l.step a).map (Link.onBytes writer) := by
  cases a with
  | publish snapshot noise =>
    simp only [WireLink.step, Link.step, publishMovement32_rounded, Link.onBytes, List.map_append,
      List.map_cons, List.map_nil, Option.map_some]
  | boot now => rfl
  | deliver k now =>
    have hsent : (l.onBytes writer).sent[k]? =
        (l.sent[k]?).map fun f => (f.1, writer f.2.rounded.bits) := List.getElem?_map
    rw [WireLink.step, Link.step, hsent]
    cases l.sent[k]? with
    | none => rfl
    | some f =>
      obtain ⟨hpayload, hsize⟩ := hwriter f.2.rounded.bits
      have hpieces : IsPayload f.2.rounded.bits (cut (writer f.2.rounded.bits)).flatten := by
        rwa [hcut]
      have hread := serdataFromSerIov_payload hlib native fresh hpieces (by rwa [hcut])
      rw [hcut] at hread
      have hreceive := receive_some hread l.bridge.rounded now
      rw [message_bits, rounded_rounded, processSample_rounded l.bridge ⟨true, f.2⟩ now] at hreceive
      refine (congrArg (Option.bind · _) (congrArg Except.toOption hreceive)).trans ?_
      rfl
  | invalid data now => rfl
  | check now =>
    exact congrArg (fun b => some (WireLink.mk l.publisher _ b))
      (watchdogCheck_rounded l.bridge now)

/-- **The link over payloads is the exact link rounded**, over every run, for any serializer that
writes payloads and any pieces they arrive in. -/
theorem wire_link_rounds {lib : StreamLib} (hlib : lib.Documented) (native : Endianness)
    (fresh : ℕ → Byte) {writer : JoyDataBits → List Byte} {cut : List Byte → List (List Byte)}
    (hwriter : ∀ m, IsPayload m (writer m) ∧ (writer m).length + 4 ≤ 2 ^ 64)
    (hcut : ∀ bs, (cut bs).flatten = bs) (start : Int) (as : List LinkAction) :
    Trace.run (WireLink.step lib native fresh writer cut) { bridge := .boot start } as =
      (Trace.run Link.step (.init start) as).map (Link.onBytes writer) := by
  have hrun := Trace.run_map (wireStep_onBytes hlib native fresh hwriter hcut) (.init start) as
  rwa [List.map_id'] at hrun

/-- One frame over bytes, from a host of the other byte order. -/
theorem forward_wire_link_rounds :
    Trace.run (WireLink.step .plain .little (fun _ => 0) (serialized .xcdrV1 .big) fun bs => [bs])
        { bridge := .boot 0 } [.publish forward 0, .deliver 0 1] =
      (Trace.run Link.step (.init 0) [.publish forward 0, .deliver 0 1]).map
        (Link.onBytes (serialized .xcdrV1 .big)) :=
  wire_link_rounds StreamLib.plain_documented .little (fun _ => 0)
    (fun m => ⟨isPayload_serialized .xcdrV1 .big m, by rw [length_serialized]; decide⟩)
    (fun bs => List.flatten_singleton) 0 _

end SvanVoice
