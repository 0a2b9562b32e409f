import AmClient.Osc.Packet

/-!
# Building messages and bundles with tnyosc

All the values that a `tnyosc::Message` can take, and `tnyosc::Bundle`. A receiver reads
from a message the values appended, in order; the halves of a time tag are exchanged. It
reads bundles in bundles, unless `set_timetag` was called on one of them.
-/

namespace AmClient.Osc
open Foundation
set_option autoImplicit false

namespace Message

/-- `append_cstring`; none is a null pointer, else these are the `len` bytes. -/
def appendCstring (m : Message) : Option Bytes → Message
  | none => m
  | some v =>
    if v.length = 0 then m
    else
      let b := resize v (v.length + (4 - v.length % 4))
      { m with types := m.types ++ [Tag.s.byte], data := m.data ++ b }

def appendBlob (m : Message) (blob : Bytes) : Message :=
  let size := leBytes 4 (hton 4 blob.length)
  let fill := if blob.length % 4 ≠ 0 then 4 - blob.length % 4 else 0
  { m with types := m.types ++ [Kind.b.byte], data := m.data ++ (size ++ blob ++ zeros fill) }

/-- The memory image of `sec << 32 | frac`, each in network order. -/
def timeBytes (v : BitVec 64) : Bytes :=
  let sec := hton 4 (v.toNat / 2 ^ 32)
  let frac := hton 4 (v.toNat % 2 ^ 32)
  leBytes 8 (sec * 2 ^ 32 + frac)

def appendTime (m : Message) (v : BitVec 64) : Message :=
  { m with types := m.types ++ [Kind.t.byte], data := m.data ++ timeBytes v }

def appendMidi (m : Message) (port status data1 data2 : UInt8) : Message :=
  { m with types := m.types ++ [Kind.m.byte], data := m.data ++ [port, status, data1, data2] }

end Message

/-- A call that adds to a message. -/
inductive Append where
  | int32 (v : BitVec 32)
  | int64 (v : BitVec 64)
  | float (bits : BitVec 32)
  | double (bits : BitVec 64)
  | string (v : Bytes)
  | cstring (v : Option Bytes)
  | char (c : UInt8)
  | blob (bytes : Bytes)
  | time (v : BitVec 64)
  | midi (port status data1 data2 : UInt8)
  | T | F | N | I
  deriving DecidableEq, Repr

namespace Append

def apply (m : Message) : Append → Message
  | int32 v => m.appendInt32 v
  | int64 v => m.appendInt64 v
  | float bits => m.appendFloat bits
  | double bits => m.appendDouble bits
  | string v => m.appendString v
  | cstring v => m.appendCstring v
  | char c => m.appendChar c
  | blob bytes => m.appendBlob bytes
  | time v => m.appendTime v
  | midi port status data1 data2 => m.appendMidi port status data1 data2
  | T => m.appendTrue
  | F => m.appendFalse
  | N => m.appendNull
  | I => m.appendImpulse

/-- What the caller appends, none for an empty C string. -/
def value : Append → Option Value
  | int32 v => some (.int32 v)
  | int64 v => some (.int64 v)
  | float bits => some (.float bits)
  | double bits => some (.double bits)
  | string v => some (.string v)
  | cstring none => none
  | cstring (some v) => if v = [] then none else some (.string v)
  | char c => some (.char (c.toBitVec.signExtend 32))
  | blob bytes => some (.blob bytes)
  | time v => some (.time v)
  | midi port status data1 data2 => some (.midi [port, status, data1, data2])
  | T => some .T
  | F => some .F
  | N => some .N
  | I => some .I

end Append

/-- A time tag with its fraction in front of its seconds. -/
def swapHalves (v : BitVec 64) : BitVec 64 :=
  BitVec.ofNat 64 (v.toNat % 2 ^ 32 * 2 ^ 32 + v.toNat / 2 ^ 32)

/-- What arrives of a value. -/
def Value.received : Value → Value
  | .time v => .time (swapHalves v)
  | v => v

def build (address : Bytes) (appends : List Append) : Message :=
  appends.foldl Append.apply { address := address }

theorem leBytes_halves {a b : Nat} (hb : b < 2 ^ 32) :
    leBytes 8 (a * 2 ^ 32 + b) = leBytes 4 b ++ leBytes 4 a := by
  have hlow : (a * 2 ^ 32 + b) % 256 ^ 4 = b := by omega
  have hhigh : (a * 2 ^ 32 + b) / 256 ^ 4 = a := by omega
  have hmod := leBytes_mod 4 (a * 2 ^ 32 + b)
  rw [leBytes_add 4 4, hhigh, ← hmod, hlow]

theorem hton_lt (n : Nat) : hton 4 n < 2 ^ 32 := by
  have hlt := ofLe_lt (beBytes 4 n)
  rwa [length_beBytes] at hlt

theorem beBytes_halves {a b : Nat} (hb : b < 2 ^ 32) :
    beBytes 8 (a * 2 ^ 32 + b) = beBytes 4 a ++ beBytes 4 b := by
  rw [beBytes, leBytes_halves hb, List.reverse_append]
  rfl

theorem leBytes_htonll (n : Nat) : leBytes 8 (htonll n) = beBytes 8 n := by
  have hsplit : n = n / 2 ^ 32 * 2 ^ 32 + n % 2 ^ 32 := by omega
  rw [htonll, leBytes_halves (hton_lt _), leBytes_hton, leBytes_hton]
  conv => rhs; rw [hsplit, beBytes_halves (by omega)]

theorem toNat_swapHalves (v : BitVec 64) :
    (swapHalves v).toNat = v.toNat % 2 ^ 32 * 2 ^ 32 + v.toNat / 2 ^ 32 := by
  have hv := v.isLt
  rw [swapHalves, BitVec.toNat_ofNat]
  omega

theorem timeBytes_eq (v : BitVec 64) : Message.timeBytes v = beBytes 8 (swapHalves v).toNat := by
  have hv := v.isLt
  rw [Message.timeBytes, toNat_swapHalves, leBytes_halves (hton_lt _), leBytes_hton, leBytes_hton,
    beBytes_halves (by omega)]

theorem swapHalves_iff (v : BitVec 64) :
    swapHalves v = v ↔ v.toNat / 2 ^ 32 = v.toNat % 2 ^ 32 := by
  have hlow : v.toNat % 2 ^ 32 < 2 ^ 32 := by omega
  have hsplit : v.toNat = v.toNat / 2 ^ 32 * 2 ^ 32 + v.toNat % 2 ^ 32 := by omega
  rw [BitVec.toNat_eq, toNat_swapHalves]
  generalize v.toNat % 2 ^ 32 = low at hlow hsplit ⊢
  generalize v.toNat / 2 ^ 32 = high at hsplit ⊢
  rw [hsplit]
  constructor
  · intro heq
    omega
  · rintro rfl
    rfl

/-- Strings without a NUL, and blobs whose size is an `int32_t`. -/
def Append.Ok (a : Append) : Prop := ∀ v ∈ a.value, v.Ok

theorem received_ok {v : Value} (h : v.Ok) : v.received.Ok := by
  cases v with
  | time v => trivial
  | _ => exact h

theorem received_kind (v : Value) : v.received.kind = v.kind := by
  cases v with
  | _ => simp only [Value.received, Value.kind]

/-- The value goes to the tags and to the data. -/
def Message.put (m : Message) (v : Value) : Message :=
  { m with types := m.types ++ [v.kind.byte], data := m.data ++ v.received.write }

theorem Message.appendString_eq (m : Message) (v : Bytes) :
    m.appendString v = m.put (.string v) := by
  rw [appendString, append_padded]
  rfl

theorem Message.appendBlob_eq (m : Message) (v : Bytes) : m.appendBlob v = m.put (.blob v) := by
  have hfill : zeros (if v.length % 4 ≠ 0 then 4 - v.length % 4 else 0) = fill v.length := by
    have hcount : (if v.length % 4 ≠ 0 then 4 - v.length % 4 else 0) = (4 - v.length % 4) % 4 := by
      split
      · omega
      · omega
    rw [hcount]
    rfl
  rw [appendBlob, hfill, leBytes_hton, List.append_assoc]
  rfl

theorem Append.apply_eq (m : Message) (a : Append) : a.apply m = (a.value.map m.put).getD m := by
  cases a with
  | int32 v | float v =>
    simp [apply, value, Message.put, Message.appendInt32, Message.appendFloat,
      Message.append, leBytes_hton, Value.kind, Kind.byte, Value.received, Value.write]
  | int64 v | double v =>
    simp [apply, value, Message.put, Message.appendInt64, Message.appendDouble,
      Message.append, leBytes_htonll, Value.kind, Kind.byte, Value.received, Value.write]
  | string v => exact m.appendString_eq v
  | cstring v =>
    cases v with
    | none => rfl
    | some v =>
      by_cases hnil : v = []
      · rw [hnil]
        rfl
      · have hlen : v.length ≠ 0 := by simpa using hnil
        have hpadded : resize v (v.length + (4 - v.length % 4)) = padded v := resize_padded v
        simp only [apply, value, Message.appendCstring, if_neg hlen, if_neg hnil, hpadded]
        rfl
  | char c => simp [apply, value, Message.put, Message.appendChar,
      Message.append, leBytes_hton, Value.kind, Kind.byte, Value.received, Value.write]
  | blob v => exact m.appendBlob_eq v
  | time v => simp [apply, value, Message.put, Message.appendTime, timeBytes_eq, Value.kind,
      Value.received, Value.write]
  | midi port status data1 data2 => rfl
  | T | F | N | I => rfl

theorem foldl_apply (m : Message) (appends : List Append) :
    appends.foldl Append.apply m = (appends.filterMap Append.value).foldl Message.put m := by
  induction appends generalizing m with
  | nil => rfl
  | cons a appends ih =>
    rw [List.foldl_cons, ih, a.apply_eq]
    cases h : a.value with
    | none => rw [List.filterMap_cons_none h, Option.map_none, Option.getD_none]
    | some v => rw [List.filterMap_cons_some h, Option.map_some, Option.getD_some, List.foldl_cons]

theorem foldl_put (m : Message) (vs : List Value) :
    vs.foldl Message.put m =
      { m with types := m.types ++ tagBytes vs,
               data := m.data ++ (vs.map Value.received).flatMap Value.write } := by
  induction vs generalizing m with
  | nil => simp [tagBytes]
  | cons v vs ih =>
    rw [List.foldl_cons, ih]
    simp [Message.put, tagBytes]

theorem tagBytes_received (vs : List Value) : tagBytes (vs.map Value.received) = tagBytes vs := by
  induction vs with
  | nil => rfl
  | cons v vs ih =>
    have hkind : v.received.kind.byte = v.kind.byte := congrArg Kind.byte (received_kind v)
    rw [List.map_cons]
    exact congrArg₂ List.cons hkind ih

/-- What a receiver reads of the calls. -/
def received (appends : List Append) : List Value :=
  (appends.filterMap Append.value).map Value.received

theorem received_all_ok {appends : List Append} (h : ∀ a ∈ appends, a.Ok) :
    ∀ v ∈ received appends, v.Ok := by
  intro v hv
  obtain ⟨w, hw, rfl⟩ := List.mem_map.mp hv
  obtain ⟨a, ha, hvalue⟩ := List.mem_filterMap.mp hw
  exact received_ok (h a ha w hvalue)

theorem build_write {address : Bytes} (h : AddressOk address) (appends : List Append) :
    (build address appends).byteArray = (Packet.message address (received appends)).write := by
  have hne : address ≠ [] := by
    rintro rfl
    exact nomatch h.2
  have hbuild := (foldl_apply { address := address } appends).trans (foldl_put _ _)
  have hbytes := (build address appends).byteArray_layout (by rw [build, hbuild]; exact hne)
  rw [hbytes, build, hbuild, Packet.write, received, tagBytes_received]
  rfl

theorem received_iff (v : Value) :
    v.received = v ↔ ∀ t, v = .time t → t.toNat / 2 ^ 32 = t.toNat % 2 ^ 32 := by
  cases v with
  | time t =>
    rw [Value.received, Value.time.injEq, swapHalves_iff]
    constructor
    · rintro heq _ ⟨⟩
      exact heq
    · intro hall
      exact hall t rfl
  | _ => simp [Value.received]

theorem mem_times {appends : List Append} {t : BitVec 64} :
    .time t ∈ appends.filterMap Append.value ↔ .time t ∈ appends := by
  rw [List.mem_filterMap]
  constructor
  · rintro ⟨a, ha, hvalue⟩
    cases a with
    | time t' =>
      obtain rfl := Value.time.inj (Option.some.inj hvalue)
      exact ha
    | cstring v =>
      cases v with
      | none => cases hvalue
      | some v => simp [Append.value] at hvalue
    | _ => simp [Append.value] at hvalue
  · intro hmem
    exact ⟨.time t, hmem, rfl⟩

theorem received_eq_iff (appends : List Append) :
    received appends = appends.filterMap Append.value ↔
      ∀ t, .time t ∈ appends → t.toNat / 2 ^ 32 = t.toNat % 2 ^ 32 := by
  have hmap : received appends = appends.filterMap Append.value ↔
      ∀ v ∈ appends.filterMap Append.value, v.received = v := by
    rw [received]
    nth_rewrite 2 [← List.map_id (appends.filterMap Append.value)]
    exact List.map_inj_left
  rw [hmap]
  constructor
  · intro hall t ht
    exact (received_iff _).mp (hall _ (mem_times.mpr ht)) t rfl
  · intro hall v hv
    apply (received_iff v).mpr
    rintro t rfl
    exact hall t (mem_times.mp hv)

/-- A receiver reads the address and one value for each append, in order; they are the
values appended exactly when the two halves of each time tag are equal. -/
theorem message_received {address : Bytes} (h : AddressOk address) {appends : List Append}
    (happends : ∀ a ∈ appends, a.Ok) :
    Packet.decode (build address appends).byteArray =
        some (.message address (received appends)) ∧
      (received appends = appends.filterMap Append.value ↔
        ∀ t, .time t ∈ appends → t.toNat / 2 ^ 32 = t.toNat % 2 ^ 32) := by
  refine ⟨?_, received_eq_iff appends⟩
  rw [build_write h]
  exact Packet.decodes.decode_write (.message h (received_all_ok happends))

theorem message_received_of_values :
    Packet.decode (build (ascii "/a") [.string (ascii "x"), .char 97, .time 1]).byteArray =
        some (.message (ascii "/a") (received [.string (ascii "x"), .char 97, .time 1])) ∧
      (received [.string (ascii "x"), .char 97, .time 1] =
          [Append.string (ascii "x"), .char 97, .time 1].filterMap Append.value ↔
        ∀ t, .time t ∈ [Append.string (ascii "x"), .char 97, .time 1] →
          t.toNat / 2 ^ 32 = t.toNat % 2 ^ 32) :=
  message_received (by decide) (by simp [Append.Ok, Append.value, Value.Ok, ascii])

/-- `tnyosc::Bundle`. -/
structure Bundle where
  data : Bytes

namespace Bundle

def new : Bundle :=
  let id := ascii "#bundle"
  let data := resize [] 16
  let data := id ++ data.drop id.length
  ⟨data.set 15 1⟩

def appendData (b : Bundle) (data : Bytes) : Bundle :=
  let a := leBytes 4 (hton 4 data.length)
  ⟨b.data ++ (a ++ data)⟩

/-- The time tag is inserted behind the name. In a bundle that was cleared there is no such
position. -/
def setTimetag (b : Bundle) (v : BitVec 64) : Option Bundle :=
  if b.data.length < 8 then none
  else some ⟨b.data.take 8 ++ Message.timeBytes v ++ b.data.drop 8⟩

theorem new_data : new.data = bundleName ++ beBytes 8 1 := by decide

theorem appendData_data (b : Bundle) (d : Bytes) : (b.appendData d).data = b.data ++ frame d := by
  simp only [appendData, leBytes_hton, frame]

end Bundle

/-- How a message or a bundle is put together: the parts of a bundle are appended in order,
and its time tag is set once at some point between them, or not at all. -/
inductive Part where
  | message (address : Bytes) (appends : List Append)
  | bundle (parts : List Part) (timetag : Option (BitVec 64)) (more : List Part)

namespace Part

mutual

/-- What `byte_array` returns. -/
def bytes : Part → Option Bytes
  | message address appends => some (build address appends).byteArray
  | bundle parts timetag more => do
    let b ← appendAll Bundle.new parts
    let b ← match timetag with
      | none => some b
      | some v => b.setTimetag v
    let b ← appendAll b more
    return b.data

def appendAll : Bundle → List Part → Option Bundle
  | b, [] => some b
  | b, p :: ps => do
    let data ← bytes p
    appendAll (b.appendData data) ps

end

mutual

/-- What it stands for. -/
def packet : Part → Packet
  | message address appends => .message address (received appends)
  | bundle parts _ more => .bundle 1 (packets parts ++ packets more)

def packets : List Part → List Packet
  | [] => []
  | p :: ps => packet p :: packets ps

end

mutual

/-- The time tag of no bundle in it is set. -/
def plain : Part → Bool
  | message _ _ => true
  | bundle parts timetag more => timetag.isNone && allPlain parts && allPlain more

def allPlain : List Part → Bool
  | [] => true
  | p :: ps => plain p && allPlain ps

end

inductive Sound : Part → Prop where
  | message {address : Bytes} {appends : List Append} :
    AddressOk address → (∀ a ∈ appends, a.Ok) → Sound (message address appends)
  | bundle {parts more : List Part} {timetag : Option (BitVec 64)} :
    (∀ p ∈ parts ++ more, Sound p) → (∀ p ∈ parts ++ more, ∀ d ∈ p.bytes, d.length < 2 ^ 31) →
      Sound (bundle parts timetag more)

theorem packets_eq (ps : List Part) : packets ps = ps.map packet := by
  induction ps with
  | nil => rfl
  | cons p ps ih => rw [packets, ih, List.map_cons]

theorem allPlain_eq (ps : List Part) : allPlain ps = ps.all plain := by
  induction ps with
  | nil => rfl
  | cons p ps ih => rw [allPlain, ih, List.all_cons]

theorem appendAll_of {ps : List Part} {ds : List Bytes}
    (h : List.Forall₂ (fun p d => p.bytes = some d) ps ds) (b : Bundle) :
    appendAll b ps = some ⟨b.data ++ frames ds⟩ := by
  induction h generalizing b with
  | nil => simp [appendAll]
  | @cons p d ps ds hp _ ih =>
    have hrest := ih (b.appendData d)
    rw [appendAll, hp]
    rw [Bundle.appendData_data, List.append_assoc, ← frames_cons] at hrest
    exact hrest

section
variable {parts more : List Part} {ds es : List Bytes}
  (hds : List.Forall₂ (fun p d => p.bytes = some d) parts ds)
  (hes : List.Forall₂ (fun p d => p.bytes = some d) more es)
include hds hes

theorem bytes_without_time :
    (bundle parts none more).bytes = some (bundleName ++ (beBytes 8 1 ++ frames (ds ++ es))) := by
  have hparts := appendAll_of hds Bundle.new
  rw [Bundle.new_data, List.append_assoc] at hparts
  have hmore := appendAll_of hes ⟨bundleName ++ (beBytes 8 1 ++ frames ds)⟩
  simp only [bytes, hparts, hmore, Option.bind_eq_bind, Option.bind_some, frames_append,
    List.append_assoc]
  rfl

theorem bytes_with_time (v : BitVec 64) :
    (bundle parts (some v) more).bytes =
      some (bundleName ++ (Message.timeBytes v ++ (beBytes 8 1 ++ frames (ds ++ es)))) := by
  have hparts := appendAll_of hds Bundle.new
  rw [Bundle.new_data, List.append_assoc] at hparts
  have htime : Bundle.setTimetag ⟨bundleName ++ (beBytes 8 1 ++ frames ds)⟩ v =
      some ⟨bundleName ++ (Message.timeBytes v ++ (beBytes 8 1 ++ frames ds))⟩ := by
    have hname : bundleName.length = 8 := rfl
    rw [Bundle.setTimetag, if_neg]
    · rw [List.take_left' hname, List.drop_left' hname, List.append_assoc]
    · rw [List.length_append]
      omega
  have hmore := appendAll_of hes ⟨bundleName ++ (Message.timeBytes v ++ (beBytes 8 1 ++ frames ds))⟩
  simp only [bytes, hparts, htime, hmore, Option.bind_eq_bind, Option.bind_some,
    frames_append, List.append_assoc]
  rfl

end

end Part

theorem Packet.write_pos (p : Packet) : 0 < p.write.length := by
  cases p with
  | message address args =>
    rw [write, length_layout]
    unfold alignedLength
    omega
  | bundle timetag elements =>
    rw [write, List.length_append, List.length_append, length_beBytes]
    omega

theorem Packet.Ok.elements {q : Packet} (h : q.Ok) {rest : Bytes}
    (heq : bundleName ++ rest = q.write) :
    ∃ t qs, rest = beBytes 8 t ++ writeAll qs ∧ ∀ q ∈ qs, q.Ok ∧ q.write.length < 2 ^ 31 := by
  cases h with
  | @message address args haddress _ =>
    exact (message_not_bundle haddress args ⟨rest, heq⟩).elim
  | @bundle t qs hall hsmall =>
    rw [write] at heq
    exact ⟨t.toNat, qs, List.append_cancel_left heq, fun q hq => ⟨hall q hq, hsmall q hq⟩⟩

theorem Packet.writeAll_frames (qs : List Packet) : writeAll qs = frames (qs.map write) := by
  rw [writeAll_eq, frames, List.flatMap_map]

theorem Packet.elements_eq {qs : List Packet} {ds : List Bytes} (h : frames ds = writeAll qs)
    (hqs : ∀ q ∈ qs, q.Ok ∧ q.write.length < 2 ^ 31) (hds : ∀ d ∈ ds, d.length < 2 ^ 31) :
    ds = qs.map write := by
  have hleft := deframe_frames ds [] (fun d hd => Nat.lt_trans (hds d hd) (by decide)) unframe_nil
  have hright := deframe_frames (qs.map write) [] (fun d hd => by
    obtain ⟨q, hq, rfl⟩ := List.mem_map.mp hd
    exact Nat.lt_trans (hqs q hq).2 (by decide)) unframe_nil
  rw [← writeAll_frames, ← h, hleft] at hright
  exact (Prod.mk.inj hright).1

/-- Behind the inserted time tag the old one is read as an element without any byte. -/
theorem Packet.rejects_time {time rest : Bytes} (htime : time.length = 8) :
    decode (bundleName ++ (time ++ (beBytes 8 1 ++ rest))) = none := by
  rw [decodes.rejects]
  intro q hq heq
  obtain ⟨t, qs, hrest, hall⟩ := hq.elements heq
  obtain ⟨_, hqs⟩ := List.append_inj hrest (by rw [htime, length_beBytes])
  cases qs with
  | nil =>
    have hlen := congrArg List.length hqs
    rw [List.length_append, length_beBytes] at hlen
    exact absurd hlen (by rw [writeAll, List.length_nil]; omega)
  | cons q qs =>
    have hsplit : beBytes 8 1 = beBytes 4 0 ++ beBytes 4 1 := by decide
    rw [writeAll, frame, hsplit, List.append_assoc, List.append_assoc] at hqs
    obtain ⟨hsize, _⟩ := List.append_inj hqs (by rw [length_beBytes, length_beBytes])
    have hsmall := (hall q List.mem_cons_self).2
    have hzero := congrArg ofBe hsize
    rw [ofBe_beBytes 4 0 (by omega), ofBe_beBytes 4 _ (by omega)] at hzero
    have hpos := q.write_pos
    omega

namespace Part

/-- The bytes of a part, and what a receiver makes of them. -/
structure Read (p : Part) (d : Bytes) : Prop where
  bytes : p.bytes = some d
  decode : Packet.decode d = if p.plain then some p.packet else none

theorem all_read {ps : List Part} (h : ∀ p ∈ ps, ∃ d, Read p d) :
    ∃ ds, List.Forall₂ Read ps ds := by
  induction ps with
  | nil => exact ⟨[], .nil⟩
  | cons p ps ih =>
    obtain ⟨hp, hps⟩ := List.forall_mem_cons.mp h
    obtain ⟨d, hd⟩ := hp
    obtain ⟨ds, hds⟩ := ih hps
    exact ⟨d :: ds, .cons hd hds⟩

theorem written {ps : List Part} {ds : List Bytes} (h : List.Forall₂ Read ps ds)
    (hplain : ∀ p ∈ ps, p.plain = true) :
    ds = (ps.map packet).map Packet.write ∧ ∀ q ∈ ps.map packet, q.Ok := by
  induction h with
  | nil => exact ⟨rfl, by simp⟩
  | @cons p d ps ds hp _ ih =>
    obtain ⟨hplain, hrest⟩ := List.forall_mem_cons.mp hplain
    have hdecode := hp.decode
    rw [if_pos hplain, Packet.decodes.exact] at hdecode
    obtain ⟨hok, rfl⟩ := hdecode
    obtain ⟨rfl, hall⟩ := ih hrest
    exact ⟨rfl, by rw [List.map_cons]; exact List.forall_mem_cons.mpr ⟨hok, hall⟩⟩

theorem plain_of_written {ps : List Part} {ds : List Bytes} (h : List.Forall₂ Read ps ds)
    (hds : ∀ d ∈ ds, ∃ q, Packet.decode d = some q) : ∀ p ∈ ps, p.plain = true := by
  induction h with
  | nil => simp
  | @cons p d ps ds hp _ ih =>
    obtain ⟨⟨q, hq⟩, hrest⟩ := List.forall_mem_cons.mp hds
    refine List.forall_mem_cons.mpr ⟨?_, ih hrest⟩
    rw [hp.decode] at hq
    by_contra hnot
    rw [if_neg hnot] at hq
    cases hq

theorem exists_of_forall₂ {ps : List Part} {ds : List Bytes} (h : List.Forall₂ Read ps ds)
    {d : Bytes} (hd : d ∈ ds) : ∃ p ∈ ps, Read p d := by
  induction h with
  | nil => cases hd
  | @cons p d' ps ds hp _ ih =>
    rcases List.mem_cons.mp hd with rfl | hmem
    · exact ⟨p, List.mem_cons_self, hp⟩
    · obtain ⟨q, hq, hread⟩ := ih hmem
      exact ⟨q, List.mem_cons_of_mem p hq, hread⟩

theorem bytes_of {ps : List Part} {ds : List Bytes} (h : List.Forall₂ Read ps ds) :
    List.Forall₂ (fun p d => p.bytes = some d) ps ds :=
  h.imp fun _ _ hp => hp.bytes

section
variable {parts more : List Part} {ds es : List Bytes}

theorem append_read (hds : List.Forall₂ Read parts ds) (hes : List.Forall₂ Read more es) :
    List.Forall₂ Read (parts ++ more) (ds ++ es) :=
  List.rel_append hds hes

theorem bundle_read (hds : List.Forall₂ Read parts ds) (hes : List.Forall₂ Read more es)
    (hsmall : ∀ d ∈ ds ++ es, d.length < 2 ^ 31) :
    Packet.decode (bundleName ++ (beBytes 8 1 ++ frames (ds ++ es))) =
      if (parts ++ more).all plain then some (.bundle 1 (packets parts ++ packets more))
      else none := by
  have hall := append_read hds hes
  rw [packets_eq, packets_eq, ← List.map_append]
  generalize parts ++ more = ps at hall
  generalize ds ++ es = fs at hall hsmall
  split
  · rename_i hplain
    obtain ⟨rfl, hok⟩ := written hall (List.all_eq_true.mp hplain)
    rw [← Packet.writeAll_frames]
    refine Packet.decodes.decode_write (a := .bundle 1 (ps.map packet)) (.bundle hok ?_)
    intro q hq
    exact hsmall _ (List.mem_map_of_mem hq)
  · rename_i hplain
    rw [Packet.decodes.rejects]
    intro q hq heq
    obtain ⟨t, qs, hrest, hqs⟩ := hq.elements heq
    obtain ⟨_, hframes⟩ := List.append_inj hrest (by rw [length_beBytes, length_beBytes])
    have hfs := Packet.elements_eq hframes hqs hsmall
    apply hplain
    apply List.all_eq_true.mpr
    apply plain_of_written hall
    rw [hfs]
    intro d hd
    obtain ⟨q, hq, rfl⟩ := List.mem_map.mp hd
    exact ⟨q, Packet.decodes.decode_write (hqs q hq).1⟩

end

theorem part_read {p : Part} (h : p.Sound) : ∃ d, Read p d := by
  induction h with
  | @message address appends haddress happends =>
    refine ⟨_, rfl, ?_⟩
    rw [build_write haddress, plain, if_pos rfl]
    exact Packet.decodes.decode_write (.message haddress (received_all_ok happends))
  | @bundle parts more timetag _ hsmall ih =>
    obtain ⟨ds, hds⟩ := all_read fun p hp => ih p (List.mem_append_left _ hp)
    obtain ⟨es, hes⟩ := all_read fun p hp => ih p (List.mem_append_right _ hp)
    cases timetag with
    | some v =>
      refine ⟨_, bytes_with_time (bytes_of hds) (bytes_of hes) v, ?_⟩
      have htime : (Message.timeBytes v).length = 8 := length_leBytes 8 _
      rw [Packet.rejects_time htime]
      rfl
    | none =>
      refine ⟨_, bytes_without_time (bytes_of hds) (bytes_of hes), ?_⟩
      have hlen : ∀ d ∈ ds ++ es, d.length < 2 ^ 31 := by
        intro d hd
        obtain ⟨p, hp, hread⟩ := exists_of_forall₂ (append_read hds hes) hd
        exact hsmall p hp d hread.bytes
      rw [bundle_read hds hes hlen, List.all_append, plain, allPlain_eq, allPlain_eq, packet]
      rfl

/-- What `byte_array` returns is read as what was put together, bundles in bundles as well,
unless the time tag of a bundle was set, however deep; then it is not a packet. -/
theorem received_of_parts {p : Part} (h : p.Sound) :
    ∃ d, p.bytes = some d ∧
      Packet.decode d = if p.plain then some p.packet else none := by
  obtain ⟨d, hd⟩ := part_read h
  exact ⟨d, hd.bytes, hd.decode⟩

/-- A message behind a bundle with another message; its time tag arrives exchanged. -/
theorem received_of_nested :
    ∃ d, (bundle [bundle [message (ascii "/a") [.int32 7]] none []] none
        [message (ascii "/b") [.time 1, .T]]).bytes = some d ∧
      Packet.decode d = some (.bundle 1 [.bundle 1 [.message (ascii "/a") [.int32 7]],
        .message (ascii "/b") [.time 4294967296, .T]]) := by
  have hinner : (message (ascii "/a") [.int32 7]).Sound :=
    .message (by decide) (by simp [Append.Ok, Append.value, Value.Ok])
  have hlast : (message (ascii "/b") [.time 1, .T]).Sound :=
    .message (by decide) (by simp [Append.Ok, Append.value, Value.Ok])
  have hnested : (bundle [message (ascii "/a") [.int32 7]] none []).Sound :=
    .bundle (by simpa using hinner) (by simpa using by decide +kernel)
  exact received_of_parts (p := bundle [bundle [message (ascii "/a") [.int32 7]] none []] none
    [message (ascii "/b") [.time 1, .T]])
    (.bundle (by simpa using ⟨hnested, hlast⟩) (by simpa using by decide +kernel))

end Part
end AmClient.Osc
