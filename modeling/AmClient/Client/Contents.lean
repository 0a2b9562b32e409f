import AmClient.Client.Packets
import AmClient.Osc.Builder

/-!
# What the calls say

The content of the message of each call, its values included, and that a receiver reads
just that from the message. The character of a custom call arrives in the high byte.
-/

namespace AmClient.Client
open Foundation Osc
set_option autoImplicit false

variable {decibels : BitVec 32 → Decibels}

/-- What a receiver reads for an argument of `voscpack`. -/
def packedValue : Arg → Value
  | .int32 v => .int32 v
  | .int64 v => .int64 v
  | .float bits => .float bits
  | .double bits => .double bits
  | .string s => .string s.val
  | .char c => .char (BitVec.ofNat 32 (c.toNat * 2 ^ 24))

/-- The types without an argument. -/
def bareValue : Tag → Option Value
  | .T => some .T
  | .F => some .F
  | .N => some .N
  | .I => some .I
  | _ => none

/-- The values of a format, from the arguments in order. -/
def packedValues : Bytes → List Arg → List Value
  | [], _ => []
  | c :: format, args => match (Tag.ofByte c).bind bareValue, args with
    | some v, args => v :: packedValues format args
    | none, a :: args => packedValue a :: packedValues format args
    | none, [] => []

def customContent (baseAddress url : Bytes) (format : CString) (args : List Arg) : Option Packet :=
  if (baseAddress ++ url).head? = some slash ∧ Supported format.val then
    some (.message (cstr (baseAddress ++ url)).val (packedValues format.val args))
  else none

def Decibels.value : Decibels → Value
  | .float bits => .float bits
  | .double bits => .double bits

def muteValue (mute : Bool) : Value := .int32 (if mute then 1 else 0)

def Call.content (decibels : BitVec 32 → Decibels) (baseAddress : Bytes) : Call → Option Packet
  | .setOption _ => none
  | .setSystemMute mute => some (.message (ascii "/AM/Mute") [muteValue mute])
  | .setSystemVolume volume =>
    if inRange volume then some (.message (ascii "/AM/Volume") [(decibels volume).value]) else none
  | .load => some (.message (ascii "/AM/Load") [.string baseAddress])
  | .unload => some (.message (ascii "/AM/Unload") [.string baseAddress])
  | .setMute mute =>
    some (.message (ascii "/AM/Project/Mute") [.string baseAddress, muteValue mute])
  | .setVolume volume =>
    if inRange volume then
      some (.message (ascii "/AM/Project/Volume") [.string baseAddress, (decibels volume).value])
    else none
  | .sendCustomTCP url format args => customContent baseAddress url format args
  | .sendCustomUDP url format args => customContent baseAddress url format args
  | .startBundle => none
  | .endBundle => none

/-- What the calls of a run say by one of the two transports, oldest first. -/
def contents (decibels : BitVec 32 → Decibels) (udp : Bool) (trace : List (State × Call)) :
    List Packet :=
  trace.reverse.filterMap fun p =>
    if byUdp p.1 p.2 = udp then p.2.content decibels p.1.baseAddress else none

/-- The message of these bytes. -/
structure Says (m : Bytes) (p : Packet) : Prop where
  ok : p.Ok
  written : m = p.write

theorem Says.decode {m : Bytes} {p : Packet} (h : Says m p) : Packet.decode m = some p :=
  (Packet.decodes.exact m p).mpr ⟨h.ok, h.written⟩

theorem says_built {address : Bytes} (h : AddressOk address) (appends : List Append)
    (happends : ∀ a ∈ appends, a.Ok) :
    Says (build address appends).byteArray (.message address (received appends)) :=
  ⟨.message h (received_all_ok happends), build_write h appends⟩

theorem says_systemMute (mute : Bool) :
    Says (systemMuteMessage mute) (.message (ascii "/AM/Mute") [muteValue mute]) :=
  says_built (by decide) [.int32 (if mute then 1 else 0)]
    (by simp [Append.Ok, Append.value, Value.Ok])

theorem says_systemVolume (db : Decibels) :
    Says (systemVolumeMessage db) (.message (ascii "/AM/Volume") [db.value]) := by
  have haddress : AddressOk (ascii "/AM/Volume") := by decide
  cases db with
  | float bits =>
    have hbuilt := says_built haddress [.float bits]
      (by simp [Append.Ok, Append.value, Value.Ok])
    exact hbuilt
  | double bits =>
    have hbuilt := says_built haddress [.double bits]
      (by simp [Append.Ok, Append.value, Value.Ok])
    exact hbuilt

section Base
variable {baseAddress : Bytes} (hbase : 0 ∉ baseAddress)
include hbase

theorem says_load :
    Says (loadMessage baseAddress) (.message (ascii "/AM/Load") [.string baseAddress]) :=
  says_built (by decide) [.string baseAddress]
    (by simpa [Append.Ok, Append.value, Value.Ok] using hbase)

theorem says_unload :
    Says (unloadMessage baseAddress) (.message (ascii "/AM/Unload") [.string baseAddress]) :=
  says_built (by decide) [.string baseAddress]
    (by simpa [Append.Ok, Append.value, Value.Ok] using hbase)

theorem says_mute (mute : Bool) :
    Says (muteMessage baseAddress mute)
      (.message (ascii "/AM/Project/Mute") [.string baseAddress, muteValue mute]) :=
  says_built (by decide) [.string baseAddress, .int32 (if mute then 1 else 0)]
    (by simpa [Append.Ok, Append.value, Value.Ok] using hbase)

theorem says_volume (db : Decibels) :
    Says (volumeMessage baseAddress db)
      (.message (ascii "/AM/Project/Volume") [.string baseAddress, db.value]) := by
  have haddress : AddressOk (ascii "/AM/Project/Volume") := by decide
  cases db with
  | float bits =>
    have hbuilt := says_built haddress [.string baseAddress, .float bits]
      (by simpa [Append.Ok, Append.value, Value.Ok] using hbase)
    exact hbuilt
  | double bits =>
    have hbuilt := says_built haddress [.string baseAddress, .double bits]
      (by simpa [Append.Ok, Append.value, Value.Ok] using hbase)
    exact hbuilt

end Base

theorem beBytes_high (c : UInt8) : beBytes 4 (c.toNat * 2 ^ 24) = c :: zeros 3 := by
  have hhigh : c.toNat * 2 ^ 24 / 256 ^ 3 = c.toNat := by omega
  have hlow : c.toNat * 2 ^ 24 % 256 ^ 3 = 0 := by omega
  have hmod := leBytes_mod 3 (c.toNat * 2 ^ 24)
  rw [hlow] at hmod
  have hbyte : beBytes 1 c.toNat = [c] := by
    simp [beBytes, leBytes]
  rw [beBytes_add 3 1, hhigh, hbyte, beBytes, ← hmod]
  rfl

theorem packedValue_write (a : Arg) : (packedValue a).write = a.bytes := by
  cases a with
  | int32 v | float v => exact (leBytes_hton 4 _).symm
  | int64 v | double v => exact (leBytes_htonll _).symm
  | string s => rfl
  | char c =>
    have hc := c.toNat_lt
    have hword : (BitVec.ofNat 32 (c.toNat * 2 ^ 24)).toNat = c.toNat * 2 ^ 24 := by
      rw [BitVec.toNat_ofNat]
      omega
    rw [packedValue, Value.write, hword, beBytes_high]
    rfl

theorem packedValue_kind (a : Arg) : (packedValue a).kind = .basic a.tag := by
  cases a with
  | _ => rfl

theorem packedValue_ok (a : Arg) : (packedValue a).Ok := by
  cases a with
  | string s => exact s.property
  | _ => trivial

theorem bareValue_takes (a : Arg) : bareValue a.tag = none := by
  cases a with
  | _ => rfl

theorem bareValue_bare {t : Tag} (h : t.takesArg = false) :
    ∃ v, bareValue t = some v ∧ v.kind = .basic t ∧ v.write = [] ∧ v.Ok := by
  cases t with
  | T => exact ⟨.T, rfl, rfl, rfl, trivial⟩
  | F => exact ⟨.F, rfl, rfl, rfl, trivial⟩
  | N => exact ⟨.N, rfl, rfl, rfl, trivial⟩
  | I => exact ⟨.I, rfl, rfl, rfl, trivial⟩
  | _ => cases h

/-- What `voscpack` writes behind the tags. -/
theorem packed_said {format : Bytes} (hformat : Supported format) {args : List Arg} {data : Bytes}
    (h : packArgs format args = some data) :
    data = (packedValues format args).flatMap Value.write ∧
      tagBytes (packedValues format args) = format ∧ ∀ v ∈ packedValues format args, v.Ok := by
  induction format generalizing args data with
  | nil =>
    obtain rfl := Option.some.inj h
    exact ⟨rfl, rfl, by simp [packedValues]⟩
  | cons c format ih =>
    obtain ⟨hc, hformat⟩ := List.forall_mem_cons.mp hformat
    obtain ⟨t, hc⟩ := Option.isSome_iff_exists.mp hc
    have hbyte := Tag.byte_of_ofByte hc
    rw [packArgs, hc] at h
    obtain ⟨⟨bytes, left⟩, harg, h⟩ := Option.bind_eq_some_iff.mp h
    obtain ⟨more, hmore, h⟩ := Option.bind_eq_some_iff.mp h
    obtain rfl := Option.some.inj h
    obtain ⟨rfl, htags, hok⟩ := ih hformat hmore
    rcases packArg_cases harg with ⟨ht, rfl, rfl⟩ | ⟨a, rfl, rfl, rfl⟩
    · obtain ⟨v, hv, hkind, hwrite, hvok⟩ := bareValue_bare ht
      have hvalues : packedValues (c :: format) left = v :: packedValues format left := by
        simp only [packedValues, hc, Option.bind_some, hv]
      have hhead : v.kind.byte = c := by rw [hkind]; exact hbyte
      rw [hvalues]
      refine ⟨by rw [List.flatMap_cons, hwrite], ?_, List.forall_mem_cons.mpr ⟨hvok, hok⟩⟩
      exact congrArg₂ List.cons hhead htags
    · have hvalues : packedValues (c :: format) (a :: left) =
          packedValue a :: packedValues format left := by
        simp only [packedValues, hc, Option.bind_some, bareValue_takes]
      have hhead : (packedValue a).kind.byte = c := by rw [packedValue_kind]; exact hbyte
      rw [hvalues]
      refine ⟨by rw [List.flatMap_cons, packedValue_write], ?_,
        List.forall_mem_cons.mpr ⟨packedValue_ok a, hok⟩⟩
      exact congrArg₂ List.cons hhead htags

theorem says_custom {baseAddress url : Bytes} {format : CString} {args : List Arg}
    {r : Bytes × Int} (hpack : voscpack (cstr (baseAddress ++ url)) format args = some r)
    (hwithin : r.1.length ≤ MAX_MESSAGE_SIZE) :
    Option.Rel Says (customMessage baseAddress url format args)
      (customContent baseAddress url format args) := by
  by_cases haccepted : (baseAddress ++ url).head? = some slash ∧ Supported format.val
  · obtain ⟨hhead, hformat⟩ := haccepted
    have hslash := (cstr_head _).mpr hhead
    rw [voscpack_layout hslash hformat] at hpack
    obtain ⟨data, hdata, rfl⟩ := Option.map_eq_some_iff.mp hpack
    obtain ⟨hwritten, htags, hok⟩ := packed_said hformat hdata
    rw [customMessage_layout hslash hformat hdata hwithin, customContent,
      if_pos ⟨hhead, hformat⟩]
    refine .some ⟨.message ⟨(cstr _).property, hslash⟩ hok, ?_⟩
    rw [Packet.write, htags, ← hwritten]
    rfl
  · have hnone : customMessage baseAddress url format args = none := by
      apply customMessage_rejected
      rwa [cstr_head]
    rw [hnone, customContent, if_neg haccepted]
    exact .none

theorem volume_said {volume : BitVec 32} {m : Bytes} {p : Packet} (h : Says m p) :
    Option.Rel Says (volumeCall volume m) (if inRange volume then some p else none) := by
  unfold volumeCall
  split
  · exact .some h
  · exact .none

theorem step_said {s t : State} {c : Call} (hbase : 0 ∉ s.baseAddress)
    (hwithin : PacksWithin s.baseAddress c) (h : step decibels s c = some t) :
    Option.Rel Says (c.message decibels s.baseAddress) (c.content decibels s.baseAddress) := by
  cases c with
  | setOption => exact .none
  | setSystemMute mute => exact .some (says_systemMute mute)
  | setSystemVolume volume => exact volume_said (says_systemVolume _)
  | load => exact .some (says_load hbase)
  | unload => exact .some (says_unload hbase)
  | setMute mute => exact .some (says_mute hbase mute)
  | setVolume volume => exact volume_said (says_volume hbase _)
  | sendCustomTCP url format args =>
    obtain ⟨p, hp, _⟩ := Option.map_eq_some_iff.mp h
    obtain ⟨r, hr, _⟩ := Option.map_eq_some_iff.mp hp
    exact says_custom hr (hwithin r hr)
  | sendCustomUDP url format args =>
    obtain ⟨p, hp, _⟩ := Option.map_eq_some_iff.mp h
    obtain ⟨r, hr, _⟩ := Option.map_eq_some_iff.mp hp
    exact says_custom hr (hwithin r hr)
  | startBundle => exact .none
  | endBundle => exact .none

/-- The messages of a run for one of the two transports say what its calls say. -/
theorem run_said {baseAddress : Bytes} {trace : List (State × Call)} {s : State}
    (h : Run (step decibels) (init baseAddress) trace s) (hbase : 0 ∉ baseAddress)
    (hwithin : ∀ p ∈ trace, PacksWithin p.1.baseAddress p.2) (udp : Bool) :
    List.Forall₂ Says
      (trace.reverse.filterMap fun p =>
        if byUdp p.1 p.2 = udp then p.2.message decibels p.1.baseAddress else none)
      (contents decibels udp trace) := by
  have hsame : List.Forall₂ (fun p q : State × Call => p = q ∧ p ∈ trace) trace.reverse
      trace.reverse := by
    apply List.forall₂_same.mpr
    intro p hp
    exact ⟨rfl, List.mem_reverse.mp hp⟩
  apply List.rel_filterMap _ hsame
  rintro p q ⟨rfl, hp⟩
  obtain ⟨early, t, hearly, hstep⟩ := h.step_of_mem hp
  have hkept := (control_run hearly).1
  simp only
  split
  · exact step_said (by rw [hkept]; exact hbase) (hwithin p hp) hstep
  · exact .none

section
variable {baseAddress : Bytes} {trace : List (State × Call)} {s : State}
  (h : Run (step decibels) (init baseAddress) trace s) (hbase : 0 ∉ baseAddress)
  (hwithin : ∀ p ∈ trace, PacksWithin p.1.baseAddress p.2)
include h hbase hwithin

theorem udp_said : List.Forall₂ Says (routed decibels trace) (contents decibels true trace) := by
  have hsaid := run_said h hbase hwithin true
  simpa only [routed, routedToUdp_eq] using hsaid

theorem tcp_said :
    List.Forall₂ Says (trace.reverse.filterMap fun p => routedToTcp decibels p.1 p.2)
      (contents decibels false trace) := by
  have hsaid := run_said h hbase hwithin false
  simpa only [routedToTcp_eq] using hsaid

end

end AmClient.Client
