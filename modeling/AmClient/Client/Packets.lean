import AmClient.Client.Encoding
import AmClient.Osc.Grammar

/-!
# What the client emits

Everything handed to `tcp_client_->Send` and `udp_client_->Send` is a packet of messages
with the addresses and tags of the calls, as long as a message in a bundle is short enough
for the size of a bundle element.
-/

namespace AmClient.Client
open Foundation Osc
set_option autoImplicit false

variable {decibels : BitVec 32 → Decibels}

def decibelsTag : Decibels → Bytes
  | .float _ => ascii "f"
  | .double _ => ascii "d"

/-- The address of a custom call is what `voscpack` sees of it, up to a NUL in the url. -/
def customSignature (baseAddress url : Bytes) (format : CString) : Option Signature :=
  if (baseAddress ++ url).head? = some slash ∧ Supported format.val then
    some { address := (cstr (baseAddress ++ url)).val, tags := format.val }
  else none

def Call.signature (decibels : BitVec 32 → Decibels) (baseAddress : Bytes) :
    Call → Option Signature
  | .setOption _ => none
  | .setSystemMute _ => some { address := ascii "/AM/Mute", tags := ascii "i" }
  | .setSystemVolume volume =>
    if inRange volume then
      some { address := ascii "/AM/Volume", tags := decibelsTag (decibels volume) }
    else none
  | .load => some { address := ascii "/AM/Load", tags := ascii "s" }
  | .unload => some { address := ascii "/AM/Unload", tags := ascii "s" }
  | .setMute _ => some { address := ascii "/AM/Project/Mute", tags := ascii "si" }
  | .setVolume volume =>
    if inRange volume then
      some { address := ascii "/AM/Project/Volume",
             tags := ascii "s" ++ decibelsTag (decibels volume) }
    else none
  | .sendCustomTCP url format _ => customSignature baseAddress url format
  | .sendCustomUDP url format _ => customSignature baseAddress url format
  | .startBundle => none
  | .endBundle => none

/-- Whether a message of the call goes to UDP. -/
def byUdp (s : State) : Call → Bool
  | .sendCustomUDP _ _ _ => true
  | .sendCustomTCP _ _ _ => false
  | _ => s.coreUsesUdp

/-- What the calls of a run announce for one of the two transports, oldest first. -/
def signatures (decibels : BitVec 32 → Decibels) (udp : Bool) (trace : List (State × Call)) :
    List Signature :=
  trace.reverse.filterMap fun p =>
    if byUdp p.1 p.2 = udp then p.2.signature decibels p.1.baseAddress else none

/-- What `voscpack` writes and returns for a custom call. -/
def Call.packed (baseAddress : Bytes) : Call → Option (Bytes × Int)
  | .sendCustomTCP url format args => voscpack (cstr (baseAddress ++ url)) format args
  | .sendCustomUDP url format args => voscpack (cstr (baseAddress ++ url)) format args
  | _ => none

def PacksWithin (baseAddress : Bytes) (c : Call) : Prop :=
  ∀ r ∈ c.packed baseAddress, r.1.length ≤ MAX_MESSAGE_SIZE

instance (baseAddress : Bytes) (c : Call) : Decidable (PacksWithin baseAddress c) :=
  inferInstanceAs (Decidable (∀ r ∈ c.packed baseAddress, r.1.length ≤ MAX_MESSAGE_SIZE))

/-- A custom call whose address does not start with a slash, or whose format has a type
that is not supported. -/
def Rejects (baseAddress : Bytes) : Call → Prop
  | .sendCustomTCP url format _ =>
    (baseAddress ++ url).head? ≠ some slash ∨ ¬ Supported format.val
  | .sendCustomUDP url format _ =>
    (baseAddress ++ url).head? ≠ some slash ∨ ¬ Supported format.val
  | _ => False

theorem routedToUdp_eq (s : State) (c : Call) :
    routedToUdp decibels s c =
      if byUdp s c = true then c.message decibels s.baseAddress else none := by
  cases c with
  | sendCustomTCP => rfl
  | sendCustomUDP => rfl
  | _ => rfl

theorem routedToTcp_eq (s : State) (c : Call) :
    routedToTcp decibels s c =
      if byUdp s c = false then c.message decibels s.baseAddress else none := by
  have core {x : Option Bytes} : (if s.coreUsesUdp then none else x) =
      if s.coreUsesUdp = false then x else none := by
    cases s.coreUsesUdp with
    | false => rfl
    | true => rfl
  cases c with
  | sendCustomTCP => rfl
  | sendCustomUDP => rfl
  | _ => exact core

theorem byteArray_appended {address : Bytes} (format : Bytes) (args : List Arg) {msg : Message}
    (h : ({ address := address } : Message).appendArgs format args = some msg)
    (hslash : address.head? = some slash) (hformat : Supported format)
    (hargs : Matches format args) :
    msg.byteArray = layout address (ascii "," ++ format) (args.flatMap Arg.appended) := by
  rw [Message.appendArgs_eq _ hformat hargs] at h
  obtain rfl := Option.some.inj h
  have hne : address ≠ [] := by
    rintro rfl
    exact nomatch hslash
  exact Message.byteArray_layout hne

theorem reads_appended {address : Bytes} (format : Bytes) (args : List Arg) {msg : Message}
    (h : ({ address := address } : Message).appendArgs format args = some msg)
    (haddress : 0 ∉ address) (hslash : address.head? = some slash) (htags : 0 ∉ format)
    (hformat : Supported format) (hargs : Matches format args) :
    Reads msg.byteArray { address := address, tags := format } := by
  have hdata := readArgs_appended hformat hargs []
  rw [List.append_nil] at hdata
  rw [byteArray_appended format args h hslash hformat hargs]
  exact ⟨readMessage_layout haddress hslash htags hdata, length_layout_mod (appended_aligned args)⟩

theorem reads_systemMute (mute : Bool) :
    Reads (systemMuteMessage mute) { address := ascii "/AM/Mute", tags := ascii "i" } :=
  reads_appended (ascii "i") [.int32 (if mute then 1 else 0)] rfl (by decide) rfl (by decide)
    (by decide) rfl

theorem reads_systemVolume (db : Decibels) :
    Reads (systemVolumeMessage db) { address := ascii "/AM/Volume", tags := decibelsTag db } := by
  cases db with
  | float bits =>
    exact reads_appended (ascii "f") [.float bits] rfl (by decide) rfl (by decide) (by decide) rfl
  | double bits =>
    exact reads_appended (ascii "d") [.double bits] rfl (by decide) rfl (by decide) (by decide) rfl

section Base
variable {baseAddress : Bytes} (hbase : 0 ∉ baseAddress)
include hbase

theorem reads_load :
    Reads (loadMessage baseAddress) { address := ascii "/AM/Load", tags := ascii "s" } :=
  reads_appended (ascii "s") [.string ⟨baseAddress, hbase⟩] rfl (by decide) rfl (by decide)
    (by decide) rfl

theorem reads_unload :
    Reads (unloadMessage baseAddress) { address := ascii "/AM/Unload", tags := ascii "s" } :=
  reads_appended (ascii "s") [.string ⟨baseAddress, hbase⟩] rfl (by decide) rfl (by decide)
    (by decide) rfl

theorem reads_mute (mute : Bool) :
    Reads (muteMessage baseAddress mute)
      { address := ascii "/AM/Project/Mute", tags := ascii "si" } :=
  reads_appended (ascii "si") [.string ⟨baseAddress, hbase⟩, .int32 (if mute then 1 else 0)] rfl
    (by decide) rfl (by decide) (by decide) rfl

theorem reads_volume (db : Decibels) :
    Reads (volumeMessage baseAddress db)
      { address := ascii "/AM/Project/Volume", tags := ascii "s" ++ decibelsTag db } := by
  cases db with
  | float bits =>
    exact reads_appended (ascii "sf") [.string ⟨baseAddress, hbase⟩, .float bits] rfl
      (by decide) rfl
      (by decide) (by decide) rfl
  | double bits =>
    exact reads_appended (ascii "sd") [.string ⟨baseAddress, hbase⟩, .double bits] rfl
      (by decide) rfl
      (by decide) (by decide) rfl

end Base

theorem cstr_head (bytes : Bytes) :
    (cstr bytes).val.head? = some slash ↔ bytes.head? = some slash := by
  cases bytes with
  | nil => rfl
  | cons c bytes =>
    by_cases hc : c = 0
    · rw [hc]
      simp [cstr, slash]
    · simp [cstr, hc]

theorem reads_custom {baseAddress url : Bytes} {format : CString} {args : List Arg}
    {r : Bytes × Int} (hpack : voscpack (cstr (baseAddress ++ url)) format args = some r)
    (hwithin : r.1.length ≤ MAX_MESSAGE_SIZE) :
    Option.Rel Reads (customMessage baseAddress url format args)
      (customSignature baseAddress url format) := by
  by_cases haccepted : (baseAddress ++ url).head? = some slash ∧ Supported format.val
  · obtain ⟨hhead, hformat⟩ := haccepted
    have hslash := (cstr_head _).mpr hhead
    rw [voscpack_layout hslash hformat] at hpack
    obtain ⟨data, hdata, rfl⟩ := Option.map_eq_some_iff.mp hpack
    have hread := readArgs_packed hformat hdata []
    rw [List.append_nil] at hread
    rw [customMessage_layout hslash hformat hdata hwithin, customSignature,
      if_pos ⟨hhead, hformat⟩]
    exact .some ⟨readMessage_layout (cstr _).property hslash format.property hread,
      length_layout_mod (packArgs_aligned hdata)⟩
  · have hnone : customMessage baseAddress url format args = none := by
      apply customMessage_rejected
      rwa [cstr_head]
    rw [hnone, customSignature, if_neg haccepted]
    exact .none

theorem volume_reads {volume : BitVec 32} {m : Bytes} {signature : Signature}
    (h : Reads m signature) :
    Option.Rel Reads (volumeCall volume m) (if inRange volume then some signature else none) := by
  unfold volumeCall
  split
  · exact .some h
  · exact .none

theorem step_reads {s t : State} {c : Call} (hbase : 0 ∉ s.baseAddress)
    (hwithin : PacksWithin s.baseAddress c) (h : step decibels s c = some t) :
    Option.Rel Reads (c.message decibels s.baseAddress) (c.signature decibels s.baseAddress) := by
  cases c with
  | setOption => exact .none
  | setSystemMute mute => exact .some (reads_systemMute mute)
  | setSystemVolume volume => exact volume_reads (reads_systemVolume _)
  | load => exact .some (reads_load hbase)
  | unload => exact .some (reads_unload hbase)
  | setMute mute => exact .some (reads_mute hbase mute)
  | setVolume volume => exact volume_reads (reads_volume hbase _)
  | sendCustomTCP url format args =>
    obtain ⟨p, hp, _⟩ := Option.map_eq_some_iff.mp h
    obtain ⟨r, hr, _⟩ := Option.map_eq_some_iff.mp hp
    exact reads_custom hr (hwithin r hr)
  | sendCustomUDP url format args =>
    obtain ⟨p, hp, _⟩ := Option.map_eq_some_iff.mp h
    obtain ⟨r, hr, _⟩ := Option.map_eq_some_iff.mp hp
    exact reads_custom hr (hwithin r hr)
  | startBundle => exact .none
  | endBundle => exact .none

theorem rejected_message (decibels : BitVec 32 → Decibels) {baseAddress : Bytes} {c : Call}
    (h : Rejects baseAddress c) :
    c.message decibels baseAddress = none ∧ c ≠ .startBundle ∧ c ≠ .endBundle := by
  have custom {url : Bytes} {format : CString} {args : List Arg}
      (h : (baseAddress ++ url).head? ≠ some slash ∨ ¬ Supported format.val) :
      customMessage baseAddress url format args = none := by
    apply customMessage_rejected
    rw [cstr_head]
    rintro ⟨hslash, hformat⟩
    rcases h with hn | hn
    · exact hn hslash
    · exact hn hformat
  cases c with
  | sendCustomTCP url format args => exact ⟨custom h, by simp, by simp⟩
  | sendCustomUDP url format args => exact ⟨custom h, by simp, by simp⟩
  | _ => exact h.elim

theorem rejected_step {s t : State} {c : Call} (hc : Rejects s.baseAddress c)
    (h : step decibels s c = some t) : t.tcpSent = s.tcpSent ∧ t.wire = s.wire := by
  obtain ⟨hnone, hstart, hend⟩ := rejected_message decibels hc
  obtain ⟨_, _, hsent⟩ := Control.mk.inj (step_control h)
  have htcp : routedToTcp decibels s c = none := by
    rw [routedToTcp_eq, hnone, ite_self]
  have hudp : routedToUdp decibels s c = none := by
    rw [routedToUdp_eq, hnone, ite_self]
  rw [htcp, Option.toList_none, List.append_nil] at hsent
  exact ⟨hsent, (step_move h).silent_wire hudp hstart hend⟩

structure ReadsPacket (d : Bytes) (signatures : List Signature) : Prop where
  read : readPacket d = some signatures
  aligned : d.length % 4 = 0

theorem readPacket_bundle (elements : Bytes) :
    readPacket (header ++ elements) = readElements elements.length elements := by
  have hname : ascii "#bundle" ++ zeros 1 <+: header ++ elements :=
    (show ascii "#bundle" ++ zeros 1 <+: header by decide).trans (List.prefix_append _ _)
  have hheader : header.length = 16 := by decide
  have hskip : skip 16 (header ++ elements) = some elements := skip_append hheader elements
  rw [readPacket, if_pos hname, hskip]
  rfl

theorem Carries.reads {d : Bytes} {ms : List Bytes} {signatures : List Signature}
    (h : Carries d ms) (hms : List.Forall₂ Reads ms signatures) : ReadsPacket d signatures := by
  cases h with
  | message hslash =>
    obtain ⟨signature, _, hm, hnil, rfl⟩ := List.forall₂_cons_left_iff.mp hms
    obtain rfl := List.forall₂_nil_left_iff.mp hnil
    exact ⟨readPacket_message hslash hm.read, hm.aligned⟩
  | bundle hsmall =>
    obtain ⟨haligned, hfuel⟩ := frames_aligned hms
    have hheader : header.length = 16 := by decide
    refine ⟨?_, ?_⟩
    · rw [readPacket_bundle]
      exact readElements_frames hms hsmall hfuel
    · rw [List.length_append, hheader]
      omega

theorem forall₂_split {α β : Type} {R : α → β → Prop} {xs ys : List α} {zs : List β}
    (h : List.Forall₂ R (xs ++ ys) zs) :
    ∃ as bs, List.Forall₂ R xs as ∧ List.Forall₂ R ys bs ∧ as ++ bs = zs := by
  have hxs := List.forall₂_take xs.length h
  have hys := List.forall₂_drop xs.length h
  rw [List.take_left] at hxs
  rw [List.drop_left] at hys
  exact ⟨_, _, hxs, hys, List.take_append_drop _ _⟩

theorem datagrams_read {ds : List Bytes} {contents : List (List Bytes)}
    (h : List.Forall₂ Carries ds contents) {signatures : List Signature}
    (hms : List.Forall₂ Reads contents.flatten signatures) :
    ∃ packets, List.Forall₂ ReadsPacket ds packets ∧ packets.flatten = signatures := by
  induction h generalizing signatures with
  | nil => exact ⟨[], .nil, (List.forall₂_nil_left_iff.mp hms).symm⟩
  | cons hd _ ih =>
    rw [List.flatten_cons] at hms
    obtain ⟨first, later, hfirst, hlater, rfl⟩ := forall₂_split hms
    obtain ⟨packets, hpackets, rfl⟩ := ih hlater
    exact ⟨first :: packets, .cons (hd.reads hfirst) hpackets, List.flatten_cons⟩

/-- What was handed to TCP are messages, and what was handed to UDP packets, with the
signatures of the calls in order; an open bundle is a packet with the rest of them. A
rejected call emits nothing and leaves the bundle as it is. -/
structure WellFormed (decibels : BitVec 32 → Decibels) (trace : List (State × Call))
    (s : State) : Prop where
  tcp : List.Forall₂ Reads s.tcpSent (signatures decibels false trace)
  udp : ∃ packets pending, List.Forall₂ ReadsPacket s.udpSent packets ∧
    packets.flatten ++ pending = signatures decibels true trace ∧
    if s.startBundle then ReadsPacket s.udpBundle pending else pending = []
  rejected : ∀ p ∈ trace, Rejects p.1.baseAddress p.2 → ∀ t, step decibels p.1 p.2 = some t →
    t.tcpSent = p.1.tcpSent ∧ t.wire = p.1.wire

theorem run_reads {baseAddress : Bytes} {trace : List (State × Call)} {s : State}
    (h : Run (step decibels) (init baseAddress) trace s) (hbase : 0 ∉ baseAddress)
    (hwithin : ∀ p ∈ trace, PacksWithin p.1.baseAddress p.2) (udp : Bool) :
    List.Forall₂ Reads
      (trace.reverse.filterMap fun p =>
        if byUdp p.1 p.2 = udp then p.2.message decibels p.1.baseAddress else none)
      (signatures decibels udp trace) := by
  have hreads : ∀ p ∈ trace, Option.Rel Reads (p.2.message decibels p.1.baseAddress)
      (p.2.signature decibels p.1.baseAddress) := by
    intro p hp
    obtain ⟨early, t, hearly, hstep⟩ := h.step_of_mem hp
    have hkept := (control_run hearly).1
    exact step_reads (by rw [hkept]; exact hbase) (hwithin p hp) hstep
  have hsame : List.Forall₂ (fun p q : State × Call => p = q ∧ p ∈ trace) trace.reverse
      trace.reverse := by
    apply List.forall₂_same.mpr
    intro p hp
    exact ⟨rfl, List.mem_reverse.mp hp⟩
  apply List.rel_filterMap _ hsame
  rintro p q ⟨rfl, hp⟩
  simp only
  split
  · exact hreads p hp
  · exact .none

/-- Everything the client emits is well formed when each custom message packs within its
buffer and each message that goes into a bundle is shorter than 2^31 bytes. -/
theorem packets_well_formed {baseAddress : Bytes} {trace : List (State × Call)} {s : State}
    (h : Run (step decibels) (init baseAddress) trace s) (hbase : 0 ∉ baseAddress)
    (hwithin : ∀ p ∈ trace, PacksWithin p.1.baseAddress p.2)
    (hsmall : ∀ p ∈ trace, p.1.startBundle = true →
      ∀ m ∈ routedToUdp decibels p.1 p.2, m.length < 2 ^ 31) :
    WellFormed decibels trace s := by
  refine ⟨?_, ?_, ?_⟩
  · have htcp := run_reads h hbase hwithin false
    rw [(control_run h).2]
    simpa only [routedToTcp_eq] using htcp
  · have hudp := run_reads h hbase hwithin true
    obtain ⟨contents, pending, hs⟩ := carried_run h hsmall
    have hall : contents.flatten ++ pending = _ := hs.all
    simp only [routed, routedToUdp_eq] at hall
    rw [← hall] at hudp
    obtain ⟨sent, left, hsent, hleft, hsplit⟩ := forall₂_split hudp
    obtain ⟨packets, hpackets, rfl⟩ := datagrams_read hs.sent hsent
    refine ⟨packets, left, hpackets, hsplit, ?_⟩
    split
    · rename_i hopen
      exact (hs.open_bundle (hs.opened hopen)).reads hleft
    · rename_i hclosed
      have hpending := hs.closed (by simpa [State.wire] using hclosed)
      rw [hpending] at hleft
      exact List.forall₂_nil_left_iff.mp hleft
  · intro p _ hrejects t hstep
    exact rejected_step hrejects hstep

theorem packets_well_formed_in_bundle :
    ∃ trace s, Run (step fun _ => .float 0) (init (ascii "/am")) trace s ∧
      s.udpSent.map readPacket =
        [some [⟨ascii "/AM/Load", ascii "s"⟩, ⟨ascii "/am/x", ascii "sc"⟩]] ∧
      s.tcpSent.map readMessage = [some ⟨ascii "/am/y", ascii "i"⟩] ∧
      WellFormed (fun _ => .float 0) trace s := by
  obtain ⟨trace, s, h, hudp, htcp, hwithin, hsmall⟩ := run_of_record
    (step fun _ => .float 0) (init (ascii "/am"))
    [.setOption .CORE_USE_UDP, .startBundle, .load,
      .sendCustomUDP (ascii "/x") (cstr (ascii "sc")) [.string (cstr (ascii "abc")), .char 97],
      .endBundle, .sendCustomTCP (ascii "/y") (cstr (ascii "i")) [.int32 7],
      .sendCustomTCP (ascii "/z") (cstr (ascii "b")) []]
    (fun trace s =>
      s.udpSent.map readPacket =
        [some [⟨ascii "/AM/Load", ascii "s"⟩, ⟨ascii "/am/x", ascii "sc"⟩]] ∧
      s.tcpSent.map readMessage = [some ⟨ascii "/am/y", ascii "i"⟩] ∧
      (∀ p ∈ trace, PacksWithin p.1.baseAddress p.2) ∧
      ∀ p ∈ trace, p.1.startBundle = true →
        ∀ m ∈ routedToUdp (fun _ => .float 0) p.1 p.2, m.length < 2 ^ 31)
    (by decide +kernel)
  exact ⟨trace, s, h, hudp, htcp, packets_well_formed h (by decide) hwithin hsmall⟩

theorem length_loadMessage {baseAddress : Bytes} (hbase : 0 ∉ baseAddress) :
    (loadMessage baseAddress).length = 16 + alignedLength baseAddress.length := by
  have hbytes : loadMessage baseAddress = _ :=
    byteArray_appended (ascii "s") [.string ⟨baseAddress, hbase⟩] rfl rfl (by decide) rfl
  have hdata : Arg.appended (.string ⟨baseAddress, hbase⟩) = padded baseAddress := rfl
  rw [hbytes, length_layout, List.flatMap_singleton, hdata, length_padded]
  rfl

/-- A bundle element of 2^31 bytes or more has a negative size. -/
theorem readPacket_long {m : Bytes} (hlong : 2 ^ 31 ≤ m.length) (hlt : m.length < 2 ^ 32) :
    readPacket (header ++ frame m) = none := by
  have hsize : int32 (ofBe ((frame m).take 4)) < 0 := by
    rw [frame, List.take_left' (length_beBytes 4 _), ofBe_beBytes 4 m.length (by omega), int32,
      BitVec.toInt_eq_toNat_cond, BitVec.toNat_ofNat, Nat.mod_eq_of_lt hlt]
    split
    · omega
    · omega
  have hread : readElement (frame m) = none := by
    simp only [readElement]
    rw [if_pos (Or.inr (Or.inl hsize))]
  have hlen := length_frame m
  rw [readPacket_bundle]
  generalize frame m = bs at *
  cases bs with
  | nil =>
    rw [List.length_nil] at hlen
    omega
  | cons b bs =>
    rw [List.length_cons, readElements, hread]
    · rfl
    · simp

theorem load_opened {s : State} (hudp : s.coreUsesUdp = true) (hopen : s.startBundle = true)
    (hbundle : s.udpBundle = header)
    (hlong : MAX_MESSAGE_SIZE < (loadMessage s.baseAddress).length) :
    s.load.wire = ⟨true, header ++ frame (loadMessage s.baseAddress), s.udpSent ++ [header]⟩ := by
  have hload : s.load = s.appendBundle (loadMessage s.baseAddress) := by
    rw [State.load, State.sendCoreMessage, if_pos hudp, if_pos hopen]
  have hne : loadMessage s.baseAddress ≠ [] := by
    intro hnil
    rw [hnil] at hlong
    exact nomatch hlong
  have hnew : newBundle header = header := by decide
  rw [hload, appendBundle_wire s hne, hopen, hbundle, hnew, if_neg (by omega)]

/-- `Load` puts the whole base address into the bundle. -/
theorem load_bundled {baseAddress : Bytes}
    (hlong : MAX_MESSAGE_SIZE < (loadMessage baseAddress).length) :
    ∃ trace s, Run (step fun _ => .float 0) (init baseAddress) trace s ∧
      trace.map Prod.snd = [.endBundle, .load, .startBundle, .setOption .CORE_USE_UDP] ∧
      header ++ frame (loadMessage baseAddress) ∈ s.udpSent := by
  have hudp : (((init baseAddress).setOption .CORE_USE_UDP).beginBundle).coreUsesUdp = true := by
    obtain ⟨_, hoptions, _⟩ :=
      Control.mk.inj (beginBundle_control ((init baseAddress).setOption .CORE_USE_UDP))
    have hset : (0 ^^^ Setting.CORE_USE_UDP.value) &&& Setting.CORE_USE_UDP.value ≠ 0 := by decide
    rw [State.coreUsesUdp, hoptions]
    exact decide_eq_true hset
  have hwire : (((init baseAddress).setOption .CORE_USE_UDP).beginBundle.load).wire = _ :=
    load_opened hudp rfl newBundle_nil hlong
  obtain ⟨_, hbundle, _⟩ := Wire.mk.inj hwire
  have hfull : (((init baseAddress).setOption .CORE_USE_UDP).beginBundle.load).udpBundle.length
      > 16 := by
    have hheader : header.length = 16 := by decide
    rw [hbundle, List.length_append, length_frame, hheader]
    omega
  have h := run_of_events (step fun _ => .float 0) (init baseAddress)
    [.setOption .CORE_USE_UDP, .startBundle, .load, .endBundle] rfl
  refine ⟨_, _, h, rfl, ?_⟩
  rw [State.endBundle, if_pos hfull, hbundle]
  exact List.mem_append_right _ List.mem_cons_self

/-- A base address of 2^31 bytes makes a bundle whose element has a negative size, and a NUL
in a url cuts the address off. -/
theorem packets_not_well_formed :
    (∃ trace s, Run (step fun _ => .float 0) (init (List.replicate (2 ^ 31) 97)) trace s ∧
      trace.map Prod.snd = [.endBundle, .load, .startBundle, .setOption .CORE_USE_UDP] ∧
      0 ∉ s.baseAddress ∧ ∃ d ∈ s.udpSent, readPacket d = none) ∧
    ∃ trace s, Run (step fun _ => .float 0) (init (ascii "/am")) trace s ∧
      trace.map Prod.snd = [.sendCustomTCP (ascii "/x" ++ [0, 121]) (cstr []) []] ∧
      (∀ p ∈ trace, PacksWithin p.1.baseAddress p.2) ∧
      s.tcpSent.map readMessage = [some ⟨ascii "/am/x", []⟩] ∧
      ascii "/am" ++ (ascii "/x" ++ [0, 121]) ≠ ascii "/am/x" := by
  constructor
  · have hbase : 0 ∉ List.replicate (2 ^ 31) (97 : UInt8) := by
      intro hmem
      have hzero := List.eq_of_mem_replicate hmem
      revert hzero
      decide
    have hlen := length_loadMessage hbase
    rw [List.length_replicate] at hlen
    have haligned : alignedLength (2 ^ 31) = 2 ^ 31 + 4 := by decide
    rw [haligned] at hlen
    have hlong : MAX_MESSAGE_SIZE < (loadMessage (List.replicate (2 ^ 31) 97)).length := by
      rw [hlen]
      decide
    obtain ⟨trace, s, h, hcalls, hsent⟩ := load_bundled hlong
    refine ⟨trace, s, h, hcalls, ?_, _, hsent, readPacket_long (by omega) (by omega)⟩
    rw [(control_run h).1]
    exact hbase
  · obtain ⟨trace, s, h, hrest⟩ := run_of_record
      (step fun _ => .float 0) (init (ascii "/am"))
      [.sendCustomTCP (ascii "/x" ++ [0, 121]) (cstr []) []]
      (fun trace s =>
        trace.map Prod.snd = [.sendCustomTCP (ascii "/x" ++ [0, 121]) (cstr []) []] ∧
        (∀ p ∈ trace, PacksWithin p.1.baseAddress p.2) ∧
        s.tcpSent.map readMessage = [some ⟨ascii "/am/x", []⟩] ∧
        ascii "/am" ++ (ascii "/x" ++ [0, 121]) ≠ ascii "/am/x")
      (by decide +kernel)
    exact ⟨trace, s, h, hrest⟩

end AmClient.Client
