import AmClient.Client.Calls
import Mathlib.Data.List.Forall2

/-!
# Bundling of UDP messages

`udp_bundle_` is empty or a header with whole elements behind it. Decoding what was handed
to `udp_client_->Send`, and then the open bundle, gives back the messages that were routed
to UDP.
-/

namespace AmClient.Client
open Foundation Osc
set_option autoImplicit false

def customMessage (baseAddress url : Bytes) (format : CString) (args : List Arg) : Option Bytes :=
  (pack baseAddress url format args).bind fun p =>
    if p.size > 0 then some (resize p.buf p.size.toNat) else none

def volumeCall (volume : BitVec 32) (msg : Bytes) : Option Bytes :=
  if inRange volume then some msg else none

def Call.message (decibels : BitVec 32 → Decibels) (baseAddress : Bytes) : Call → Option Bytes
  | .setOption _ => none
  | .setSystemMute mute => some (systemMuteMessage mute)
  | .setSystemVolume volume => volumeCall volume (systemVolumeMessage (decibels volume))
  | .load => some (loadMessage baseAddress)
  | .unload => some (unloadMessage baseAddress)
  | .setMute mute => some (muteMessage baseAddress mute)
  | .setVolume volume => volumeCall volume (volumeMessage baseAddress (decibels volume))
  | .sendCustomTCP url format args => customMessage baseAddress url format args
  | .sendCustomUDP url format args => customMessage baseAddress url format args
  | .startBundle => none
  | .endBundle => none

/-- The message that a call sends by UDP: custom UDP calls do, and core calls while
`CORE_USE_UDP` is set. -/
def routedToUdp (decibels : BitVec 32 → Decibels) (s : State) (c : Call) : Option Bytes :=
  match c with
  | .sendCustomUDP _ _ _ => c.message decibels s.baseAddress
  | .sendCustomTCP _ _ _ => none
  | _ => if s.coreUsesUdp then c.message decibels s.baseAddress else none

def slash : UInt8 := UInt8.ofNat '/'.toNat

theorem customMessage_head {baseAddress url m : Bytes} {format : CString} {args : List Arg}
    (h : customMessage baseAddress url format args = some m) : m.head? = some slash := by
  obtain ⟨p, hp, h⟩ := Option.bind_eq_some_iff.mp h
  obtain ⟨⟨written, size⟩, hw, rfl⟩ := Option.map_eq_some_iff.mp hp
  simp only at h
  split at h
  · rename_i hpos
    obtain ⟨_, hhead⟩ := voscpack_accepted hw hpos
    rw [← Option.some.inj h]
    apply head_resize
    · exact head_resize hhead (by decide)
    · omega
  · exact nomatch h

@[simp] theorem appendDecibels_address (msg : Message) (db : Decibels) :
    (appendDecibels msg db).address = msg.address := by
  cases db with
  | float bits => rfl
  | double bits => rfl

theorem volumeCall_eq {volume : BitVec 32} {msg m : Bytes} (h : volumeCall volume msg = some m) :
    m = msg := by
  unfold volumeCall at h
  split at h
  · exact (Option.some.inj h).symm
  · cases h

/-- The message of a core call is the byte array of a `Message` on an address of the project. -/
theorem message_built {decibels : BitVec 32 → Decibels} {baseAddress m : Bytes} {c : Call}
    (h : c.message decibels baseAddress = some m) :
    (∃ url format args, customMessage baseAddress url format args = some m) ∨
      ∃ msg : Message, msg.address.head? = some slash ∧ m = msg.byteArray := by
  cases c with
  | setOption | startBundle | endBundle => cases h
  | sendCustomTCP url format args | sendCustomUDP url format args => exact .inl ⟨_, _, _, h⟩
  | load | unload | setMute | setSystemMute =>
    exact .inr ⟨_, by simp [ascii, slash], (Option.some.inj h).symm⟩
  | setVolume | setSystemVolume =>
    exact .inr ⟨_, by simp [ascii, slash], volumeCall_eq h⟩

theorem Call.message_head {decibels : BitVec 32 → Decibels} {baseAddress m : Bytes} {c : Call}
    (h : c.message decibels baseAddress = some m) : m.head? = some slash := by
  rcases message_built h with ⟨url, format, args, hcustom⟩ | ⟨msg, haddress, rfl⟩
  · exact customMessage_head hcustom
  · exact Message.byteArray_head haddress

theorem routed_head {decibels : BitVec 32 → Decibels} {s : State} {c : Call} {m : Bytes}
    (h : routedToUdp decibels s c = some m) : m.head? = some slash := by
  unfold routedToUdp at h
  split at h
  · exact Call.message_head h
  · exact nomatch h
  · split at h
    · exact Call.message_head h
    · exact nomatch h

structure Wire where
  startBundle : Bool
  udpBundle : Bytes
  udpSent : List Bytes

def State.wire (s : State) : Wire := ⟨s.startBundle, s.udpBundle, s.udpSent⟩

inductive Move (decibels : BitVec 32 → Decibels) (s : State) : Call → Wire → Prop where
  | silent {c : Call} : routedToUdp decibels s c = none → c ≠ .startBundle → c ≠ .endBundle →
      Move decibels s c s.wire
  | datagram {c : Call} {m : Bytes} : routedToUdp decibels s c = some m → s.startBundle = false →
      Move decibels s c ⟨false, s.udpBundle, s.udpSent ++ [m]⟩
  | append {c : Call} {m : Bytes} : routedToUdp decibels s c = some m → s.startBundle = true →
      s.udpBundle.length + m.length ≤ MAX_MESSAGE_SIZE →
      Move decibels s c ⟨true, s.udpBundle ++ frame m, s.udpSent⟩
  | flush {c : Call} {m : Bytes} : routedToUdp decibels s c = some m → s.startBundle = true →
      MAX_MESSAGE_SIZE < s.udpBundle.length + m.length →
      Move decibels s c
        ⟨true, newBundle s.udpBundle ++ frame m, s.udpSent ++ [s.udpBundle]⟩
  | opened : s.startBundle = false →
      Move decibels s .startBundle ⟨true, newBundle s.udpBundle, s.udpSent⟩
  | reopened : s.startBundle = true → 16 < s.udpBundle.length →
      Move decibels s .startBundle ⟨true, newBundle [], s.udpSent ++ [s.udpBundle]⟩
  | restarted : s.startBundle = true → s.udpBundle.length ≤ 16 →
      Move decibels s .startBundle ⟨true, newBundle s.udpBundle, s.udpSent⟩
  | closed : 16 < s.udpBundle.length →
      Move decibels s .endBundle ⟨false, [], s.udpSent ++ [s.udpBundle]⟩
  | dropped : s.udpBundle.length ≤ 16 →
      Move decibels s .endBundle ⟨false, s.udpBundle, s.udpSent⟩

variable {decibels : BitVec 32 → Decibels}

theorem appendBundle_wire (s : State) {m : Bytes} (hm : m ≠ []) :
    (s.appendBundle m).wire =
      if s.udpBundle.length + m.length ≤ MAX_MESSAGE_SIZE then
        ⟨s.startBundle, s.udpBundle ++ frame m, s.udpSent⟩
      else ⟨s.startBundle, newBundle s.udpBundle ++ frame m, s.udpSent ++ [s.udpBundle]⟩ := by
  have hlen : m.length ≠ 0 := by simpa using hm
  unfold State.appendBundle
  by_cases hfit : s.udpBundle.length + m.length ≤ MAX_MESSAGE_SIZE
  · have hnot : ¬ s.udpBundle.length + m.length > MAX_MESSAGE_SIZE := by omega
    simp only [hnot, hfit, hlen, ↓reduceIte, ne_eq, not_false_eq_true, State.wire, leBytes_hton,
      frame, List.append_assoc]
  · have hover : s.udpBundle.length + m.length > MAX_MESSAGE_SIZE := by omega
    simp only [hover, hfit, hlen, ↓reduceIte, ne_eq, not_false_eq_true, State.wire, leBytes_hton,
      frame, List.append_assoc]

theorem append_move {s u : State} {c : Call} {m : Bytes} (hm : routedToUdp decibels s c = some m)
    (hs : s.startBundle = true) (hu : u.wire = s.wire) :
    Move decibels s c (u.appendBundle m).wire := by
  have hne : m ≠ [] := by
    rintro rfl
    exact nomatch routed_head hm
  obtain ⟨hstart, hbundle, hsent⟩ := Wire.mk.inj hu
  rw [appendBundle_wire u hne, hstart, hbundle, hsent]
  split
  · rename_i hfit
    rw [hs]
    exact .append hm hs hfit
  · rename_i hover
    rw [hs]
    exact .flush hm hs (by omega)

theorem core_move {s : State} {c : Call} {m : Bytes}
    (hroute : routedToUdp decibels s c = if s.coreUsesUdp then some m else none)
    (hstart : c ≠ .startBundle) (hend : c ≠ .endBundle) :
    Move decibels s c (s.sendCoreMessage m).wire := by
  unfold State.sendCoreMessage
  by_cases hudp : s.coreUsesUdp = true
  · rw [if_pos hudp] at hroute ⊢
    by_cases hs : s.startBundle = true
    · rw [if_pos hs]
      exact append_move hroute hs rfl
    · rw [if_neg hs]
      have hfalse : s.startBundle = false := by simpa using hs
      have hmove := Move.datagram hroute hfalse
      simpa only [State.wire, hfalse] using hmove
  · rw [if_neg hudp] at hroute ⊢
    exact .silent hroute hstart hend

theorem volume_move {s : State} {c : Call} {v : BitVec 32} {m : Bytes}
    (hroute : routedToUdp decibels s c = if s.coreUsesUdp then volumeCall v m else none)
    (hstart : c ≠ .startBundle) (hend : c ≠ .endBundle) :
    Move decibels s c (if inRange v then s.sendCoreMessage m else s).wire := by
  unfold volumeCall at hroute
  split
  · rename_i hv
    rw [if_pos hv] at hroute
    exact core_move hroute hstart hend
  · rename_i hv
    rw [if_neg hv] at hroute
    exact .silent (by simpa using hroute) hstart hend

theorem customUDP_move {s t : State} {url : Bytes} {format : CString} {args : List Arg}
    (h : s.sendCustomUDP url format args = some t) :
    Move decibels s (.sendCustomUDP url format args) t.wire := by
  obtain ⟨p, hp, rfl⟩ := Option.map_eq_some_iff.mp h
  have hroute : routedToUdp decibels s (.sendCustomUDP url format args) =
      if p.size > 0 then some (resize p.buf p.size.toNat) else none := by
    simp only [routedToUdp, Call.message, customMessage, hp, Option.bind_some]
  simp only
  split
  · rename_i hpos
    rw [if_pos hpos] at hroute
    split
    · rename_i hs
      exact append_move hroute hs rfl
    · rename_i hs
      have hfalse : s.startBundle = false := by simpa using hs
      have hmove := Move.datagram hroute hfalse
      simpa only [State.wire, hfalse] using hmove
  · rename_i hpos
    rw [if_neg hpos] at hroute
    exact .silent hroute (by simp) (by simp)

theorem customTCP_wire {s t : State} {url : Bytes} {format : CString} {args : List Arg}
    (h : s.sendCustomTCP url format args = some t) : t.wire = s.wire := by
  obtain ⟨p, _, rfl⟩ := Option.map_eq_some_iff.mp h
  simp only
  split
  · rfl
  · rfl

theorem beginBundle_move (s : State) : Move decibels s .startBundle s.beginBundle.wire := by
  unfold State.beginBundle
  by_cases hs : s.startBundle = true
  · rw [if_pos hs]
    unfold State.endBundle
    by_cases hlen : s.udpBundle.length > 16
    · rw [if_pos hlen]
      exact .reopened hs hlen
    · rw [if_neg hlen]
      exact .restarted hs (by omega)
  · rw [if_neg hs]
    exact .opened (by simpa using hs)

theorem endBundle_move (s : State) : Move decibels s .endBundle s.endBundle.wire := by
  unfold State.endBundle
  by_cases hlen : s.udpBundle.length > 16
  · rw [if_pos hlen]
    exact .closed hlen
  · rw [if_neg hlen]
    exact .dropped (by omega)

theorem step_move {s t : State} {c : Call} (h : step decibels s c = some t) :
    Move decibels s c t.wire := by
  cases c with
  | setOption option =>
    obtain rfl := Option.some.inj h
    exact .silent (by simp [routedToUdp, Call.message]) (by simp) (by simp)
  | setSystemMute mute =>
    obtain rfl := Option.some.inj h
    exact core_move rfl (by simp) (by simp)
  | setSystemVolume volume =>
    obtain rfl := Option.some.inj h
    exact volume_move rfl (by simp) (by simp)
  | load =>
    obtain rfl := Option.some.inj h
    exact core_move rfl (by simp) (by simp)
  | unload =>
    obtain rfl := Option.some.inj h
    exact core_move rfl (by simp) (by simp)
  | setMute mute =>
    obtain rfl := Option.some.inj h
    exact core_move rfl (by simp) (by simp)
  | setVolume volume =>
    obtain rfl := Option.some.inj h
    exact volume_move rfl (by simp) (by simp)
  | sendCustomTCP url format args =>
    rw [customTCP_wire h]
    exact .silent rfl (by simp) (by simp)
  | sendCustomUDP url format args => exact customUDP_move h
  | startBundle =>
    obtain rfl := Option.some.inj h
    exact beginBundle_move s
  | endBundle =>
    obtain rfl := Option.some.inj h
    exact endBundle_move s

/-- `#bundle`, a NUL and the time tag 1. -/
def header : Bytes := ascii "#bundle" ++ zeros 8 ++ [1]

/-- The messages in a datagram: the elements of a bundle, read to the last byte, or the
datagram itself. -/
def decode (datagram : Bytes) : Option (List Bytes) :=
  if header <+: datagram then
    let (ms, left) := deframe (datagram.drop header.length)
    if left = [] then some ms else none
  else if datagram.head? = some slash then some [datagram]
  else none

def decodeAll (datagrams : List Bytes) : Option (List Bytes) :=
  (datagrams.mapM decode).map List.flatten

/-- `udp_bundle_` holds these elements: it is empty, or the header and whole elements. -/
inductive Holds : Bytes → List Bytes → Prop where
  | nothing : Holds [] []
  | elements {ms : List Bytes} : (∀ m ∈ ms, m.length < 2 ^ 31) → Holds (header ++ frames ms) ms

theorem newBundle_nil : newBundle [] = header := by decide

theorem newBundle_header (rest : Bytes) : newBundle (header ++ rest) = header := by
  have hresize : resize (header ++ rest) 16 = header := resize_append header rest
  rw [newBundle, hresize]
  decide

theorem decode_bundle {ms : List Bytes} (h : ∀ m ∈ ms, m.length < 2 ^ 31) :
    decode (header ++ frames ms) = some ms := by
  have hsmall : ∀ m ∈ ms, m.length < 256 ^ 4 := by
    intro m hm
    have hlt := h m hm
    omega
  have hread := deframe_frames ms [] hsmall unframe_nil
  rw [List.append_nil] at hread
  rw [decode, if_pos (List.prefix_append _ _), List.drop_left, hread]
  rfl

theorem not_bundle_of_slash {m : Bytes} (h : m.head? = some slash) : ¬ header <+: m := by
  intro hheader
  obtain ⟨rest, rfl⟩ := hheader
  have hhead : (header ++ rest).head? = some 35 := rfl
  rw [hhead] at h
  revert h
  decide

theorem decode_datagram {m : Bytes} (h : m.head? = some slash) : decode m = some [m] := by
  rw [decode, if_neg (not_bundle_of_slash h), if_pos h]

theorem Holds.open_bundle {bundle : Bytes} {ms : List Bytes} (h : Holds bundle ms)
    (hne : bundle ≠ []) : bundle = header ++ frames ms ∧ ∀ m ∈ ms, m.length < 2 ^ 31 := by
  cases h with
  | nothing => exact (hne rfl).elim
  | elements hsmall => exact ⟨rfl, hsmall⟩

theorem Holds.short {bundle : Bytes} {ms : List Bytes} (h : Holds bundle ms)
    (hlen : bundle.length ≤ 16) : ms = [] := by
  cases h with
  | nothing => rfl
  | elements _ =>
    cases ms with
    | nil => rfl
    | cons m ms =>
      have hheader : header.length = 16 := by decide
      simp only [List.length_append, frames_cons, length_frame, hheader] at hlen
      omega

theorem Holds.long {bundle : Bytes} {ms : List Bytes} (h : Holds bundle ms)
    (hlen : 16 < bundle.length) : bundle ≠ [] := by
  rintro rfl
  simp at hlen

theorem Holds.newBundle {bundle : Bytes} {ms : List Bytes} (h : Holds bundle ms) :
    Client.newBundle bundle = header := by
  cases h with
  | nothing => exact newBundle_nil
  | elements _ => exact newBundle_header _

theorem holds_header : Holds header [] := by
  have h : Holds (header ++ frames []) [] := .elements (fun _ hm => nomatch hm)
  rwa [frames_nil, List.append_nil] at h

theorem holds_append {ms : List Bytes} {m : Bytes} (h : ∀ x ∈ ms, x.length < 2 ^ 31)
    (hm : m.length < 2 ^ 31) : Holds (header ++ frames ms ++ frame m) (ms ++ [m]) := by
  have hframes : frames ms ++ frame m = frames (ms ++ [m]) := by
    rw [frames_append, frames_cons, frames_nil, List.append_nil]
  rw [List.append_assoc, hframes]
  apply Holds.elements
  intro x hx
  rcases List.mem_append.mp hx with hx | hx
  · exact h x hx
  · rw [List.mem_singleton.mp hx]
    exact hm

/-- A datagram with the messages in it. -/
inductive Carries : Bytes → List Bytes → Prop where
  | message {m : Bytes} : m.head? = some slash → Carries m [m]
  | bundle {ms : List Bytes} : (∀ m ∈ ms, m.length < 2 ^ 31) → Carries (header ++ frames ms) ms

/-- What was sent and what the bundle holds are the messages `routed`; a closed bundle holds
nothing. -/
structure Carried (w : Wire) (contents : List (List Bytes)) (pending routed : List Bytes) :
    Prop where
  sent : List.Forall₂ Carries w.udpSent contents
  held : Holds w.udpBundle pending
  all : contents.flatten ++ pending = routed
  opened : w.startBundle = true → w.udpBundle ≠ []
  closed : w.startBundle = false → pending = []

theorem carries_concat {ds : List Bytes} {contents : List (List Bytes)} {d : Bytes}
    {ms : List Bytes} (hds : List.Forall₂ Carries ds contents) (hd : Carries d ms) :
    List.Forall₂ Carries (ds ++ [d]) (contents ++ [ms]) :=
  List.rel_append hds (.cons hd .nil)

theorem flatten_concat (contents : List (List Bytes)) (ms : List Bytes) :
    (contents ++ [ms]).flatten = contents.flatten ++ ms := by
  simp

theorem Carried.open_bundle {w : Wire} {contents : List (List Bytes)} {pending routed : List Bytes}
    (h : Carried w contents pending routed) (hne : w.udpBundle ≠ []) :
    Carries w.udpBundle pending := by
  obtain ⟨hbundle, hsmall⟩ := h.held.open_bundle hne
  rw [hbundle]
  exact .bundle hsmall

theorem fresh_carried {bundle : Bytes} {datagrams : List Bytes} {contents : List (List Bytes)}
    {routed : List Bytes} (hnew : bundle = header) (hsent : List.Forall₂ Carries datagrams contents)
    (hall : contents.flatten = routed) : Carried ⟨true, bundle, datagrams⟩ contents [] routed := by
  have hheader : header ≠ [] := by decide
  subst hnew
  exact ⟨hsent, holds_header, (List.append_nil _).trans hall, fun _ => hheader, fun _ => rfl⟩

theorem Carried.all_sent {w : Wire} {contents : List (List Bytes)} {pending routed : List Bytes}
    (h : Carried w contents pending routed) (hpending : pending = []) :
    contents.flatten = routed := by
  rw [← h.all, hpending, List.append_nil]

theorem routed_start (s : State) : routedToUdp decibels s .startBundle = none := by
  simp [routedToUdp, Call.message]

theorem routed_end (s : State) : routedToUdp decibels s .endBundle = none := by
  simp [routedToUdp, Call.message]

theorem Move.carried {s : State} {c : Call} {w : Wire} (hmove : Move decibels s c w)
    {contents : List (List Bytes)} {pending routed : List Bytes}
    (h : Carried s.wire contents pending routed)
    (hsmall : s.startBundle = true → ∀ m ∈ routedToUdp decibels s c, m.length < 2 ^ 31) :
    ∃ contents' pending',
      Carried w contents' pending' (routed ++ (routedToUdp decibels s c).toList) := by
  have hheader : header ≠ [] := by decide
  have notRouted {x : Option Bytes} (hx : x = none) : routed ++ x.toList = routed := by
    rw [hx, Option.toList_none, List.append_nil]
  cases hmove with
  | silent hroute =>
    rw [notRouted hroute]
    exact ⟨contents, pending, h⟩
  | @datagram _ m hroute hs =>
    have hsent := carries_concat h.sent (.message (routed_head hroute))
    have hpending := h.closed hs
    refine ⟨contents ++ [[m]], pending, hsent, h.held, ?_, (fun hn => nomatch hn),
      fun _ => hpending⟩
    rw [flatten_concat, ← h.all, hroute, hpending]
    simp
  | @append _ m hroute hs hfit =>
    obtain ⟨hbundle, hms⟩ := h.held.open_bundle (h.opened hs)
    have hbundle' : s.udpBundle = header ++ frames pending := hbundle
    have hheld := holds_append hms (hsmall hs m hroute)
    rw [← hbundle'] at hheld
    refine ⟨contents, pending ++ [m], h.sent, hheld, ?_, ?_, fun hn => nomatch hn⟩
    · rw [← List.append_assoc, h.all, hroute]
      rfl
    · intro _
      simp [hbundle', hheader]
  | @flush _ m hroute hs hover =>
    have hsent := carries_concat h.sent (h.open_bundle (h.opened hs))
    have hnew : newBundle s.udpBundle = header := h.held.newBundle
    have hnil : ∀ x ∈ ([] : List Bytes), x.length < 2 ^ 31 := fun _ hx => nomatch hx
    have hheld := holds_append hnil (hsmall hs m hroute)
    rw [frames_nil, List.append_nil, List.nil_append, ← hnew] at hheld
    refine ⟨contents ++ [pending], [m], hsent, hheld, ?_, ?_, fun hn => nomatch hn⟩
    · rw [flatten_concat, h.all, hroute]
      rfl
    · intro _
      simp [hnew, hheader]
  | opened hs =>
    rw [notRouted (routed_start s)]
    exact ⟨contents, [], fresh_carried h.held.newBundle h.sent (h.all_sent (h.closed hs))⟩
  | reopened hs hlen =>
    have hsent := carries_concat h.sent (h.open_bundle (h.opened hs))
    rw [notRouted (routed_start s)]
    exact ⟨_, [], fresh_carried newBundle_nil hsent ((flatten_concat _ _).trans h.all)⟩
  | restarted hs hlen =>
    rw [notRouted (routed_start s)]
    exact ⟨contents, [], fresh_carried h.held.newBundle h.sent (h.all_sent (h.held.short hlen))⟩
  | closed hlen =>
    have hsent := carries_concat h.sent (h.open_bundle (h.held.long hlen))
    rw [notRouted (routed_end s)]
    refine ⟨_, [], hsent, .nothing, ?_, (fun hn => nomatch hn), fun _ => rfl⟩
    rw [List.append_nil, flatten_concat]
    exact h.all
  | dropped hlen =>
    have hpending := h.held.short hlen
    rw [notRouted (routed_end s)]
    exact ⟨contents, pending, h.sent, h.held, h.all, (fun hn => nomatch hn), fun _ => hpending⟩

def routed (decibels : BitVec 32 → Decibels) (trace : List (State × Call)) : List Bytes :=
  trace.reverse.filterMap fun p => routedToUdp decibels p.1 p.2

theorem routed_cons (s : State) (c : Call) (trace : List (State × Call)) :
    routed decibels ((s, c) :: trace) =
      routed decibels trace ++ (routedToUdp decibels s c).toList := by
  rw [routed, List.reverse_cons, List.filterMap_append, ← routed]
  cases hroute : routedToUdp decibels s c with
  | none => simp [hroute]
  | some m => simp [hroute]

/-- Decoding what was sent, and the bundle while one is open, gives the routed messages;
without an open bundle nothing is pending. -/
def Decoded (decibels : BitVec 32 → Decibels) (trace : List (State × Call)) (s : State) : Prop :=
  ∃ done, decodeAll s.udpSent = some done ∧
    if s.startBundle then
      ∃ pending, decode s.udpBundle = some pending ∧ done ++ pending = routed decibels trace
    else
      done = routed decibels trace ∧ (s.udpBundle = [] ∨ decode s.udpBundle = some [])

theorem carried_run {baseAddress : Bytes} {trace : List (State × Call)} {s : State}
    (h : Run (step decibels) (init baseAddress) trace s)
    (hsmall : ∀ p ∈ trace, p.1.startBundle = true →
      ∀ m ∈ routedToUdp decibels p.1 p.2, m.length < 2 ^ 31) :
    ∃ contents pending, Carried s.wire contents pending (routed decibels trace) := by
  induction h with
  | start => exact ⟨[], [], .nil, .nothing, rfl, (fun hn => nomatch hn), fun _ => rfl⟩
  | @next trace s t c _ hstep ih =>
    obtain ⟨contents, pending, hs⟩ := ih fun p hp => hsmall p (List.mem_cons_of_mem _ hp)
    rw [routed_cons]
    exact (step_move hstep).carried hs (hsmall _ List.mem_cons_self)

theorem Carries.decode {d : Bytes} {ms : List Bytes} (h : Carries d ms) :
    Client.decode d = some ms := by
  cases h with
  | message hhead => exact decode_datagram hhead
  | bundle hsmall => exact decode_bundle hsmall

theorem decodeAll_carried {ds : List Bytes} {contents : List (List Bytes)}
    (h : List.Forall₂ Carries ds contents) : decodeAll ds = some contents.flatten := by
  induction h with
  | nil => rfl
  | cons hd _ ih =>
    obtain ⟨lists, hlists, hflat⟩ := Option.map_eq_some_iff.mp ih
    simp [decodeAll, List.mapM_cons, hd.decode, hlists, hflat]

/-- Bundling neither loses, duplicates, reorders nor alters a message. -/
theorem bundling_exact {baseAddress : Bytes} {trace : List (State × Call)} {s : State}
    (h : Run (step decibels) (init baseAddress) trace s)
    (hsmall : ∀ p ∈ trace, ∀ m ∈ routedToUdp decibels p.1 p.2, m.length < 2 ^ 31) :
    Decoded decibels trace s := by
  obtain ⟨contents, pending, hs⟩ := carried_run h fun p hp _ => hsmall p hp
  refine ⟨contents.flatten, decodeAll_carried hs.sent, ?_⟩
  split
  · rename_i hopen
    exact ⟨pending, (hs.open_bundle (hs.opened hopen)).decode, hs.all⟩
  · rename_i hclosed
    have hpending := hs.closed (by simpa [State.wire] using hclosed)
    refine ⟨hs.all_sent hpending, ?_⟩
    by_cases hne : s.udpBundle = []
    · exact Or.inl hne
    · rw [← hpending]
      exact Or.inr (hs.open_bundle hne).decode

theorem bundling_exact_of_two :
    ∃ trace s, Run (step fun _ => .float 0) (init (ascii "/am")) trace s ∧
      s.udpSent.map decode = [some [ascii "/am/x" ++ zeros 3 ++ ascii ",I" ++ zeros 2,
        ascii "/am/y" ++ zeros 3 ++ ascii ",T" ++ zeros 2]] ∧
      Decoded (fun _ => .float 0) trace s := by
  obtain ⟨trace, s, h, hsent, hsmall⟩ := run_of_record
    (step fun _ => .float 0) (init (ascii "/am"))
    [.startBundle, .sendCustomUDP (ascii "/x") (cstr (ascii "I")) [],
      .sendCustomUDP (ascii "/y") (cstr (ascii "T")) [], .endBundle]
    (fun trace s =>
      s.udpSent.map decode = [some [ascii "/am/x" ++ zeros 3 ++ ascii ",I" ++ zeros 2,
        ascii "/am/y" ++ zeros 3 ++ ascii ",T" ++ zeros 2]] ∧
      ∀ p ∈ trace, ∀ m ∈ routedToUdp (fun _ => .float 0) p.1 p.2, m.length < 2 ^ 31)
    (by decide +kernel)
  exact ⟨trace, s, h, hsent, bundling_exact h hsmall⟩

end AmClient.Client
