import AmClient.Client.Routing

/-!
# Bundling and TCP do not interfere

Two runs are compared: one with all calls, and one without the calls that concern only
the other transport. What `tcp_client_` gets, and what `udp_client_` gets together with the
open bundle, is the same in both.
-/

namespace AmClient.Client
open Foundation Osc
set_option autoImplicit false

variable {decibels : BitVec 32 → Decibels}

/-- Calls that only concern bundles and UDP. -/
def Call.onlyUdp : Call → Bool
  | .sendCustomUDP _ _ _ => true
  | .startBundle => true
  | .endBundle => true
  | _ => false

/-- Calls that only concern TCP: custom TCP calls, and core calls while `CORE_USE_UDP` is
not in effect. -/
def onlyTcp (s : State) : Call → Bool
  | .sendCustomTCP _ _ _ => true
  | c => c.isCore && !s.coreUsesUdp

/-- Whether the arguments of a custom call match its format does not depend on the state
of the bundle or of the transports. -/
theorem step_exists {s t u : State} {c : Call} (h : step decibels s c = some t)
    (hbase : u.baseAddress = s.baseAddress) : ∃ v, step decibels u c = some v := by
  cases c with
  | sendCustomTCP url format args =>
    obtain ⟨p, hp, _⟩ := Option.map_eq_some_iff.mp h
    rw [← hbase] at hp
    exact ⟨_, Option.map_eq_some_iff.mpr ⟨p, hp, rfl⟩⟩
  | sendCustomUDP url format args =>
    obtain ⟨p, hp, _⟩ := Option.map_eq_some_iff.mp h
    rw [← hbase] at hp
    exact ⟨_, Option.map_eq_some_iff.mpr ⟨p, hp, rfl⟩⟩
  | _ => exact ⟨_, rfl⟩

theorem routedToTcp_congr {s u : State} (h : s.control = u.control) (c : Call) :
    routedToTcp decibels s c = routedToTcp decibels u c := by
  obtain ⟨hbase, hoptions, _⟩ := Control.mk.inj h
  have hcore : s.coreUsesUdp = u.coreUsesUdp := by
    unfold State.coreUsesUdp
    rw [hoptions]
  unfold routedToTcp
  rw [hbase, hcore]

theorem control_kept {s t u : State} {c : Call} (h : s.control = u.control)
    (hstep : step decibels s c = some t) :
    ∃ v, step decibels u c = some v ∧ t.control = v.control := by
  obtain ⟨hbase, hoptions, hsent⟩ := Control.mk.inj h
  obtain ⟨v, hv⟩ := step_exists hstep hbase.symm
  refine ⟨v, hv, ?_⟩
  rw [step_control hstep, step_control hv, routedToTcp_congr h, hbase, hoptions, hsent]

theorem control_deleted {s t : State} {c : Call} (hc : c.onlyUdp = true)
    (hstep : step decibels s c = some t) : t.control = s.control := by
  cases c with
  | sendCustomUDP url format args => exact customUDP_control hstep
  | startBundle =>
    obtain rfl := Option.some.inj hstep
    exact beginBundle_control s
  | endBundle =>
    obtain rfl := Option.some.inj hstep
    exact endBundle_control s
  | _ => exact nomatch hc

structure SameUdp (s u : State) : Prop where
  base : s.baseAddress = u.baseAddress
  options : s.options = u.options
  wire : s.wire = u.wire

theorem SameUdp.coreUsesUdp {s u : State} (h : SameUdp s u) : s.coreUsesUdp = u.coreUsesUdp := by
  unfold State.coreUsesUdp
  rw [h.options]

theorem appendBundle_congr {s u : State} (h : s.wire = u.wire) (m : Bytes) :
    (s.appendBundle m).wire = (u.appendBundle m).wire := by
  obtain ⟨hstart, hbundle, hsent⟩ := Wire.mk.inj h
  by_cases hm : m = []
  · subst hm
    unfold State.appendBundle
    rw [hbundle]
    split
    · simp [State.wire, hstart, hsent]
    · simp [State.wire, hstart, hsent, hbundle]
  · rw [appendBundle_wire s hm, appendBundle_wire u hm, hstart, hbundle, hsent]

theorem endBundle_congr {s u : State} (h : s.wire = u.wire) :
    s.endBundle.wire = u.endBundle.wire := by
  obtain ⟨_, hbundle, hsent⟩ := Wire.mk.inj h
  unfold State.endBundle
  rw [hbundle]
  split
  · simp [State.wire, hsent]
  · simp [State.wire, hsent, hbundle]

theorem beginBundle_congr {s u : State} (h : s.wire = u.wire) :
    s.beginBundle.wire = u.beginBundle.wire := by
  obtain ⟨hstart, hbundle, hsent⟩ := Wire.mk.inj h
  obtain ⟨_, hbundle', hsent'⟩ := Wire.mk.inj (endBundle_congr h)
  unfold State.beginBundle
  rw [hstart]
  split
  · simp only [State.wire, hbundle', hsent']
  · simp only [State.wire, hbundle, hsent]

theorem sendUdp_congr {s u : State} (h : s.wire = u.wire) (m : Bytes) :
    (if s.startBundle then s.appendBundle m else { s with udpSent := s.udpSent ++ [m] }).wire =
      (if u.startBundle then u.appendBundle m
        else { u with udpSent := u.udpSent ++ [m] }).wire := by
  obtain ⟨hstart, hbundle, hsent⟩ := Wire.mk.inj h
  rw [hstart]
  split
  · exact appendBundle_congr h m
  · simp only [State.wire, hbundle, hsent]

theorem sendCoreMessage_congr {s u : State} (h : SameUdp s u) (m : Bytes) :
    (s.sendCoreMessage m).wire = (u.sendCoreMessage m).wire := by
  unfold State.sendCoreMessage
  rw [h.coreUsesUdp]
  split
  · exact sendUdp_congr h.wire m
  · exact h.wire

theorem volume_congr {s u : State} (h : SameUdp s u) (v : BitVec 32) (m : Bytes) :
    (if inRange v then s.sendCoreMessage m else s).wire =
      (if inRange v then u.sendCoreMessage m else u).wire := by
  split
  · exact sendCoreMessage_congr h m
  · exact h.wire

theorem customUDP_congr {s t u v : State} {url : Bytes} {format : CString} {args : List Arg}
    (h : SameUdp s u) (hs : s.sendCustomUDP url format args = some t)
    (hu : u.sendCustomUDP url format args = some v) : t.wire = v.wire := by
  obtain ⟨p, hp, rfl⟩ := Option.map_eq_some_iff.mp hs
  obtain ⟨q, hq, rfl⟩ := Option.map_eq_some_iff.mp hu
  rw [h.base, hq] at hp
  obtain rfl := Option.some.inj hp
  simp only
  split
  · apply sendUdp_congr (s := { s with overrun := s.overrun || q.overrun })
      (u := { u with overrun := u.overrun || q.overrun })
    exact h.wire
  · exact h.wire

theorem step_wire_congr {s t u v : State} {c : Call} (h : SameUdp s u)
    (hs : step decibels s c = some t) (hu : step decibels u c = some v) : t.wire = v.wire := by
  have hbase := h.base
  cases c with
  | sendCustomTCP url format args =>
    rw [customTCP_wire hs, customTCP_wire hu]
    exact h.wire
  | sendCustomUDP url format args => exact customUDP_congr h hs hu
  | setOption option =>
    obtain rfl := Option.some.inj hs
    obtain rfl := Option.some.inj hu
    exact h.wire
  | setSystemMute mute =>
    obtain rfl := Option.some.inj hs
    obtain rfl := Option.some.inj hu
    exact sendCoreMessage_congr h _
  | setSystemVolume volume =>
    obtain rfl := Option.some.inj hs
    obtain rfl := Option.some.inj hu
    exact volume_congr h _ _
  | load =>
    obtain rfl := Option.some.inj hs
    obtain rfl := Option.some.inj hu
    unfold State.load
    rw [hbase]
    exact sendCoreMessage_congr h _
  | unload =>
    obtain rfl := Option.some.inj hs
    obtain rfl := Option.some.inj hu
    unfold State.unload
    rw [hbase]
    exact sendCoreMessage_congr h _
  | setMute mute =>
    obtain rfl := Option.some.inj hs
    obtain rfl := Option.some.inj hu
    unfold State.setMute
    rw [hbase]
    exact sendCoreMessage_congr h _
  | setVolume volume =>
    obtain rfl := Option.some.inj hs
    obtain rfl := Option.some.inj hu
    unfold State.setVolume
    rw [hbase]
    exact volume_congr h _ _
  | startBundle =>
    obtain rfl := Option.some.inj hs
    obtain rfl := Option.some.inj hu
    exact beginBundle_congr h.wire
  | endBundle =>
    obtain rfl := Option.some.inj hs
    obtain rfl := Option.some.inj hu
    exact endBundle_congr h.wire

theorem sameUdp_kept {s t u : State} {c : Call} (h : SameUdp s u)
    (hstep : step decibels s c = some t) :
    ∃ v, step decibels u c = some v ∧ SameUdp t v := by
  obtain ⟨v, hv⟩ := step_exists hstep h.base.symm
  obtain ⟨hbase, hoptions, _⟩ := Control.mk.inj (step_control hstep)
  obtain ⟨hbase', hoptions', _⟩ := Control.mk.inj (step_control hv)
  refine ⟨v, hv, ?_, ?_, step_wire_congr h hstep hv⟩
  · rw [hbase, hbase']
    exact h.base
  · rw [hoptions, hoptions', h.options]

theorem onlyTcp_core {s : State} {c : Call} (hc : onlyTcp s c = true) :
    (∃ url format args, c = .sendCustomTCP url format args) ∨
      c.isCore = true ∧ s.coreUsesUdp = false := by
  cases c with
  | sendCustomTCP url format args => exact Or.inl ⟨url, format, args, rfl⟩
  | sendCustomUDP => exact nomatch hc
  | setOption => exact nomatch hc
  | startBundle => exact nomatch hc
  | endBundle => exact nomatch hc
  | _ =>
    have hclear : (true && !s.coreUsesUdp) = true := hc
    exact Or.inr ⟨rfl, by simpa using hclear⟩

theorem core_options {c : Call} (hcore : c.isCore = true) (options : BitVec 32) :
    optionsAfter options c = options := by
  cases c with
  | setOption => exact nomatch hcore
  | _ => rfl

theorem onlyTcp_routed (decibels : BitVec 32 → Decibels) {s : State} {c : Call}
    (hc : onlyTcp s c = true) :
    routedToUdp decibels s c = none ∧ c ≠ .startBundle ∧ c ≠ .endBundle ∧
      optionsAfter s.options c = s.options := by
  rcases onlyTcp_core hc with ⟨url, format, args, rfl⟩ | ⟨hcore, hclear⟩
  · exact ⟨rfl, by simp, by simp, rfl⟩
  · refine ⟨?_, ?_, ?_, core_options hcore s.options⟩
    · rw [(core_routed decibels s hcore).1, hclear]
      rfl
    · rintro rfl
      exact nomatch hcore
    · rintro rfl
      exact nomatch hcore

theorem sameUdp_deleted {s t u : State} {c : Call} (h : SameUdp s u)
    (hc : onlyTcp s c = true) (hstep : step decibels s c = some t) : SameUdp t u := by
  obtain ⟨hbase, hoptions, _⟩ := Control.mk.inj (step_control hstep)
  obtain ⟨hroute, hstart, hend, hkept⟩ := onlyTcp_routed decibels hc
  have hwire := (step_move hstep).silent_wire hroute hstart hend
  exact ⟨hbase.trans h.base, hoptions.trans (hkept.trans h.options), hwire.trans h.wire⟩

def tcpCalls (trace : List (State × Call)) : List Call :=
  ((trace.filter fun p => !p.2.onlyUdp).map Prod.snd).reverse

def udpCalls (trace : List (State × Call)) : List Call :=
  ((trace.filter fun p => !onlyTcp p.1 p.2).map Prod.snd).reverse

/-- Without the calls that only concern UDP, `tcp_client_` gets the same messages; without
those that only concern TCP, `udp_client_` gets the same datagrams and the bundle is the
same. -/
theorem transports_independent {baseAddress : Bytes} {trace : List (State × Call)} {s : State}
    (h : Run (step decibels) (init baseAddress) trace s) :
    (∃ t, exec (step decibels) (init baseAddress) (tcpCalls trace) = some t ∧
      t.tcpSent = s.tcpSent) ∧
    ∃ t, exec (step decibels) (init baseAddress) (udpCalls trace) = some t ∧
      t.udpSent = s.udpSent ∧ t.udpBundle = s.udpBundle ∧ t.startBundle = s.startBundle := by
  constructor
  · have hdeleted {s t u : State} {c : Call} (hsame : s.control = u.control)
        (hkeep : (!c.onlyUdp) = false) (hstep : step decibels s c = some t) :
        t.control = u.control := by
      have hc : c.onlyUdp = true := by simpa using hkeep
      exact (control_deleted hc hstep).trans hsame
    obtain ⟨t, ht, hsame⟩ := h.delete (fun s u => s.control = u.control)
      (fun p => !p.2.onlyUdp) rfl (fun hsame _ hstep => control_kept hsame hstep) hdeleted
    obtain ⟨_, _, hsent⟩ := Control.mk.inj hsame
    exact ⟨t, ht, hsent.symm⟩
  · have hdeleted {s t u : State} {c : Call} (hsame : SameUdp s u)
        (hkeep : (!onlyTcp s c) = false) (hstep : step decibels s c = some t) : SameUdp t u := by
      have hc : onlyTcp s c = true := by simpa using hkeep
      exact sameUdp_deleted hsame hc hstep
    obtain ⟨t, ht, hsame⟩ := h.delete SameUdp (fun p => !onlyTcp p.1 p.2) ⟨rfl, rfl, rfl⟩
      (fun hsame _ hstep => sameUdp_kept hsame hstep) hdeleted
    obtain ⟨hstart, hbundle, hsent⟩ := Wire.mk.inj hsame.wire
    exact ⟨t, ht, hsent.symm, hbundle.symm, hstart.symm⟩

/-- A bundle with one UDP message, and two TCP messages between its calls. -/
theorem transports_independent_in_bundle :
    ∃ trace s, Run (step fun _ => .float 0) (init (ascii "/am")) trace s ∧
      s.tcpSent.length = 2 ∧ s.udpSent.length = 1 ∧
      (tcpCalls trace = [.load, .sendCustomTCP (ascii "/x") (cstr (ascii "I")) []]) ∧
      (udpCalls trace =
        [.startBundle, .sendCustomUDP (ascii "/y") (cstr (ascii "T")) [], .endBundle]) ∧
      (∃ t, exec (step fun _ => .float 0) (init (ascii "/am")) (tcpCalls trace) = some t ∧
        t.tcpSent = s.tcpSent) ∧
      ∃ t, exec (step fun _ => .float 0) (init (ascii "/am")) (udpCalls trace) = some t ∧
        t.udpSent = s.udpSent ∧ t.udpBundle = s.udpBundle ∧ t.startBundle = s.startBundle := by
  obtain ⟨trace, s, h, htcp, hudp, hcalls, hcalls'⟩ := run_of_record
    (step fun _ => .float 0) (init (ascii "/am"))
    [.startBundle, .load, .sendCustomUDP (ascii "/y") (cstr (ascii "T")) [],
      .sendCustomTCP (ascii "/x") (cstr (ascii "I")) [], .endBundle]
    (fun trace s => s.tcpSent.length = 2 ∧ s.udpSent.length = 1 ∧
      tcpCalls trace = [.load, .sendCustomTCP (ascii "/x") (cstr (ascii "I")) []] ∧
      udpCalls trace =
        [.startBundle, .sendCustomUDP (ascii "/y") (cstr (ascii "T")) [], .endBundle])
    (by decide +kernel)
  exact ⟨trace, s, h, htcp, hudp, hcalls, hcalls', transports_independent h⟩

end AmClient.Client
