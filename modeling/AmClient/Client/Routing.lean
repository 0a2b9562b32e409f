import AmClient.Client.Bundle

/-!
# The option, and the two transports

`options_` decides where a core message goes, and only `SetOption` changes it. What a call
does to the TCP side and to the UDP side depends on the option and on that side alone.
-/

namespace AmClient.Client
open Foundation Osc
set_option autoImplicit false

variable {decibels : BitVec 32 → Decibels}

structure Control where
  baseAddress : Bytes
  options : BitVec 32
  tcpSent : List Bytes

def State.control (s : State) : Control := ⟨s.baseAddress, s.options, s.tcpSent⟩

/-- The message that a call sends by TCP: custom TCP calls do, and core calls while
`CORE_USE_UDP` is not set. -/
def routedToTcp (decibels : BitVec 32 → Decibels) (s : State) (c : Call) : Option Bytes :=
  match c with
  | .sendCustomTCP _ _ _ => c.message decibels s.baseAddress
  | .sendCustomUDP _ _ _ => none
  | _ => if s.coreUsesUdp then none else c.message decibels s.baseAddress

def optionsAfter (options : BitVec 32) : Call → BitVec 32
  | .setOption option => options ^^^ option.value
  | _ => options

@[simp] theorem appendBundle_control (s : State) (m : Bytes) :
    (s.appendBundle m).control = s.control := by
  unfold State.appendBundle
  by_cases hover : s.udpBundle.length + m.length > MAX_MESSAGE_SIZE
  · simp only [hover, ↓reduceIte]
    split
    · rfl
    · rfl
  · simp only [hover, ↓reduceIte]
    split
    · rfl
    · rfl

@[simp] theorem endBundle_control (s : State) : s.endBundle.control = s.control := by
  unfold State.endBundle
  by_cases hlen : s.udpBundle.length > 16
  · simp only [hlen, ↓reduceIte]
    rfl
  · simp only [hlen, ↓reduceIte]
    rfl

@[simp] theorem beginBundle_control (s : State) : s.beginBundle.control = s.control := by
  unfold State.beginBundle
  by_cases hs : s.startBundle = true
  · simp only [hs, ↓reduceIte]
    exact endBundle_control s
  · simp only [hs]
    rfl

theorem sendCoreMessage_control (s : State) (m : Bytes) :
    (s.sendCoreMessage m).control =
      ⟨s.baseAddress, s.options, s.tcpSent ++ (if s.coreUsesUdp then [] else [m])⟩ := by
  unfold State.sendCoreMessage
  by_cases hudp : s.coreUsesUdp = true
  · rw [if_pos hudp, if_pos hudp, List.append_nil]
    by_cases hs : s.startBundle = true
    · rw [if_pos hs]
      exact appendBundle_control s m
    · rw [if_neg hs]
      rfl
  · rw [if_neg hudp, if_neg hudp]
    rfl

theorem core_control {s : State} {c : Call} {m : Bytes}
    (hroute : routedToTcp decibels s c = if s.coreUsesUdp then none else some m)
    (hoptions : optionsAfter s.options c = s.options) :
    (s.sendCoreMessage m).control =
      ⟨s.baseAddress, optionsAfter s.options c,
        s.tcpSent ++ (routedToTcp decibels s c).toList⟩ := by
  rw [sendCoreMessage_control, hroute, hoptions]
  by_cases hudp : s.coreUsesUdp = true
  · rw [if_pos hudp, if_pos hudp]
    rfl
  · rw [if_neg hudp, if_neg hudp]
    rfl

theorem volume_control {s : State} {c : Call} {v : BitVec 32} {m : Bytes}
    (hroute : routedToTcp decibels s c = if s.coreUsesUdp then none else volumeCall v m)
    (hoptions : optionsAfter s.options c = s.options) :
    (if inRange v then s.sendCoreMessage m else s).control =
      ⟨s.baseAddress, optionsAfter s.options c,
        s.tcpSent ++ (routedToTcp decibels s c).toList⟩ := by
  unfold volumeCall at hroute
  by_cases hv : inRange v = true
  · rw [if_pos hv] at hroute ⊢
    exact core_control hroute hoptions
  · rw [if_neg hv] at hroute ⊢
    have hnone : routedToTcp decibels s c = none := by
      rw [hroute]
      split
      · rfl
      · rfl
    rw [hnone, hoptions, Option.toList_none, List.append_nil]
    rfl

theorem customTCP_control {s t : State} {url : Bytes} {format : CString} {args : List Arg}
    (h : s.sendCustomTCP url format args = some t) :
    t.control = ⟨s.baseAddress, s.options,
      s.tcpSent ++ (customMessage s.baseAddress url format args).toList⟩ := by
  obtain ⟨p, hp, rfl⟩ := Option.map_eq_some_iff.mp h
  rw [customMessage, hp, Option.bind_some]
  by_cases hpos : p.size > 0
  · simp only [hpos, ↓reduceIte]
    rfl
  · simp only [hpos, ↓reduceIte, Option.toList_none, List.append_nil]
    rfl

theorem customUDP_control {s t : State} {url : Bytes} {format : CString} {args : List Arg}
    (h : s.sendCustomUDP url format args = some t) : t.control = s.control := by
  obtain ⟨p, hp, rfl⟩ := Option.map_eq_some_iff.mp h
  by_cases hpos : p.size > 0
  · simp only [hpos, ↓reduceIte]
    split
    · exact appendBundle_control _ _
    · rfl
  · simp only [hpos, ↓reduceIte]
    rfl

theorem step_control {s t : State} {c : Call} (h : step decibels s c = some t) :
    t.control = ⟨s.baseAddress, optionsAfter s.options c,
      s.tcpSent ++ (routedToTcp decibels s c).toList⟩ := by
  have silent {u : State} (hu : u.control = s.control) {x : Option Bytes} (hx : x = none) :
      u.control = ⟨s.baseAddress, s.options, s.tcpSent ++ x.toList⟩ := by
    rw [hu, hx, Option.toList_none, List.append_nil]
    rfl
  cases c with
  | setOption option =>
    obtain rfl := Option.some.inj h
    simp [State.control, State.setOption, optionsAfter, routedToTcp, Call.message]
  | setSystemMute mute =>
    obtain rfl := Option.some.inj h
    exact core_control rfl rfl
  | setSystemVolume volume =>
    obtain rfl := Option.some.inj h
    exact volume_control rfl rfl
  | load =>
    obtain rfl := Option.some.inj h
    exact core_control rfl rfl
  | unload =>
    obtain rfl := Option.some.inj h
    exact core_control rfl rfl
  | setMute mute =>
    obtain rfl := Option.some.inj h
    exact core_control rfl rfl
  | setVolume volume =>
    obtain rfl := Option.some.inj h
    exact volume_control rfl rfl
  | sendCustomTCP url format args => exact customTCP_control h
  | sendCustomUDP url format args => exact silent (customUDP_control h) rfl
  | startBundle =>
    obtain rfl := Option.some.inj h
    exact silent (beginBundle_control s) (by simp [routedToTcp, Call.message])
  | endBundle =>
    obtain rfl := Option.some.inj h
    exact silent (endBundle_control s) (by simp [routedToTcp, Call.message])

theorem control_run {baseAddress : Bytes} {trace : List (State × Call)} {s : State}
    (h : Run (step decibels) (init baseAddress) trace s) :
    s.baseAddress = baseAddress ∧
      s.tcpSent = trace.reverse.filterMap fun p => routedToTcp decibels p.1 p.2 := by
  induction h with
  | start => exact ⟨rfl, rfl⟩
  | @next trace s t c _ hstep ih =>
    obtain ⟨hbase, hsent⟩ := ih
    obtain ⟨hbase', _, hsent'⟩ := Control.mk.inj (step_control hstep)
    refine ⟨hbase'.trans hbase, ?_⟩
    rw [hsent', hsent, List.reverse_cons, List.filterMap_append]
    cases hroute : routedToTcp decibels s c with
    | none => simp [hroute]
    | some m => simp [hroute]

def Call.isSetOption : Call → Bool
  | .setOption _ => true
  | _ => false

def Call.isCore : Call → Bool
  | .setSystemMute _ => true
  | .setSystemVolume _ => true
  | .load => true
  | .unload => true
  | .setMute _ => true
  | .setVolume _ => true
  | _ => false

def setOptions (trace : List (State × Call)) : Nat := trace.countP fun p => p.2.isSetOption

/-- The message of the call goes to the UDP side, as a datagram or as the last element of
the bundle, and not to TCP. -/
def GoesToUdp (decibels : BitVec 32 → Decibels) (s : State) (c : Call) (m : Bytes) : Prop :=
  ∀ t, step decibels s c = some t →
    t.tcpSent = s.tcpSent ∧ (t.udpSent = s.udpSent ++ [m] ∨ frame m <:+ t.udpBundle)

/-- Every core message after a `SetOption` goes to UDP. -/
def Sticky (decibels : BitVec 32 → Decibels) (trace : List (State × Call)) : Prop :=
  ∀ earlier s c, (s, c) :: earlier <:+ trace → 0 < setOptions earlier → c.isCore = true →
    ∀ m ∈ c.message decibels s.baseAddress, GoesToUdp decibels s c m

/-- `SetOption` toggles: the option is set after an odd number of calls. -/
theorem coreUsesUdp_iff {baseAddress : Bytes} {trace : List (State × Call)} {s : State}
    (h : Run (step decibels) (init baseAddress) trace s) :
    s.coreUsesUdp = true ↔ setOptions trace % 2 = 1 := by
  have hoptions : s.options = BitVec.ofNat 32 (setOptions trace % 2) := by
    induction h with
    | start => rfl
    | @next trace s t c _ hstep ih =>
      obtain ⟨_, hafter, _⟩ := Control.mk.inj (step_control hstep)
      rw [hafter]
      cases c with
      | setOption option =>
        cases option
        have hcount : setOptions ((s, .setOption .CORE_USE_UDP) :: trace) = setOptions trace + 1 :=
          List.countP_cons_of_pos rfl
        rw [optionsAfter, ih, hcount]
        rcases Nat.mod_two_eq_zero_or_one (setOptions trace) with heven | hodd
        · have hnext : (setOptions trace + 1) % 2 = 1 := by omega
          rw [heven, hnext]
          rfl
        · have hnext : (setOptions trace + 1) % 2 = 0 := by omega
          rw [hodd, hnext]
          rfl
      | _ => exact ih
  unfold State.coreUsesUdp
  rw [hoptions]
  rcases Nat.mod_two_eq_zero_or_one (setOptions trace) with heven | hodd
  · rw [heven]
    decide
  · rw [hodd]
    decide

theorem core_routed (decibels : BitVec 32 → Decibels) (s : State) {c : Call}
    (hcore : c.isCore = true) :
    routedToUdp decibels s c =
        (if s.coreUsesUdp then c.message decibels s.baseAddress else none) ∧
      routedToTcp decibels s c =
        (if s.coreUsesUdp then none else c.message decibels s.baseAddress) := by
  cases c with
  | sendCustomTCP => exact nomatch hcore
  | sendCustomUDP => exact nomatch hcore
  | _ => exact ⟨rfl, rfl⟩

theorem Move.delivers {s : State} {c : Call} {w : Wire} {m : Bytes} (h : Move decibels s c w)
    (hroute : routedToUdp decibels s c = some m) :
    w.udpSent = s.udpSent ++ [m] ∨ frame m <:+ w.udpBundle := by
  have same {m' : Bytes} (hroute' : routedToUdp decibels s c = some m') : m' = m :=
    Option.some.inj (hroute'.symm.trans hroute)
  cases h with
  | silent hnone => exact nomatch hnone.symm.trans hroute
  | datagram hroute' => exact Or.inl (by rw [same hroute'])
  | append hroute' =>
    rw [same hroute']
    exact Or.inr (List.suffix_append _ _)
  | flush hroute' =>
    rw [same hroute']
    exact Or.inr (List.suffix_append _ _)
  | opened => simp [routed_start] at hroute
  | reopened => simp [routed_start] at hroute
  | restarted => simp [routed_start] at hroute
  | closed => simp [routed_end] at hroute
  | dropped => simp [routed_end] at hroute

theorem Move.silent_wire {s : State} {c : Call} {w : Wire} (h : Move decibels s c w)
    (hroute : routedToUdp decibels s c = none) (hstart : c ≠ .startBundle)
    (hend : c ≠ .endBundle) : w = s.wire := by
  cases h with
  | silent => rfl
  | datagram hsome => exact nomatch hsome.symm.trans hroute
  | append hsome => exact nomatch hsome.symm.trans hroute
  | flush hsome => exact nomatch hsome.symm.trans hroute
  | opened => exact (hstart rfl).elim
  | reopened => exact (hstart rfl).elim
  | restarted => exact (hstart rfl).elim
  | closed => exact (hend rfl).elim
  | dropped => exact (hend rfl).elim

theorem goesToUdp_iff {s t : State} {c : Call} {m : Bytes} (hcore : c.isCore = true)
    (hm : c.message decibels s.baseAddress = some m) (hstep : step decibels s c = some t) :
    GoesToUdp decibels s c m ↔ s.coreUsesUdp = true := by
  obtain ⟨hudp, htcp⟩ := core_routed decibels s hcore
  obtain ⟨_, _, hsent⟩ := Control.mk.inj (step_control hstep)
  constructor
  · intro hgoes
    by_contra hnot
    rw [if_neg hnot, hm] at htcp
    rw [htcp] at hsent
    have hkept := (hgoes t hstep).1
    rw [hsent] at hkept
    simp at hkept
  · intro hset u hu
    obtain rfl := Option.some.inj (hstep.symm.trans hu)
    rw [if_pos hset] at hudp htcp
    rw [htcp, Option.toList_none, List.append_nil] at hsent
    exact ⟨hsent, (step_move hstep).delivers (hudp.trans hm)⟩

/-- Once set, the option keeps every core message off TCP exactly when no core message is
sent after an even number of `SetOption` calls. -/
theorem option_sticky_iff {baseAddress : Bytes} {trace : List (State × Call)} {s : State}
    (h : Run (step decibels) (init baseAddress) trace s) :
    Sticky decibels trace ↔
      ∀ earlier s c, (s, c) :: earlier <:+ trace → 0 < setOptions earlier → c.isCore = true →
        (c.message decibels s.baseAddress).isSome = true → setOptions earlier % 2 = 1 := by
  constructor
  · intro hsticky earlier u c hsuf hset hcore hsome
    obtain ⟨m, hm⟩ := Option.isSome_iff_exists.mp hsome
    obtain ⟨hearlier, t, hstep⟩ := h.of_suffix hsuf
    apply (coreUsesUdp_iff hearlier).mp
    apply (goesToUdp_iff hcore hm hstep).mp
    exact hsticky earlier u c hsuf hset hcore m hm
  · intro hodd earlier u c hsuf hset hcore m hm
    obtain ⟨hearlier, t, hstep⟩ := h.of_suffix hsuf
    apply (goesToUdp_iff hcore hm hstep).mpr
    apply (coreUsesUdp_iff hearlier).mpr
    exact hodd earlier u c hsuf hset hcore (Option.isSome_iff_exists.mpr ⟨m, hm⟩)

theorem option_sticky_of_one_call :
    ∃ trace s, Run (step fun _ => .float 0) (init (ascii "/am")) trace s ∧
      s.udpSent = [loadMessage (ascii "/am")] ∧ Sticky (fun _ => .float 0) trace := by
  have h := run_of_events (step fun _ => .float 0) (init (ascii "/am"))
    [.setOption .CORE_USE_UDP, .load] rfl
  refine ⟨_, _, h, by decide, (option_sticky_iff h).mpr ?_⟩
  intro earlier u c hsuf hset hcore hsome
  rcases List.suffix_cons_iff.mp hsuf with heq | hsuf
  · obtain ⟨_, rfl⟩ := List.cons.inj heq
    rfl
  · rcases List.suffix_cons_iff.mp hsuf with heq | hsuf
    · obtain ⟨_, rfl⟩ := List.cons.inj heq
      exact nomatch hset
    · simp at hsuf

/-- A second `SetOption` takes the option back. -/
theorem second_call_clears_option :
    ∃ trace s, Run (step fun _ => .float 0) (init (ascii "/am")) trace s ∧
      trace.map Prod.snd = [.load, .setOption .CORE_USE_UDP, .setOption .CORE_USE_UDP] ∧
      s.tcpSent = [loadMessage (ascii "/am")] ∧ ¬ Sticky (fun _ => .float 0) trace := by
  have h := run_of_events (step fun _ => .float 0) (init (ascii "/am"))
    [.setOption .CORE_USE_UDP, .setOption .CORE_USE_UDP, .load] rfl
  refine ⟨_, _, h, rfl, by decide, ?_⟩
  intro hsticky
  have hgoes := hsticky _ _ _ (List.suffix_refl _) (by decide) rfl _ rfl
  have hsent := (hgoes _ rfl).1
  revert hsent
  decide

end AmClient.Client
