import AmClient.Application.Values
import AmClient.CommandLine.Session

/-!
# am_client

The whole program: `main` does its actions one after the other, a call only when the last
one has returned, while the IO threads of the two clients take their steps. This is up to
the end of `main`, where `am` is destroyed (`Ending`).
-/

namespace AmClient.Program
open Foundation Osc Client CommandLine
set_option autoImplicit false

/-- `todo` is what `main` has still to do. -/
structure State where
  todo : List Input.Action
  app : Application.State

inductive Event where
  | act
  | tcp (e : Application.TcpEvent)
  | udp (e : Application.UdpEvent)

def init (baseAddress : Bytes) (actions : List Input.Action) : State where
  todo := actions
  app := Application.init baseAddress

def step (decibels : BitVec 32 → Decibels) (s : State) : Event → Option State
  | .act => match s.todo with
    | [] => none
    | .call c :: todo =>
      (Application.step decibels s.app (.call c)).map fun app => { todo := todo, app := app }
    | .out _ :: todo | .err _ :: todo =>
      if s.app.Returned then some { s with todo := todo } else none
  | .tcp e => (Application.step decibels s.app (.tcp e)).map fun app => { s with app := app }
  | .udp e => (Application.step decibels s.app (.udp e)).map fun app => { s with app := app }

/-- What a step is to `am`; what is printed is nothing to it. -/
def State.label (s : State) : Event → Option Application.Event
  | .act => s.todo.head?.bind fun action => action.performed.map .call
  | .tcp e => some (.tcp e)
  | .udp e => some (.udp e)

def appTrace (trace : List (State × Event)) : List (Application.State × Application.Event) :=
  Run.projected State.app State.label trace

/-- The calls on `am` so far, oldest first. -/
def made (trace : List (State × Event)) : List Call :=
  ((Application.callSteps (appTrace trace)).map Prod.snd).reverse

variable {decibels : BitVec 32 → Decibels}

/-- What a step does: `am` takes a step, or something is printed. -/
inductive Move (decibels : BitVec 32 → Decibels) (s : State) : Event → State → Prop where
  | call {c : Call} {todo : List Input.Action} {app : Application.State} :
      s.todo = .call c :: todo → Application.step decibels s.app (.call c) = some app →
      Move decibels s .act ⟨todo, app⟩
  | printed {action : Input.Action} {todo : List Input.Action} : s.todo = action :: todo →
      action.performed = none → Move decibels s .act ⟨todo, s.app⟩
  | tcp {e : Application.TcpEvent} {app : Application.State} :
      Application.step decibels s.app (.tcp e) = some app → Move decibels s (.tcp e) ⟨s.todo, app⟩
  | udp {e : Application.UdpEvent} {app : Application.State} :
      Application.step decibels s.app (.udp e) = some app → Move decibels s (.udp e) ⟨s.todo, app⟩

theorem step_move {s t : State} {e : Event} (h : step decibels s e = some t) :
    Move decibels s e t := by
  cases e with
  | act =>
    simp only [step] at h
    split at h
    · cases h
    · rename_i c todo htodo
      obtain ⟨app, happ, rfl⟩ := Option.map_eq_some_iff.mp h
      exact .call htodo happ
    · rename_i text todo htodo
      obtain ⟨_, hsome⟩ := Option.ite_none_right_eq_some.mp h
      obtain rfl := Option.some.inj hsome
      exact .printed htodo rfl
    · rename_i text todo htodo
      obtain ⟨_, hsome⟩ := Option.ite_none_right_eq_some.mp h
      obtain rfl := Option.some.inj hsome
      exact .printed htodo rfl
  | tcp e =>
    obtain ⟨app, happ, rfl⟩ := Option.map_eq_some_iff.mp h
    exact .tcp happ
  | udp e =>
    obtain ⟨app, happ, rfl⟩ := Option.map_eq_some_iff.mp h
    exact .udp happ

theorem app_run {baseAddress : Bytes} {actions : List Input.Action}
    {trace : List (State × Event)} {s : State}
    (h : Run (step decibels) (init baseAddress actions) trace s) :
    Run (Application.step decibels) (Application.init baseAddress) (appTrace trace) s.app := by
  refine h.project (I := fun _ => True) State.app State.label trivial (fun _ _ => trivial) ?_ ?_
  · intro s e t _ hstep hlabel
    cases step_move hstep with
    | call htodo =>
      rw [State.label, htodo] at hlabel
      cases hlabel
    | printed => rfl
    | tcp => cases hlabel
    | udp => cases hlabel
  · intro s e t k _ hstep hlabel
    cases step_move hstep with
    | call htodo happ =>
      rw [State.label, htodo] at hlabel
      obtain rfl := Option.some.inj hlabel
      exact happ
    | printed htodo hnone =>
      simp [State.label, htodo, hnone] at hlabel
    | tcp happ =>
      obtain rfl := Option.some.inj hlabel
      exact happ
    | udp happ =>
      obtain rfl := Option.some.inj hlabel
      exact happ

theorem made_silent {trace : List (State × Event)} {s : State} {e : Event}
    (h : (s.label e).bind Application.Event.callOf = none) :
    made ((s, e) :: trace) = made trace := by
  cases hlabel : s.label e with
  | none => simp [made, appTrace, Run.projected, hlabel]
  | some k =>
    have hnone : k.callOf = none := by simpa [hlabel] using h
    simp [made, appTrace, Run.projected, Application.callSteps, hlabel, hnone]

theorem made_call {trace : List (State × Event)} {s : State} {e : Event} {c : Call}
    (h : s.label e = some (.call c)) : made ((s, e) :: trace) = made trace ++ [c] := by
  simp [made, appTrace, Run.projected, Application.callSteps, h, Application.Event.callOf]

/-- The calls so far and those that are still to come. -/
theorem made_todo {baseAddress : Bytes} {actions : List Input.Action}
    {trace : List (State × Event)} {s : State}
    (h : Run (step decibels) (init baseAddress actions) trace s) :
    made trace ++ Input.performed s.todo = Input.performed actions := by
  induction h with
  | start => rfl
  | @next trace s t e _ hstep ih =>
    rw [← ih]
    cases step_move hstep with
    | @call c todo app htodo _ =>
      have hlabel : s.label .act = some (.call c) := by
        rw [State.label, htodo]
        rfl
      rw [made_call hlabel, htodo, List.append_assoc]
      rfl
    | @printed action todo htodo hnone =>
      have hlabel : s.label .act = none := by
        rw [State.label, htodo]
        simp [hnone]
      have htail : Input.performed (action :: todo) = Input.performed todo :=
        List.filterMap_cons_none hnone
      rw [made_silent (by rw [hlabel]; rfl), htodo, htail]
    | tcp => rw [made_silent rfl]
    | udp => rw [made_silent rfl]

theorem byUdp_core {s : Client.State} {c : Call} (h : c.isCore = true) :
    byUdp s c = s.coreUsesUdp := by
  cases c with
  | sendCustomTCP => cases h
  | sendCustomUDP => cases h
  | _ => rfl

theorem packed_core {c : Call} (h : c.isCore = true) (baseAddress : Bytes) :
    c.packed baseAddress = none := by
  cases c with
  | sendCustomTCP => cases h
  | sendCustomUDP => cases h
  | _ => rfl

/-- Without bundles each message is a datagram. -/
theorem unbundled {baseAddress : Bytes} {trace : List (Client.State × Call)} {s : Client.State}
    (h : Run (Client.step decibels) (Client.init baseAddress) trace s)
    (hcalls : ∀ p ∈ trace, p.2 ≠ .startBundle ∧ p.2 ≠ .endBundle) :
    s.startBundle = false ∧ s.udpSent = routed decibels trace := by
  induction h with
  | start => exact ⟨rfl, rfl⟩
  | @next trace s t c _ hstep ih =>
    obtain ⟨⟨hstart, hend⟩, hbefore⟩ := List.forall_mem_cons.mp hcalls
    obtain ⟨hclosed, hsent⟩ := ih hbefore
    rw [routed_cons, ← hsent]
    have hmove := Client.step_move hstep
    generalize hw : t.wire = w at hmove
    have hbundle : t.startBundle = w.startBundle := congrArg Wire.startBundle hw
    have hudp : t.udpSent = w.udpSent := congrArg Wire.udpSent hw
    rw [hbundle, hudp]
    cases hmove with
    | silent hroute =>
      rw [hroute, Option.toList_none, List.append_nil]
      exact ⟨hclosed, rfl⟩
    | datagram hroute =>
      rw [hroute]
      exact ⟨rfl, rfl⟩
    | append _ hopen | flush _ hopen => cases hclosed.symm.trans hopen
    | opened | reopened | restarted => exact (hstart rfl).elim
    | closed | dropped => exact (hend rfl).elim

section
variable {useUdp : Bool} {cores : List Call} (hcores : ∀ c ∈ cores, c.isCore = true)
include hcores

/-- Before a core call, the option has been set once if at all. -/
theorem setOptions_before {calls : List Call} {c : Call} (hcore : c.isCore = true)
    (h : calls ++ [c] <+: Session.optionCalls useUdp ++ cores) :
    calls.countP Call.isSetOption = useUdp.toNat := by
  have hnone {l : List Call} (hl : ∀ d ∈ l, d.isCore = true) : l.countP Call.isSetOption = 0 := by
    apply List.countP_eq_zero.mpr
    intro d hd
    have hd := hl d hd
    cases d with
    | setOption => cases hd
    | _ => exact Bool.false_ne_true
  cases useUdp with
  | false =>
    have hbefore := (List.prefix_append calls [c]).trans h
    exact hnone fun d hd => hcores d (hbefore.subset hd)
  | true =>
    cases calls with
    | nil =>
      obtain rfl := (List.cons_prefix_cons.mp h).1
      cases hcore
    | cons d calls =>
      obtain ⟨rfl, hrest⟩ := List.cons_prefix_cons.mp h
      have hbefore := (List.prefix_append calls [c]).trans hrest
      have hcount := hnone fun d hd => hcores d (hbefore.subset hd)
      rw [List.countP_cons_of_pos rfl, hcount]
      rfl

variable {baseAddress : Bytes} {trace : List (Client.State × Call)} {s : Client.State}
  (h : Run (Client.step decibels) (Client.init baseAddress) trace s)
  (hcalls : (trace.map Prod.snd).reverse <+: Session.optionCalls useUdp ++ cores)
include h hcalls

/-- Every call but the first is a core call, and goes where the command line says. -/
theorem call_said {p : Client.State × Call} (hp : p ∈ trace) :
    p.1.baseAddress = baseAddress ∧
      (p.2 = .setOption .CORE_USE_UDP ∨ p.2.isCore = true ∧ byUdp p.1 p.2 = useUdp) := by
  obtain ⟨later, early, rfl⟩ := List.append_of_mem hp
  obtain ⟨hearly, _⟩ := h.of_suffix (List.suffix_append later (p :: early))
  refine ⟨(control_run hearly).1, ?_⟩
  have hmade : (early.map Prod.snd).reverse ++ [p.2] <+: Session.optionCalls useUdp ++ cores := by
    apply List.IsPrefix.trans _ hcalls
    simp
  have hmem := hmade.subset (List.mem_append_right _ (List.mem_singleton_self p.2))
  rcases List.mem_append.mp hmem with hoption | hcore
  · left
    unfold Session.optionCalls at hoption
    split at hoption
    · exact List.mem_singleton.mp hoption
    · cases hoption
  · right
    have hcore := hcores p.2 hcore
    have hcount := setOptions_before hcores hcore hmade
    rw [List.countP_reverse, List.countP_map] at hcount
    have hoption := coreUsesUdp_iff hearly
    have hsets : setOptions early = useUdp.toNat := hcount
    rw [hsets] at hoption
    refine ⟨hcore, (byUdp_core hcore).trans ?_⟩
    cases useUdp with
    | true => exact hoption.mpr rfl
    | false =>
      apply Bool.eq_false_iff.mpr
      intro hset
      cases hoption.mp hset

theorem contents_said (udp : Bool) :
    contents decibels udp trace =
      if useUdp = udp then
        ((trace.map Prod.snd).reverse.filter Call.isCore).filterMap
          (Call.content decibels baseAddress)
      else [] := by
  have hsilent {c : Call} (hc : c = .setOption .CORE_USE_UDP) :
      c.content decibels baseAddress = none := by
    rw [hc]
    rfl
  split
  · rename_i hudp
    rw [contents, List.filterMap_filter, ← List.map_reverse, List.filterMap_map]
    apply List.filterMap_congr
    intro p hp
    obtain ⟨hbase, hwhat⟩ := call_said hcores h hcalls (List.mem_reverse.mp hp)
    rw [hbase]
    rcases hwhat with hoption | ⟨hcore, hway⟩
    · have hcore : p.2.isCore = false := by
        rw [hoption]
        rfl
      simp [hcore, hsilent hoption]
    · simp [hcore, hway, hudp]
  · rename_i hudp
    apply List.filterMap_eq_nil_iff.mpr
    intro p hp
    obtain ⟨hbase, hwhat⟩ := call_said hcores h hcalls (List.mem_reverse.mp hp)
    rw [hbase]
    rcases hwhat with hoption | ⟨hcore, hway⟩
    · rw [hsilent hoption, ite_self]
    · rw [hway, if_neg hudp]

theorem calls_unbundled : ∀ p ∈ trace, p.2 ≠ .startBundle ∧ p.2 ≠ .endBundle := by
  intro p hp
  rcases (call_said hcores h hcalls hp).2 with hoption | ⟨hcore, _⟩
  · rw [hoption]
    exact ⟨nofun, nofun⟩
  · refine ⟨?_, ?_⟩
    · intro hstart
      rw [hstart] at hcore
      cases hcore
    · intro hend
      rw [hend] at hcore
      cases hcore

theorem calls_within : ∀ p ∈ trace, PacksWithin p.1.baseAddress p.2 := by
  intro p hp
  have hnone : p.2.packed p.1.baseAddress = none := by
    rcases (call_said hcores h hcalls hp).2 with hoption | ⟨hcore, _⟩
    · rw [hoption]
      rfl
    · exact packed_core hcore _
  intro r hr
  rw [hnone] at hr
  cases hr

end

/-- What a receiver reads from the datagrams of a run, one after the other as they were
handed to the socket: one of these packets from each, in order and each at most once; a
beginning of them if every thread could be created; and all of them when the calls have
returned and nothing is queued. -/
structure ReadByUdp (trace : List (State × Event)) (s : State) (all packets : List Packet) :
    Prop where
  decoded : s.app.udp.client.started.map (fun m => Packet.decode m.bytes) = packets.map some
  in_order : packets.Sublist all
  beginning : Application.ThreadsCreated (Application.udpPart (appTrace trace)) → packets <+: all
  complete : Application.ThreadsCreated (Application.udpPart (appTrace trace)) → s.app.Returned →
    s.app.udp.client.posted = [] → s.app.udp.client.writeMsgs = [] → packets = all

theorem readByUdp_run {baseAddress : Bytes} {actions : List Input.Action}
    {trace : List (State × Event)} {s : State}
    (h : Run (step decibels) (init baseAddress actions) trace s) {all : List Packet}
    (hsaid : List.Forall₂ Says s.app.calls.udpSent all) :
    ∃ packets, ReadByUdp trace s all packets := by
  have hover := Application.handedOver_run (app_run h)
  obtain ⟨packets, hread, hsub⟩ := Application.related_sublist hsaid hover.in_order
  have hdecoded := Application.decoded_of_said hread
  rw [List.map_map] at hdecoded
  refine ⟨packets, hdecoded, hsub, ?_, ?_⟩
  · intro hcreated
    have hbeginning := Application.related_take hsaid (hover.beginning hcreated)
    rw [Application.says_unique hread hbeginning]
    exact List.take_prefix _ _
  · intro hcreated hret hnone hempty
    rw [hover.all hcreated hret hnone hempty] at hread
    exact Application.says_unique hread hsaid

section
variable {argv : List CString} {stdin baseAddress hostAddress : Bytes} {actions : List Input.Action}
  (hmain : Session.main argv stdin = .ok (.talks baseAddress hostAddress actions))
  {trace : List (State × Event)} {s : State}
  (h : Run (step decibels) (init baseAddress actions) trace s)
include hmain h

/-- What is sent so far says what the commands so far say. -/
theorem commands_said :
    ∃ g : Arguments.Globals, Arguments.processArguments {} argv = .ok (.returned g) ∧
      ∃ commands,
        commands ++ (Input.performed s.todo).filter Call.isCore = Session.lineCalls stdin ∧
        List.Forall₂ Says s.app.calls.udpSent
          (if g.useUdp = true then commands.filterMap (Call.content decibels baseAddress) else []) ∧
        List.Forall₂ Says (Application.routedTcp decibels (Application.callSteps (appTrace trace)))
          (if g.useUdp = false then commands.filterMap (Call.content decibels baseAddress)
            else []) := by
  obtain ⟨g, hargs, hbase, _, hactions⟩ := Session.main_talks hmain
  have hfree : 0 ∉ baseAddress := hbase ▸ Session.baseAddress_free hargs
  have hcores := Session.lineCalls_core stdin
  have hcall := Application.call_run (app_run h)
  have hmade := (made_todo h).trans hactions
  have hprefix : made trace <+: Session.optionCalls g.useUdp ++ Session.lineCalls stdin :=
    ⟨_, hmade⟩
  have hcommands : (made trace).filter Call.isCore ++ (Input.performed s.todo).filter Call.isCore =
      Session.lineCalls stdin := by
    have hoption : (Session.optionCalls g.useUdp).filter Call.isCore = [] := by
      cases g.useUdp with
      | _ => rfl
    have hlines := List.filter_eq_self.mpr hcores
    rw [← List.filter_append, hmade, List.filter_append, hoption, hlines, List.nil_append]
  have hwithin := calls_within hcores hcall hprefix
  have hudp := udp_said hcall hfree hwithin
  have htcp := tcp_said hcall hfree hwithin
  rw [contents_said hcores hcall hprefix] at hudp htcp
  rw [← (unbundled hcall (calls_unbundled hcores hcall hprefix)).2] at hudp
  exact ⟨g, hargs, _, hcommands, hudp, htcp⟩

/-- From the lines of the input to the receivers. The commands so far and those still to
come are the commands of the input; by the protocol that the arguments choose, the receivers
read what the commands so far say, and by the other nothing. -/
theorem commands_received :
    ∃ g : Arguments.Globals, Arguments.processArguments {} argv = .ok (.returned g) ∧
      ∃ commands packets,
        commands ++ (Input.performed s.todo).filter Call.isCore = Session.lineCalls stdin ∧
        ReadByUdp trace s
          (if g.useUdp = true then commands.filterMap (Call.content decibels baseAddress) else [])
          packets ∧
        Application.ConnectionsSay (appTrace trace) s.app
          (if g.useUdp = false then commands.filterMap (Call.content decibels baseAddress)
            else []) := by
  obtain ⟨g, hargs, commands, hcommands, hudp, htcp⟩ := commands_said hmain h
  obtain ⟨packets, hpackets⟩ := readByUdp_run h hudp
  exact ⟨g, hargs, commands, packets, hcommands, hpackets,
    Application.connections_say (app_run h) htcp⟩

end

/-- `am_client -p udp /am`, and a line that mutes. -/
theorem commands_received_of_mute :
    ∃ actions trace s,
      Run (step fun _ => .float 0) (init (ascii "/am") actions) trace s ∧
      s.todo = [] ∧ s.app.udp.client.started.map Msg.bytes = [muteMessage (ascii "/am") true] ∧
      ∃ g : Arguments.Globals, Arguments.processArguments {} [cstr (ascii "am_client"),
        cstr (ascii "-p"), cstr (ascii "udp"), cstr (ascii "/am")] = .ok (.returned g) ∧
        ∃ commands packets,
          commands ++ (Input.performed s.todo).filter Call.isCore =
            Session.lineCalls (ascii "mute true\n") ∧
          ReadByUdp trace s
            (if g.useUdp = true then
              commands.filterMap (Call.content (fun _ => .float 0) (ascii "/am")) else [])
            packets ∧
          Application.ConnectionsSay (appTrace trace) s.app
            (if g.useUdp = false then
              commands.filterMap (Call.content (fun _ => .float 0) (ascii "/am")) else []) := by
  have hmain : Session.main [cstr (ascii "am_client"), cstr (ascii "-p"), cstr (ascii "udp"),
      cstr (ascii "/am")] (ascii "mute true\n") = .ok (.talks (ascii "/am") (ascii "127.0.0.1")
        (Session.greeting (ascii "/am") ++ [.call (.setOption .CORE_USE_UDP), Session.prompt,
          .call (.setMute true), Session.prompt, .out (ascii "\n")])) := by decide +kernel
  obtain ⟨trace, s, h, htodo, hstarted⟩ := run_of_record (step fun _ => .float 0)
    (init (ascii "/am")
      (Session.greeting (ascii "/am") ++ [.call (.setOption .CORE_USE_UDP), Session.prompt,
        .call (.setMute true), Session.prompt, .out (ascii "\n")]))
    [.act, .act, .act, .act, .act,
      .udp (.callSend (muteMessage (ascii "/am") true)), .udp .testThread, .udp .setRunning,
      .udp (.createThread true), .udp (.resolved ()), .udp .start, .udp .post, .act, .act,
      .udp .setReady, .udp (.handle .doSend)]
    (fun _ s => s.todo = [] ∧
      s.app.udp.client.started.map Msg.bytes = [muteMessage (ascii "/am") true])
    (by decide +kernel)
  exact ⟨_, trace, s, h, htodo, hstarted, commands_received hmain h⟩

end AmClient.Program
