import AmClient.Application.Finishing
import AmClient.Lifecycle.Ending

/-!
# am_client behind its last command

At the end of `main` `am` is destroyed, and with it the TCP client and then the UDP client,
while the IO threads may have messages to send. What the receivers get meanwhile is still a
beginning of the commands; and the process can end without anything more being sent.
-/

namespace AmClient.Ending
open Foundation Osc Client CommandLine
open Application (TcpPart TcpEvent UdpPart UdpEvent ThreadsCreated)
open Lifecycle.Destruction (endStep inTurn Ends CanEnd Follows Images tcpImage tcpSame TcpCut)
set_option autoImplicit false

abbrev TcpEnd := Lifecycle.Destruction.State Tcp.Closing.State Tcp.Resolved
abbrev TcpEndEvent := Lifecycle.Destruction.Event Tcp.Closing.Event Tcp.Resolved
abbrev UdpEnd := Lifecycle.Destruction.State Udp.State Unit
abbrev UdpEndEvent := Lifecycle.Destruction.Event Udp.Event Unit

structure State where
  tcp : TcpEnd
  udp : UdpEnd

inductive Event where
  | tcp (e : TcpEndEvent)
  | udp (e : UdpEndEvent)

/-- The class as its destructor finds it. -/
def entered {σ τ α : Type} (client : τ) (s : Lifecycle.State σ α) :
    Lifecycle.Destruction.State τ α where
  threads := { client := client, serviceIsReady := s.serviceIsReady,
               threadIsRunning := s.threadIsRunning, app := s.app, io := s.io }

def ofApp (s : Application.State) : State where
  tcp := entered { client := s.tcp.client } s.tcp
  udp := entered s.udp.client s.udp

def udpMay (s : State) : UdpEndEvent → Bool
  | .destroy => s.tcp.dtor = .finished
  | _ => true

/-- `delete tcp_client_; delete udp_client_;` -/
def step (s : State) : Event → Option State
  | .tcp e => (endStep Lifecycle.Destruction.tcp inTurn s.tcp e).map fun t => { s with tcp := t }
  | .udp e =>
    if udpMay s e then
      (endStep Lifecycle.Destruction.udp (fun _ _ => true) s.udp e).map fun t => { s with udp := t }
    else none

def Event.tcpOf : Event → Option TcpEndEvent
  | .tcp e => some e
  | _ => none

def Event.udpOf : Event → Option UdpEndEvent
  | .udp e => some e
  | _ => none

/-- The steps of a client. -/
def tcpPart (trace : List (State × Event)) : List (TcpEnd × TcpEndEvent) :=
  Run.projected State.tcp (fun _ e => e.tcpOf) trace

def udpPart (trace : List (State × Event)) : List (UdpEnd × UdpEndEvent) :=
  Run.projected State.udp (fun _ e => e.udpOf) trace

section
variable {s₀ s : State} {trace : List (State × Event)}

theorem tcp_run (h : Run step s₀ trace s) :
    Run (endStep Lifecycle.Destruction.tcp inTurn) s₀.tcp (tcpPart trace) s.tcp := by
  refine h.project (I := fun _ => True) State.tcp (fun _ e => e.tcpOf) trivial
    (fun _ _ => trivial) ?_ ?_
  · intro s e t _ hstep hlabel
    cases e with
    | tcp e => cases hlabel
    | udp e =>
      obtain ⟨_, hmap⟩ := Option.ite_none_right_eq_some.mp hstep
      obtain ⟨u, _, rfl⟩ := Option.map_eq_some_iff.mp hmap
      rfl
  · intro s e t k _ hstep hlabel
    cases e with
    | tcp e =>
      obtain rfl := Option.some.inj hlabel
      obtain ⟨u, hu, rfl⟩ := Option.map_eq_some_iff.mp hstep
      exact hu
    | udp e => cases hlabel

theorem udp_run (h : Run step s₀ trace s) :
    Run (endStep Lifecycle.Destruction.udp fun _ _ => true) s₀.udp (udpPart trace) s.udp := by
  refine h.project (I := fun _ => True) State.udp (fun _ e => e.udpOf) trivial
    (fun _ _ => trivial) ?_ ?_
  · intro s e t _ hstep hlabel
    cases e with
    | tcp e =>
      obtain ⟨u, _, rfl⟩ := Option.map_eq_some_iff.mp hstep
      rfl
    | udp e => cases hlabel
  · intro s e t k _ hstep hlabel
    cases e with
    | tcp e => cases hlabel
    | udp e =>
      obtain rfl := Option.some.inj hlabel
      obtain ⟨_, hmap⟩ := Option.ite_none_right_eq_some.mp hstep
      obtain ⟨u, hu, rfl⟩ := Option.map_eq_some_iff.mp hmap
      exact hu

end

theorem ends_entered {σ τ α : Type} {s : Lifecycle.State σ α} (hone : Lifecycle.OneThread s)
    (hidle : s.app = .idle) (client : τ) : Ends (entered client s) := by
  refine ⟨hidle, ?_, nofun, nofun⟩
  intro hready
  have hrun := hone.ready.mp hready
  change Lifecycle.Destruction.joinable s.io = true
  rw [hrun]
  rfl

theorem lift_tcp {s : State} {later : List (TcpEnd × TcpEndEvent)} {t : TcpEnd}
    (h : Run (endStep Lifecycle.Destruction.tcp inTurn) s.tcp later t) :
    ∃ more, Run step s more { s with tcp := t } := by
  induction h with
  | start => exact ⟨[], .start⟩
  | @next trace u v e _ hstep ih =>
    obtain ⟨more, hmore⟩ := ih
    have hnext : step { s with tcp := u } (.tcp e) = some { s with tcp := v } := by
      simp [step, hstep]
    exact ⟨_, hmore.next hnext⟩

theorem lift_udp {s : State} (hfinished : s.tcp.dtor = .finished)
    {later : List (UdpEnd × UdpEndEvent)} {t : UdpEnd}
    (h : Run (endStep Lifecycle.Destruction.udp fun _ _ => true) s.udp later t) :
    ∃ more, Run step s more { s with udp := t } := by
  induction h with
  | start => exact ⟨[], .start⟩
  | @next trace u v e _ hstep ih =>
    obtain ⟨more, hmore⟩ := ih
    have hmay : udpMay { s with udp := u } e = true := by
      cases e with
      | destroy => simpa [udpMay] using hfinished
      | _ => rfl
    have hnext : step { s with udp := u } (.udp e) = some { s with udp := v } := by
      simp [step, hmay, hstep]
    exact ⟨_, hmore.next hnext⟩

variable {decibels : BitVec 32 → Decibels}

/-- Whatever is still to be sent when `am` is destroyed, and wherever the threads and the
destructors are, both destructors can come to their ends with nothing more being sent. -/
theorem process_can_end {baseAddress : Bytes}
    {trace : List (Application.State × Application.Event)} {s : Application.State}
    (h : Run (Application.step decibels) (Application.init baseAddress) trace s) (hret : s.Returned)
    {ending : List (State × Event)} {e : State} (hend : Run step (ofApp s) ending e) :
    ∃ later t, Run step e later t ∧ t.tcp.dtor = .finished ∧ t.udp.dtor = .finished ∧
      t.tcp.threads.client.client = e.tcp.threads.client.client ∧
      t.udp.threads.client = e.udp.threads.client := by
  obtain ⟨_, _, _, htcpIdle, hudpIdle⟩ := hret
  have htcpEnds : Ends (ofApp s).tcp :=
    ends_entered (Lifecycle.oneThread_run (Application.tcp_run h)) htcpIdle _
  have hudpEnds : Ends (ofApp s).udp :=
    ends_entered (Lifecycle.oneThread_run (Application.udp_run h)) hudpIdle _
  have htcpEnd : CanEnd Lifecycle.Destruction.tcp inTurn Tcp.Closing.State.client e.tcp :=
    (Lifecycle.Destruction.ends_run htcpEnds (tcp_run hend)).can_end fun _ => rfl
  have hudpEnd : CanEnd Lifecycle.Destruction.udp (fun _ _ => true) id e.udp :=
    (Lifecycle.Destruction.ends_run hudpEnds (udp_run hend)).can_end fun _ => rfl
  obtain ⟨_, tcpEnd, htcp, htcpFinished, htcpSame⟩ := htcpEnd
  obtain ⟨_, udpEnd, hudp, hudpFinished, hudpSame⟩ := hudpEnd
  obtain ⟨first, hfirst⟩ := lift_tcp htcp
  obtain ⟨second, hsecond⟩ := lift_udp (s := { e with tcp := tcpEnd }) htcpFinished hudp
  exact ⟨second ++ first, _, hfirst.append hsecond, htcpFinished, hudpFinished, htcpSame, hudpSame⟩

/-- The destructor joins a thread that has not run the `DoSend` of a `Load`. -/
theorem process_can_end_of_load :
    ∃ trace s ending e,
      Run (Application.step fun _ => .float 0) (Application.init (ascii "/am")) trace s ∧
      s.tcp.client.posted.map Msg.bytes = [loadMessage (ascii "/am")] ∧
      Run step (ofApp s) ending e ∧ e.tcp.dtor = .joining ∧
      ∃ later t, Run step e later t ∧ t.tcp.dtor = .finished ∧ t.udp.dtor = .finished ∧
        t.tcp.threads.client.client = e.tcp.threads.client.client ∧
        t.udp.threads.client = e.udp.threads.client := by
  obtain ⟨trace, s, h, hposted, hret, r, hr, hjoining⟩ := run_of_record
    (Application.step fun _ => .float 0) (Application.init (ascii "/am"))
    [.call .load, .tcp (.callSend (loadMessage (ascii "/am"))), .tcp .testThread,
      .tcp .setRunning, .tcp (.createThread true), .tcp (.resolved ⟨[⟨1, 15002⟩], by decide⟩),
      .tcp .start, .tcp .setReady, .tcp .post]
    (fun _ s => s.tcp.client.posted.map Msg.bytes = [loadMessage (ascii "/am")] ∧ s.Returned ∧
      ∃ r ∈ record step [] (ofApp s)
        [.tcp .destroy, .tcp .readRunning, .tcp .readReady, .tcp .close, .tcp .stop],
        r.2.tcp.dtor = .joining)
    (by decide +kernel)
  have hend := run_of_events step (ofApp s) _ hr
  exact ⟨trace, s, r.1, r.2, h, hposted, hend, hjoining, process_can_end h hret hend⟩

/-- The condition on a write that completes, as before the end. -/
def KeepsUp (s : State) : Event → Prop
  | .tcp (.thread (.handle x)) => Lifecycle.Destruction.KeepsUp s.tcp.threads.client x
  | _ => True

/-- `am` goes on as if nothing was destroyed, and hands over the same. -/
structure GoesOn (decibels : BitVec 32 → Decibels) (s : Application.State)
    (ending : List (State × Event)) (e : State) (tcp : List (TcpPart × TcpEvent))
    (udp : List (UdpPart × UdpEvent)) (t : Application.State) : Prop where
  continues : Application.Continues decibels s tcp udp t
  returned : t.Returned
  tcpIo : ∀ q ∈ tcp, q.2.byIo = true
  udpIo : ∀ q ∈ udp, q.2.byIo = true
  datagrams : e.udp.threads.client = t.udp.client
  conns : ∀ c ∈ e.tcp.threads.client.client.conns,
    (∃ d ∈ t.tcp.client.conns, d.accepted = c.accepted) ∨ c.accepted = []
  keepsUp : (∀ p ∈ ending, KeepsUp p.1 p.2) →
    ∀ p ∈ Lifecycle.tcpSteps tcp, Tcp.KeepsUp p.1 p.2

/-- What `AsyncTCPClient` does in the run that goes on it does in the ending. -/
theorem keepsUp_steps {ending : List (State × Event)} {tcp : List (TcpPart × TcpEvent)}
    (hio : ∀ q ∈ tcp, q.2.byIo = true)
    (himages : ∀ q ∈ tcp, ∃ p ∈ tcpPart ending, Images tcpImage p q)
    (hkeeps : ∀ p ∈ ending, KeepsUp p.1 p.2) :
    ∀ p ∈ Lifecycle.tcpSteps tcp, Tcp.KeepsUp p.1 p.2 := by
  intro p hp
  obtain ⟨⟨u, k⟩, hq, hmap⟩ := List.mem_filterMap.mp hp
  obtain ⟨e, hperformed, rfl⟩ := Option.map_eq_some_iff.mp hmap
  cases k with
  | post => cases hio _ hq
  | start =>
    simp only [Lifecycle.performed] at hperformed
    split at hperformed
    · obtain rfl := Option.some.inj hperformed
      trivial
    · cases hperformed
  | handle k =>
    obtain rfl := Option.some.inj hperformed
    obtain ⟨⟨d, x⟩, hd, himage⟩ := himages _ hq
    obtain ⟨y, rfl, hkeepsUp⟩ := himage k rfl
    obtain ⟨⟨v, f⟩, hv, hlabel⟩ := List.mem_filterMap.mp hd
    obtain ⟨x, hx, heq⟩ := Option.map_eq_some_iff.mp hlabel
    obtain ⟨rfl, rfl⟩ := Prod.mk.inj heq
    have hk := hkeeps _ hv
    cases f with
    | udp => cases hx
    | tcp f =>
      obtain rfl := Option.some.inj hx
      exact hkeepsUp hk
  | _ => cases hperformed

theorem goes_on {baseAddress : Bytes}
    {trace : List (Application.State × Application.Event)} {s : Application.State}
    (h : Run (Application.step decibels) (Application.init baseAddress) trace s)
    (hret : s.Returned) {ending : List (State × Event)} {e : State}
    (hend : Run step (ofApp s) ending e) :
    ∃ tcp udp t, GoesOn decibels s ending e tcp udp t := by
  have htcpStart : Follows tcpSame TcpCut (ofApp s).tcp s.tcp := .inr ⟨⟨rfl, rfl⟩, .inr rfl⟩
  have hudpStart : Follows Eq (fun _ _ => False) (ofApp s).udp s.udp := .inr ⟨rfl, .inr rfl⟩
  obtain ⟨tcp, tcpEnd, htcp, htcpFollows, himages⟩ :=
    Lifecycle.Destruction.tcp_mirrors.follow (Application.tcp_run h) htcpStart (tcp_run hend)
  obtain ⟨udp, udpEnd, hudp, hudpFollows, _⟩ :=
    Lifecycle.Destruction.udp_mirrors.follow (Application.udp_run h) hudpStart (udp_run hend)
  have htcpIo := Lifecycle.ioRun_byIo htcp
  have hudpIo := Lifecycle.ioRun_byIo hudp
  have hboth := (Application.lift_tcp decibels (Lifecycle.ioRun_run htcp)
    fun q hq => Lifecycle.Event.byIo_waits (htcpIo q hq)).trans
      (Application.lift_udp decibels (s := { s with tcp := tcpEnd }) (Lifecycle.ioRun_run hudp)
        fun q hq => Lifecycle.Event.byIo_waits (hudpIo q hq))
  rw [List.nil_append, List.append_nil] at hboth
  obtain ⟨hmain, hnone, hnone', hidle, hidle'⟩ := hret
  refine ⟨tcp, udp, _, hboth, ⟨hmain, hnone, hnone', ?_, ?_⟩, htcpIo, hudpIo, ?_, ?_,
    keepsUp_steps htcpIo himages⟩
  · exact (Lifecycle.ioRun_app htcp).trans hidle
  · exact (Lifecycle.ioRun_app hudp).trans hidle'
  · rcases hudpFollows with ⟨hcut, _⟩ | ⟨hsame, _⟩
    · exact hcut.elim
    · exact hsame
  · intro c hc
    rcases htcpFollows with ⟨hcut, _⟩ | ⟨⟨hsame, _⟩, _⟩
    · exact hcut.silent.accepted hc
    · rw [hsame] at hc
      exact .inl ⟨c, hc, rfl⟩

/-- What a receiver reads from all datagrams, up to the end. -/
structure ReadByUdp (trace : List (Program.State × Program.Event)) (e : State)
    (all packets : List Packet) : Prop where
  decoded : e.udp.threads.client.started.map (fun m => Packet.decode m.bytes) = packets.map some
  in_order : packets.Sublist all
  beginning : ThreadsCreated (Application.udpPart (Program.appTrace trace)) → packets <+: all
  complete : ThreadsCreated (Application.udpPart (Program.appTrace trace)) →
    e.udp.threads.client.posted = [] → e.udp.threads.client.writeMsgs = [] → packets = all

/-- What a receiver reads from a connection, up to the end. -/
def ConnectionsSay (trace : List (Program.State × Program.Event)) (ending : List (State × Event))
    (e : State) (all : List Packet) : Prop :=
  ThreadsCreated (Application.tcpPart (Program.appTrace trace)) →
    (∀ p ∈ Lifecycle.tcpSteps (Application.tcpPart (Program.appTrace trace)), Tcp.KeepsUp p.1 p.2) →
      (∀ p ∈ ending, KeepsUp p.1 p.2) → ∀ c ∈ e.tcp.threads.client.client.conns,
        ∃ is : List Nat, is.Pairwise (· ≤ ·) ∧ (∀ i ∈ is, i < all.length) ∧
          (deframe c.accepted).1.map Packet.decode = is.map fun i => all[i]?

/-- From the arguments and the lines of the input to the receivers, up to the end of the
process: what they read is of the commands of the input, in their order. -/
theorem session_received {argv : List CString} {stdin baseAddress hostAddress : Bytes}
    {actions : List Input.Action}
    (hmain : Session.main argv stdin = .ok (.talks baseAddress hostAddress actions))
    {trace : List (Program.State × Program.Event)} {s : Program.State}
    (h : Run (Program.step decibels) (Program.init baseAddress actions) trace s)
    (hdone : s.todo = []) (hret : s.app.Returned) {ending : List (State × Event)} {e : State}
    (hend : Run step (ofApp s.app) ending e) :
    ∃ g : Arguments.Globals, Arguments.processArguments {} argv = .ok (.returned g) ∧
      ∃ packets,
        ReadByUdp trace e (if g.useUdp = true then
          (Session.lineCalls stdin).filterMap (Call.content decibels baseAddress) else []) packets ∧
        ConnectionsSay trace ending e (if g.useUdp = false then
          (Session.lineCalls stdin).filterMap (Call.content decibels baseAddress) else []) := by
  obtain ⟨_, _, t, hgoes⟩ := goes_on (Program.app_run h) hret hend
  obtain ⟨more, hmore, rfl, rfl⟩ := Program.Continues.of_app hgoes.continues
  obtain ⟨g, hargs, commands, packets, hcommands, hudp, htcp⟩ :=
    Program.commands_received hmain (h.append hmore)
  rw [hdone, Input.performed, List.filterMap_nil, List.filter_nil, List.append_nil] at hcommands
  subst hcommands
  have hcreated {σ ε α : Type} {early later : List (Lifecycle.State σ α × Lifecycle.Event ε α)}
      (hearly : ThreadsCreated early) (hlater : ∀ q ∈ later, q.2.byIo = true) :
      ThreadsCreated (later ++ early) :=
    List.forall_mem_append.mpr ⟨fun q hq => Lifecycle.Event.byIo_keeps (hlater q hq), hearly⟩
  refine ⟨g, hargs, packets, ⟨?_, hudp.in_order, ?_, ?_⟩, ?_⟩
  · rw [hgoes.datagrams]
    exact hudp.decoded
  · intro hthreads
    apply hudp.beginning
    rw [Program.udpPart_append]
    exact hcreated hthreads hgoes.udpIo
  · intro hthreads hnone hempty
    rw [hgoes.datagrams] at hnone hempty
    apply hudp.complete _ hgoes.returned hnone hempty
    rw [Program.udpPart_append]
    exact hcreated hthreads hgoes.udpIo
  · intro hthreads hbefore hkeeps c hc
    rcases hgoes.conns c hc with ⟨d, hd, hsame⟩ | hnone
    · rw [← hsame]
      apply htcp _ _ d hd
      · rw [Program.tcpPart_append]
        exact hcreated hthreads hgoes.tcpIo
      · rw [Program.tcpPart_append]
        intro p hp
        rw [Lifecycle.tcpSteps, Run.projected, List.filterMap_append] at hp
        rcases List.mem_append.mp hp with hp | hp
        · exact hgoes.keepsUp hkeeps p hp
        · exact hbefore p hp
    · rw [hnone]
      exact ⟨[], List.Pairwise.nil, by simp, rfl⟩

/-- `am_client -p udp /am` and a line that mutes; the datagram is sent when the destructor of
the TCP client has found no thread. -/
theorem session_received_of_mute :
    ∃ actions trace s ending e,
      Run (Program.step fun _ => .float 0) (Program.init (ascii "/am") actions) trace s ∧
      s.app.udp.client.started = [] ∧ Run step (ofApp s.app) ending e ∧ e.udp.dtor = .finished ∧
      e.udp.threads.client.started.map Msg.bytes = [muteMessage (ascii "/am") true] ∧
      ∃ g : Arguments.Globals, Arguments.processArguments {} [cstr (ascii "am_client"),
        cstr (ascii "-p"), cstr (ascii "udp"), cstr (ascii "/am")] = .ok (.returned g) ∧
        ∃ packets,
          ReadByUdp trace e (if g.useUdp = true then
            (Session.lineCalls (ascii "mute true\n")).filterMap
              (Call.content (fun _ => .float 0) (ascii "/am")) else []) packets ∧
          ConnectionsSay trace ending e (if g.useUdp = false then
            (Session.lineCalls (ascii "mute true\n")).filterMap
              (Call.content (fun _ => .float 0) (ascii "/am")) else []) := by
  have hmain : Session.main [cstr (ascii "am_client"), cstr (ascii "-p"), cstr (ascii "udp"),
      cstr (ascii "/am")] (ascii "mute true\n") = .ok (.talks (ascii "/am") (ascii "127.0.0.1")
        (Session.greeting (ascii "/am") ++ [.call (.setOption .CORE_USE_UDP), Session.prompt,
          .call (.setMute true), Session.prompt, .out (ascii "\n")])) := by decide +kernel
  obtain ⟨trace, s, h, hbefore, hdone, hret, r, hr, hfinished, hstarted⟩ := run_of_record
    (Program.step fun _ => .float 0) (Program.init (ascii "/am")
      (Session.greeting (ascii "/am") ++ [.call (.setOption .CORE_USE_UDP), Session.prompt,
        .call (.setMute true), Session.prompt, .out (ascii "\n")]))
    [.act, .act, .act, .act, .act,
      .udp (.callSend (muteMessage (ascii "/am") true)), .udp .testThread, .udp .setRunning,
      .udp (.createThread true), .udp (.resolved ()), .udp .start, .udp .post, .act, .act,
      .udp .setReady]
    (fun _ s => s.app.udp.client.started = [] ∧ s.todo = [] ∧ s.app.Returned ∧
      ∃ r ∈ record step [] (ofApp s.app)
        [.tcp .destroy, .tcp .readRunning, .udp .destroy, .udp .readRunning,
          .udp (.thread (.handle .doSend)), .udp .readReady, .udp .close, .udp .stop,
          .udp .runReturns, .udp (.thread .reset), .udp (.thread .clearReady),
          .udp (.thread .clearRunning), .udp .join],
        r.2.udp.dtor = .finished ∧
          r.2.udp.threads.client.started.map Msg.bytes = [muteMessage (ascii "/am") true])
    (by decide +kernel)
  have hend := run_of_events step (ofApp s.app) _ hr
  exact ⟨_, trace, s, r.1, r.2, h, hbefore, hend, hfinished, hstarted,
    session_received hmain h hdone hret hend⟩

/-- Once `BlockUntilQueuesAreEmpty` has left nothing behind, `am` can be destroyed: nothing
more is sent, and all that the calls have sent has been handed over. -/
theorem received_behind_block {baseAddress : Bytes}
    {trace : List (Application.State × Application.Event)} {s : Application.State}
    (h : Run (Application.step decibels) (Application.init baseAddress) trace s)
    (hemptied : Application.Emptied s) {ending : List (State × Event)} {e : State}
    (hend : Run step (ofApp s) ending e) :
    e.tcp.threads.client.client.conns = s.tcp.client.conns ∧
      e.udp.threads.client.started = s.udp.client.started ∧
      (ThreadsCreated (Application.udpPart trace) →
        e.udp.threads.client.started.map Msg.bytes = s.calls.udpSent) ∧
      (ThreadsCreated (Application.tcpPart trace) →
        (∀ p ∈ Application.tcpPart trace, p.2.costly Tcp.Event.falters = false) →
          e.tcp.threads.client.client.delivered =
            frames (Application.routedTcp decibels (Application.callSteps trace))) := by
  obtain ⟨hret, htcp, hudp⟩ := hemptied
  have htcpRun := Application.tcp_run h
  have hudpRun := Application.udp_run h
  have hphase := Lifecycle.udp_phase_run (Lifecycle.udp_client_run hudpRun)
  have hconns : e.tcp.threads.client.client.conns = s.tcp.client.conns :=
    Lifecycle.Destruction.tcp_left_alone (tcp_run hend)
      (Lifecycle.Destruction.tcp_arrived htcpRun hret.2.2.2.1 htcp.posted)
      ⟨htcp.posted, htcp.pending, rfl⟩
  have hstarted : e.udp.threads.client.started = s.udp.client.started :=
    Lifecycle.Destruction.udp_left_alone (udp_run hend)
      (Lifecycle.Destruction.udp_arrived hudpRun hret.2.2.2.2 hudp.posted)
      ⟨hudp.posted, hphase.pending_nil hudp.queue⟩
  refine ⟨hconns, hstarted, ?_, ?_⟩
  · intro hcreated
    rw [hstarted]
    exact (Application.handedOver_run h).all hcreated hret hudp.posted hudp.queue
  · intro hcreated hok
    rw [Tcp.State.delivered, hconns]
    exact (Application.streamed_run h hcreated hok).all hret htcp.posted htcp.queue

/-- A message by each protocol; the threads have handed both over when `am` is destroyed, and
the destructor of the TCP client is past `DoClose`. -/
theorem received_behind_block_of_two :
    ∃ trace s ending e,
      Run (Application.step fun _ => .float 0) (Application.init (ascii "/am")) trace s ∧
      Run step (ofApp s) ending e ∧ e.tcp.threads.client.closed = true ∧
      s.calls.udpSent = [loadMessage (ascii "/am")] ∧
      Application.routedTcp (fun _ => .float 0) (Application.callSteps trace) =
        [muteMessage (ascii "/am") true] ∧
      e.tcp.threads.client.client.conns = s.tcp.client.conns ∧
      e.udp.threads.client.started = s.udp.client.started ∧
      (ThreadsCreated (Application.udpPart trace) →
        e.udp.threads.client.started.map Msg.bytes = s.calls.udpSent) ∧
      (ThreadsCreated (Application.tcpPart trace) →
        (∀ p ∈ Application.tcpPart trace, p.2.costly Tcp.Event.falters = false) →
          e.tcp.threads.client.client.delivered =
            frames (Application.routedTcp (fun _ => .float 0) (Application.callSteps trace))) := by
  obtain ⟨trace, s, h, hret, htcp, htcpFree, hudp, hudpSent, hsent, hrouted, r, hr, hclosed⟩ :=
    run_of_record (Application.step fun _ => .float 0) (Application.init (ascii "/am"))
    [.call (.setMute true), .tcp (.callSend (muteMessage (ascii "/am") true)), .tcp .testThread,
      .tcp .setRunning, .tcp (.createThread true), .tcp (.resolved ⟨[⟨1, 15002⟩], by decide⟩),
      .tcp .start, .tcp .setReady, .tcp .post, .tcp (.handle .doSend),
      .tcp (.handle (.handleConnect ⟨1, 15002⟩ [] .success 0)),
      .tcp (.handle
        (.handleWrite 0 (Tcp.framed ⟨0, muteMessage (ascii "/am") true⟩) .success 36 0)),
      .call (.setOption .CORE_USE_UDP), .call .load, .udp (.callSend (loadMessage (ascii "/am"))),
      .udp .testThread, .udp .setRunning, .udp (.createThread true), .udp (.resolved ()),
      .udp .start, .udp .setReady, .udp .post, .udp (.handle .doSend),
      .udp (.handle (.handlerWrite ⟨0, loadMessage (ascii "/am")⟩ false))]
    (fun trace s => s.Returned ∧
      (s.tcp.client.posted = [] ∧ s.tcp.client.writeMsgs = [] ∧ s.tcp.client.pending = []) ∧
      s.tcp.client.mustWait = false ∧
      (s.udp.client.posted = [] ∧ s.udp.client.writeMsgs = [] ∧ s.udp.client.mustWait = false) ∧
      s.udp.client.started = Udp.sendOrder s.udp.client.sent ∧
      s.calls.udpSent = [loadMessage (ascii "/am")] ∧
      Application.routedTcp (fun _ => .float 0) (Application.callSteps trace) =
        [muteMessage (ascii "/am") true] ∧
      ∃ r ∈ record step [] (ofApp s)
        [.tcp .destroy, .tcp .readRunning, .tcp .readReady, .tcp .close,
          .tcp (.thread (.handle .doClose))],
        r.2.tcp.threads.client.closed = true)
    (by decide +kernel)
  have hend := run_of_events step (ofApp s) _ hr
  have hemptied : Application.Emptied s :=
    ⟨hret, ⟨htcp.1, htcp.2.1, htcp.2.2, htcpFree⟩, ⟨hudp.1, hudp.2.1, hudp.2.2, hudpSent⟩⟩
  exact ⟨trace, s, r.1, r.2, h, hend, hclosed, hsent, hrouted,
    received_behind_block h hemptied hend⟩

end AmClient.Ending
