import AmClient.Application.Program
import AmClient.Application.Waiting

/-!
# am_client to its end

No call of am_client waits for an IO thread. So wherever the three threads are, as long as
no `resolve` throws, no datagram fails and every thread can be created, `main` can go on to
its end, and the IO threads then to empty queues.
-/

namespace AmClient.Application
open Foundation Client
open Lifecycle (Smooth smooth_nil smooth_sends)
set_option autoImplicit false

variable {decibels : BitVec 32 → Decibels}

/-- While nothing is blocked the application thread is in `Send` or between two calls. -/
def Sending (s : State) : Prop :=
  s.main = .calling → s.tcp.app.sends ∧ s.udp.app.sends

theorem sending_run {baseAddress : Bytes} {trace : List (State × Event)} {s : State}
    (h : Run (step decibels) (init baseAddress) trace s) : Sending s := by
  have hinv : Placed s ∧ Sending s := by
    refine h.invariant (I := fun s => Placed s ∧ Sending s)
      ⟨@placed_run decibels baseAddress [] _ .start, fun _ => ⟨.inl rfl, .inl rfl⟩⟩ ?_
    rintro s e t ⟨hplaced, hsending⟩ hstep
    refine ⟨hplaced.move (step_move hstep), ?_⟩
    cases step_move hstep with
    | call => exact hsending
    | @tcp e _ hmay hpart =>
      have hblock : e ≠ .callBlock := by
        rintro rfl
        cases hmay
      intro hmain
      obtain ⟨htcp, hudp⟩ := hsending hmain
      exact ⟨Lifecycle.step_sends hpart hblock htcp, hudp⟩
    | @udp e _ hmay hpart =>
      have hblock : e ≠ .callBlock := by
        rintro rfl
        cases hmay
      intro hmain
      obtain ⟨htcp, hudp⟩ := hsending hmain
      exact ⟨htcp, Lifecycle.step_sends hpart hblock hudp⟩
    | block | blockUdp => exact nofun
    | unblock hmain hidle => exact fun _ => ⟨.inl (hplaced.inUdp hmain).1, .inl hidle⟩
  exact hinv.2

theorem tcp_returns (decibels : BitVec 32 → Decibels) {s : State} (h : s.tcp.app.sends) :
    ∃ later t, Continues decibels s later [] { s with tcp := t } ∧ t.app = .idle ∧
      Smooth Tcp.Event.falters later := by
  obtain ⟨later, t, hlater, hidle, hsends⟩ := Lifecycle.send_returns (T := Lifecycle.tcp) h
  have hwaits : ∀ p ∈ later, p.2.waits = true :=
    fun p hp => Lifecycle.Event.sends_waits (hsends p hp)
  exact ⟨later, t, lift_tcp decibels hlater hwaits, hidle, smooth_sends _ hsends⟩

theorem udp_returns (decibels : BitVec 32 → Decibels) {s : State} (h : s.udp.app.sends) :
    ∃ later t, Continues decibels s [] later { s with udp := t } ∧ t.app = .idle ∧
      Smooth Udp.Event.failed later := by
  obtain ⟨later, t, hlater, hidle, hsends⟩ := Lifecycle.send_returns (T := Lifecycle.udp) h
  have hwaits : ∀ p ∈ later, p.2.waits = true :=
    fun p hp => Lifecycle.Event.sends_waits (hsends p hp)
  exact ⟨later, t, lift_udp decibels hlater hwaits, hidle, smooth_sends _ hsends⟩

theorem tcp_jobs_return (decibels : BitVec 32 → Decibels) {s : State} (htcp : s.tcp.app = .idle)
    (hudp : s.udp.app = .idle) :
    ∃ later t, Continues decibels s later [] { s with tcp := t, tcpJobs := [] } ∧ t.app = .idle ∧
      Smooth Tcp.Event.falters later := by
  induction hjobs : s.tcpJobs generalizing s with
  | nil =>
    have hsame : { s with tcpJobs := [] } = s := by rw [← hjobs]
    refine ⟨[], s.tcp, ?_, htcp, smooth_nil⟩
    rw [hsame]
    exact .refl s
  | cons msg jobs ih =>
    have hcall : step decibels s (.tcp (.callSend msg)) =
        some { s with tcp := { s.tcp with app := .testing msg }, tcpJobs := jobs } := by
      simp [step, State.tcpMay, State.tcpJobsAfter, Lifecycle.step, hjobs, htcp, hudp]
    obtain ⟨sent, t, hsent, hidle, hsmooth⟩ := tcp_returns decibels
      (s := { s with tcp := { s.tcp with app := .testing msg }, tcpJobs := jobs }) (.inr rfl)
    obtain ⟨later, u, hlater, hidle', hsmooth'⟩ :=
      ih (s := { s with tcp := t, tcpJobs := jobs }) hidle hudp rfl
    refine ⟨_, u, (((Continues.refl s).next_tcp hcall).trans hsent).trans hlater, hidle', ?_⟩
    have hfirst : Smooth Tcp.Event.falters [(s.tcp, (.callSend msg : TcpEvent))] :=
      List.forall_mem_singleton.mpr ⟨rfl, rfl, rfl⟩
    exact (hfirst.append hsmooth).append hsmooth'

theorem udp_jobs_return (decibels : BitVec 32 → Decibels) {s : State} (htcp : s.tcp.app = .idle)
    (hudp : s.udp.app = .idle) :
    ∃ later t, Continues decibels s [] later { s with udp := t, udpJobs := [] } ∧ t.app = .idle ∧
      Smooth Udp.Event.failed later := by
  induction hjobs : s.udpJobs generalizing s with
  | nil =>
    have hsame : { s with udpJobs := [] } = s := by rw [← hjobs]
    refine ⟨[], s.udp, ?_, hudp, smooth_nil⟩
    rw [hsame]
    exact .refl s
  | cons msg jobs ih =>
    have hcall : step decibels s (.udp (.callSend msg)) =
        some { s with udp := { s.udp with app := .testing msg }, udpJobs := jobs } := by
      simp [step, State.udpMay, State.udpJobsAfter, Lifecycle.step, hjobs, htcp, hudp]
    obtain ⟨sent, t, hsent, hidle, hsmooth⟩ := udp_returns decibels
      (s := { s with udp := { s.udp with app := .testing msg }, udpJobs := jobs }) (.inr rfl)
    obtain ⟨later, u, hlater, hidle', hsmooth'⟩ :=
      ih (s := { s with udp := t, udpJobs := jobs }) htcp hidle rfl
    refine ⟨_, u, (((Continues.refl s).next_udp hcall).trans hsent).trans hlater, hidle', ?_⟩
    have hfirst : Smooth Udp.Event.failed [(s.udp, (.callSend msg : UdpEvent))] :=
      List.forall_mem_singleton.mpr ⟨rfl, rfl, rfl⟩
    exact (hfirst.append hsmooth).append hsmooth'

/-- The current call returns. -/
theorem call_returns (decibels : BitVec 32 → Decibels) {s : State} (hmain : s.main = .calling)
    (h : Sending s) :
    ∃ tcpLater udpLater t, Continues decibels s tcpLater udpLater t ∧ t.Returned ∧
      Smooth Tcp.Event.falters tcpLater ∧ Smooth Udp.Event.failed udpLater := by
  obtain ⟨htcp, hudp⟩ := h hmain
  obtain ⟨l₁, t₁, h₁, hidle₁, hsmooth₁⟩ := tcp_returns decibels htcp
  obtain ⟨l₂, t₂, h₂, hidle₂, hsmooth₂⟩ := udp_returns decibels (s := { s with tcp := t₁ }) hudp
  obtain ⟨l₃, t₃, h₃, hidle₃, hsmooth₃⟩ :=
    tcp_jobs_return decibels (s := { s with tcp := t₁, udp := t₂ }) hidle₁ hidle₂
  obtain ⟨l₄, t₄, h₄, hidle₄, hsmooth₄⟩ :=
    udp_jobs_return decibels (s := { s with tcp := t₃, udp := t₂, tcpJobs := [] }) hidle₃ hidle₂
  refine ⟨_, _, _, ((h₁.trans h₂).trans h₃).trans h₄, ⟨hmain, rfl, rfl, hidle₃, hidle₄⟩, ?_, ?_⟩
  · exact ((hsmooth₁.append smooth_nil).append hsmooth₃).append smooth_nil
  · exact ((smooth_nil.append hsmooth₂).append smooth_nil).append hsmooth₄

/-- The IO threads go on to empty queues. -/
theorem queues_empty {baseAddress : Bytes} {trace : List (State × Event)} {s : State}
    (h : Run (step decibels) (init baseAddress) trace s) (hret : s.Returned)
    (htcp : Smooth Tcp.Event.falters (tcpPart trace))
    (hudp : Smooth Udp.Event.failed (udpPart trace)) :
    ∃ tcpLater udpLater t, Continues decibels s tcpLater udpLater t ∧ Emptied t ∧
      ThreadsCreated tcpLater ∧ ThreadsCreated udpLater ∧
      ∀ p ∈ tcpLater, p.2.costly Tcp.Event.falters = false := by
  obtain ⟨tcpLater, tcpEnd, htcpRun, htcpRest⟩ :=
    Lifecycle.tcp_settles (tcp_run h) fun p hp => Lifecycle.Event.ne_throws (htcp p hp).1
  obtain ⟨udpLater, udpEnd, hudpRun, hudpRest⟩ :=
    Lifecycle.udp_settles (udp_run h) (fun p hp => Lifecycle.Event.ne_throws (hudp p hp).1)
      fun p hp => (hudp p hp).2.2
  obtain ⟨hmain, hnone, hnone', hidle, hidle'⟩ := hret
  have hboth := (lift_tcp decibels htcpRun.run htcpRun.waits).trans
    (lift_udp decibels (s := { s with tcp := tcpEnd }) hudpRun.run hudpRun.waits)
  rw [List.nil_append, List.append_nil] at hboth
  refine ⟨_, _, _, hboth, ⟨⟨hmain, hnone, hnone', ?_, ?_⟩, htcpRest, hudpRest⟩, ?_, ?_,
    htcpRun.succeeds⟩
  · exact htcpRun.app.trans hidle
  · exact hudpRun.app.trans hidle'
  · exact fun p hp => Lifecycle.Event.byIo_keeps (htcpRun.byIo p hp)
  · exact fun p hp => Lifecycle.Event.byIo_keeps (hudpRun.byIo p hp)

end AmClient.Application

namespace AmClient.Program
open Foundation Osc Client CommandLine Application
open Lifecycle (Smooth smooth_nil)
set_option autoImplicit false

variable {decibels : BitVec 32 → Decibels}

theorem appTrace_cons {s : State} {e : Event} {k : Application.Event} (h : s.label e = some k)
    (trace : List (State × Event)) : appTrace ((s, e) :: trace) = (s.app, k) :: appTrace trace := by
  simp [appTrace, Run.projected, h]

theorem tcpPart_append (later trace : List (State × Event)) :
    tcpPart (appTrace (later ++ trace)) = tcpPart (appTrace later) ++ tcpPart (appTrace trace) := by
  have happ : appTrace (later ++ trace) = appTrace later ++ appTrace trace := List.filterMap_append
  rw [happ]
  exact List.filterMap_append

theorem udpPart_append (later trace : List (State × Event)) :
    udpPart (appTrace (later ++ trace)) = udpPart (appTrace later) ++ udpPart (appTrace trace) := by
  have happ : appTrace (later ++ trace) = appTrace later ++ appTrace trace := List.filterMap_append
  rw [happ]
  exact List.filterMap_append

/-- A run of the program goes on from `s` to `t`; the two clients take these steps. -/
def Continues (decibels : BitVec 32 → Decibels) (s : State) (tcp : List (TcpPart × TcpEvent))
    (udp : List (UdpPart × UdpEvent)) (t : State) : Prop :=
  ∃ later, Run (step decibels) s later t ∧ tcpPart (appTrace later) = tcp ∧
    udpPart (appTrace later) = udp

theorem Continues.trans {s t u : State} {tcp tcp' : List (TcpPart × TcpEvent)}
    {udp udp' : List (UdpPart × UdpEvent)} (hst : Continues decibels s tcp udp t)
    (htu : Continues decibels t tcp' udp' u) :
    Continues decibels s (tcp' ++ tcp) (udp' ++ udp) u := by
  obtain ⟨more, hmore, rfl, rfl⟩ := hst
  obtain ⟨more', hmore', rfl, rfl⟩ := htu
  exact ⟨more' ++ more, hmore.append hmore', tcpPart_append more' more, udpPart_append more' more⟩

/-- The IO threads go on while `main` does nothing. -/
theorem Continues.of_app {s : State} {tcp : List (TcpPart × TcpEvent)}
    {udp : List (UdpPart × UdpEvent)} {app : Application.State}
    (h : Application.Continues decibels s.app tcp udp app) :
    Continues decibels s tcp udp { s with app := app } := by
  obtain ⟨more, hmore, hin, rfl, rfl⟩ := h
  have hrun : ∃ later,
      Run (step decibels) s later { s with app := app } ∧ appTrace later = more := by
    induction hmore with
    | start => exact ⟨[], .start, rfl⟩
    | @next trace u v e _ hstep ih =>
      obtain ⟨hlast, hbefore⟩ := List.forall_mem_cons.mp hin
      obtain ⟨later, hlater, rfl⟩ := ih hbefore
      cases e with
      | tcp e =>
        have hnext : step decibels { s with app := u } (.tcp e) = some { s with app := v } := by
          simp [step, hstep]
        exact ⟨_, hlater.next hnext, appTrace_cons rfl later⟩
      | udp e =>
        have hnext : step decibels { s with app := u } (.udp e) = some { s with app := v } := by
          simp [step, hstep]
        exact ⟨_, hlater.next hnext, appTrace_cons rfl later⟩
      | _ => cases hlast
  obtain ⟨later, hlater, rfl⟩ := hrun
  exact ⟨later, hlater, rfl, rfl⟩

theorem Continues.of_act {s t : State} (h : step decibels s .act = some t) :
    Continues decibels s [] [] t := by
  refine ⟨_, Run.start.next h, ?_, ?_⟩
  · cases step_move h with
    | call htodo _ => simp [appTrace, Run.projected, State.label, htodo, tcpPart,
        Input.Action.performed, Application.Event.tcpOf]
    | printed htodo hnone => simp [appTrace, Run.projected, State.label, htodo, hnone, tcpPart]
  · cases step_move h with
    | call htodo _ => simp [appTrace, Run.projected, State.label, htodo, udpPart,
        Input.Action.performed, Application.Event.udpOf]
    | printed htodo hnone => simp [appTrace, Run.projected, State.label, htodo, hnone, udpPart]

/-- am_client does not call `BlockUntilQueuesAreEmpty`. -/
theorem calling_run {baseAddress : Bytes} {actions : List Input.Action}
    {trace : List (State × Event)} {s : State}
    (h : Run (step decibels) (init baseAddress actions) trace s) : s.app.main = .calling := by
  refine h.invariant (I := fun s => s.app.main = .calling) rfl ?_
  intro s e t hs hstep
  cases step_move hstep with
  | call _ happ | tcp happ | udp happ =>
    cases Application.step_move happ with
    | _ => exact hs
  | printed => exact hs

theorem main_returns {baseAddress : Bytes} {actions : List Input.Action}
    {trace : List (State × Event)} {s : State}
    (h : Run (step decibels) (init baseAddress actions) trace s) :
    ∃ tcp udp app, Continues decibels s tcp udp { s with app := app } ∧ app.Returned ∧
      Smooth Tcp.Event.falters tcp ∧ Smooth Udp.Event.failed udp := by
  obtain ⟨tcp, udp, app, happ, hret, hsmooth, hsmooth'⟩ :=
    call_returns decibels (calling_run h) (sending_run (app_run h))
  exact ⟨tcp, udp, app, .of_app happ, hret, hsmooth, hsmooth'⟩

/-- `main` does the next action once `am` has returned from the last one. -/
theorem acts {s : State} {action : Input.Action} {todo : List Input.Action}
    (htodo : s.todo = action :: todo) (hret : s.app.Returned)
    (hcall : ∀ c ∈ action.performed, ∃ u, Client.step decibels s.app.calls c = some u) :
    ∃ t, step decibels s .act = some t ∧ t.todo = todo := by
  cases action with
  | call c =>
    obtain ⟨u, hu⟩ := hcall c rfl
    simp [step, Application.step, htodo, hret, hu]
  | out text => simp [step, htodo, hret]
  | err text => simp [step, htodo, hret]

theorem todo_done {baseAddress : Bytes} {actions : List Input.Action}
    {trace : List (State × Event)} {s : State}
    (h : Run (step decibels) (init baseAddress actions) trace s)
    (hcalls : ∀ c ∈ Input.performed s.todo, ∀ u, ∃ v, Client.step decibels u c = some v) :
    ∃ tcp udp t, Continues decibels s tcp udp t ∧ t.todo = [] ∧ t.app.Returned ∧
      Smooth Tcp.Event.falters tcp ∧ Smooth Udp.Event.failed udp := by
  obtain ⟨tcp, udp, app, hreturns, hret, hsmooth, hsmooth'⟩ := main_returns h
  induction htodo : s.todo generalizing s trace tcp udp app with
  | nil => exact ⟨tcp, udp, _, hreturns, htodo, hret, hsmooth, hsmooth'⟩
  | cons action todo ih =>
    have hfirst : ∀ c ∈ action.performed, ∀ u, ∃ v, Client.step decibels u c = some v := by
      intro c hc u
      apply hcalls c _ u
      rw [htodo]
      exact List.mem_filterMap.mpr ⟨action, List.mem_cons_self, hc⟩
    obtain ⟨u, hact, hrest⟩ := acts (s := { s with app := app }) htodo hret
      fun c hc => hfirst c hc _
    have hdone := hreturns.trans (.of_act hact)
    have ⟨later, hlater, _⟩ := hdone
    have hu := h.append hlater
    have hcalls' : ∀ c ∈ Input.performed u.todo, ∀ v, ∃ w, Client.step decibels v c = some w := by
      intro c hc
      apply hcalls c
      rw [hrest] at hc
      rw [htodo]
      exact ((List.sublist_cons_self action todo).filterMap _).subset hc
    obtain ⟨tcp', udp', app', hreturns', hret', htcpSmooth, hudpSmooth⟩ := main_returns hu
    obtain ⟨tcp'', udp'', t, hthen, hnone, hidle, hsmooth₂, hsmooth₃⟩ :=
      ih hu hcalls' tcp' udp' app' hreturns' hret' htcpSmooth hudpSmooth hrest
    exact ⟨_, _, t, hdone.trans hthen, hnone, hidle,
      (hsmooth.append smooth_nil).append hsmooth₂, (hsmooth'.append smooth_nil).append hsmooth₃⟩

theorem calls_possible {g : Arguments.Globals} {stdin : Bytes} :
    ∀ c ∈ Session.optionCalls g.useUdp ++ Session.lineCalls stdin,
      ∀ s, ∃ t, Client.step decibels s c = some t := by
  intro c hc s
  rcases List.mem_append.mp hc with hoption | hline
  · unfold Session.optionCalls at hoption
    split at hoption
    · rw [List.mem_singleton.mp hoption]
      exact ⟨_, rfl⟩
    · cases hoption
  · have hcore := Session.lineCalls_core stdin c hline
    cases c with
    | sendCustomTCP => cases hcore
    | sendCustomUDP => cases hcore
    | _ => exact ⟨_, rfl⟩

theorem program_ends {baseAddress : Bytes} {actions : List Input.Action}
    {trace : List (State × Event)} {s : State}
    (h : Run (step decibels) (init baseAddress actions) trace s)
    (hcalls : ∀ c ∈ Input.performed s.todo, ∀ u, ∃ v, Client.step decibels u c = some v)
    (htcp : Smooth Tcp.Event.falters (tcpPart (appTrace trace)))
    (hudp : Smooth Udp.Event.failed (udpPart (appTrace trace))) :
    ∃ later t, Run (step decibels) s later t ∧ t.todo = [] ∧ Emptied t.app ∧
      ThreadsCreated (tcpPart (appTrace (later ++ trace))) ∧
      ThreadsCreated (udpPart (appTrace (later ++ trace))) ∧
      ∀ p ∈ tcpPart (appTrace (later ++ trace)), p.2.costly Tcp.Event.falters = false := by
  obtain ⟨_, _, u, ⟨done, hdone, rfl, rfl⟩, hnone, hret, hsmooth, hsmooth'⟩ := todo_done h hcalls
  have htcp' := htcp.append hsmooth
  have hudp' := hudp.append hsmooth'
  rw [← tcpPart_append] at htcp'
  rw [← udpPart_append] at hudp'
  obtain ⟨_, _, app, hempty, hemptied, htcpCreated, hudpCreated, hsucceeds⟩ :=
    queues_empty (app_run (h.append hdone)) hret htcp' hudp'
  obtain ⟨emptying, hemptying, rfl, rfl⟩ := Continues.of_app hempty
  refine ⟨emptying ++ done, _, hdone.append hemptying, hnone, hemptied, ?_, ?_, ?_⟩
  · rw [List.append_assoc, tcpPart_append]
    exact List.forall_mem_append.mpr ⟨htcpCreated, fun p hp => (htcp' p hp).2.1⟩
  · rw [List.append_assoc, udpPart_append]
    exact List.forall_mem_append.mpr ⟨hudpCreated, fun p hp => (hudp' p hp).2.1⟩
  · rw [List.append_assoc, tcpPart_append]
    exact List.forall_mem_append.mpr ⟨hsucceeds, fun p hp => (htcp' p hp).2.2⟩

/-- From every state of every run without a fault so far, the program can come to the end of
its input with both queues empty; and then the messages of all commands of the input, in
their order and each once, have gone out by the protocol that the arguments choose. -/
theorem session_can_finish {argv : List CString} {stdin baseAddress hostAddress : Bytes}
    {actions : List Input.Action}
    (hmain : Session.main argv stdin = .ok (.talks baseAddress hostAddress actions))
    {trace : List (State × Event)} {s : State}
    (h : Run (step decibels) (init baseAddress actions) trace s)
    (htcp : Smooth Tcp.Event.falters (tcpPart (appTrace trace)))
    (hudp : Smooth Udp.Event.failed (udpPart (appTrace trace))) :
    ∃ later t, Run (step decibels) s later t ∧ t.todo = [] ∧ Emptied t.app ∧
      ∃ g : Arguments.Globals, Arguments.processArguments {} argv = .ok (.returned g) ∧
        ∃ messages, List.Forall₂ Says messages
            ((Session.lineCalls stdin).filterMap (Call.content decibels baseAddress)) ∧
          t.app.udp.client.started.map Msg.bytes = (if g.useUdp = true then messages else []) ∧
          t.app.tcp.client.conns.length ≤ 1 ∧
          t.app.tcp.client.delivered = frames (if g.useUdp = false then messages else []) := by
  have hpossible : ∀ c ∈ Input.performed s.todo, ∀ u, ∃ v, Client.step decibels u c = some v := by
    obtain ⟨g, _, _, _, hactions⟩ := Session.main_talks hmain
    intro c hc
    apply calls_possible c
    rw [← hactions, ← made_todo h]
    exact List.mem_append_right _ hc
  obtain ⟨later, t, hlater, hnone, hemptied, htcpCreated, hudpCreated, hsucceeds⟩ :=
    program_ends h hpossible htcp hudp
  have hrun := h.append hlater
  have hstarted := (handedOver_run (app_run hrun)).all hudpCreated hemptied.returned
    hemptied.udp.posted hemptied.udp.queue
  have hstreamed := streamed_run (app_run hrun) htcpCreated hsucceeds
  have hdelivered := hstreamed.all hemptied.returned hemptied.tcp.posted hemptied.tcp.queue
  obtain ⟨g, hargs, commands, hcommands, hudpSaid, htcpSaid⟩ := commands_said hmain hrun
  have hall : commands = Session.lineCalls stdin := by
    rw [hnone, Input.performed, List.filterMap_nil, List.filter_nil, List.append_nil] at hcommands
    exact hcommands
  rw [← hstarted, hall] at hudpSaid
  rw [hall] at htcpSaid
  refine ⟨later, t, hlater, hnone, hemptied, g, hargs, ?_⟩
  cases hprotocol : g.useUdp with
  | true =>
    simp only [hprotocol, ↓reduceIte, Bool.true_eq_false] at hudpSaid htcpSaid
    rw [List.forall₂_nil_right_iff.mp htcpSaid] at hdelivered
    exact ⟨_, hudpSaid, rfl, hstreamed.one, hdelivered⟩
  | false =>
    simp only [hprotocol, ↓reduceIte, Bool.false_eq_true] at hudpSaid htcpSaid
    exact ⟨_, htcpSaid, List.forall₂_nil_right_iff.mp hudpSaid, hstreamed.one, hdelivered⟩

/-- `am_client /am` and a line that loads, while the host is being resolved. -/
theorem session_can_finish_of_load :
    ∃ actions trace s, Run (step fun _ => .float 0) (init (ascii "/am") actions) trace s ∧
      s.app.tcp.io = .resolving ∧ s.app.tcp.app = .posting (loadMessage (ascii "/am")) ∧
      ∃ later t, Run (step fun _ => .float 0) s later t ∧ t.todo = [] ∧ Emptied t.app ∧
        ∃ g : Arguments.Globals, Arguments.processArguments {}
            [cstr (ascii "am_client"), cstr (ascii "/am")] = .ok (.returned g) ∧
          ∃ messages, List.Forall₂ Says messages
              ((Session.lineCalls (ascii "load\n")).filterMap
                (Call.content (fun _ => .float 0) (ascii "/am"))) ∧
            t.app.udp.client.started.map Msg.bytes = (if g.useUdp = true then messages else []) ∧
            t.app.tcp.client.conns.length ≤ 1 ∧
            t.app.tcp.client.delivered = frames (if g.useUdp = false then messages else []) := by
  have hmain : Session.main [cstr (ascii "am_client"), cstr (ascii "/am")] (ascii "load\n") =
      .ok (.talks (ascii "/am") (ascii "127.0.0.1") (Session.greeting (ascii "/am") ++
        [Session.prompt, .call .load, Session.prompt, .out (ascii "\n")])) := by decide +kernel
  obtain ⟨trace, s, h, ⟨hio, happ⟩, htcp, hudp⟩ := run_of_record (step fun _ => .float 0)
    (init (ascii "/am") (Session.greeting (ascii "/am") ++
      [Session.prompt, .call .load, Session.prompt, .out (ascii "\n")]))
    [.act, .act, .act, .act, .tcp (.callSend (loadMessage (ascii "/am"))), .tcp .testThread,
      .tcp .setRunning, .tcp (.createThread true)]
    (fun trace s => (s.app.tcp.io = .resolving ∧
        s.app.tcp.app = .posting (loadMessage (ascii "/am"))) ∧
      Smooth Tcp.Event.falters (tcpPart (appTrace trace)) ∧
      Smooth Udp.Event.failed (udpPart (appTrace trace)))
    (by decide +kernel)
  exact ⟨_, trace, s, h, hio, happ, session_can_finish hmain h htcp hudp⟩

end AmClient.Program
