import AmClient.Application.Composition
import AmClient.Lifecycle.Returning
import AmClient.Lifecycle.Waking

/-!
# BlockUntilQueuesAreEmpty

The application thread waits for the TCP client first, then for the UDP client. As long as
no `resolve` throws and no datagram fails it cannot be left waiting: wherever it waits, the
run can go on to its return without a further call, no wait on a condition variable ending
but by a notification, and both queues are then empty.
-/

namespace AmClient.Application
open Foundation Client
set_option autoImplicit false

variable {decibels : BitVec 32 → Decibels}

/-- Where the waiting application thread is in the two clients. -/
structure Placed (s : State) : Prop where
  jobs : s.main ≠ .calling → s.tcpJobs = [] ∧ s.udpJobs = []
  inTcp : s.main = .blockingTcp → s.tcp.app.blocks = true ∧ s.udp.app = .idle
  inUdp : s.main = .blockingUdp → s.tcp.app = .idle ∧ s.udp.app.blocks = true

theorem tcpMay_waits {s : State} {e : TcpEvent} (hnone : s.tcpJobs = [])
    (hmay : s.tcpMay e = true) : e.waits = true := by
  cases e with
  | callSend => simp [State.tcpMay, hnone] at hmay
  | callBlock => simp [State.tcpMay] at hmay
  | _ => rfl

theorem udpMay_waits {s : State} {e : UdpEvent} (hnone : s.udpJobs = [])
    (hmay : s.udpMay e = true) : e.waits = true := by
  cases e with
  | callSend => simp [State.udpMay, hnone] at hmay
  | callBlock => simp [State.udpMay] at hmay
  | _ => rfl

theorem tcpJobs_waits (s : State) {e : TcpEvent} (h : e.waits = true) :
    s.tcpMay e = true ∧ s.tcpJobsAfter e = s.tcpJobs := by
  cases e with
  | callSend | callBlock => simp [Lifecycle.Event.waits] at h
  | _ => exact ⟨rfl, rfl⟩

theorem udpJobs_waits (s : State) {e : UdpEvent} (h : e.waits = true) :
    s.udpMay e = true ∧ s.udpJobsAfter e = s.udpJobs := by
  cases e with
  | callSend | callBlock => simp [Lifecycle.Event.waits] at h
  | _ => exact ⟨rfl, rfl⟩

theorem callBlock_app {σ ε α : Type} {T : Lifecycle.Transport σ ε α} {s t : Lifecycle.State σ α}
    (h : Lifecycle.step T s .callBlock = some t) : t.app.blocks = true := by
  simp only [Lifecycle.step] at h
  split at h
  · obtain rfl := Option.some.inj h
    rfl
  · cases h

theorem blocks_of_idle {app : Lifecycle.App} (h : app = .idle) : app.blocks = true := by
  rw [h]
  rfl

theorem Placed.move {s t : State} {e : Event} (hs : Placed s) (h : Move decibels s e t) :
    Placed t := by
  cases h with
  | call hret =>
    have hmain := hret.1
    exact ⟨by simp [hmain], by simp [hmain], by simp [hmain]⟩
  | @tcp e u hmay hstep =>
    have waits (hmain : s.main ≠ .calling) := tcpMay_waits (hs.jobs hmain).1 hmay
    refine ⟨?_, ?_, ?_⟩
    · intro hmain
      rw [(tcpJobs_waits s (waits hmain)).2]
      exact hs.jobs hmain
    · intro (hmain : s.main = .blockingTcp)
      obtain ⟨hblocks, hidle⟩ := hs.inTcp hmain
      exact ⟨(Lifecycle.step_waits hstep (waits (by simp [hmain])) hblocks).1, hidle⟩
    · intro (hmain : s.main = .blockingUdp)
      obtain ⟨hidle, hblocks⟩ := hs.inUdp hmain
      exact ⟨(Lifecycle.step_waits hstep (waits (by simp [hmain])) (blocks_of_idle hidle)).2 hidle,
        hblocks⟩
  | @udp e u hmay hstep =>
    have waits (hmain : s.main ≠ .calling) := udpMay_waits (hs.jobs hmain).2 hmay
    refine ⟨?_, ?_, ?_⟩
    · intro hmain
      rw [(udpJobs_waits s (waits hmain)).2]
      exact hs.jobs hmain
    · intro (hmain : s.main = .blockingTcp)
      obtain ⟨hblocks, hidle⟩ := hs.inTcp hmain
      exact ⟨hblocks,
        (Lifecycle.step_waits hstep (waits (by simp [hmain])) (blocks_of_idle hidle)).2 hidle⟩
    · intro (hmain : s.main = .blockingUdp)
      obtain ⟨hidle, hblocks⟩ := hs.inUdp hmain
      exact ⟨hidle, (Lifecycle.step_waits hstep (waits (by simp [hmain])) hblocks).1⟩
  | block hret hstep =>
    obtain ⟨_, htcp, hudp, _, hidle⟩ := hret
    exact ⟨fun _ => ⟨htcp, hudp⟩, fun _ => ⟨callBlock_app hstep, hidle⟩, by simp⟩
  | blockUdp hmain happ hstep =>
    exact ⟨fun _ => hs.jobs (by simp [hmain]), by simp, fun _ => ⟨happ, callBlock_app hstep⟩⟩
  | unblock => exact ⟨by simp, by simp, by simp⟩

theorem placed_run {baseAddress : Bytes} {trace : List (State × Event)} {s : State}
    (h : Run (step decibels) (init baseAddress) trace s) : Placed s := by
  refine h.invariant ⟨by simp [init], by simp [init], by simp [init]⟩ ?_
  exact fun hs hstep => hs.move (step_move hstep)

/-- Steps in which `AssetManagerClient` is not called. -/
def NoCall (later : List (State × Event)) : Prop := ∀ p ∈ later, p.2.callOf = none ∧ p.2 ≠ .block

theorem NoCall.append {early later : List (State × Event)} (hlater : NoCall later)
    (hearly : NoCall early) : NoCall (later ++ early) := by
  intro p hp
  rcases List.mem_append.mp hp with hp | hp
  · exact hlater p hp
  · exact hearly p hp

def Event.inClients : Event → Bool
  | .tcp _ => true
  | .udp _ => true
  | _ => false

/-- By these steps of the two clients a run goes on from `s` to `t`. -/
def Continues (decibels : BitVec 32 → Decibels) (s : State) (tcp : List (TcpPart × TcpEvent))
    (udp : List (UdpPart × UdpEvent)) (t : State) : Prop :=
  ∃ more, Run (step decibels) s more t ∧ (∀ p ∈ more, p.2.inClients = true) ∧
    tcpPart more = tcp ∧ udpPart more = udp

theorem noCall_inClients {more : List (State × Event)} (h : ∀ p ∈ more, p.2.inClients = true) :
    NoCall more := by
  intro p hp
  have hin := h p hp
  cases hevent : p.2 with
  | tcp | udp => exact ⟨rfl, nofun⟩
  | _ => simp [hevent, Event.inClients] at hin

namespace Continues
variable {s t u : State} {tcp tcp' : List (TcpPart × TcpEvent)}
  {udp udp' : List (UdpPart × UdpEvent)}

theorem refl (s : State) : Continues decibels s [] [] s := ⟨[], .start, by simp, rfl, rfl⟩

theorem trans (hst : Continues decibels s tcp udp t) (htu : Continues decibels t tcp' udp' u) :
    Continues decibels s (tcp' ++ tcp) (udp' ++ udp) u := by
  obtain ⟨more, hmore, hin, rfl, rfl⟩ := hst
  obtain ⟨more', hmore', hin', rfl, rfl⟩ := htu
  refine ⟨more' ++ more, hmore.append hmore', ?_, List.filterMap_append, List.filterMap_append⟩
  intro p hp
  rcases List.mem_append.mp hp with hp | hp
  · exact hin' p hp
  · exact hin p hp

theorem next_tcp {e : TcpEvent} (h : Continues decibels s tcp udp t)
    (hstep : step decibels t (.tcp e) = some u) :
    Continues decibels s ((t.tcp, e) :: tcp) udp u := by
  obtain ⟨more, hmore, hin, rfl, rfl⟩ := h
  exact ⟨_, hmore.next hstep, List.forall_mem_cons.mpr ⟨rfl, hin⟩, tcpPart_cons .., udpPart_cons ..⟩

theorem next_udp {e : UdpEvent} (h : Continues decibels s tcp udp t)
    (hstep : step decibels t (.udp e) = some u) :
    Continues decibels s tcp ((t.udp, e) :: udp) u := by
  obtain ⟨more, hmore, hin, rfl, rfl⟩ := h
  exact ⟨_, hmore.next hstep, List.forall_mem_cons.mpr ⟨rfl, hin⟩, tcpPart_cons .., udpPart_cons ..⟩

end Continues

theorem lift_tcp (decibels : BitVec 32 → Decibels) {s : State}
    {later : List (TcpPart × TcpEvent)} {t : TcpPart}
    (h : Run (Lifecycle.step Lifecycle.tcp) s.tcp later t)
    (hwaits : ∀ p ∈ later, p.2.waits = true) :
    Continues decibels s later [] { s with tcp := t } := by
  induction h with
  | start => exact .refl s
  | @next trace u v e _ hstep ih =>
    obtain ⟨hlast, hbefore⟩ := List.forall_mem_cons.mp hwaits
    obtain ⟨hmay, hjobs⟩ := tcpJobs_waits { s with tcp := u } hlast
    apply (ih hbefore).next_tcp
    simp [step, hmay, hstep, hjobs]

theorem lift_udp (decibels : BitVec 32 → Decibels) {s : State}
    {later : List (UdpPart × UdpEvent)} {t : UdpPart}
    (h : Run (Lifecycle.step Lifecycle.udp) s.udp later t)
    (hwaits : ∀ p ∈ later, p.2.waits = true) :
    Continues decibels s [] later { s with udp := t } := by
  induction h with
  | start => exact .refl s
  | @next trace u v e _ hstep ih =>
    obtain ⟨hlast, hbefore⟩ := List.forall_mem_cons.mp hwaits
    obtain ⟨hmay, hjobs⟩ := udpJobs_waits { s with udp := u } hlast
    apply (ih hbefore).next_udp
    simp [step, hmay, hstep, hjobs]

/-- Behind `trace`, no wait in `later` ends but by a notification. -/
structure Woken (trace later : List (State × Event)) : Prop where
  tcp : Lifecycle.Prompted Tcp.State.notifies (tcpPart trace) (tcpPart later)
  udp : Lifecycle.Prompted Udp.State.notifies (udpPart trace) (udpPart later)

/-- Who leaves a wait finds nothing left to wait for. -/
structure WakesDone (later : List (State × Event)) : Prop where
  tcp : ∀ p ∈ tcpPart later, p.2 = .wake → p.1.client.mustWait = false
  udp : ∀ p ∈ udpPart later, p.2 = .wake →
    p.1.client.mustWait = false ∧ p.1.client.writeMsgs = []

namespace WakesDone
variable {trace early later : List (State × Event)} {s t : State}

theorem append (hlater : WakesDone later) (hearly : WakesDone early) :
    WakesDone (later ++ early) where
  tcp := by
    rw [tcpPart, Run.projected, List.filterMap_append]
    exact List.forall_mem_append.mpr ⟨hlater.tcp, hearly.tcp⟩
  udp := by
    rw [udpPart, Run.projected, List.filterMap_append]
    exact List.forall_mem_append.mpr ⟨hlater.udp, hearly.udp⟩

theorem cons {e : Event} (h : WakesDone later) (htcp : e.tcpOf = none)
    (hudp : e.udpOf ≠ some .wake) : WakesDone ((s, e) :: later) where
  tcp := by
    rw [tcpPart_cons, htcp]
    exact h.tcp
  udp := by
    rw [udpPart_cons]
    cases hof : e.udpOf with
    | none => exact h.udp
    | some x =>
      refine List.forall_mem_cons.mpr ⟨?_, h.udp⟩
      rintro rfl
      exact (hudp hof).elim

theorem woken {baseAddress : Bytes} (h : WakesDone later)
    (hrun : Run (step decibels) (init baseAddress) (later ++ trace) s) : Woken trace later where
  tcp := by
    have htcp := tcp_run hrun
    rw [tcpPart, Run.projected, List.filterMap_append] at htcp
    exact Lifecycle.tcp_notifies.prompted htcp h.tcp
  udp := by
    have hudp := udp_run hrun
    rw [udpPart, Run.projected, List.filterMap_append] at hudp
    exact Lifecycle.udp_notifies.prompted hudp h.udp

end WakesDone

/-- `BlockUntilQueuesAreEmpty` has returned and has left nothing behind. -/
structure Emptied (s : State) : Prop where
  returned : s.Returned
  tcp : Lifecycle.TcpSettled s.tcp.client
  udp : Lifecycle.UdpEmpty s.udp.client

/-- The run goes on from `s` to `t` without a call, and who leaves a wait finds nothing left
to wait for. -/
structure GoesOn (decibels : BitVec 32 → Decibels) (s : State) (later : List (State × Event))
    (t : State) : Prop where
  run : Run (step decibels) s later t
  noCall : NoCall later
  wakes : WakesDone later
  calls : t.calls = s.calls

theorem GoesOn.trans {s t u : State} {early later : List (State × Event)}
    (hst : GoesOn decibels s early t) (htu : GoesOn decibels t later u) :
    GoesOn decibels s (later ++ early) u where
  run := hst.run.append htu.run
  noCall := htu.noCall.append hst.noCall
  wakes := htu.wakes.append hst.wakes
  calls := htu.calls.trans hst.calls

/-- The IO thread of the TCP client comes to rest. -/
theorem tcp_goes_on (decibels : BitVec 32 → Decibels) {s : State}
    {later : List (TcpPart × TcpEvent)} {t : TcpPart}
    (h : Lifecycle.Settles Lifecycle.tcp Tcp.Event.falters s.tcp later t) :
    ∃ more, GoesOn decibels s more { s with tcp := t } := by
  obtain ⟨more, hmore, hin, htcp, hudp⟩ := lift_tcp decibels h.run h.waits
  refine ⟨more, hmore, noCall_inClients hin, ⟨?_, by simp [hudp]⟩, rfl⟩
  rw [htcp]
  intro p hp hwake
  have hbyIo := h.byIo p hp
  simp [hwake, Lifecycle.Event.byIo] at hbyIo

theorem udp_goes_on (decibels : BitVec 32 → Decibels) {s : State}
    {later : List (UdpPart × UdpEvent)} {t : UdpPart}
    (h : Lifecycle.Settles Lifecycle.udp Udp.Event.failed s.udp later t) :
    ∃ more, GoesOn decibels s more { s with udp := t } := by
  obtain ⟨more, hmore, hin, htcp, hudp⟩ := lift_udp decibels h.run h.waits
  refine ⟨more, hmore, noCall_inClients hin, ⟨by simp [htcp], ?_⟩, rfl⟩
  rw [hudp]
  intro p hp hwake
  have hbyIo := h.byIo p hp
  simp [hwake, Lifecycle.Event.byIo] at hbyIo

theorem udp_half_returns (decibels : BitVec 32 → Decibels) {s : State}
    (hmain : s.main = .blockingUdp) (hplaced : Placed s) (hone : Lifecycle.OneThread s.udp)
    (hio : s.udp.io = .absent ∨ s.udp.io = .running)
    (htcp : Lifecycle.TcpSettled s.tcp.client) (hudp : Lifecycle.UdpEmpty s.udp.client) :
    ∃ later t, GoesOn decibels s later t ∧ Emptied t := by
  obtain ⟨hnone, hnone'⟩ := hplaced.jobs (by simp [hmain])
  obtain ⟨hidle, hblocks⟩ := hplaced.inUdp hmain
  obtain ⟨later, hlater, hwaiter⟩ :=
    Lifecycle.waiter_returns (T := Lifecycle.udp) hone hio hudp.released hblocks
  have hclient := (Lifecycle.byWaiter_client hlater hwaiter).2
  obtain ⟨more, hmore, hin, htcpPart, hudpPart⟩ :=
    lift_udp decibels hlater fun p hp => Lifecycle.Event.byWaiter_waits (hwaiter p hp)
  have hlast : step decibels { s with udp := { s.udp with app := .idle } } .unblock =
      some { s with udp := { s.udp with app := .idle }, main := .calling } := by
    simp [step, hmain]
  have hwakes : WakesDone more := by
    refine ⟨by simp [htcpPart], ?_⟩
    rw [hudpPart]
    intro p hp _
    rw [hclient p hp]
    exact ⟨hudp.released, hudp.queue⟩
  refine ⟨_, _, ⟨hmore.next hlast, ?_, hwakes.cons rfl (by simp [Event.udpOf]), rfl⟩,
    ⟨⟨rfl, hnone, hnone', hidle, rfl⟩, htcp, hudp⟩⟩
  exact List.forall_mem_cons.mpr ⟨⟨rfl, by simp⟩, noCall_inClients hin⟩

theorem tcp_half_returns (decibels : BitVec 32 → Decibels) {s : State}
    (hmain : s.main = .blockingTcp) (hplaced : Placed s) (hone : Lifecycle.OneThread s.tcp)
    (hio : s.tcp.io = .absent ∨ s.tcp.io = .running)
    (htcp : Lifecycle.TcpSettled s.tcp.client) :
    ∃ later t, GoesOn decibels s later t ∧ t.main = .blockingUdp ∧
      t.tcp.client = s.tcp.client ∧ t.udp.client = s.udp.client ∧ t.udp.io = s.udp.io := by
  obtain ⟨hblocks, hidle⟩ := hplaced.inTcp hmain
  obtain ⟨later, hlater, hwaiter⟩ :=
    Lifecycle.waiter_returns (T := Lifecycle.tcp) hone hio htcp.released hblocks
  have hclient := (Lifecycle.byWaiter_client hlater hwaiter).2
  obtain ⟨more, hmore, hin, htcpPart, hudpPart⟩ :=
    lift_tcp decibels hlater fun p hp => Lifecycle.Event.byWaiter_waits (hwaiter p hp)
  have hlast : step decibels { s with tcp := { s.tcp with app := .idle } } .blockUdp =
      some { s with tcp := { s.tcp with app := .idle },
                    udp := { s.udp with app := .readingRunning }, main := .blockingUdp } := by
    simp [step, Lifecycle.step, hmain, hidle]
  have hwakes : WakesDone more := by
    refine ⟨?_, by simp [hudpPart]⟩
    rw [htcpPart]
    intro p hp _
    rw [hclient p hp]
    exact htcp.released
  refine ⟨_, _, ⟨hmore.next hlast, ?_, hwakes.cons rfl (by simp [Event.udpOf]), rfl⟩,
    rfl, rfl, rfl, rfl⟩
  exact List.forall_mem_cons.mpr ⟨⟨rfl, by simp⟩, noCall_inClients hin⟩

/-- Wherever the application thread waits in `BlockUntilQueuesAreEmpty`, after whatever
steps of the three threads, the run can go on without a call to its return, and the waiter
is notified whenever it leaves a wait; then every message posted to the TCP client was
written or was discarded, and every datagram was sent. -/
theorem block_can_return {baseAddress : Bytes} {trace : List (State × Event)} {s : State}
    (h : Run (step decibels) (init baseAddress) trace s) (hmain : s.main ≠ .calling)
    (htcp : ∀ p ∈ tcpPart trace, p.2.throws = false)
    (hudp : ∀ p ∈ udpPart trace, p.2.throws = false)
    (hsends : ∀ p ∈ udpPart trace, p.2.costly Udp.Event.failed = false) :
    ∃ later t, Run (step decibels) s later t ∧ NoCall later ∧ Woken trace later ∧
      t.calls = s.calls ∧ Emptied t ∧ Lifecycle.TcpAtRest (tcpPart (later ++ trace)) t.tcp := by
  obtain ⟨tcpLater, tcpEnd, htcpRun, htcpRest⟩ :=
    Lifecycle.tcp_settles (tcp_run h) fun p hp => Lifecycle.Event.ne_throws (htcp p hp)
  obtain ⟨udpLater, udpEnd, hudpRun, hudpRest⟩ :=
    Lifecycle.udp_settles (udp_run h) (fun p hp => Lifecycle.Event.ne_throws (hudp p hp)) hsends
  obtain ⟨tcpMore, htcpOn⟩ := tcp_goes_on decibels htcpRun
  obtain ⟨udpMore, hudpOn⟩ :=
    udp_goes_on decibels (s := { s with tcp := tcpEnd }) hudpRun
  have hon := htcpOn.trans hudpOn
  have hboth := h.append hon.run
  have hplaced := placed_run hboth
  have finish {later : List (State × Event)} {t : State} (hlater : GoesOn decibels s later t)
      (hemptied : Emptied t) : ∃ later t, Run (step decibels) s later t ∧ NoCall later ∧
        Woken trace later ∧ t.calls = s.calls ∧ Emptied t ∧
        Lifecycle.TcpAtRest (tcpPart (later ++ trace)) t.tcp := by
    have hrun := h.append hlater.run
    exact ⟨later, t, hlater.run, hlater.noCall, hlater.wakes.woken hrun, hlater.calls, hemptied,
      Lifecycle.tcp_at_rest (tcp_run hrun) hemptied.tcp⟩
  cases hnow : s.main with
  | calling => exact (hmain hnow).elim
  | blockingTcp =>
    have hone := Lifecycle.oneThread_run (tcp_run hboth)
    obtain ⟨half, t, hhalf, hudpNow, hclient, hclient', hio⟩ :=
      tcp_half_returns decibels (s := { s with tcp := tcpEnd, udp := udpEnd }) hnow
        hplaced hone htcpRun.thread htcpRest
    have hthread : t.udp.io = .absent ∨ t.udp.io = .running := by
      rw [hio]
      exact hudpRun.thread
    have hhalfway := hboth.append hhalf.run
    obtain ⟨rest, u, hrest, hemptied⟩ :=
      udp_half_returns decibels hudpNow (placed_run hhalfway)
        (Lifecycle.oneThread_run (udp_run hhalfway)) hthread (hclient ▸ htcpRest)
        (hclient' ▸ hudpRest)
    exact finish ((hon.trans hhalf).trans hrest) hemptied
  | blockingUdp =>
    have hone := Lifecycle.oneThread_run (udp_run hboth)
    obtain ⟨rest, u, hrest, hemptied⟩ :=
      udp_half_returns decibels (s := { s with tcp := tcpEnd, udp := udpEnd }) hnow
        hplaced hone hudpRun.thread htcpRest hudpRest
    exact finish (hon.trans hrest) hemptied

/-- A message for each client; the application thread is in the wait for the TCP client,
whose host is resolved, and the host of the UDP client is not yet. -/
theorem block_can_return_after_calls :
    ∃ trace s, Run (step fun _ => .float 0) (init (ascii "/am")) trace s ∧
      s.main = .blockingTcp ∧ s.tcp.app = .waiting ∧ s.udp.io = .resolving ∧
      ∃ later t, Run (step fun _ => .float 0) s later t ∧ NoCall later ∧ Woken trace later ∧
        t.calls = s.calls ∧ Emptied t ∧ Lifecycle.TcpAtRest (tcpPart (later ++ trace)) t.tcp := by
  obtain ⟨trace, s, h, ⟨hmain, hwaiting, hio⟩, htcp, hudp, hsends⟩ := run_of_record
    (step fun _ => .float 0) (init (ascii "/am"))
    [.call .load, .tcp (.callSend (loadMessage (ascii "/am"))), .tcp .testThread, .tcp .setRunning,
      .tcp (.createThread true), .tcp .post,
      .call (.sendCustomUDP (ascii "/x") (cstr (ascii "I")) []),
      .udp (.callSend (ascii "/am/x" ++ zeros 3 ++ ascii ",I" ++ zeros 2)), .udp .testThread,
      .udp .setRunning, .udp (.createThread true), .udp .post, .block,
      .tcp (.resolved ⟨[⟨1, 15002⟩], by decide⟩), .tcp .start, .tcp .setReady, .tcp .readRunning,
      .tcp .readReady, .tcp .testQueue]
    (fun trace s =>
      (s.main = .blockingTcp ∧ s.tcp.app = .waiting ∧ s.udp.io = .resolving) ∧
      (∀ p ∈ tcpPart trace, p.2.throws = false) ∧ (∀ p ∈ udpPart trace, p.2.throws = false) ∧
      ∀ p ∈ udpPart trace, p.2.costly Udp.Event.failed = false)
    (by decide +kernel)
  exact ⟨trace, s, h, hmain, hwaiting, hio,
    block_can_return h (by simp [hmain]) htcp hudp hsends⟩

end AmClient.Application
