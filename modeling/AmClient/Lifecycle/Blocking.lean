import AmClient.Lifecycle.Thread

/-!
# BlockUntilQueueIsEmpty and the IO thread

As long as `resolve` does not throw, the thread that `RunThread` created lives, and a flag
that holds the waiter stands for a handler that this thread can still run. `Laws` is what
the argument needs of the asynchronous client; both clients have it.
-/

namespace AmClient.Lifecycle
open Foundation
set_option autoImplicit false

section
variable {σ ε α : Type} {T : Transport σ ε α}

/-- `before` holds of the client until `Run` has started it, `after` from then on, as long
as each handler is run under `ok`. -/
structure Laws (T : Transport σ ε α) (before after : σ → Prop) (ok : σ → ε → Prop) : Prop where
  answer : Nonempty α
  init_free : T.mustWait T.init = false
  init_before : before T.init
  send_before : ∀ {c} msg, before c → before (T.send c msg)
  send_after : ∀ {c} msg, after c → after (T.send c msg)
  start_after : ∀ {c} answer, before c → after (T.start c answer)
  start_waits : ∀ {c} answer, before c → T.mustWait c = true → T.mustWait (T.start c answer) = true
  handle_after : ∀ {c e c'}, after c → ok c e → T.handle c e = some c' → after c'
  can_handle : ∀ {c}, after c → T.mustWait c = true → ∃ e, (T.handle c e).isSome = true

/-- Before any `Send` got through the client is untouched; no thread is on its way out. -/
def ClientAt (T : Transport σ ε α) (before after : σ → Prop) : Io α → σ → Prop
  | .absent, c => c = T.init
  | .resolving, c => before c
  | .starting _, c => before c
  | .readying, c => after c
  | .running, c => after c
  | _, _ => False

structure Alive (T : Transport σ ε α) (before after : σ → Prop) (s : State σ α) : Prop where
  client : ClientAt T before after s.io s.client
  flag : s.threadIsRunning = true ↔ s.io ≠ .absent ∨ ∃ msg, s.app = .creating msg
  launching : ∀ msg, s.app = .launching msg ∨ s.app = .creating msg → s.io = .absent
  posting : ∀ msg, s.app = .posting msg → s.io ≠ .absent

variable {before after : σ → Prop} {ok : σ → ε → Prop}

theorem alive_init : Alive T before after (init T) :=
  ⟨rfl, by simp [init], (fun _ _ => rfl), fun _ h => nomatch h⟩

theorem Alive.flag_iff {s : State σ α} (h : Alive T before after s)
    (hnow : ∀ msg, s.app ≠ .creating msg) : s.threadIsRunning = true ↔ s.io ≠ .absent := by
  rw [h.flag]
  constructor
  · intro hor
    rcases hor with hio | ⟨msg, hmsg⟩
    · exact hio
    · exact (hnow msg hmsg).elim
  · exact Or.inl

theorem Alive.not_leaving {s : State σ α} (h : Alive T before after s) :
    s.io ≠ .resetting ∧ s.io ≠ .clearingReady ∧ s.io ≠ .clearingRunning := by
  have hclient := h.client
  refine ⟨?_, ?_, ?_⟩
  · intro hio
    rw [hio] at hclient
    exact hclient
  · intro hio
    rw [hio] at hclient
    exact hclient
  · intro hio
    rw [hio] at hclient
    exact hclient

theorem Alive.moveApp {s : State σ α} (h : Alive T before after s) {app : App}
    (hnow : ∀ msg, s.app ≠ .creating msg)
    (happ : ∀ msg, app ≠ .launching msg ∧ app ≠ .creating msg ∧ app ≠ .posting msg) :
    Alive T before after { s with app := app } := by
  refine ⟨h.client, ?_, ?_, ?_⟩
  · rw [h.flag_iff hnow]
    simp [fun msg => (happ msg).2.1]
  · intro msg hmsg
    rcases hmsg with hmsg | hmsg
    · exact ((happ msg).1 hmsg).elim
    · exact ((happ msg).2.1 hmsg).elim
  · exact fun msg hmsg => ((happ msg).2.2 hmsg).elim

theorem Alive.moveIo {s : State σ α} (h : Alive T before after s) {io : Io α} {client : σ}
    {ready : Bool} (hio : s.io ≠ .absent) (hio' : io ≠ .absent)
    (hclient : ClientAt T before after io client) :
    Alive T before after { s with client := client, serviceIsReady := ready, io := io } := by
  refine ⟨hclient, ?_, ?_, fun _ _ => hio'⟩
  · exact ⟨fun _ => .inl hio', fun _ => h.flag.mpr (.inl hio)⟩
  · intro msg hmsg
    exact (hio (h.launching msg hmsg)).elim

theorem ClientAt.send (L : Laws T before after ok) {io : Io α} {c : σ}
    (h : ClientAt T before after io c) (hio : io ≠ .absent) (msg : Bytes) :
    ClientAt T before after io (T.send c msg) := by
  cases io with
  | absent => exact (hio rfl).elim
  | resolving => exact L.send_before msg h
  | starting answer => exact L.send_before msg h
  | readying => exact L.send_after msg h
  | running => exact L.send_after msg h
  | resetting => exact h.elim
  | clearingReady => exact h.elim
  | clearingRunning => exact h.elim

/-- `Send` posts only while a thread lives, and creates one only where none is. -/
theorem Alive.move (L : Laws T before after ok) {s t : State σ α} {e : Event ε α}
    (h : Alive T before after s) (hne : e ≠ .resolveThrows)
    (hok : ∀ x, e = .handle x → ok s.client x) (hmove : Move T s e t) :
    Alive T before after t := by
  have hclient := h.client
  cases hmove with
  | passes _ hnow happ => exact h.moveApp hnow happ
  | finds happ hrun =>
    have hio := (h.flag_iff (by simp [happ])).mp hrun
    exact ⟨h.client, by simp [hrun, hio], by simp, fun _ _ => hio⟩
  | launches happ hrun =>
    have hflag := h.flag_iff (by simp [happ])
    have hio : s.io = .absent := by
      by_contra hne
      exact nomatch hrun.symm.trans (hflag.mpr hne)
    exact ⟨h.client, by simp [hrun, hio], fun _ _ => hio, by simp⟩
  | announces happ =>
    have hio := h.launching _ (.inl happ)
    exact ⟨h.client, by simp, fun _ _ => hio, by simp⟩
  | creates happ =>
    have hio := h.launching _ (.inr happ)
    have hrun := h.flag.mpr (.inr ⟨_, happ⟩)
    rw [hio] at hclient
    have hinit : s.client = T.init := hclient
    have hbefore : before s.client := hinit ▸ L.init_before
    exact ⟨hbefore, by simp [hrun], by simp, by simp⟩
  | fails happ =>
    have hio := h.launching _ (.inr happ)
    exact ⟨h.client, by simp [hio], fun _ _ => hio, by simp⟩
  | posts happ =>
    have hio := h.posting _ happ
    have hflag := h.flag_iff (by simp [happ])
    exact ⟨h.client.send L hio _, by simp [hflag, hio], by simp, by simp⟩
  | resolves hio =>
    rw [hio] at hclient
    exact h.moveIo (by simp [hio]) (by simp) hclient
  | throws => exact (hne rfl).elim
  | starts hio =>
    rw [hio] at hclient
    exact h.moveIo (by simp [hio]) (by simp) (L.start_after _ hclient)
  | ready hio =>
    rw [hio] at hclient
    exact h.moveIo (by simp [hio]) (by simp) hclient
  | @handles x c hio hc =>
    rw [hio] at hclient
    have hafter : ClientAt T before after s.io c := by
      rw [hio]
      exact L.handle_after hclient (hok x rfl) hc
    exact h.moveIo (by simp [hio]) (by simp [hio]) hafter
  | resets hio => exact (h.not_leaving.1 hio).elim
  | clearsReady hio => exact (h.not_leaving.2.1 hio).elim
  | clearsRunning hio => exact (h.not_leaving.2.2 hio).elim

theorem Alive.can_run (L : Laws T before after ok) {s : State σ α} (h : Alive T before after s)
    (hwait : T.mustWait s.client = true) : CanRun T s := by
  obtain ⟨answer⟩ := L.answer
  have hclient := h.client
  cases hio : s.io with
  | absent =>
    rw [hio] at hclient
    have hinit : s.client = T.init := hclient
    simp [hinit, L.init_free] at hwait
  | resolving =>
    rw [hio] at hclient
    obtain ⟨e, he⟩ := L.can_handle (L.start_after answer hclient)
      (L.start_waits answer hclient hwait)
    refine ⟨[.resolved answer, .start, .setReady], e, by simp [Event.byIo], ?_⟩
    obtain ⟨c, hc⟩ := Option.isSome_iff_exists.mp he
    simp [exec, Lifecycle.step, hio, hc]
  | starting answer =>
    rw [hio] at hclient
    obtain ⟨e, he⟩ := L.can_handle (L.start_after answer hclient)
      (L.start_waits answer hclient hwait)
    refine ⟨[.start, .setReady], e, by simp [Event.byIo], ?_⟩
    obtain ⟨c, hc⟩ := Option.isSome_iff_exists.mp he
    simp [exec, Lifecycle.step, hio, hc]
  | readying =>
    rw [hio] at hclient
    obtain ⟨e, he⟩ := L.can_handle hclient hwait
    refine ⟨[.setReady], e, by simp [Event.byIo], ?_⟩
    obtain ⟨c, hc⟩ := Option.isSome_iff_exists.mp he
    simp [exec, Lifecycle.step, hio, hc]
  | running =>
    rw [hio] at hclient
    obtain ⟨e, he⟩ := L.can_handle hclient hwait
    refine ⟨[], e, by simp, ?_⟩
    obtain ⟨c, hc⟩ := Option.isSome_iff_exists.mp he
    simp [exec, Lifecycle.step, hio, hc]
  | resetting => exact (h.not_leaving.1 hio).elim
  | clearingReady => exact (h.not_leaving.2.1 hio).elim
  | clearingRunning => exact (h.not_leaving.2.2 hio).elim

theorem not_can_run {s : State σ α} (hio : s.io = .absent) : ¬ CanRun T s := by
  have hnone {x : Event ε α} (hx : x.byIo = true) : step T s x = none := by
    by_contra hsome
    obtain ⟨t, ht⟩ := Option.ne_none_iff_exists'.mp hsome
    exact (step_move ht).io_present hx hio
  intro hcan
  obtain ⟨events, e, hevents, hrun⟩ := hcan
  cases events with
  | nil => simp [exec, hnone (x := .handle e) rfl] at hrun
  | cons x xs => simp [exec, hnone (hevents x List.mem_cons_self)] at hrun

def Lives (ok : σ → ε → Prop) (s : State σ α) (e : Event ε α) : Prop :=
  e ≠ .resolveThrows ∧ ∀ x, e = .handle x → ok s.client x

theorem Laws.never_stuck (L : Laws T before after ok) {trace : List (State σ α × Event ε α)}
    {s : State σ α} (h : Run (step T) (init T) trace s) (hC : ∀ p ∈ trace, Lives ok p.1 p.2) :
    ∀ t ∈ visited trace s, ¬ Stuck T t := by
  have halive := h.visited_invariant_of (I := Alive T before after) (C := Lives ok) alive_init
    (fun hs hlives hstep => hs.move L hlives.1 hlives.2 (step_move hstep)) hC
  intro t ht hstuck
  obtain ⟨_, hwait, hnever⟩ := hstuck
  exact hnever ((halive t ht).can_run L hwait)

end

structure TcpAnnounced (c : Tcp.State) : Prop where
  phase : Tcp.Phase c
  posted : c.msgToSend = true → c.posted ≠ []

def TcpBefore (c : Tcp.State) : Prop := TcpAnnounced c ∧ c.endpointIterator = []

def TcpAfter (c : Tcp.State) : Prop := TcpAnnounced c ∧ c.endpointIterator ≠ []

theorem tcp_move_announced {c c' : Tcp.State} {e : Tcp.Event} (h : Tcp.Move c e c')
    (hc : TcpAnnounced c) : TcpAnnounced c' := by
  refine ⟨h.phase hc.phase, ?_⟩
  cases h with
  | send msg => exact fun _ => by simp [Tcp.State.send]
  | sendNow => simp
  | reconnect => simp
  | push => simp
  | _ => exact hc.posted

theorem tcp_handle_step {c c' : Tcp.State} {e : Tcp.Event} (h : tcp.handle c e = some c') :
    Tcp.step c e = some c' := by
  cases e with
  | send msg => exact nomatch h
  | connect endpoints => exact nomatch h
  | doSend => exact h
  | handleConnect => exact h
  | handleWrite => exact h

theorem tcp_connect {c : Tcp.State} (hc : TcpBefore c) (endpoints : Tcp.Resolved) :
    Tcp.Move c (.connect endpoints) (c.connect endpoints.val) := by
  have hstep : Tcp.step c (.connect endpoints) = some (c.connect endpoints.val) := if_pos hc.2
  exact Tcp.step_move hc.1.phase hstep

theorem tcp_can_handle {c : Tcp.State} (hc : TcpAfter c) (hwait : c.mustWait = true) :
    ∃ e, (tcp.handle c e).isSome = true := by
  obtain ⟨⟨hphase, hposted⟩, hit⟩ := hc
  by_cases hm : c.msgToSend = true
  · obtain ⟨msg, posted, hcons⟩ := List.exists_cons_of_ne_nil (hposted hm)
    exact ⟨.doSend, by simp [tcp, Tcp.step, hit, hcons]⟩
  · cases hphase with
    | idle hconn hw => simp [Tcp.State.mustWait, hconn, hw, hm] at hwait
    | connecting endpoint next _ _ _ hp =>
      exact ⟨.handleConnect endpoint next .failure 0, by simp [tcp, Tcp.step, hp]⟩
    | writing front _ earlier _ _ _ _ _ _ hp =>
      exact ⟨.handleWrite earlier.length front .failure 0 0,
        by simp [tcp, Tcp.step, hp, Tcp.Transferable]⟩

theorem tcp_laws : Laws tcp TcpBefore TcpAfter (fun _ _ => True) where
  answer := ⟨⟨[⟨0, 0⟩], by simp⟩⟩
  init_free := rfl
  init_before := ⟨⟨Tcp.phase_init, fun h => nomatch h⟩, rfl⟩
  send_before msg hc := ⟨tcp_move_announced (.send msg) hc.1, hc.2⟩
  send_after msg hc := ⟨tcp_move_announced (.send msg) hc.1, hc.2⟩
  start_after endpoints hc := by
    have hmove := tcp_connect hc endpoints
    refine ⟨tcp_move_announced hmove hc.1, ?_⟩
    generalize hc' : Tcp.State.connect _ _ = c' at hmove
    change (Tcp.State.connect _ _).endpointIterator ≠ []
    rw [hc']
    cases hmove with
    | opened => exact List.cons_ne_nil _ _
  start_waits endpoints hc _ := by
    have hmove := tcp_connect hc endpoints
    change (Tcp.State.connect _ _).mustWait = true
    generalize Tcp.State.connect _ _ = c' at hmove ⊢
    cases hmove with
    | opened => simp [Tcp.State.mustWait]
  handle_after hc _ hstep := by
    have hmove := Tcp.step_move hc.1.phase (tcp_handle_step hstep)
    exact ⟨tcp_move_announced hmove hc.1, hmove.endpoints hc.2⟩
  can_handle hc hwait := tcp_can_handle hc hwait

/-- A `DoSend` that finds the queue not empty and nothing outstanding: an earlier
`async_send_to` failed. It raises `write_in_progress_` for good. -/
def Overtakes (c : Udp.State) (e : Udp.Event) : Prop :=
  e = .doSend ∧ c.writeMsgs ≠ [] ∧ c.pending = []

structure UdpAnnounced (c : Udp.State) : Prop where
  phase : Udp.Phase c
  sending : c.writeInProgress = true → c.pending ≠ []
  posted : c.msgToSend = true → c.posted ≠ []

theorem udp_move_announced {c c' : Udp.State} {e : Udp.Event} (h : Udp.Move c e c')
    (hc : UdpAnnounced c) (hok : ¬ Overtakes c e) : UdpAnnounced c' := by
  refine ⟨h.phase hc.phase, ?_, ?_⟩
  · cases h with
    | send => exact hc.sending
    | start =>
      intro hw
      cases hw
    | push _ hw => exact fun _ hp => hok ⟨rfl, by simp [hw], hp⟩
    | advance => exact fun _ => List.cons_ne_nil _ _
    | last | strand =>
      intro hw
      cases hw
  · cases h with
    | send msg => exact fun _ => by simp [Udp.State.send]
    | start | push =>
      intro hm
      cases hm
    | last | advance | strand => exact hc.posted

theorem udp_handle_step {c c' : Udp.State} {e : Udp.Event} (h : udp.handle c e = some c') :
    Udp.step c e = some c' := by
  cases e with
  | send msg => exact nomatch h
  | doSend => exact h
  | handlerWrite => exact h

theorem udp_can_handle {c : Udp.State} (hc : UdpAnnounced c) (hwait : c.mustWait = true) :
    ∃ e, (udp.handle c e).isSome = true := by
  by_cases hm : c.msgToSend = true
  · obtain ⟨msg, posted, hcons⟩ := List.exists_cons_of_ne_nil (hc.posted hm)
    exact ⟨.doSend, by simp [udp, Udp.step, hcons]⟩
  · have hw : c.writeInProgress = true := by simpa [Udp.State.mustWait, hm] using hwait
    obtain ⟨buffer, pending, hcons⟩ := List.exists_cons_of_ne_nil (hc.sending hw)
    exact ⟨.handlerWrite buffer true, by simp [udp, Udp.step, hcons]⟩

theorem udp_laws : Laws udp UdpAnnounced UdpAnnounced (fun c e => ¬ Overtakes c e) where
  answer := ⟨()⟩
  init_free := rfl
  init_before := ⟨Udp.phase_init, (fun h => nomatch h), fun h => nomatch h⟩
  send_before msg hc := udp_move_announced (.send msg) hc fun ho => nomatch ho.1
  send_after msg hc := udp_move_announced (.send msg) hc fun ho => nomatch ho.1
  start_after _ hc := hc
  start_waits _ _ hwait := hwait
  handle_after hc hok hstep :=
    udp_move_announced (Udp.step_move hc.phase (udp_handle_step hstep)) hc hok
  can_handle hc hwait := udp_can_handle hc hwait

/-- `BlockUntilQueueIsEmpty` never waits for a thread that is gone: in `TCPClient` as long
as `resolve` does not throw, in `UDPClient` as long as, besides, no `DoSend` follows a
failed `async_send_to`. -/
theorem waiter_never_stuck
    {tcpTrace : List (State Tcp.State Tcp.Resolved × Event Tcp.Event Tcp.Resolved)}
    {tcpEnd : State Tcp.State Tcp.Resolved}
    {udpTrace : List (State Udp.State Unit × Event Udp.Event Unit)} {udpEnd : State Udp.State Unit}
    (htcp : Run (step tcp) (init tcp) tcpTrace tcpEnd)
    (hresolved : ∀ p ∈ tcpTrace, p.2 ≠ .resolveThrows)
    (hudp : Run (step udp) (init udp) udpTrace udpEnd)
    (hsent : ∀ p ∈ udpTrace, Lives (fun c e => ¬ Overtakes c e) p.1 p.2) :
    (∀ t ∈ visited tcpTrace tcpEnd, ¬ Stuck tcp t) ∧
      ∀ t ∈ visited udpTrace udpEnd, ¬ Stuck udp t := by
  constructor
  · exact tcp_laws.never_stuck htcp fun p hp => ⟨hresolved p hp, fun _ _ => trivial⟩
  · exact udp_laws.never_stuck hudp hsent

theorem waiter_released_after_send :
    ∃ tcpTrace tcpEnd udpTrace udpEnd,
      Run (step tcp) (init tcp) tcpTrace tcpEnd ∧ Run (step udp) (init udp) udpTrace udpEnd ∧
      (tcpEnd.app = .readingRunning ∧ tcp.mustWait tcpEnd.client = true) ∧
      (udpEnd.app = .readingRunning ∧ udp.mustWait udpEnd.client = true) ∧
      (∀ t ∈ visited tcpTrace tcpEnd, ¬ Stuck tcp t) ∧
      ∀ t ∈ visited udpTrace udpEnd, ¬ Stuck udp t := by
  have htcp := run_of_events (step tcp) (init tcp)
    [.callSend [47], .testThread, .setRunning, .createThread true, .post, .callBlock] rfl
  have hudp := run_of_events (step udp) (init udp)
    [.callSend [47], .testThread, .setRunning, .createThread true, .post, .callBlock] rfl
  exact ⟨_, _, _, _, htcp, hudp, ⟨rfl, rfl⟩, ⟨rfl, rfl⟩,
    waiter_never_stuck htcp (by simp) hudp (by simp [Lives])⟩

/-- The host does not resolve: the thread that was to run the `DoSend` of the only message
is gone when `BlockUntilQueueIsEmpty` begins to wait for it. -/
theorem unresolved_host_blocks :
    (∃ trace s,
      trace.map Prod.snd =
        [.testQueue, .readRunning, .callBlock, .clearRunning, .clearReady, .reset,
         .resolveThrows, .post, .createThread true, .setRunning, .testThread, .callSend [47]] ∧
      Run (step tcp) (init tcp) trace s ∧ s.app = .waiting ∧ Stuck tcp s) ∧
    (∃ trace s,
      trace.map Prod.snd =
        [.testQueue, .readRunning, .callBlock, .clearRunning, .clearReady, .reset,
         .resolveThrows, .post, .createThread true, .setRunning, .testThread, .callSend [47]] ∧
      Run (step udp) (init udp) trace s ∧ s.app = .waiting ∧ Stuck udp s) := by
  constructor
  · have h := run_of_events (step tcp) (init tcp)
      [.callSend [47], .testThread, .setRunning, .createThread true, .post, .resolveThrows,
       .reset, .clearReady, .clearRunning, .callBlock, .readRunning, .testQueue] rfl
    exact ⟨_, _, rfl, h, rfl, rfl, rfl, not_can_run rfl⟩
  · have h := run_of_events (step udp) (init udp)
      [.callSend [47], .testThread, .setRunning, .createThread true, .post, .resolveThrows,
       .reset, .clearReady, .clearRunning, .callBlock, .readRunning, .testQueue] rfl
    exact ⟨_, _, rfl, h, rfl, rfl, rfl, not_can_run rfl⟩

end AmClient.Lifecycle
