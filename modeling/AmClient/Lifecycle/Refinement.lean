import AmClient.Lifecycle.Blocking
import AmClient.Lifecycle.Threads
import AmClient.Tcp.Delivery
import AmClient.Udp.Handoff

/-!
# The classes refine their asynchronous clients

`post`, `start` and `handle` are the steps that reach the client. Leaving out all others, a
run of `TCPClient` or `UDPClient` is a run of the machine of its client, so that whatever
holds of every run of that machine holds of the class. A message that was posted to a
thread whose host did not resolve stays posted for the next thread.
-/

namespace AmClient.Lifecycle
open Foundation
set_option autoImplicit false

section
variable {σ ε α : Type} {T : Transport σ ε α}

/-- The transport takes its steps in this machine, and starts only a client that is `fresh`. -/
structure Implements (T : Transport σ ε α) (machine : σ → ε → Option σ) (sendEvent : Bytes → ε)
    (startEvent : α → Option ε) (fresh : σ → Prop) : Prop where
  init_fresh : fresh T.init
  send_fresh : ∀ {c} msg, fresh c → fresh (T.send c msg)
  send : ∀ c msg, machine c (sendEvent msg) = some (T.send c msg)
  start_silent : ∀ c {answer}, startEvent answer = none → T.start c answer = c
  start : ∀ {c answer e}, fresh c → startEvent answer = some e →
    machine c e = some (T.start c answer)
  handle : ∀ {c e c'}, T.handle c e = some c' → machine c e = some c'

/-- The event of the client's machine that a step is. -/
def performed (sendEvent : Bytes → ε) (startEvent : α → Option ε) (s : State σ α) :
    Event ε α → Option ε
  | .post => match s.app with
    | .posting msg => some (sendEvent msg)
    | _ => none
  | .start => match s.io with
    | .starting answer => startEvent answer
    | _ => none
  | .handle e => some e
  | _ => none

def Unstarted (fresh : σ → Prop) (s : State σ α) : Prop := s.io.started = false → fresh s.client

variable {machine : σ → ε → Option σ} {sendEvent : Bytes → ε} {startEvent : α → Option ε}
  {fresh : σ → Prop}

theorem Unstarted.move (R : Implements T machine sendEvent startEvent fresh) {s t : State σ α}
    {e : Event ε α} (hs : Unstarted fresh s) (hone : OneThread s) (h : Move T s e t) :
    Unstarted fresh t := by
  intro hio
  cases h with
  | posts => exact R.send_fresh _ (hs hio)
  | starts | ready => exact nomatch hio
  | handles hrun =>
    rw [hrun] at hio
    exact nomatch hio
  | creates happ =>
    have habsent := hone.alone _ (.inr happ)
    exact hs (by simp [habsent, Io.started])
  | resolves hnow | throws hnow | resets hnow | clearsReady hnow | clearsRunning hnow =>
    exact hs (by simp [hnow, Io.started])
  | _ => exact hs hio

/-- The run of the client's machine inside a run of the class. -/
theorem Implements.client_run (R : Implements T machine sendEvent startEvent fresh)
    {trace : List (State σ α × Event ε α)} {s : State σ α} (h : Run (step T) (init T) trace s) :
    Run machine T.init
      (Run.projected State.client (performed sendEvent startEvent) trace) s.client := by
  refine h.project (I := fun s => OneThread s ∧ Unstarted fresh s) State.client
    (performed sendEvent startEvent) ⟨oneThread_init, fun _ => R.init_fresh⟩ ?_ ?_ ?_
  · intro s e t hI hstep
    have hmove := step_move hstep
    exact ⟨hI.1.move hmove, hI.2.move R hI.1 hmove⟩
  · intro s e t hI hstep hlabel
    cases step_move hstep with
    | posts happ => simp [performed, happ] at hlabel
    | starts hio =>
      simp only [performed, hio] at hlabel
      exact R.start_silent _ hlabel
    | handles => simp [performed] at hlabel
    | _ => rfl
  · intro s e t k hI hstep hlabel
    cases e with
    | post =>
      simp only [step, performed] at hstep hlabel
      split at hstep
      · rename_i msg happ
        rw [happ] at hlabel
        obtain rfl := Option.some.inj hlabel
        obtain rfl := Option.some.inj hstep
        exact R.send s.client msg
      · cases hstep
    | start =>
      simp only [step, performed] at hstep hlabel
      split at hstep
      · rename_i answer hio
        rw [hio] at hlabel
        obtain rfl := Option.some.inj hstep
        exact R.start (hI.2 (by simp [hio, Io.started])) hlabel
      · cases hstep
    | handle x =>
      obtain rfl := Option.some.inj hlabel
      simp only [step] at hstep
      split at hstep
      · obtain ⟨c, hc, rfl⟩ := Option.map_eq_some_iff.mp hstep
        exact R.handle hc
      · cases hstep
    | _ => simp [performed] at hlabel

/-- The message of the `Send` that the application thread is in. -/
def App.message : App → Option Bytes
  | .testing msg => some msg
  | .launching msg => some msg
  | .creating msg => some msg
  | .posting msg => some msg
  | _ => none

def callOf (p : State σ α × Event ε α) : Option Bytes :=
  match p.2 with
  | .callSend msg => some msg
  | _ => none

def postOf (p : State σ α × Event ε α) : Option Bytes :=
  match p.2 with
  | .post => p.1.app.message
  | _ => none

/-- The message of the `Send` that returns at this step, and whether it was posted; it was
not if no thread could be created. -/
def returnOf (p : State σ α × Event ε α) : Option (Bytes × Bool) :=
  match p.2 with
  | .post => p.1.app.message.map fun msg => (msg, true)
  | .createThread false => p.1.app.message.map fun msg => (msg, false)
  | _ => none

/-- The arguments of the `Send` calls, of those that posted a handler, and of those that
have returned, oldest first. -/
def called (trace : List (State σ α × Event ε α)) : List Bytes := trace.reverse.filterMap callOf

def posted (trace : List (State σ α × Event ε α)) : List Bytes := trace.reverse.filterMap postOf

def returned (trace : List (State σ α × Event ε α)) : List (Bytes × Bool) :=
  trace.reverse.filterMap returnOf

def Event.loses : Event ε α → Bool
  | .createThread created => !created
  | _ => false

theorem called_cons (p : State σ α × Event ε α) (trace : List (State σ α × Event ε α)) :
    called (p :: trace) = called trace ++ (callOf p).toList := by
  rw [called, List.reverse_cons, List.filterMap_append, ← called]
  cases h : callOf p with
  | none => simp [h]
  | some msg => simp [h]

theorem posted_cons (p : State σ α × Event ε α) (trace : List (State σ α × Event ε α)) :
    posted (p :: trace) = posted trace ++ (postOf p).toList := by
  rw [posted, List.reverse_cons, List.filterMap_append, ← posted]
  cases h : postOf p with
  | none => simp [h]
  | some msg => simp [h]

theorem returned_cons (p : State σ α × Event ε α) (trace : List (State σ α × Event ε α)) :
    returned (p :: trace) = returned trace ++ (returnOf p).toList := by
  rw [returned, List.reverse_cons, List.filterMap_append, ← returned]
  cases h : returnOf p with
  | none => simp [h]
  | some outcome => simp [h]

/-- What a step does to the message of the running `Send`. -/
inductive Carry (s : State σ α) : Event ε α → State σ α → Prop where
  | takes {t : State σ α} (msg : Bytes) : s.app.message = none → t.app.message = some msg →
      Carry s (.callSend msg) t
  | hands {t : State σ α} {msg : Bytes} : s.app.message = some msg → t.app.message = none →
      Carry s .post t
  | loses {t : State σ α} {msg : Bytes} : s.app.message = some msg → t.app.message = none →
      Carry s (.createThread false) t
  | keeps {t : State σ α} {e : Event ε α} : callOf (s, e) = none → postOf (s, e) = none →
      e.loses = false → t.app.message = s.app.message → Carry s e t

theorem step_carry {s t : State σ α} {e : Event ε α} (h : step T s e = some t) : Carry s e t := by
  cases e with
  | callSend msg =>
    simp only [step] at h
    split at h
    · rename_i happ
      obtain rfl := Option.some.inj h
      exact .takes msg (by simp [happ, App.message]) rfl
    · cases h
  | post =>
    simp only [step] at h
    split at h
    · rename_i msg happ
      have hmsg : s.app.message = some msg := by simp [happ, App.message]
      obtain rfl := Option.some.inj h
      exact .hands hmsg rfl
    · cases h
  | createThread created =>
    simp only [step] at h
    split at h
    · rename_i msg happ
      cases created with
      | false =>
        have hmsg : s.app.message = some msg := by simp [happ, App.message]
        obtain rfl := Option.some.inj h
        exact .loses hmsg rfl
      | true =>
        obtain rfl := Option.some.inj h
        exact .keeps rfl rfl rfl (by simp [happ, App.message])
    · cases h
  | handle x =>
    simp only [step] at h
    split at h
    · obtain ⟨c, _, rfl⟩ := Option.map_eq_some_iff.mp h
      exact .keeps rfl rfl rfl rfl
    · cases h
  | testThread | setRunning | callBlock | readRunning | readReady | testQueue | wake =>
    simp only [step] at h
    split at h
    · rename_i happ
      obtain rfl := Option.some.inj h
      refine .keeps rfl rfl rfl ?_
      simp only [happ]
      first | rfl | (split <;> rfl)
    · cases h
  | _ =>
    simp only [step] at h
    split at h
    · obtain rfl := Option.some.inj h
      exact .keeps rfl rfl rfl rfl
    · cases h

/-- Every `Send` so far has returned but for the running one. The calls that posted are
those that returned and did not find that no thread could be created. -/
structure Handed (trace : List (State σ α × Event ε α)) (s : State σ α) : Prop where
  calls : called trace = (returned trace).map Prod.fst ++ s.app.message.toList
  posts : posted trace = ((returned trace).filter Prod.snd).map Prod.fst

theorem returnOf_keeps {s : State σ α} {e : Event ε α} (hpost : postOf (s, e) = none)
    (hloses : e.loses = false) : returnOf (s, e) = none := by
  cases e with
  | post =>
    have hnone : s.app.message = none := hpost
    simp [returnOf, hnone]
  | createThread created =>
    cases created with
    | false => cases hloses
    | true => rfl
  | _ => rfl

theorem returnOf_posted {p : State σ α × Event ε α} {outcome : Bytes × Bool}
    (h : returnOf p = some outcome) (hkeeps : p.2.loses = false) : outcome.2 = true := by
  obtain ⟨s, e⟩ := p
  cases e with
  | post =>
    obtain ⟨msg, _, rfl⟩ := Option.map_eq_some_iff.mp h
    rfl
  | createThread created =>
    cases created with
    | false => cases hkeeps
    | true => cases h
  | _ => cases h

theorem posted_returned (trace : List (State σ α × Event ε α)) :
    posted trace = ((returned trace).filter Prod.snd).map Prod.fst := by
  induction trace with
  | nil => rfl
  | cons p trace ih =>
    rw [posted_cons, returned_cons, List.filter_append, List.map_append, ← ih]
    congr 1
    cases hevent : p.2 with
    | post => cases happ : p.1.app.message <;> simp [postOf, returnOf, hevent, happ]
    | createThread created =>
      cases created <;> cases happ : p.1.app.message <;> simp [postOf, returnOf, hevent, happ]
    | _ => simp [postOf, returnOf, hevent]

theorem handed_run {trace : List (State σ α × Event ε α)} {s : State σ α}
    (h : Run (step T) (init T) trace s) : Handed trace s := by
  refine ⟨?_, posted_returned trace⟩
  induction h with
  | start => rfl
  | @next trace s t e hrun hstep ih =>
    rw [called_cons, returned_cons, List.map_append, ih]
    cases step_carry hstep with
    | takes msg hs ht => simp [callOf, returnOf, hs, ht]
    | hands hs ht => simp [callOf, returnOf, hs, ht]
    | loses hs ht => simp [callOf, returnOf, hs, ht]
    | keeps hcall hpost hloses hmsg => simp [hcall, returnOf_keeps hpost hloses, hmsg]

/-- While every thread can be created no `Send` is lost. -/
theorem Handed.all {trace : List (State σ α × Event ε α)} {s : State σ α} (h : Handed trace s)
    (hcreated : ∀ p ∈ trace, p.2.loses = false) :
    posted trace ++ s.app.message.toList = called trace := by
  have hposted : (returned trace).filter Prod.snd = returned trace := by
    apply List.filter_eq_self.mpr
    intro outcome houtcome
    obtain ⟨p, hp, hreturn⟩ := List.mem_filterMap.mp houtcome
    exact returnOf_posted hreturn (hcreated p (List.mem_reverse.mp hp))
  rw [h.calls, h.posts, hposted]

theorem Handed.sublist {trace : List (State σ α × Event ε α)} {s : State σ α}
    (h : Handed trace s) : (posted trace ++ s.app.message.toList).Sublist (called trace) := by
  rw [h.calls, h.posts]
  exact (List.filter_sublist.map Prod.fst).append_right _

theorem Move.client_kept {s t : State σ α} {e : Event ε α} (h : Move T s e t) (hpost : e ≠ .post)
    (hstart : e ≠ .start) (hhandle : ∀ x, e ≠ .handle x) : t.client = s.client := by
  cases h with
  | posts => exact (hpost rfl).elim
  | starts => exact (hstart rfl).elim
  | handles => exact (hhandle _ rfl).elim
  | _ => rfl

/-- A client that records the arguments of its `Send` calls has recorded what was posted. -/
theorem sent_eq_posted (sent : σ → List Bytes) (hinit : sent T.init = [])
    (hsend : ∀ c msg, sent (T.send c msg) = sent c ++ [msg])
    (hstart : ∀ c answer, sent (T.start c answer) = sent c)
    (hhandle : ∀ {trace s x c}, Run (step T) (init T) trace s → T.handle s.client x = some c →
      sent c = sent s.client)
    {trace : List (State σ α × Event ε α)} {s : State σ α} (h : Run (step T) (init T) trace s) :
    sent s.client = posted trace := by
  induction h with
  | start => exact hinit
  | @next trace s t e hrun hstep ih =>
    rw [posted_cons, ← ih]
    cases e with
    | post =>
      simp only [step] at hstep
      split at hstep
      · rename_i msg happ
        obtain rfl := Option.some.inj hstep
        simp [postOf, happ, App.message, hsend]
      · cases hstep
    | start =>
      simp only [step] at hstep
      split at hstep
      · obtain rfl := Option.some.inj hstep
        simp [postOf, hstart]
      · cases hstep
    | handle x =>
      simp only [step] at hstep
      split at hstep
      · obtain ⟨c, hc, rfl⟩ := Option.map_eq_some_iff.mp hstep
        simp [postOf, hhandle hrun hc]
      · cases hstep
    | _ =>
      have hclient := (step_move hstep).client_kept (by simp) (by simp) (by simp)
      simp [postOf, hclient]

end

def tcpStart (endpoints : Tcp.Resolved) : Option Tcp.Event := some (.connect endpoints)

def udpStart (_ : Unit) : Option Udp.Event := none

theorem tcp_implements :
    Implements tcp Tcp.step .send tcpStart (fun c => c.endpointIterator = []) where
  init_fresh := rfl
  send_fresh _ hc := hc
  send _ _ := rfl
  start_silent := by simp [tcpStart]
  start := by
    intro c answer e hc hstart
    obtain rfl := Option.some.inj hstart
    exact if_pos hc
  handle := tcp_handle_step

theorem udp_implements : Implements udp Udp.step .send udpStart (fun _ => True) where
  init_fresh := trivial
  send_fresh _ _ := trivial
  send _ _ := rfl
  start_silent _ _ _ := rfl
  start _ hstart := nomatch hstart
  handle := udp_handle_step

section
variable {trace : List (State Tcp.State Tcp.Resolved × Event Tcp.Event Tcp.Resolved)}
  {s : State Tcp.State Tcp.Resolved}

/-- The run of `AsyncTCPClient` in a run of `TCPClient`. -/
def tcpSteps (trace : List (State Tcp.State Tcp.Resolved × Event Tcp.Event Tcp.Resolved)) :
    List (Tcp.State × Tcp.Event) :=
  Run.projected State.client (performed .send tcpStart) trace

theorem tcp_client_run (h : Run (step tcp) (init tcp) trace s) :
    Run Tcp.step Tcp.init (tcpSteps trace) s.client :=
  tcp_implements.client_run h

theorem tcp_connect_sent (c : Tcp.State) (endpoints : List Tcp.Endpoint) :
    (c.connect endpoints).sent = c.sent := by
  unfold Tcp.State.connect
  split
  · cases endpoints with
    | nil => rfl
    | cons => rfl
  · rfl

theorem tcp_move_sent {c c' : Tcp.State} {e : Tcp.Event} (h : Tcp.Move c e c')
    (he : ∀ msg, e ≠ .send msg) : c'.sent = c.sent := by
  cases h with
  | send msg => exact (he msg rfl).elim
  | _ => rfl

theorem tcp_sent (h : Run (step tcp) (init tcp) trace s) : s.client.sent = posted trace := by
  refine sent_eq_posted Tcp.State.sent rfl (fun _ _ => rfl) ?_ ?_ h
  · exact fun c endpoints => tcp_connect_sent c endpoints.val
  · intro trace s x c hrun hc
    have hphase := Tcp.phase_run (tcp_client_run hrun)
    apply tcp_move_sent (Tcp.step_move hphase (tcp_handle_step hc))
    rintro msg rfl
    exact nomatch hc

/-- The client takes steps of its own machine. What `Send` posted was handled in the order
of the calls or is posted still, and what was handled was written, is queued or was
discarded, whatever became of the threads. -/
structure TcpServed (trace : List (State Tcp.State Tcp.Resolved × Event Tcp.Event Tcp.Resolved))
    (s : State Tcp.State Tcp.Resolved) : Prop where
  client : Run Tcp.step Tcp.init (tcpSteps trace) s.client
  handed : Handed trace s
  kept : s.client.queued ++ s.client.posted = Tcp.numbered (posted trace)
  accounted : ∀ m ∈ s.client.queued, Tcp.Accounted (tcpSteps trace) s.client m
  order : s.client.written.eraseDups.Sublist ((Tcp.numbered (posted trace)).map Tcp.framed)
  no_fault : s.client.fault = false

theorem tcp_served (h : Run (step tcp) (init tcp) trace s) : TcpServed trace s := by
  have hclient := tcp_client_run h
  obtain ⟨n, old, fresh, hs⟩ := Tcp.delivery_run hclient
  have hkept := hs.numbered
  rw [Tcp.Numbered, tcp_sent h] at hkept
  have hfault : Tcp.Phase s.client ∧ s.client.fault = false := by
    refine hclient.invariant (I := fun c => Tcp.Phase c ∧ c.fault = false) ⟨Tcp.phase_init, rfl⟩ ?_
    intro c e c' hI hstep
    have hmove := Tcp.step_move hI.1 hstep
    exact ⟨hmove.phase hI.1, hmove.fault.trans hI.2⟩
  refine ⟨hclient, handed_run h, hkept, Tcp.accounted_run hclient, ?_, hfault.2⟩
  have haccepted : s.client.queued.map Tcp.framed = old ++ fresh := hs.split.accepted
  rw [← hkept, List.map_append, haccepted]
  exact (hs.split.order.trans (List.sublist_append_left _ _)).trans (List.sublist_append_left _ _)

end

section
variable {trace : List (State Udp.State Unit × Event Udp.Event Unit)} {s : State Udp.State Unit}

def udpSteps (trace : List (State Udp.State Unit × Event Udp.Event Unit)) :
    List (Udp.State × Udp.Event) :=
  Run.projected State.client (performed .send udpStart) trace

theorem udp_client_run (h : Run (step udp) (init udp) trace s) :
    Run Udp.step Udp.init (udpSteps trace) s.client :=
  udp_implements.client_run h

theorem udp_phase_run {trace : List (Udp.State × Udp.Event)} {c : Udp.State}
    (h : Run Udp.step Udp.init trace c) : Udp.Phase c :=
  h.invariant Udp.phase_init fun hs hstep => (Udp.step_move hs hstep).phase hs

theorem udp_in_order {trace : List (Udp.State × Udp.Event)} {c : Udp.State}
    (h : Run Udp.step Udp.init trace c) : ∃ done, Udp.InOrder c done := by
  have hinv : Udp.Phase c ∧ ∃ done, Udp.InOrder c done := by
    refine h.invariant (I := fun c => Udp.Phase c ∧ ∃ done, Udp.InOrder c done)
      ⟨Udp.phase_init, [], Udp.inOrder_init⟩ ?_
    intro c e c' hI hstep
    obtain ⟨hphase, done, hdone⟩ := hI
    have hmove := Udp.step_move hphase hstep
    exact ⟨hmove.phase hphase, hmove.inOrder hdone⟩
  exact hinv.2

theorem udp_sent (h : Run (step udp) (init udp) trace s) : s.client.sent = posted trace := by
  refine sent_eq_posted Udp.State.sent rfl (fun _ _ => rfl) (fun _ _ => rfl) ?_ h
  intro trace s x c hrun hc
  have hphase := udp_phase_run (udp_client_run hrun)
  cases Udp.step_move hphase (udp_handle_step hc) with
  | send msg => exact nomatch hc
  | _ => rfl

/-- The client takes steps of its own machine. `done` are the messages whose datagram was
sent; the socket was handed those and the front of the queue. -/
structure UdpServed (trace : List (State Udp.State Unit × Event Udp.Event Unit))
    (s : State Udp.State Unit) (done : List Msg) : Prop where
  client : Run Udp.step Udp.init (udpSteps trace) s.client
  handed : Handed trace s
  kept : done ++ s.client.writeMsgs ++ s.client.posted = Udp.sendOrder (posted trace)
  started : s.client.started = done ++ s.client.writeMsgs.take 1
  prefix_of_posts : s.client.started <+: Udp.sendOrder (posted trace)

theorem udp_served (h : Run (step udp) (init udp) trace s) : ∃ done, UdpServed trace s done := by
  obtain ⟨done, hdone⟩ := udp_in_order (udp_client_run h)
  have haccepted := hdone.accepted
  have hprefix := hdone.handed
  rw [udp_sent h] at haccepted hprefix
  exact ⟨done, udp_client_run h, handed_run h, haccepted, hdone.started, hprefix⟩

end

/-- For both classes, in every run: `Send` posts its message unless no thread could be
created, and nothing that was posted is lost with the thread it was posted to. -/
theorem posts_survive_threads
    {tcpTrace : List (State Tcp.State Tcp.Resolved × Event Tcp.Event Tcp.Resolved)}
    {tcpEnd : State Tcp.State Tcp.Resolved}
    {udpTrace : List (State Udp.State Unit × Event Udp.Event Unit)} {udpEnd : State Udp.State Unit}
    (htcp : Run (step tcp) (init tcp) tcpTrace tcpEnd)
    (hudp : Run (step udp) (init udp) udpTrace udpEnd) :
    TcpServed tcpTrace tcpEnd ∧ ∃ done, UdpServed udpTrace udpEnd done :=
  ⟨tcp_served htcp, udp_served hudp⟩

/-- The first message waits through the thread that did not resolve its host and is
connected for by the second thread; the datagram of the second UDP thread is on its way. -/
theorem posts_survive_failed_resolve :
    ∃ tcpTrace tcpEnd udpTrace udpEnd,
      Run (step tcp) (init tcp) tcpTrace tcpEnd ∧ Run (step udp) (init udp) udpTrace udpEnd ∧
      tcpEnd.client.writeMsgs.map Msg.origin = [0, 1] ∧ udpEnd.client.started = [⟨0, [47]⟩] ∧
      TcpServed tcpTrace tcpEnd ∧ ∃ done, UdpServed udpTrace udpEnd done := by
  have htcp := run_of_events (step tcp) (init tcp)
    [.callSend [47], .testThread, .setRunning, .createThread true, .resolveThrows, .post, .reset,
     .clearReady, .clearRunning, .callSend [48], .testThread, .setRunning, .createThread true,
     .resolved ⟨[⟨1, 15002⟩], by decide⟩, .start, .setReady, .post, .handle .doSend,
     .handle .doSend] rfl
  have hudp := run_of_events (step udp) (init udp)
    [.callSend [47], .testThread, .setRunning, .createThread true, .resolveThrows, .post, .reset,
     .clearReady, .clearRunning, .callSend [48], .testThread, .setRunning, .createThread true,
     .resolved (), .start, .setReady, .post, .handle .doSend] rfl
  exact ⟨_, _, _, _, htcp, hudp, rfl, rfl, posts_survive_threads htcp hudp⟩

end AmClient.Lifecycle
