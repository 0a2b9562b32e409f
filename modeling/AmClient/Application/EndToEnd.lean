import AmClient.Application.Composition
import AmClient.Tcp.Stream
import Mathlib.Data.List.Flatten

/-!
# From the calls to the sockets

The messages that the calls route to a transport reach its socket in the order of the
calls. By UDP a receiver of the datagrams decodes a beginning of them; by TCP each of them
is accounted for, and a receiver of a connection reads them in order.
-/

namespace AmClient.Application
open Foundation Client
set_option autoImplicit false

variable {decibels : BitVec 32 → Decibels}

theorem wire_grows {s : Client.State} {c : Call} {w : Wire} (h : Client.Move decibels s c w) :
    s.udpSent <+: w.udpSent := by
  cases h with
  | silent | append | opened | restarted | dropped => exact List.prefix_refl _
  | datagram | flush | reopened | closed => exact List.prefix_append _ _

theorem call_grows {s t : Client.State} {c : Call} (h : Client.step decibels s c = some t) :
    s.tcpSent <+: t.tcpSent ∧ s.udpSent <+: t.udpSent := by
  refine ⟨?_, wire_grows (Client.step_move h)⟩
  obtain ⟨_, _, hsent⟩ := Control.mk.inj (step_control h)
  rw [hsent]
  exact List.prefix_append _ _

theorem append_drop_of_prefix {α : Type} {xs ys : List α} (h : xs <+: ys) :
    xs ++ ys.drop xs.length = ys := by
  obtain ⟨zs, rfl⟩ := h
  rw [List.drop_left]

/-- The calls of `Send` so far, and those that the current call still makes, are all that
the calls handed to the two clients. -/
structure Ledger (trace : List (State × Event)) (s : State) : Prop where
  tcp : Lifecycle.called (tcpPart trace) ++ s.tcpJobs = s.calls.tcpSent
  udp : Lifecycle.called (udpPart trace) ++ s.udpJobs = s.calls.udpSent

/-- A step of the TCP client takes from the jobs what it adds to the `Send` calls. -/
theorem tcpJobs_step {s : State} {e : TcpEvent} (hmay : s.tcpMay e = true) :
    (Lifecycle.callOf (s.tcp, e)).toList ++ s.tcpJobsAfter e = s.tcpJobs := by
  cases e with
  | callSend msg =>
    have hhead : s.tcpJobs.head? = some msg := by
      simp only [State.tcpMay, decide_eq_true_eq] at hmay
      exact hmay.1
    obtain ⟨rest, hrest⟩ := List.head?_eq_some_iff.mp hhead
    simp [Lifecycle.callOf, State.tcpJobsAfter, hrest]
  | _ => rfl

theorem udpJobs_step {s : State} {e : UdpEvent} (hmay : s.udpMay e = true) :
    (Lifecycle.callOf (s.udp, e)).toList ++ s.udpJobsAfter e = s.udpJobs := by
  cases e with
  | callSend msg =>
    have hhead : s.udpJobs.head? = some msg := by
      simp only [State.udpMay, decide_eq_true_eq] at hmay
      exact hmay.1
    obtain ⟨rest, hrest⟩ := List.head?_eq_some_iff.mp hhead
    simp [Lifecycle.callOf, State.udpJobsAfter, hrest]
  | _ => rfl

theorem Ledger.next {trace : List (State × Event)} {s t : State} {e : Event}
    (hs : Ledger trace s) (h : Move decibels s e t) : Ledger ((s, e) :: trace) t := by
  obtain ⟨htcp, hudp⟩ := hs
  refine ⟨?_, ?_⟩
  · rw [tcpPart_cons]
    cases h with
    | call hret hcall =>
      have hdone : Lifecycle.called (tcpPart trace) = s.calls.tcpSent := by
        rwa [hret.2.1, List.append_nil] at htcp
      simpa [Event.tcpOf, hdone] using append_drop_of_prefix (call_grows hcall).1
    | @tcp e _ hmay =>
      have hjobs := tcpJobs_step hmay
      simpa [Event.tcpOf, Lifecycle.called_cons, List.append_assoc, hjobs] using htcp
    | block => simpa [Event.tcpOf, Lifecycle.called_cons, Lifecycle.callOf] using htcp
    | udp | blockUdp | unblock => simpa [Event.tcpOf] using htcp
  · rw [udpPart_cons]
    cases h with
    | call hret hcall =>
      have hdone : Lifecycle.called (udpPart trace) = s.calls.udpSent := by
        rwa [hret.2.2.1, List.append_nil] at hudp
      simpa [Event.udpOf, hdone] using append_drop_of_prefix (call_grows hcall).2
    | @udp e _ hmay =>
      have hjobs := udpJobs_step hmay
      simpa [Event.udpOf, Lifecycle.called_cons, List.append_assoc, hjobs] using hudp
    | blockUdp => simpa [Event.udpOf, Lifecycle.called_cons, Lifecycle.callOf] using hudp
    | tcp | block | unblock => simpa [Event.udpOf] using hudp

section
variable {baseAddress : Bytes} {trace : List (State × Event)} {s : State}

theorem ledger_run (h : Run (step decibels) (init baseAddress) trace s) : Ledger trace s := by
  induction h with
  | start => exact ⟨rfl, rfl⟩
  | next _ hstep ih => exact ih.next (step_move hstep)

/-- No thread of this transport failed to be created. -/
def ThreadsCreated {σ ε α : Type} (trace : List (Lifecycle.State σ α × Lifecycle.Event ε α)) :
    Prop :=
  ∀ p ∈ trace, p.2.loses = false

instance {σ ε α : Type} (trace : List (Lifecycle.State σ α × Lifecycle.Event ε α)) :
    Decidable (ThreadsCreated trace) :=
  inferInstanceAs (Decidable (∀ p ∈ trace, p.2.loses = false))

theorem posted_of_ledger {σ ε α : Type} {T : Lifecycle.Transport σ ε α}
    {part : List (Lifecycle.State σ α × Lifecycle.Event ε α)} {t : Lifecycle.State σ α}
    (h : Run (Lifecycle.step T) (Lifecycle.init T) part t) {jobs sent : List Bytes}
    (hledger : Lifecycle.called part ++ jobs = sent) :
    (Lifecycle.posted part).Sublist sent ∧
      (ThreadsCreated part → Lifecycle.posted part ++ t.app.message.toList ++ jobs = sent) := by
  have hhanded := Lifecycle.handed_run h
  refine ⟨?_, ?_⟩
  · rw [← hledger]
    have hposts := (List.sublist_append_left _ _).trans hhanded.sublist
    exact hposts.trans (List.sublist_append_left _ _)
  · intro hcreated
    rw [hhanded.all hcreated, hledger]

theorem tcp_posted (h : Run (step decibels) (init baseAddress) trace s) :
    (Lifecycle.posted (tcpPart trace)).Sublist s.calls.tcpSent ∧
      (ThreadsCreated (tcpPart trace) →
        Lifecycle.posted (tcpPart trace) ++ s.tcp.app.message.toList ++ s.tcpJobs =
          s.calls.tcpSent) :=
  posted_of_ledger (tcp_run h) (ledger_run h).tcp

theorem udp_posted (h : Run (step decibels) (init baseAddress) trace s) :
    (Lifecycle.posted (udpPart trace)).Sublist s.calls.udpSent ∧
      (ThreadsCreated (udpPart trace) →
        Lifecycle.posted (udpPart trace) ++ s.udp.app.message.toList ++ s.udpJobs =
          s.calls.udpSent) :=
  posted_of_ledger (udp_run h) (ledger_run h).udp

end

theorem sendOrder_bytes (sent : List Bytes) : (Udp.sendOrder sent).map Msg.bytes = sent := by
  apply List.ext_getElem
  · simp [Udp.sendOrder]
  · intro i hi hj
    simp [Udp.sendOrder]

theorem related_sublist {α β : Type} {R : α → β → Prop} {xs xs' : List α} {ys : List β}
    (h : List.Forall₂ R xs ys) (hsub : xs'.Sublist xs) :
    ∃ ys', List.Forall₂ R xs' ys' ∧ ys'.Sublist ys := by
  induction hsub generalizing ys with
  | slnil => exact ⟨[], .nil, List.nil_sublist _⟩
  | cons x _ ih =>
    obtain _ | @⟨_, y, _, later, _, hlater⟩ := h
    obtain ⟨ys', hys, hsub⟩ := ih hlater
    exact ⟨ys', hys, hsub.cons y⟩
  | cons_cons x _ ih =>
    obtain _ | @⟨_, y, _, later, hx, hlater⟩ := h
    obtain ⟨ys', hys, hsub⟩ := ih hlater
    exact ⟨y :: ys', .cons hx hys, hsub.cons_cons y⟩

theorem related_take {α β : Type} {R : α → β → Prop} {xs xs' : List α} {ys : List β}
    (h : List.Forall₂ R xs ys) (hpre : xs' <+: xs) : List.Forall₂ R xs' (ys.take xs'.length) := by
  obtain ⟨rest, rfl⟩ := hpre
  have htake := List.forall₂_take xs'.length h
  rwa [List.take_left] at htake

/-- What a receiver of the datagrams of a run decodes, one after the other as they were
handed to the socket: messages that the calls routed to UDP, in the order of the calls and
each at most once; a beginning of these messages if every thread could be created; all of
them when, besides, the calls have returned, no bundle is open and nothing is queued. -/
structure Received (decibels : BitVec 32 → Decibels) (trace : List (State × Event)) (s : State)
    (ms : List Bytes) : Prop where
  decoded : decodeAll (s.udp.client.started.map Msg.bytes) = some ms
  in_order : ms.Sublist (routed decibels (callSteps trace))
  beginning : ThreadsCreated (udpPart trace) → ms <+: routed decibels (callSteps trace)
  all : ThreadsCreated (udpPart trace) → s.Returned → s.calls.startBundle = false →
    s.udp.client.posted = [] → s.udp.client.writeMsgs = [] →
      ms = routed decibels (callSteps trace)

/-- The same for the messages that each datagram carries. -/
structure Delivered (decibels : BitVec 32 → Decibels) (trace : List (State × Event)) (s : State)
    (contents : List (List Bytes)) : Prop where
  carried : List.Forall₂ Carries (s.udp.client.started.map Msg.bytes) contents
  in_order : contents.flatten.Sublist (routed decibels (callSteps trace))
  beginning : ThreadsCreated (udpPart trace) →
    contents.flatten <+: routed decibels (callSteps trace)
  all : ThreadsCreated (udpPart trace) → s.Returned → s.calls.startBundle = false →
    s.udp.client.posted = [] → s.udp.client.writeMsgs = [] →
      contents.flatten = routed decibels (callSteps trace)

/-- The datagrams handed to the socket, against those that the calls sent. -/
structure HandedOver (trace : List (State × Event)) (s : State) : Prop where
  in_order : (s.udp.client.started.map Msg.bytes).Sublist s.calls.udpSent
  beginning : ThreadsCreated (udpPart trace) →
    s.udp.client.started.map Msg.bytes <+: s.calls.udpSent
  all : ThreadsCreated (udpPart trace) → s.Returned → s.udp.client.posted = [] →
    s.udp.client.writeMsgs = [] → s.udp.client.started.map Msg.bytes = s.calls.udpSent

theorem handedOver_run {baseAddress : Bytes} {trace : List (State × Event)} {s : State}
    (h : Run (step decibels) (init baseAddress) trace s) : HandedOver trace s := by
  obtain ⟨done, hserved⟩ := Lifecycle.udp_served (udp_run h)
  obtain ⟨hposted, hall⟩ := udp_posted h
  have hstarted : s.udp.client.started.map Msg.bytes <+: Lifecycle.posted (udpPart trace) := by
    have hmap := hserved.prefix_of_posts.map Msg.bytes
    rwa [sendOrder_bytes] at hmap
  refine ⟨hstarted.sublist.trans hposted, ?_, ?_⟩
  · intro hcreated
    rw [← hall hcreated, List.append_assoc]
    exact hstarted.trans (List.prefix_append _ _)
  · intro hcreated hret hnone hempty
    have hsent := hall hcreated
    rw [hret.2.2.1, hret.2.2.2.2] at hsent
    have hposts : Lifecycle.posted (udpPart trace) = s.calls.udpSent := by
      simpa [Lifecycle.App.message] using hsent
    have hkept := hserved.kept
    have hhanded := hserved.started
    rw [hnone, hempty, List.append_nil, List.append_nil] at hkept
    rw [hempty, List.take_nil, List.append_nil] at hhanded
    rw [hhanded, hkept, sendOrder_bytes, hposts]

theorem delivered_run {baseAddress : Bytes} {trace : List (State × Event)} {s : State}
    (h : Run (step decibels) (init baseAddress) trace s)
    (hsmall : ∀ p ∈ callSteps trace, p.1.startBundle = true →
      ∀ m ∈ routedToUdp decibels p.1 p.2, m.length < 2 ^ 31) :
    ∃ contents, Delivered decibels trace s contents := by
  obtain ⟨contents, pending, hcarried⟩ := carried_run (call_run h) hsmall
  have hover := handedOver_run h
  have hflat : contents.flatten.Sublist (routed decibels (callSteps trace)) := by
    rw [← hcarried.all]
    exact List.sublist_append_left _ _
  obtain ⟨contents', hcarries, hcontents⟩ := related_sublist hcarried.sent hover.in_order
  have hdecoded := decodeAll_carried hcarries
  have beginning (hcreated : ThreadsCreated (udpPart trace)) :
      contents'.flatten = (contents.take (s.udp.client.started.map Msg.bytes).length).flatten := by
    have htaken := decodeAll_carried (related_take hcarried.sent (hover.beginning hcreated))
    exact Option.some.inj (hdecoded.symm.trans htaken)
  refine ⟨contents', hcarries, hcontents.flatten.trans hflat, ?_, ?_⟩
  · intro hcreated
    have hsplit := List.take_append_drop (s.udp.client.started.map Msg.bytes).length contents
    rw [beginning hcreated, ← hcarried.all]
    nth_rewrite 2 [← hsplit]
    rw [List.flatten_append, List.append_assoc]
    exact List.prefix_append _ _
  · intro hcreated hret hclosed hnone hempty
    have hpending : pending = [] := hcarried.closed hclosed
    have hlen : (s.udp.client.started.map Msg.bytes).length = contents.length := by
      rw [hover.all hcreated hret hnone hempty]
      exact hcarried.sent.length_eq
    rw [beginning hcreated, hlen, List.take_length]
    exact hcarried.all_sent hpending

/-- Through the calls, the bundles, the two threads and the queue of the UDP client. -/
theorem datagrams_received {baseAddress : Bytes} {trace : List (State × Event)} {s : State}
    (h : Run (step decibels) (init baseAddress) trace s)
    (hsmall : ∀ p ∈ callSteps trace, p.1.startBundle = true →
      ∀ m ∈ routedToUdp decibels p.1 p.2, m.length < 2 ^ 31) :
    ∃ ms, Received decibels trace s ms := by
  obtain ⟨contents, hd⟩ := delivered_run h hsmall
  exact ⟨contents.flatten, decodeAll_carried hd.carried, hd.in_order, hd.beginning, hd.all⟩

/-- Two custom messages in one bundle; the IO thread of the UDP client resolves the host
and sends the datagram. -/
theorem datagrams_received_of_bundle :
    ∃ trace s ms, Run (step fun _ => .float 0) (init (ascii "/am")) trace s ∧
      s.udp.client.started.map Msg.bytes = [header ++
        frame (ascii "/am/x" ++ zeros 3 ++ ascii ",I" ++ zeros 2) ++
        frame (ascii "/am/y" ++ zeros 3 ++ ascii ",T" ++ zeros 2)] ∧
      Received (fun _ => .float 0) trace s ms := by
  obtain ⟨trace, s, h, hstarted, hsmall⟩ := run_of_record
    (step fun _ => .float 0) (init (ascii "/am"))
    [.call .startBundle, .call (.sendCustomUDP (ascii "/x") (cstr (ascii "I")) []),
      .call (.sendCustomUDP (ascii "/y") (cstr (ascii "T")) []), .call .endBundle,
      .udp (.callSend (header ++ frame (ascii "/am/x" ++ zeros 3 ++ ascii ",I" ++ zeros 2) ++
        frame (ascii "/am/y" ++ zeros 3 ++ ascii ",T" ++ zeros 2))),
      .udp .testThread, .udp .setRunning, .udp (.createThread true), .udp (.resolved ()),
      .udp .start, .udp .post, .udp .setReady, .udp (.handle .doSend)]
    (fun trace s =>
      s.udp.client.started.map Msg.bytes = [header ++
        frame (ascii "/am/x" ++ zeros 3 ++ ascii ",I" ++ zeros 2) ++
        frame (ascii "/am/y" ++ zeros 3 ++ ascii ",T" ++ zeros 2)] ∧
      ∀ p ∈ callSteps trace, p.1.startBundle = true →
        ∀ m ∈ routedToUdp (fun _ => .float 0) p.1 p.2, m.length < 2 ^ 31)
    (by decide +kernel)
  obtain ⟨ms, hms⟩ := datagrams_received h hsmall
  exact ⟨trace, s, ms, h, hstarted, hms⟩

/-- Where a message that a call routed to TCP can be. -/
inductive Whereabouts (trace : List (State × Event)) (s : State) (i : Nat) (m : Bytes) : Prop where
  | posted : ⟨i, m⟩ ∈ s.tcp.client.posted → Whereabouts trace s i m
  | queued : Tcp.framed ⟨i, m⟩ ∈ s.tcp.client.writeMsgs → Whereabouts trace s i m
  | written : Tcp.framed ⟨i, m⟩ ∈ s.tcp.client.written → Whereabouts trace s i m
  | discarded : (∃ p ∈ Lifecycle.tcpSteps (tcpPart trace), p.2.Discards ∧
      Tcp.framed ⟨i, m⟩ ∈ p.1.writeMsgs) → Whereabouts trace s i m
  | sending : s.tcp.app.message = some m → Whereabouts trace s i m
  | waiting : m ∈ s.tcpJobs → Whereabouts trace s i m

/-- The messages that the calls route to TCP. -/
def routedTcp (decibels : BitVec 32 → Decibels) (trace : List (Client.State × Call)) : List Bytes :=
  trace.reverse.filterMap fun p => routedToTcp decibels p.1 p.2

/-- A receiver of this connection reads messages that the calls routed to TCP, in the order
of the calls; `is` are their numbers. What it has not read yet begins the next frame. -/
def Reads (all : List Bytes) (c : Tcp.Conn) : Prop :=
  ∃ is : List Nat, is.Pairwise (· ≤ ·) ∧ (∀ i ∈ is, i < all.length) ∧
    ∃ rest, is.map (fun i => all.getD i []) = (deframe c.accepted).1 ++ rest ∧
      (deframe c.accepted).2 <+: frames rest

structure Transported (decibels : BitVec 32 → Decibels) (trace : List (State × Event)) (s : State) :
    Prop where
  accounted : ∀ i m, (routedTcp decibels (callSteps trace))[i]? = some m → Whereabouts trace s i m
  first_writes : (s.tcp.client.written.eraseDups.map Msg.bytes).Sublist
    ((routedTcp decibels (callSteps trace)).map Tcp.State.prefixedMsg)
  read : (∀ p ∈ Lifecycle.tcpSteps (tcpPart trace), Tcp.KeepsUp p.1 p.2) →
    ∀ c ∈ s.tcp.client.conns, Reads (routedTcp decibels (callSteps trace)) c

theorem numbered_getElem? {sent : List Bytes} {i : Nat} {m : Bytes} (h : sent[i]? = some m) :
    (⟨i, m⟩ : Msg) ∈ Tcp.numbered sent := by
  obtain ⟨hi, rfl⟩ := List.getElem?_eq_some_iff.mp h
  exact List.mem_mapIdx.mpr ⟨i, hi, rfl⟩

theorem framed_bytes (sent : List Bytes) :
    ((Tcp.numbered sent).map Tcp.framed).map Msg.bytes = sent.map Tcp.State.prefixedMsg := by
  apply List.ext_getElem
  · simp [Tcp.numbered]
  · intro i hi hj
    simp [Tcp.numbered, Tcp.framed]

theorem streams_run {trace : List (Tcp.State × Tcp.Event)} {c : Tcp.State}
    (h : Run Tcp.step Tcp.init trace c) (hkeeps : ∀ p ∈ trace, Tcp.KeepsUp p.1 p.2) :
    ∀ conn ∈ c.conns, Tcp.InSync c conn := by
  have hinv : Tcp.Streams c ∧ ∃ n old fresh, Tcp.Delivery c n old fresh := by
    refine h.invariant_of (I := fun c => Tcp.Streams c ∧ ∃ n old fresh, Tcp.Delivery c n old fresh)
      (C := Tcp.KeepsUp) ⟨Tcp.streams_init, _, _, _, Tcp.delivery_init⟩ ?_ hkeeps
    intro c e c' hI hC hstep
    obtain ⟨hstreams, n, old, fresh, hd⟩ := hI
    obtain ⟨m, old', fresh', hd', _⟩ := hd.step hstep
    exact ⟨(Tcp.step_move hd.phase hstep).streams hstreams hd hd' hC, m, old', fresh', hd'⟩
  obtain ⟨hstreams, n, old, fresh, hd⟩ := hinv
  intro conn hconn
  exact (hstreams.conns conn hconn).in_sync hd.numbered hstreams.sizes

theorem reads_of_inSync {c : Tcp.State} {conn : Tcp.Conn} (h : Tcp.InSync c conn) {all : List Bytes}
    (hall : c.sent <+: all) : Reads all conn := by
  have hnumber : ∀ m ∈ conn.started, m.origin < c.sent.length := by
    intro m hm
    exact (List.getElem?_eq_some_iff.mp (h.started_sent m hm).1).1
  obtain ⟨more, rfl⟩ := hall
  refine ⟨conn.started.map Msg.origin, h.in_order, ?_, ?_⟩
  · intro i hi
    obtain ⟨m, hm, rfl⟩ := List.mem_map.mp hi
    have hlt := hnumber m hm
    rw [List.length_append]
    omega
  · have hpayloads : (conn.started.map Msg.origin).map (fun i => (c.sent ++ more).getD i []) =
        conn.started.map c.payload := by
      rw [List.map_map]
      apply List.map_congr_left
      intro m hm
      have hlt := hnumber m hm
      simp [Tcp.State.payload, List.getD_eq_getElem?_getD, List.getElem?_append_left hlt]
    rw [hpayloads]
    exact h.received

theorem posted_of_created {baseAddress : Bytes} {trace : List (State × Event)} {s : State}
    (h : Run (step decibels) (init baseAddress) trace s)
    (hcreated : ThreadsCreated (tcpPart trace)) :
    Lifecycle.posted (tcpPart trace) ++ (s.tcp.app.message.toList ++ s.tcpJobs) =
      routedTcp decibels (callSteps trace) := by
  have hrouted : s.calls.tcpSent = routedTcp decibels (callSteps trace) :=
    (control_run (call_run h)).2
  rw [← hrouted, ← List.append_assoc]
  exact (tcp_posted h).2 hcreated

theorem connections_read {baseAddress : Bytes} {trace : List (State × Event)} {s : State}
    (h : Run (step decibels) (init baseAddress) trace s) (hcreated : ThreadsCreated (tcpPart trace))
    (hkeeps : ∀ p ∈ Lifecycle.tcpSteps (tcpPart trace), Tcp.KeepsUp p.1 p.2) :
    ∀ c ∈ s.tcp.client.conns, Reads (routedTcp decibels (callSteps trace)) c := by
  intro conn hconn
  have hclient := Lifecycle.tcp_client_run (tcp_run h)
  apply reads_of_inSync (streams_run hclient hkeeps conn hconn)
  rw [Lifecycle.tcp_sent (tcp_run h), ← posted_of_created h hcreated]
  exact List.prefix_append _ _

/-- Without a fault of the TCP client there is one connection at most, and it gets the
messages that the calls routed to TCP in their order, each once. -/
structure Streamed (decibels : BitVec 32 → Decibels) (trace : List (State × Event)) (s : State) :
    Prop where
  one : s.tcp.client.conns.length ≤ 1
  beginning : s.tcp.client.delivered <+: frames (routedTcp decibels (callSteps trace))
  all : s.Returned → s.tcp.client.posted = [] → s.tcp.client.writeMsgs = [] →
    s.tcp.client.delivered = frames (routedTcp decibels (callSteps trace))

theorem streamed_run {baseAddress : Bytes} {trace : List (State × Event)} {s : State}
    (h : Run (step decibels) (init baseAddress) trace s) (hcreated : ThreadsCreated (tcpPart trace))
    (hok : ∀ p ∈ tcpPart trace, p.2.costly Tcp.Event.falters = false) :
    Streamed decibels trace s := by
  have hclient := Lifecycle.tcp_client_run (tcp_run h)
  obtain ⟨hone, hbeginning, hall⟩ :=
    Tcp.faultless_stream hclient (Lifecycle.tcpSteps_falter hok)
  have hposted := posted_of_created h hcreated
  rw [Lifecycle.tcp_sent (tcp_run h)] at hbeginning hall
  refine ⟨hone, ?_, ?_⟩
  · rw [← hposted, frames_append]
    exact hbeginning.trans (List.prefix_append _ _)
  · intro hret hnone hempty
    obtain ⟨_, hjobs, _, hidle, _⟩ := hret
    rw [hjobs, hidle, List.append_nil] at hposted
    rw [hall hnone hempty, ← hposted]
    simp [Lifecycle.App.message]

/-- Through the calls, the two threads, the queue and the reconnects of the TCP client. -/
theorem messages_transported {baseAddress : Bytes} {trace : List (State × Event)} {s : State}
    (h : Run (step decibels) (init baseAddress) trace s)
    (hcreated : ThreadsCreated (tcpPart trace)) : Transported decibels trace s := by
  have hsplit := posted_of_created h hcreated
  have hserved := Lifecycle.tcp_served (tcp_run h)
  have hposted : Lifecycle.posted (tcpPart trace) <+: routedTcp decibels (callSteps trace) := by
    rw [← hsplit]
    exact List.prefix_append _ _
  refine ⟨?_, ?_, connections_read h hcreated⟩
  · intro i m hm
    rw [← hsplit] at hm
    by_cases hi : i < (Lifecycle.posted (tcpPart trace)).length
    · rw [List.getElem?_append_left hi] at hm
      have hmem := numbered_getElem? hm
      rw [← hserved.kept] at hmem
      rcases List.mem_append.mp hmem with hqueued | hnow
      · rcases hserved.accounted _ hqueued with hw | hq | hd
        · exact .written hw
        · exact .queued hq
        · exact .discarded hd
      · exact .posted hnow
    · rw [List.getElem?_append_right (by omega)] at hm
      rcases List.mem_append.mp (List.mem_of_getElem? hm) with hsending | hwaiting
      · exact .sending (by simpa using hsending)
      · exact .waiting hwaiting
  · have hwrites := hserved.order.map Msg.bytes
    rw [framed_bytes] at hwrites
    exact hwrites.trans (hposted.sublist.map _)

/-- A core message by TCP; the first thread does not resolve the host, the second one
writes the message. -/
theorem messages_transported_by_second_thread :
    ∃ trace s, Run (step fun _ => .float 0) (init (ascii "/am")) trace s ∧
      s.tcp.client.written.map Msg.origin = [0, 1] ∧
      Transported (fun _ => .float 0) trace s := by
  obtain ⟨trace, s, h, hwritten, hcreated⟩ := run_of_record
    (step fun _ => .float 0) (init (ascii "/am"))
    [.call (.setMute true), .tcp (.callSend (muteMessage (ascii "/am") true)), .tcp .testThread,
      .tcp .setRunning, .tcp (.createThread true), .tcp .resolveThrows, .tcp .post, .tcp .reset,
      .tcp .clearReady, .tcp .clearRunning, .call .load,
      .tcp (.callSend (loadMessage (ascii "/am"))), .tcp .testThread, .tcp .setRunning,
      .tcp (.createThread true), .tcp (.resolved ⟨[⟨1, 15002⟩], by decide⟩), .tcp .start,
      .tcp .setReady, .tcp .post, .tcp (.handle .doSend), .tcp (.handle .doSend),
      .tcp (.handle (.handleConnect ⟨1, 15002⟩ [] .success 0)),
      .tcp (.handle
        (.handleWrite 0 (Tcp.framed ⟨0, muteMessage (ascii "/am") true⟩) .success 36 0)),
      .tcp (.handle (.handleWrite 0 (Tcp.framed ⟨1, loadMessage (ascii "/am")⟩) .success 24 0))]
    (fun trace s => s.tcp.client.written.map Msg.origin = [0, 1] ∧
      ThreadsCreated (tcpPart trace))
    (by decide +kernel)
  exact ⟨trace, s, h, hwritten, messages_transported h hcreated⟩

end AmClient.Application
