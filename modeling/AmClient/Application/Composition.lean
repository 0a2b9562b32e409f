import AmClient.Client.Routing
import AmClient.Lifecycle.Draining

/-!
# AssetManagerClient over its two transports

One application thread makes the calls of `AssetManagerClient`; the `Send` calls that such
a call makes are carried out on `tcp_client_` and `udp_client_`, each with its own IO
thread. The three threads interleave freely. Leaving out the steps of the others, a run of
the whole is a run of each part.
-/

namespace AmClient.Application
open Foundation Client
set_option autoImplicit false

abbrev TcpPart := Lifecycle.State Tcp.State Tcp.Resolved
abbrev TcpEvent := Lifecycle.Event Tcp.Event Tcp.Resolved
abbrev UdpPart := Lifecycle.State Udp.State Unit
abbrev UdpEvent := Lifecycle.Event Udp.Event Unit

/-- Where the application thread is: in a call or between two calls, or in one of the two
halves of `BlockUntilQueuesAreEmpty`. -/
inductive Main where
  | calling
  | blockingTcp
  | blockingUdp
  deriving DecidableEq, Repr

/-- `tcpJobs` and `udpJobs` are the messages that the current call hands to the `Send` of
the two clients and that these have not begun with. -/
structure State where
  calls : Client.State
  tcp : TcpPart
  udp : UdpPart
  tcpJobs : List Bytes := []
  udpJobs : List Bytes := []
  main : Main := .calling

inductive Event where
  | call (c : Call)
  | tcp (e : TcpEvent)
  | udp (e : UdpEvent)
  | block
  | blockUdp
  | unblock

def init (baseAddress : Bytes) : State where
  calls := Client.init baseAddress
  tcp := Lifecycle.init Lifecycle.tcp
  udp := Lifecycle.init Lifecycle.udp

namespace State

/-- The application thread has returned from all that it called. -/
def Returned (s : State) : Prop :=
  s.main = .calling ∧ s.tcpJobs = [] ∧ s.udpJobs = [] ∧ s.tcp.app = .idle ∧ s.udp.app = .idle

instance (s : State) : Decidable s.Returned := inferInstanceAs (Decidable (_ ∧ _))

def tcpMay (s : State) : TcpEvent → Bool
  | .callSend msg => s.tcpJobs.head? = some msg ∧ s.udp.app = .idle
  | .callBlock => false
  | _ => true

def tcpJobsAfter (s : State) : TcpEvent → List Bytes
  | .callSend _ => s.tcpJobs.tail
  | _ => s.tcpJobs

def udpMay (s : State) : UdpEvent → Bool
  | .callSend msg => s.udpJobs.head? = some msg ∧ s.tcp.app = .idle
  | .callBlock => false
  | _ => true

def udpJobsAfter (s : State) : UdpEvent → List Bytes
  | .callSend _ => s.udpJobs.tail
  | _ => s.udpJobs

end State

variable (decibels : BitVec 32 → Decibels)

def step (s : State) : Event → Option State
  | .call c =>
    if s.Returned then
      (Client.step decibels s.calls c).map fun t =>
        { s with calls := t, tcpJobs := t.tcpSent.drop s.calls.tcpSent.length,
                 udpJobs := t.udpSent.drop s.calls.udpSent.length }
    else none
  | .tcp e =>
    if s.tcpMay e then
      (Lifecycle.step Lifecycle.tcp s.tcp e).map fun t =>
        { s with tcp := t, tcpJobs := s.tcpJobsAfter e }
    else none
  | .udp e =>
    if s.udpMay e then
      (Lifecycle.step Lifecycle.udp s.udp e).map fun t =>
        { s with udp := t, udpJobs := s.udpJobsAfter e }
    else none
  -- `tcp_client_->BlockUntilQueueIsEmpty(); udp_client_->BlockUntilQueueIsEmpty();`
  | .block =>
    if s.Returned then
      (Lifecycle.step Lifecycle.tcp s.tcp .callBlock).map fun t =>
        { s with tcp := t, main := .blockingTcp }
    else none
  | .blockUdp =>
    if s.main = .blockingTcp ∧ s.tcp.app = .idle then
      (Lifecycle.step Lifecycle.udp s.udp .callBlock).map fun t =>
        { s with udp := t, main := .blockingUdp }
    else none
  | .unblock =>
    if s.main = .blockingUdp ∧ s.udp.app = .idle then some { s with main := .calling } else none

variable {decibels}

/-- What a step does, part by part. -/
inductive Move (decibels : BitVec 32 → Decibels) (s : State) : Event → State → Prop where
  | call {c : Call} {t : Client.State} : s.Returned → Client.step decibels s.calls c = some t →
      Move decibels s (.call c) { s with
        calls := t, tcpJobs := t.tcpSent.drop s.calls.tcpSent.length,
        udpJobs := t.udpSent.drop s.calls.udpSent.length }
  | tcp {e : TcpEvent} {t : TcpPart} : s.tcpMay e = true →
      Lifecycle.step Lifecycle.tcp s.tcp e = some t →
      Move decibels s (.tcp e) { s with tcp := t, tcpJobs := s.tcpJobsAfter e }
  | udp {e : UdpEvent} {t : UdpPart} : s.udpMay e = true →
      Lifecycle.step Lifecycle.udp s.udp e = some t →
      Move decibels s (.udp e) { s with udp := t, udpJobs := s.udpJobsAfter e }
  | block {t : TcpPart} : s.Returned → Lifecycle.step Lifecycle.tcp s.tcp .callBlock = some t →
      Move decibels s .block { s with tcp := t, main := .blockingTcp }
  | blockUdp {t : UdpPart} : s.main = .blockingTcp → s.tcp.app = .idle →
      Lifecycle.step Lifecycle.udp s.udp .callBlock = some t →
      Move decibels s .blockUdp { s with udp := t, main := .blockingUdp }
  | unblock : s.main = .blockingUdp → s.udp.app = .idle →
      Move decibels s .unblock { s with main := .calling }

theorem step_move {s t : State} {e : Event} (h : step decibels s e = some t) :
    Move decibels s e t := by
  cases e with
  | call c =>
    simp only [step] at h
    split at h
    · rename_i hret
      obtain ⟨u, hu, rfl⟩ := Option.map_eq_some_iff.mp h
      exact .call hret hu
    · cases h
  | tcp e =>
    simp only [step] at h
    split at h
    · rename_i hmay
      obtain ⟨u, hu, rfl⟩ := Option.map_eq_some_iff.mp h
      exact .tcp hmay hu
    · cases h
  | udp e =>
    simp only [step] at h
    split at h
    · rename_i hmay
      obtain ⟨u, hu, rfl⟩ := Option.map_eq_some_iff.mp h
      exact .udp hmay hu
    · cases h
  | block =>
    simp only [step] at h
    split at h
    · rename_i hret
      obtain ⟨u, hu, rfl⟩ := Option.map_eq_some_iff.mp h
      exact .block hret hu
    · cases h
  | blockUdp =>
    simp only [step] at h
    split at h
    · rename_i hnow
      obtain ⟨u, hu, rfl⟩ := Option.map_eq_some_iff.mp h
      exact .blockUdp hnow.1 hnow.2 hu
    · cases h
  | unblock =>
    simp only [step] at h
    split at h
    · rename_i hnow
      obtain rfl := Option.some.inj h
      exact .unblock hnow.1 hnow.2
    · cases h

def Event.callOf : Event → Option Call
  | .call c => some c
  | _ => none

def Event.tcpOf : Event → Option TcpEvent
  | .tcp e => some e
  | .block => some .callBlock
  | _ => none

def Event.udpOf : Event → Option UdpEvent
  | .udp e => some e
  | .blockUdp => some .callBlock
  | _ => none

def callSteps (trace : List (State × Event)) : List (Client.State × Call) :=
  Run.projected State.calls (fun _ => Event.callOf) trace

def tcpPart (trace : List (State × Event)) : List (TcpPart × TcpEvent) :=
  Run.projected State.tcp (fun _ => Event.tcpOf) trace

def udpPart (trace : List (State × Event)) : List (UdpPart × UdpEvent) :=
  Run.projected State.udp (fun _ => Event.udpOf) trace

theorem tcpPart_cons (s : State) (e : Event) (trace : List (State × Event)) :
    tcpPart ((s, e) :: trace) = (e.tcpOf.map fun x => (s.tcp, x)).toList ++ tcpPart trace := by
  cases h : e.tcpOf with
  | none => simp [tcpPart, Run.projected, h]
  | some x => simp [tcpPart, Run.projected, h]

theorem udpPart_cons (s : State) (e : Event) (trace : List (State × Event)) :
    udpPart ((s, e) :: trace) = (e.udpOf.map fun x => (s.udp, x)).toList ++ udpPart trace := by
  cases h : e.udpOf with
  | none => simp [udpPart, Run.projected, h]
  | some x => simp [udpPart, Run.projected, h]

section
variable {baseAddress : Bytes} {trace : List (State × Event)} {s : State}

theorem call_run (h : Run (step decibels) (init baseAddress) trace s) :
    Run (Client.step decibels) (Client.init baseAddress) (callSteps trace) s.calls := by
  refine h.project (I := fun _ => True) State.calls (fun _ => Event.callOf) trivial
    (fun _ _ => trivial) ?_ ?_
  · intro s e t _ hstep hlabel
    cases step_move hstep with
    | call => simp [Event.callOf] at hlabel
    | _ => rfl
  · intro s e t c _ hstep hlabel
    cases step_move hstep with
    | call _ hcall =>
      obtain rfl := Option.some.inj hlabel
      exact hcall
    | _ => simp [Event.callOf] at hlabel

theorem tcp_run (h : Run (step decibels) (init baseAddress) trace s) :
    Run (Lifecycle.step Lifecycle.tcp) (Lifecycle.init Lifecycle.tcp) (tcpPart trace) s.tcp := by
  refine h.project (I := fun _ => True) State.tcp (fun _ => Event.tcpOf) trivial
    (fun _ _ => trivial) ?_ ?_
  · intro s e t _ hstep hlabel
    cases step_move hstep with
    | tcp | block => simp [Event.tcpOf] at hlabel
    | _ => rfl
  · intro s e t x _ hstep hlabel
    cases step_move hstep with
    | tcp _ htcp =>
      obtain rfl := Option.some.inj hlabel
      exact htcp
    | block _ htcp =>
      obtain rfl := Option.some.inj hlabel
      exact htcp
    | _ => simp [Event.tcpOf] at hlabel

theorem udp_run (h : Run (step decibels) (init baseAddress) trace s) :
    Run (Lifecycle.step Lifecycle.udp) (Lifecycle.init Lifecycle.udp) (udpPart trace) s.udp := by
  refine h.project (I := fun _ => True) State.udp (fun _ => Event.udpOf) trivial
    (fun _ _ => trivial) ?_ ?_
  · intro s e t _ hstep hlabel
    cases step_move hstep with
    | udp | blockUdp => simp [Event.udpOf] at hlabel
    | _ => rfl
  · intro s e t x _ hstep hlabel
    cases step_move hstep with
    | udp _ hudp =>
      obtain rfl := Option.some.inj hlabel
      exact hudp
    | blockUdp _ _ hudp =>
      obtain rfl := Option.some.inj hlabel
      exact hudp
    | _ => simp [Event.udpOf] at hlabel

end
end AmClient.Application
