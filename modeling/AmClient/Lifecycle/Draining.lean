import AmClient.Foundation.Draining
import AmClient.Lifecycle.Refinement
import AmClient.Tcp.Faultless

/-!
# The IO thread left alone

Once the host is resolved and while `Send` is not called, each handler takes work away: a
posted `DoSend`, an entry of `write_msgs_`, an endpoint to try. Only a broken pipe adds
some, as the client then connects from the first endpoint on. So the IO thread comes to
rest, and it rests only when nothing is posted, queued or in flight; a waiter in
`BlockUntilQueueIsEmpty` may then return.
-/

namespace AmClient.Lifecycle
open Foundation
set_option autoImplicit false

section
variable {σ ε α : Type} {T : Transport σ ε α}

/-- The IO thread runs, the application thread does not. -/
def ioStep (T : Transport σ ε α) (s : State σ α) (e : Event ε α) : Option (State σ α) :=
  if e.byIo then step T s e else none

theorem ioStep_step {s t : State σ α} {e : Event ε α} (h : ioStep T s e = some t) :
    e.byIo = true ∧ step T s e = some t := by
  unfold ioStep at h
  split at h
  · rename_i hio
    exact ⟨hio, h⟩
  · cases h

theorem ioRun_run {s t : State σ α} {trace : List (State σ α × Event ε α)}
    (h : Run (ioStep T) s trace t) : Run (step T) s trace t := by
  induction h with
  | start => exact .start
  | next _ hstep ih => exact .next ih (ioStep_step hstep).2

/-- The resolver has answered, and the client fulfills `I` once `Run` has started it. -/
def Answered (T : Transport σ ε α) (I : σ → Prop) (s : State σ α) : Prop :=
  match s.io with
  | .starting answer => I (T.start s.client answer)
  | .readying => I s.client
  | .running => I s.client
  | _ => False

def ioWork (T : Transport σ ε α) (work : σ → Nat) (s : State σ α) : Nat :=
  match s.io with
  | .starting answer => work (T.start s.client answer) + 2
  | .readying => work s.client + 1
  | _ => work s.client

def Event.costly (costly : ε → Bool) : Event ε α → Bool
  | .handle e => costly e
  | _ => false

variable {I : σ → Prop} {costly : ε → Bool} {work : σ → Nat} {price : Nat}

inductive IoMove (T : Transport σ ε α) (s : State σ α) : Event ε α → State σ α → Prop where
  | starts {answer : α} : s.io = .starting answer →
      IoMove T s .start { s with client := T.start s.client answer, io := .readying }
  | ready : s.io = .readying →
      IoMove T s .setReady { s with serviceIsReady := true, io := .running }
  | handles {x : ε} {c : σ} : s.io = .running → T.handle s.client x = some c →
      IoMove T s (.handle x) { s with client := c }

theorem Answered.move {s t : State σ α} {e : Event ε α} (hs : Answered T I s)
    (h : ioStep T s e = some t) : IoMove T s e t := by
  obtain ⟨hbyIo, hstep⟩ := ioStep_step h
  cases step_move hstep with
  | passes happ => simp [hbyIo] at happ
  | finds | launches | announces | creates | fails | posts => simp [Event.byIo] at hbyIo
  | starts hio => exact .starts hio
  | ready hio => exact .ready hio
  | handles hio hc => exact .handles hio hc
  | resolves hio | throws hio | resets hio | clearsReady hio | clearsRunning hio =>
    simp [Answered, hio] at hs

/-- What drains under its handlers drains under the whole IO thread. -/
theorem drains_io (D : Drains T.handle I costly work price) :
    Drains (ioStep T) (Answered T I) (Event.costly costly) (ioWork T work) price where
  keep := by
    intro s e t hs hstep
    cases hs.move hstep with
    | starts hio => simpa [Answered, hio] using hs
    | ready hio => simpa [Answered, hio] using hs
    | handles hio hc =>
      simp only [Answered, hio] at hs ⊢
      exact D.keep hs hc
  falls := by
    intro s e t hs hstep hcost
    cases hs.move hstep with
    | starts hio => simp [ioWork, hio]
    | ready hio => simp [ioWork, hio]
    | handles hio hc =>
      simp only [Answered, hio] at hs
      simp only [ioWork, hio]
      exact D.falls hs hc hcost
  rises := by
    intro s e t hs hstep hcost
    cases hs.move hstep with
    | starts hio => simp [Event.costly] at hcost
    | ready hio => simp [Event.costly] at hcost
    | handles hio hc =>
      simp only [Answered, hio] at hs
      simp only [ioWork, hio]
      exact D.rises hs hc hcost

/-- A thread that can go no further is waiting for handlers. -/
theorem Answered.resting {s : State σ α} (hs : Answered T I s)
    (hrest : ∀ e, Event.costly costly e = false → ioStep T s e = none) :
    s.io = .running ∧ I s.client ∧ ∀ x, costly x = false → T.handle s.client x = none := by
  cases hio : s.io with
  | starting answer =>
    have hstart := hrest .start rfl
    simp [ioStep, Event.byIo, step, hio] at hstart
  | readying =>
    have hready := hrest .setReady rfl
    simp [ioStep, Event.byIo, step, hio] at hready
  | running =>
    refine ⟨rfl, by simpa [Answered, hio] using hs, ?_⟩
    intro x hx
    have hhandle := hrest (.handle x) hx
    simpa [ioStep, Event.byIo, step, hio] using hhandle
  | _ => simp [Answered, hio] at hs

end

def connectWork : List Tcp.Op → Nat
  | [.connect _ next] => next.length + 2
  | _ => 0

def tcpWork (endpoints : Nat) (c : Tcp.State) : Nat :=
  (endpoints + 3) * c.posted.length + c.writeMsgs.length + connectWork c.pending

/-- `AsyncTCPClient` between two handlers, after `Connect` got this many endpoints. -/
structure TcpOpen (endpoints : Nat) (c : Tcp.State) : Prop where
  announced : TcpAnnounced c
  endpoints : c.endpointIterator.length = endpoints
  some_endpoint : c.endpointIterator ≠ []

def breaksPipe : Tcp.Event → Bool
  | .handleWrite _ _ error _ _ => error = .brokenPipe
  | _ => false

theorem length_requeued_le (c : Tcp.State) (now : Int) :
    (c.requeued now).length ≤ c.writeMsgs.length + 1 := by
  unfold Tcp.State.requeued
  split
  · simp
  · omega

theorem work_of_posted (endpoints : Nat) {c : Tcp.State} {msg : Msg} {posted : List Msg}
    (hposted : c.posted = msg :: posted) :
    (endpoints + 3) * c.posted.length = (endpoints + 3) * posted.length + (endpoints + 3) := by
  rw [hposted, List.length_cons, Nat.mul_succ]

theorem tcp_move_falls {c c' : Tcp.State} {e : Tcp.Event} {endpoints : Nat} (h : Tcp.Move c e c')
    (hc : c.endpointIterator.length = endpoints) (hsend : ∀ msg, e ≠ .send msg)
    (hconnect : ∀ answer, e ≠ .connect answer) (hwhole : breaksPipe e = false) :
    tcpWork endpoints c' < tcpWork endpoints c := by
  unfold tcpWork
  cases h with
  | send msg => exact (hsend msg rfl).elim
  | opened => exact (hconnect _ rfl).elim
  | sendNow hposted _ _ _ hp hq =>
    rw [work_of_posted endpoints hposted, hp, hq]
    simp only [connectWork, List.length_cons, List.length_nil]
    omega
  | reconnect hposted _ _ _ hp hq hend =>
    rw [hend, List.length_cons] at hc
    rw [work_of_posted endpoints hposted, hp, hq]
    simp only [connectWork, List.length_cons, List.length_nil]
    omega
  | push hposted =>
    rw [work_of_posted endpoints hposted]
    simp only [List.length_append, List.length_cons, List.length_nil]
    omega
  | tryNext now herr _ hp =>
    rw [hp]
    simp only [connectWork, List.length_cons]
    omega
  | giveUp now herr _ hp =>
    rw [hp]
    simp only [connectWork, List.length_nil]
    omega
  | rest now _ hp =>
    rw [hp]
    simp only [connectWork]
    omega
  | resume now _ hp _ hq =>
    have hle := length_requeued_le c now
    rw [hq] at hle
    rw [hp]
    simp only [connectWork]
    omega
  | drained now _ _ _ _ hq _ hp =>
    rw [hp, hq]
    simp only [connectWork, List.length_cons, List.length_nil]
    omega
  | advance now _ _ _ _ _ hq _ hp =>
    rw [hp, hq]
    simp only [connectWork, List.length_cons]
    omega
  | brokenPipe => simp [breaksPipe] at hwhole
  | abandon k now hq _ hp =>
    rw [hp, hq]
    simp only [connectWork, List.length_cons, List.length_nil]
    omega

theorem tcp_move_rises {c c' : Tcp.State} {e : Tcp.Event} {endpoints : Nat} (h : Tcp.Move c e c')
    (hc : c.endpointIterator.length = endpoints) (hbroken : breaksPipe e = true) :
    tcpWork endpoints c' ≤ tcpWork endpoints c + (endpoints + 1) := by
  unfold tcpWork
  cases h with
  | brokenPipe k now hq _ hp hend =>
    rw [hend, List.length_cons] at hc
    simp only [hp, connectWork]
    omega
  | _ => simp [breaksPipe] at hbroken

theorem tcp_move_endpoints {c c' : Tcp.State} {e : Tcp.Event} (h : Tcp.Move c e c')
    (hconnect : ∀ answer, e ≠ .connect answer) : c'.endpointIterator = c.endpointIterator := by
  cases h with
  | opened => exact (hconnect _ rfl).elim
  | _ => rfl

theorem tcp_drains (endpoints : Nat) :
    Drains tcp.handle (TcpOpen endpoints) breaksPipe (tcpWork endpoints) (endpoints + 1) where
  keep := by
    intro c e c' hc h
    have hmove := Tcp.step_move hc.announced.phase (tcp_handle_step h)
    have hends : c'.endpointIterator = c.endpointIterator := by
      apply tcp_move_endpoints hmove
      rintro answer rfl
      cases h
    exact ⟨tcp_move_announced hmove hc.announced, hends ▸ hc.endpoints, hends ▸ hc.some_endpoint⟩
  falls := by
    intro c e c' hc h hwhole
    have hmove := Tcp.step_move hc.announced.phase (tcp_handle_step h)
    refine tcp_move_falls hmove hc.endpoints ?_ ?_ hwhole
    · rintro msg rfl
      cases h
    · rintro answer rfl
      cases h
  rises := by
    intro c e c' hc h hbroken
    exact tcp_move_rises (Tcp.step_move hc.announced.phase (tcp_handle_step h)) hc.endpoints hbroken

/-- Nothing is left to do and nothing holds a waiter. -/
structure TcpSettled (c : Tcp.State) : Prop where
  posted : c.posted = []
  queue : c.writeMsgs = []
  pending : c.pending = []
  released : c.mustWait = false

theorem TcpOpen.settled_of_quiet {endpoints : Nat} {c : Tcp.State} (hc : TcpOpen endpoints c)
    (hdo : tcp.handle c .doSend = none) (hnone : c.pending = []) : TcpSettled c := by
  have hposted : c.posted = [] := by
    by_contra hne
    obtain ⟨msg, posted, hcons⟩ := List.exists_cons_of_ne_nil hne
    simp [tcp, Tcp.step, hc.some_endpoint, hcons] at hdo
  have hmsg : c.msgToSend = false := by
    by_contra hne
    exact hc.announced.posted (by simpa using hne) hposted
  cases hc.announced.phase with
  | idle hconn hw hp hq => exact ⟨hposted, hq, hp, by simp [Tcp.State.mustWait, hconn, hw, hmsg]⟩
  | connecting _ _ _ _ _ hp => simp [hnone] at hp
  | writing _ _ _ _ _ _ _ _ _ hp => simp [hnone] at hp

theorem TcpOpen.settled {endpoints : Nat} {c : Tcp.State} (hc : TcpOpen endpoints c)
    (hrest : ∀ e, breaksPipe e = false → tcp.handle c e = none) : TcpSettled c := by
  apply hc.settled_of_quiet (hrest .doSend rfl)
  cases hc.announced.phase with
  | idle _ _ hp => exact hp
  | connecting endpoint next _ _ _ hp =>
    have hfail := hrest (.handleConnect endpoint next .failure 0) rfl
    simp [tcp, Tcp.step, hp] at hfail
  | writing front _ earlier _ _ _ _ _ _ hp =>
    have hfail := hrest (.handleWrite earlier.length front .failure 0 0) rfl
    simp [tcp, Tcp.step, hp, Tcp.Transferable] at hfail

theorem falters_of_breaksPipe (e : Tcp.Event) (h : breaksPipe e = true) : e.falters = true := by
  cases e with
  | handleWrite conn buffer error k now =>
    have hbroken : error = .brokenPipe := by simpa [breaksPipe] using h
    simp [Tcp.Event.falters, hbroken]
  | _ => cases h

/-- Each entry of the queue begins with its size, so none is empty. -/
def TcpSized (c : Tcp.State) : Prop := ∀ m ∈ c.writeMsgs, m.bytes ≠ []

theorem framed_sized (msg : Msg) : (Tcp.framed msg).bytes ≠ [] := by
  apply List.ne_nil_of_length_pos
  have hsize : (leBytes 4 (hton 4 msg.bytes.length)).length = 4 := length_leBytes 4 _
  rw [Tcp.framed, Tcp.State.prefixedMsg, List.length_append, hsize]
  omega

theorem tcp_move_sized {c c' : Tcp.State} {e : Tcp.Event} (h : Tcp.Move c e c') (hc : TcpSized c) :
    TcpSized c' := by
  cases h with
  | sendNow | reconnect => exact List.forall_mem_singleton.mpr (framed_sized _)
  | push =>
    intro m hm
    rcases List.mem_append.mp hm with hm | hm
    · exact hc m hm
    · rw [List.mem_singleton.mp hm]
      exact framed_sized _
  | giveUp | drained | abandon => exact List.forall_mem_nil _
  | resume now _ _ _ hq =>
    intro m (hm : m ∈ _ :: _)
    rw [← hq, Tcp.State.requeued] at hm
    split at hm
    · rename_i hprev
      rcases List.mem_cons.mp hm with rfl | hm
      · exact hprev.1
      · exact hc m hm
    · exact hc m hm
  | advance now _ _ _ _ _ hq =>
    intro m hm
    apply hc m
    rw [hq]
    exact List.mem_cons_of_mem _ hm
  | _ => exact hc

theorem TcpOpen.settled_succeeding {endpoints : Nat} {c : Tcp.State} (hc : TcpOpen endpoints c)
    (hsized : TcpSized c) (hrest : ∀ e, e.falters = false → tcp.handle c e = none) :
    TcpSettled c := by
  apply hc.settled_of_quiet (hrest .doSend rfl)
  cases hc.announced.phase with
  | idle _ _ hp => exact hp
  | connecting endpoint next _ _ _ hp =>
    have hsuccess := hrest (.handleConnect endpoint next .success 0) rfl
    simp [tcp, Tcp.step, hp] at hsuccess
  | writing front rest earlier _ _ _ _ hq _ hp =>
    have hsize : 1 ≤ front.bytes.length := by
      apply List.length_pos_of_ne_nil
      apply hsized front
      rw [hq]
      exact List.mem_cons_self
    have hsuccess := hrest (.handleWrite earlier.length front .success front.bytes.length 0)
      (by simp [Tcp.Event.falters])
    simp [tcp, Tcp.step, hp, Tcp.Transferable, hsize] at hsuccess

theorem tcp_announced_run {trace : List (Tcp.State × Tcp.Event)} {c : Tcp.State}
    (h : Run Tcp.step Tcp.init trace c) : TcpAnnounced c := by
  refine h.invariant ⟨Tcp.phase_init, fun hn => nomatch hn⟩ ?_
  exact fun hs hstep => tcp_move_announced (Tcp.step_move hs.phase hstep) hs

section
variable {trace : List (State Tcp.State Tcp.Resolved × Event Tcp.Event Tcp.Resolved)}
  {s : State Tcp.State Tcp.Resolved}

/-- `Run` has started the client exactly when the client has endpoints. -/
def TcpStarted (s : State Tcp.State Tcp.Resolved) : Prop :=
  s.io.started = true ↔ s.client.endpointIterator ≠ []

theorem tcp_started_run (h : Run (step tcp) (init tcp) trace s) : TcpStarted s := by
  induction h with
  | start => simp [TcpStarted, init, tcp, Tcp.init, Io.started]
  | @next trace s t e hrun hstep ih =>
    have hphase := Tcp.phase_run (tcp_client_run hrun)
    have hpassage := (oneThread_run hrun).passage hstep
    have hstarted := hpassage.started
    unfold TcpStarted at ih ⊢
    rw [hstarted]
    cases step_move hstep with
    | @starts answer hio =>
      have hnone : s.client.endpointIterator = [] := by simpa [hio, Io.started] using ih
      have hafter := tcp_laws.start_after answer ⟨tcp_announced_run (tcp_client_run hrun), hnone⟩
      simpa [Event.starts] using hafter.2
    | @posts msg =>
      have hsend : (tcp.send s.client msg).endpointIterator = s.client.endpointIterator := rfl
      simpa [Event.starts, hsend] using ih
    | handles hio hc =>
      have hne := ih.mp (by simp [hio, Io.started])
      have hends := (Tcp.step_move hphase (tcp_handle_step hc)).endpoints hne
      simp [hio, Io.started, hends]
    | passes happ => simpa [(Event.byApp_quiet happ).2] using ih
    | _ => simpa [Event.starts] using ih

/-- The number of endpoints that the resolver answered with. -/
def resolvedCount (s : State Tcp.State Tcp.Resolved) : Nat :=
  match s.io with
  | .starting answer => answer.val.length
  | _ => s.client.endpointIterator.length

theorem tcp_start_endpoints {c : Tcp.State} (hc : TcpBefore c) (answer : Tcp.Resolved) :
    (tcp.start c answer).endpointIterator = answer.val := by
  have hmove := tcp_connect hc answer
  change (c.connect answer.val).endpointIterator = answer.val
  generalize c.connect answer.val = c' at hmove ⊢
  cases hmove with
  | opened hend => exact hend.symm

/-- Once the resolver has answered, the client is open, or will be when `Run` starts it. -/
theorem tcp_answered (h : Run (step tcp) (init tcp) trace s)
    (hio : s.io.started = true ∨ ∃ answer, s.io = .starting answer) :
    Answered tcp (TcpOpen (resolvedCount s)) s := by
  have hstarted := tcp_started_run h
  have hannounced := tcp_announced_run (tcp_client_run h)
  unfold TcpStarted at hstarted
  rcases hio with hio | ⟨answer, hio⟩
  · have hopen : TcpOpen s.client.endpointIterator.length s.client :=
      ⟨hannounced, rfl, hstarted.mp hio⟩
    cases hnow : s.io with
    | readying => simpa only [Answered, resolvedCount, hnow] using hopen
    | running => simpa only [Answered, resolvedCount, hnow] using hopen
    | _ => simp [hnow, Io.started] at hio
  · have hnone : s.client.endpointIterator = [] := by simpa [hio, Io.started] using hstarted
    obtain ⟨hafter, hne⟩ := tcp_laws.start_after answer ⟨hannounced, hnone⟩
    have hends := tcp_start_endpoints ⟨hannounced, hnone⟩ answer
    simp only [Answered, resolvedCount, hio]
    exact ⟨hafter, congrArg List.length hends, hne⟩

/-- What the application thread finds when the IO thread has come to rest: a waiter may
return, and every message that was posted was written or was discarded with the queue. -/
structure TcpAtRest (trace : List (State Tcp.State Tcp.Resolved × Event Tcp.Event Tcp.Resolved))
    (s : State Tcp.State Tcp.Resolved) : Prop where
  settled : TcpSettled s.client
  accounted : ∀ m ∈ Tcp.numbered (posted trace), Tcp.framed m ∈ s.client.written ∨
    ∃ p ∈ tcpSteps trace, p.2.Discards ∧ Tcp.framed m ∈ p.1.writeMsgs

theorem tcp_at_rest (h : Run (step tcp) (init tcp) trace s) (hsettled : TcpSettled s.client) :
    TcpAtRest trace s := by
  have hserved := tcp_served h
  refine ⟨hsettled, ?_⟩
  intro m hm
  rw [← hserved.kept, hsettled.posted, List.append_nil] at hm
  rcases hserved.accounted m hm with hw | hq | hd
  · exact .inl hw
  · simp [hsettled.queue] at hq
  · exact .inr hd

theorem tcp_rests (h : Run (step tcp) (init tcp) trace s)
    (hs : Answered tcp (TcpOpen (resolvedCount s)) s)
    {later : List (State Tcp.State Tcp.Resolved × Event Tcp.Event Tcp.Resolved)}
    {t : State Tcp.State Tcp.Resolved} (hlater : Run (ioStep tcp) s later t)
    (hdry : ∀ e, Event.costly breaksPipe e = false → ioStep tcp t e = none) :
    t.io = .running ∧ TcpAtRest (later ++ trace) t := by
  have D := drains_io (tcp_drains (resolvedCount s))
  obtain ⟨hio, hopen, hquiet⟩ := (D.invariant hlater hs).resting hdry
  exact ⟨hio, tcp_at_rest (h.append (ioRun_run hlater)) (hopen.settled hquiet)⟩

theorem tcp_can_rest (h : Run (step tcp) (init tcp) trace s)
    (hs : Answered tcp (TcpOpen (resolvedCount s)) s) :
    ∃ later t, Run (ioStep tcp) s later t ∧ (∀ p ∈ later, p.2.costly breaksPipe = false) ∧
      t.io = .running ∧ TcpAtRest (later ++ trace) t := by
  have D := drains_io (tcp_drains (resolvedCount s))
  obtain ⟨later, t, hlater, hcheap, hdry⟩ := D.runs_dry s hs
  obtain ⟨hio, hrest⟩ := tcp_rests h hs hlater hdry
  exact ⟨later, t, hlater, hcheap, hio, hrest⟩

theorem tcpSteps_falter (hok : ∀ p ∈ trace, p.2.costly Tcp.Event.falters = false) :
    ∀ q ∈ tcpSteps trace, q.2.falters = false := by
  intro q hq
  obtain ⟨p, hp, hlabel⟩ := List.mem_filterMap.mp hq
  obtain ⟨e, he, rfl⟩ := Option.map_eq_some_iff.mp hlabel
  have hcheap := hok p hp
  cases hevent : p.2 with
  | handle x =>
    rw [hevent] at he hcheap
    obtain rfl := Option.some.inj he
    exact hcheap
  | post =>
    simp only [hevent, performed] at he
    split at he
    · obtain rfl := Option.some.inj he
      rfl
    · cases he
  | start =>
    simp only [hevent, performed] at he
    split at he
    · obtain rfl := Option.some.inj he
      rfl
    · cases he
  | _ => simp [hevent, performed] at he

theorem tcp_sized_run (h : Run (step tcp) (init tcp) trace s) : TcpSized s.client := by
  have hinv : Tcp.Phase s.client ∧ TcpSized s.client := by
    refine (tcp_client_run h).invariant (I := fun c => Tcp.Phase c ∧ TcpSized c)
      ⟨Tcp.phase_init, List.forall_mem_nil _⟩ ?_
    intro c e c' hI hstep
    have hmove := Tcp.step_move hI.1 hstep
    exact ⟨hmove.phase hI.1, tcp_move_sized hmove hI.2⟩
  exact hinv.2

/-- The IO thread can come to rest without a fault. -/
theorem tcp_can_succeed (h : Run (step tcp) (init tcp) trace s)
    (hio : s.io.started = true ∨ ∃ answer, s.io = .starting answer) :
    ∃ later t, Run (ioStep tcp) s later t ∧ (∀ p ∈ later, p.2.costly Tcp.Event.falters = false) ∧
      t.io = .running ∧ TcpSettled t.client := by
  have hs := tcp_answered h hio
  have hsized := tcp_sized_run h
  have hboth : Answered tcp (fun c => TcpOpen (resolvedCount s) c ∧ TcpSized c) s := by
    cases hnow : s.io with
    | starting answer =>
      simp only [Answered, hnow] at hs ⊢
      have hannounced := tcp_announced_run (tcp_client_run h)
      refine ⟨hs, tcp_move_sized (tcp_connect ⟨hannounced, ?_⟩ answer) hsized⟩
      have hstarted := tcp_started_run h
      simpa [TcpStarted, hnow, Io.started] using hstarted
    | readying | running =>
      simp only [Answered, hnow] at hs ⊢
      exact ⟨hs, hsized⟩
    | _ => simp [Answered, hnow] at hs
  have D := drains_io ((tcp_drains (resolvedCount s)).widen (fun hc hsized hstep =>
      tcp_move_sized (Tcp.step_move hc.announced.phase (tcp_handle_step hstep)) hsized)
    falters_of_breaksPipe)
  obtain ⟨later, t, hlater, hcheap, hdry⟩ := D.runs_dry s hboth
  obtain ⟨hrun, hopen, hquiet⟩ := (D.invariant hlater hboth).resting hdry
  exact ⟨later, t, hlater, hcheap, hrun, hopen.1.settled_succeeding hopen.2 hquiet⟩

end

/-- From any state of a run in which the resolver has answered, the IO thread left alone
takes a bounded number of steps for each broken pipe, comes to rest when no more pipe
breaks, and rests only when everything was written or discarded. -/
theorem tcp_thread_comes_to_rest
    {trace : List (State Tcp.State Tcp.Resolved × Event Tcp.Event Tcp.Resolved)}
    {s : State Tcp.State Tcp.Resolved} (h : Run (step tcp) (init tcp) trace s)
    (hio : s.io.started = true ∨ ∃ answer, s.io = .starting answer) :
    (∀ later t, Run (ioStep tcp) s later t →
      later.length ≤ ioWork tcp (tcpWork (resolvedCount s)) s +
        (resolvedCount s + 2) * later.countP fun p => p.2.costly breaksPipe) ∧
    (∀ later t, Run (ioStep tcp) s later t → (∀ e, ioStep tcp t e = none) →
      TcpAtRest (later ++ trace) t) ∧
    ∃ later t, Run (ioStep tcp) s later t ∧ (∀ p ∈ later, p.2.costly breaksPipe = false) ∧
      TcpAtRest (later ++ trace) t := by
  have hs := tcp_answered h hio
  refine ⟨?_, ?_, ?_⟩
  · intro later t hlater
    have D := drains_io (tcp_drains (resolvedCount s))
    exact Nat.le_of_add_right_le (D.length_le hlater hs)
  · intro later t hlater hdry
    exact (tcp_rests h hs hlater fun e _ => hdry e).2
  · obtain ⟨later, t, hlater, hcheap, _, hrest⟩ := tcp_can_rest h hs
    exact ⟨later, t, hlater, hcheap, hrest⟩

/-- Two messages are posted when the application thread stops. -/
theorem tcp_thread_comes_to_rest_of_two :
    ∃ trace s, Run (step tcp) (init tcp) trace s ∧ s.client.posted.length = 2 ∧
      (∀ later t, Run (ioStep tcp) s later t →
        later.length ≤ 10 + 3 * later.countP fun p => p.2.costly breaksPipe) ∧
      (∀ later t, Run (ioStep tcp) s later t → (∀ e, ioStep tcp t e = none) →
        TcpAtRest (later ++ trace) t) ∧
      ∃ later t, Run (ioStep tcp) s later t ∧ (∀ p ∈ later, p.2.costly breaksPipe = false) ∧
        TcpAtRest (later ++ trace) t := by
  have h := run_of_events (step tcp) (init tcp)
    [.callSend [47], .testThread, .setRunning, .createThread true, .post, .callSend [48],
     .testThread, .resolved ⟨[⟨1, 15002⟩], by decide⟩, .start, .setReady, .post] rfl
  exact ⟨_, _, h, rfl, tcp_thread_comes_to_rest h (.inl rfl)⟩

def udpWork (c : Udp.State) : Nat := 3 * c.posted.length + c.writeMsgs.length + c.pending.length

theorem udp_move_falls {c c' : Udp.State} {e : Udp.Event} (h : Udp.Move c e c')
    (hsend : ∀ msg, e ≠ .send msg) : udpWork c' < udpWork c := by
  unfold udpWork
  cases h with
  | send msg => exact (hsend msg rfl).elim
  | start hposted hw hp =>
    rw [hposted, hw, hp]
    simp only [List.length_cons, List.length_nil]
    omega
  | push hposted hw =>
    rw [hposted, hw]
    simp only [List.length_append, List.length_cons, List.length_nil]
    omega
  | last hw hp =>
    rw [hw, hp]
    simp only [List.length_cons, List.length_nil]
    omega
  | advance hw hp =>
    rw [hw, hp]
    simp only [List.length_cons, List.length_nil]
    omega
  | strand hw hp =>
    rw [hp]
    simp only [List.length_cons, List.length_nil]
    omega

theorem udp_drains (costly : Udp.Event → Bool) : Drains udp.handle Udp.Phase costly udpWork 0 := by
  refine Drains.of_falling ?_ ?_ costly
  · intro c e c' hc h
    exact (Udp.step_move hc (udp_handle_step h)).phase hc
  · intro c e c' hc h
    apply udp_move_falls (Udp.step_move hc (udp_handle_step h))
    rintro msg rfl
    cases h

/-- Without a failed send a waiter is held by a posted handler or an outstanding send. -/
structure UdpFlowing (c : Udp.State) : Prop where
  flowing : Udp.Flowing c
  posted : c.msgToSend = true → c.posted ≠ []

theorem UdpFlowing.move {c c' : Udp.State} {e : Udp.Event} (hc : UdpFlowing c)
    (h : Udp.Move c e c') (hok : e.failed = false) : UdpFlowing c' := by
  refine ⟨h.flowing hc.flowing hok, ?_⟩
  cases h with
  | send msg => simp [Udp.State.send]
  | start | push => simp
  | last | advance | strand => exact hc.posted

section
variable {trace : List (State Udp.State Unit × Event Udp.Event Unit)} {s : State Udp.State Unit}

theorem udp_flowing_step {t : State Udp.State Unit} {e : Event Udp.Event Unit}
    (hs : UdpFlowing s.client) (hok : e.costly Udp.Event.failed = false)
    (h : step udp s e = some t) : UdpFlowing t.client := by
  cases step_move h with
  | posts => exact hs.move (.send _) rfl
  | starts => exact hs
  | handles _ hc => exact hs.move (Udp.step_move hs.flowing.phase (udp_handle_step hc)) hok
  | _ => exact hs

theorem udp_flowing_init : UdpFlowing udp.init :=
  ⟨.inl ⟨rfl, rfl, rfl⟩, fun hn => nomatch hn⟩

theorem udp_flowing_run (h : Run (step udp) (init udp) trace s)
    (hok : ∀ p ∈ trace, p.2.costly Udp.Event.failed = false) : UdpFlowing s.client :=
  h.invariant_of (I := fun s => UdpFlowing s.client)
    (C := fun _ e => e.costly Udp.Event.failed = false) udp_flowing_init
    (fun hs hsucceeds hstep => udp_flowing_step hs hsucceeds hstep) hok

theorem udp_answered (h : Run (step udp) (init udp) trace s)
    (hio : s.io.started = true ∨ ∃ answer, s.io = .starting answer) :
    Answered udp Udp.Phase s := by
  have hphase := udp_phase_run (udp_client_run h)
  rcases hio with hio | ⟨answer, hio⟩
  · cases hnow : s.io with
    | readying => simpa only [Answered, hnow] using hphase
    | running => simpa only [Answered, hnow] using hphase
    | _ => simp [hnow, Io.started] at hio
  · simp only [Answered, hio]
    exact hphase

/-- Nothing is posted or outstanding; if no send of the run failed, every datagram has been
sent, once and in the order of the posts, and a waiter may return. -/
structure UdpAtRest (trace : List (State Udp.State Unit × Event Udp.Event Unit))
    (s : State Udp.State Unit) : Prop where
  posted : s.client.posted = []
  pending : s.client.pending = []
  all_sent : (∀ p ∈ trace, p.2.costly Udp.Event.failed = false) →
    s.client.writeMsgs = [] ∧ s.client.mustWait = false ∧
      s.client.started = Udp.sendOrder (Lifecycle.posted trace)

theorem udp_at_rest (h : Run (step udp) (init udp) trace s)
    (hrest : ∀ e, e.failed = false → udp.handle s.client e = none) : UdpAtRest trace s := by
  have hposted : s.client.posted = [] := by
    by_contra hne
    obtain ⟨msg, posted, hcons⟩ := List.exists_cons_of_ne_nil hne
    have hdo := hrest .doSend rfl
    simp [udp, Udp.step, hcons] at hdo
  have hpending : s.client.pending = [] := by
    by_contra hne
    obtain ⟨buffer, pending, hcons⟩ := List.exists_cons_of_ne_nil hne
    have hwrite := hrest (.handlerWrite buffer false) rfl
    simp [udp, Udp.step, hcons] at hwrite
  refine ⟨hposted, hpending, ?_⟩
  intro hok
  obtain ⟨hflow, hmsg⟩ := udp_flowing_run h hok
  have hprogress := hflow.progress
  have hqueue : s.client.writeMsgs = [] := by
    by_contra hne
    exact hprogress.1 hne hpending
  have hwriting : s.client.writeInProgress = false := by
    by_contra hne
    exact hprogress.2 (by simpa using hne) hpending
  have hnone : s.client.msgToSend = false := by
    by_contra hne
    exact hmsg (by simpa using hne) hposted
  obtain ⟨done, hserved⟩ := udp_served h
  have hkept := hserved.kept
  have hstarted := hserved.started
  rw [hqueue, hposted, List.append_nil, List.append_nil] at hkept
  rw [hqueue, List.take_nil, List.append_nil] at hstarted
  exact ⟨hqueue, by simp [Udp.State.mustWait, hwriting, hnone], hstarted.trans hkept⟩

theorem udp_rests (h : Run (step udp) (init udp) trace s) (hs : Answered udp Udp.Phase s)
    {later : List (State Udp.State Unit × Event Udp.Event Unit)} {t : State Udp.State Unit}
    (hlater : Run (ioStep udp) s later t)
    (hdry : ∀ e, Event.costly Udp.Event.failed e = false → ioStep udp t e = none) :
    t.io = .running ∧ UdpAtRest (later ++ trace) t := by
  have D := drains_io (udp_drains Udp.Event.failed)
  obtain ⟨hio, _, hquiet⟩ := (D.invariant hlater hs).resting hdry
  exact ⟨hio, udp_at_rest (h.append (ioRun_run hlater)) hquiet⟩

theorem udp_can_rest (h : Run (step udp) (init udp) trace s) (hs : Answered udp Udp.Phase s) :
    ∃ later t, Run (ioStep udp) s later t ∧
      (∀ p ∈ later, p.2.costly Udp.Event.failed = false) ∧ t.io = .running ∧
      UdpAtRest (later ++ trace) t := by
  have D := drains_io (udp_drains Udp.Event.failed)
  obtain ⟨later, t, hlater, hcheap, hdry⟩ := D.runs_dry s hs
  obtain ⟨hio, hrest⟩ := udp_rests h hs hlater hdry
  exact ⟨later, t, hlater, hcheap, hio, hrest⟩

end

/-- The same for `UDPClient`, where no step adds work. -/
theorem udp_thread_comes_to_rest
    {trace : List (State Udp.State Unit × Event Udp.Event Unit)} {s : State Udp.State Unit}
    (h : Run (step udp) (init udp) trace s)
    (hio : s.io.started = true ∨ ∃ answer, s.io = .starting answer) :
    (∀ later t, Run (ioStep udp) s later t → later.length ≤ ioWork udp udpWork s) ∧
    (∀ later t, Run (ioStep udp) s later t → (∀ e, ioStep udp t e = none) →
      UdpAtRest (later ++ trace) t) ∧
    ∃ later t, Run (ioStep udp) s later t ∧ (∀ p ∈ later, p.2.costly Udp.Event.failed = false) ∧
      UdpAtRest (later ++ trace) t := by
  have hs := udp_answered h hio
  refine ⟨?_, ?_, ?_⟩
  · intro later t hlater
    have hle := (drains_io (udp_drains fun _ => false)).length_le hlater hs
    have hcheap : Drains.costs (Event.costly fun _ => false) later = 0 := by
      apply List.countP_eq_zero.mpr
      intro p _
      cases p.2 <;> simp [Event.costly]
    omega
  · intro later t hlater hdry
    exact (udp_rests h hs hlater fun e _ => hdry e).2
  · obtain ⟨later, t, hlater, hcheap, _, hrest⟩ := udp_can_rest h hs
    exact ⟨later, t, hlater, hcheap, hrest⟩

theorem udp_thread_comes_to_rest_of_two :
    ∃ trace s, Run (step udp) (init udp) trace s ∧ s.client.posted.length = 2 ∧
      (∀ later t, Run (ioStep udp) s later t → later.length ≤ 6) ∧
      (∀ later t, Run (ioStep udp) s later t → (∀ e, ioStep udp t e = none) →
        UdpAtRest (later ++ trace) t) ∧
      ∃ later t, Run (ioStep udp) s later t ∧
        (∀ p ∈ later, p.2.costly Udp.Event.failed = false) ∧ UdpAtRest (later ++ trace) t := by
  have h := run_of_events (step udp) (init udp)
    [.callSend [47], .testThread, .setRunning, .createThread true, .post, .callSend [48],
     .testThread, .resolved (), .start, .setReady, .post] rfl
  exact ⟨_, _, h, rfl, udp_thread_comes_to_rest h (.inl rfl)⟩

end AmClient.Lifecycle
