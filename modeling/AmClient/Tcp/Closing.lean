import AmClient.Tcp.Phases

/-!
# Completions after Close

`~TCPClient` posts `DoClose`, which resets the flags and empties the queue while an
operation may be outstanding. That operation still completes, and its handler cannot tell:
the operations that were outstanding when a `DoClose` ran are kept apart here as stale. A
stale write that fails calls `DoClose` again, and makes stale what a later `DoSend` started.
What the socket accepted of a stale write it accepted before the close; as for every write
it is counted when the handler runs.
-/

namespace AmClient.Tcp.Closing
open Foundation
set_option autoImplicit false

/-- The client, the posted `DoClose` handlers, the stale operations, and the history:
whether a posted `DoClose` has run, and whether a `DoSend` has run since the last one. -/
structure State where
  client : Tcp.State := {}
  closes : Nat := 0
  stale : List Op := []
  closed : Bool := false
  resumed : Bool := false
  deriving DecidableEq

inductive Event where
  | client (e : Tcp.Event)
  | close
  | doClose
  | staleConnect (endpoint : Endpoint) (next : List Endpoint) (error : ErrorCode) (now : Int)
  | staleWrite (conn : Nat) (buffer : Msg) (error : ErrorCode) (transferred : Nat) (now : Int)
  deriving DecidableEq

def step (s : State) : Event → Option State
  | .client e => (Tcp.step s.client e).map fun c =>
      { s with client := c, resumed := s.resumed || decide (e = .doSend) }
  | .close => some { s with closes := s.closes + 1 }
  | .doClose =>
    if 0 < s.closes ∧ s.client.endpointIterator ≠ [] then
      some {
        client := { s.client.doClose with pending := [] }
        closes := s.closes - 1
        stale := s.stale ++ s.client.pending
        closed := true
        resumed := false }
    else none
  | .staleConnect endpoint next error now =>
    if .connect endpoint next ∈ s.stale then
      some { s with client := s.client.handleConnect error next now,
                    stale := s.stale.erase (.connect endpoint next) }
    else none
  | .staleWrite conn buffer error k now =>
    if .write conn buffer ∈ s.stale ∧ Transferable buffer error k then
      let client := (s.client.transfer conn buffer error k).handleWrite error now
      let stale := s.stale.erase (.write conn buffer)
      -- `HandleWrite` has called `DoClose`
      if error = .failure then
        some { s with client := { client with pending := [] }, stale := stale ++ client.pending }
      else some { s with client := client, stale := stale }
    else none

def init : State := {}

def State.outstanding (s : State) : List Op := s.client.pending ++ s.stale

/-- A `HandleConnect` or a `HandleWrite`. -/
def Event.completes : Event → Bool
  | .client (.handleConnect _ _ _ _) => true
  | .client (.handleWrite _ _ _ _ _) => true
  | .staleConnect _ _ _ _ => true
  | .staleWrite _ _ _ _ _ => true
  | _ => false

def Event.isStale : Event → Bool
  | .staleConnect _ _ _ _ => true
  | .staleWrite _ _ _ _ _ => true
  | _ => false

/-- A `HandleWrite` that takes the front of `write_msgs_`. -/
def Event.pops : Event → Bool
  | .client (.handleWrite _ _ .success _ _) => true
  | .staleWrite _ _ .success _ _ => true
  | _ => false

/-- After a `DoClose`, a `HandleWrite` finds a front to take, and until a new `DoSend` no
completion starts an operation: one fewer is outstanding. -/
structure Harmless (s : State) (e : Event) : Prop where
  front : s.closed = true → e.pops = true → s.client.writeMsgs ≠ []
  starts_none : s.closed = true → s.resumed = false → e.completes = true →
    ∀ t, step s e = some t → t.outstanding.length < s.outstanding.length

/-- A stale completion meets what a new `DoSend` started: a connect that succeeded while the
client connects again, or failed with an operation outstanding or with endpoints left; a
write that succeeded or failed with `EPIPE`. -/
def Late (s : State) : Event → Prop
  | .staleConnect _ next error _ => s.resumed = true ∧
      if error = .success then s.client.connecting = true
      else s.client.pending ≠ [] ∨ next ≠ []
  | .staleWrite _ _ error _ _ => s.resumed = true ∧ error ≠ .failure
  | _ => False

/-- A stale completion that the handlers take for a current one: a failed connect with
endpoints left, or a write that succeeded or failed with `EPIPE`. -/
def Restarts : Event → Prop
  | .staleConnect _ next error _ => error ≠ .success ∧ next ≠ []
  | .staleWrite _ _ error _ _ => error ≠ .failure
  | _ => False

def Disturbs (s : State) (e : Event) : Prop := Late s e ∨ Restarts e

/-- What `DoClose` leaves. -/
structure Cleared (c : Tcp.State) : Prop where
  connected : c.connected = false
  connecting : c.connecting = false
  writing : c.writeInProgress = false
  pending : c.pending = []
  queue : c.writeMsgs = []
  prev : c.prev.msg.bytes = []

theorem Cleared.phase {c : Tcp.State} (h : Cleared c) : Phase c := by
  refine .idle h.connecting h.writing h.pending h.queue ?_
  intro hc
  exact nomatch hc.symm.trans h.connected

theorem cleared_doClose (c : Tcp.State) : Cleared { c.doClose with pending := [] } :=
  ⟨rfl, rfl, rfl, rfl, rfl, rfl⟩

theorem Cleared.move {c c' : Tcp.State} {e : Tcp.Event} (h : Cleared c) (hmove : Move c e c')
    (hopen : c.endpointIterator ≠ []) (hne : e ≠ .doSend) : Cleared c' := by
  cases hmove with
  | send => exact ⟨h.connected, h.connecting, h.writing, h.pending, h.queue, h.prev⟩
  | opened _ hnone => exact (hopen hnone).elim
  | sendNow => exact (hne rfl).elim
  | reconnect => exact (hne rfl).elim
  | push => exact (hne rfl).elim
  | tryNext _ _ hc => exact nomatch hc.symm.trans h.connecting
  | giveUp _ _ hc => exact nomatch hc.symm.trans h.connecting
  | rest _ hc => exact nomatch hc.symm.trans h.connecting
  | resume _ hc => exact nomatch hc.symm.trans h.connecting
  | drained _ _ _ _ _ hq => exact nomatch hq.symm.trans h.queue
  | advance _ _ _ _ _ _ hq => exact nomatch hq.symm.trans h.queue
  | brokenPipe _ _ hq => exact nomatch hq.symm.trans h.queue
  | abandon _ _ hq => exact nomatch hq.symm.trans h.queue

theorem Cleared.handleConnect {c : Tcp.State} (h : Cleared c) {error : ErrorCode}
    {next : List Endpoint} (hok : error = .success ∨ next = []) (now : Int) :
    c.handleConnect error next now = c := by
  obtain ⟨hconnected, hconnecting, _, _, hqueue, _⟩ := h
  cases c
  simp only at hconnected hconnecting hqueue
  subst hconnected hconnecting hqueue
  by_cases herr : error = .success
  · simp [State.handleConnect, herr]
  · obtain rfl := hok.resolve_left herr
    simp [State.handleConnect, herr]

theorem Cleared.handleWrite {c : Tcp.State} (h : Cleared c) (now : Int) :
    c.handleWrite .failure now = c := by
  obtain ⟨hconnected, hconnecting, hwriting, _, hqueue, hprev⟩ := h
  rcases c with ⟨_, _, _, _, ⟨_, ⟨_, _⟩⟩, _⟩
  simp only at hconnected hconnecting hwriting hqueue hprev
  subst hconnected hconnecting hwriting hqueue hprev
  rfl

theorem erase_outstanding {c : Tcp.State} {stale : List Op} {op : Op} (h : op ∈ stale) :
    (c.pending ++ stale.erase op).length < (c.pending ++ stale).length := by
  have hlen := List.length_erase_of_mem h
  have hpos := List.length_pos_of_mem h
  simp only [List.length_append]
  omega

/-- The client is in a phase of its own; until a new `DoSend` a closed one is cleared. -/
structure Settled (s : State) : Prop where
  phase : Phase s.client
  opened : s.closed = true → s.client.endpointIterator ≠ []
  stale_closed : s.stale ≠ [] → s.closed = true
  cleared : s.closed = true → s.resumed = false → Cleared s.client

theorem settled_init : Settled init :=
  ⟨phase_init, (fun hc => nomatch hc), (fun hs => (hs rfl).elim), fun hc => nomatch hc⟩

theorem handleConnect_again {c : Tcp.State} (h : c.connecting = false) (next : List Endpoint)
    (now : Int) : c.handleConnect .success next now = c := by
  cases c
  simp only at h
  subst h
  simp [State.handleConnect]

@[simp] theorem transfer_failure (c : Tcp.State) (conn : Nat) (buffer : Msg) (k : Nat) :
    c.transfer conn buffer .failure k = c := rfl

theorem phase_given_up {c : Tcp.State} (h : Phase c) (hnone : c.pending = []) {error : ErrorCode}
    (herr : error ≠ .success) (now : Int) : Phase (c.handleConnect error [] now) := by
  rw [State.handleConnect, if_pos herr]
  cases h with
  | idle _ hwriting =>
    refine .idle rfl hwriting hnone rfl ?_
    intro hconnected
    cases hconnected
  | connecting _ _ _ _ _ hpending => cases hnone.symm.trans hpending
  | writing _ _ _ _ _ _ _ _ _ hpending => cases hnone.symm.trans hpending

theorem Settled.of_stale {s : State} (h : Settled s) {op : Op} (hop : op ∈ s.stale)
    (hr : s.resumed = false) : s.closed = true ∧ Cleared s.client := by
  have hclosed := h.stale_closed (List.ne_nil_of_mem hop)
  exact ⟨hclosed, h.cleared hclosed hr⟩

/-- Before a new `DoSend` a stale completion that does not disturb leaves the client as it
is. -/
theorem Settled.stale_step {s t : State} {e : Event} (h : Settled s) (hr : s.resumed = false)
    (hC : ¬ Restarts e) (hstep : step s e = some t) (he : e.isStale = true) :
    ∃ op ∈ s.stale, t = { s with stale := s.stale.erase op } := by
  cases e with
  | staleConnect endpoint next error now =>
    obtain ⟨hmem, hsome⟩ := Option.ite_none_right_eq_some.mp hstep
    have hok : error = .success ∨ next = [] := by
      by_contra hn
      rw [not_or] at hn
      exact hC hn
    rw [(h.of_stale hmem hr).2.handleConnect hok now] at hsome
    exact ⟨_, hmem, (Option.some.inj hsome).symm⟩
  | staleWrite conn buffer error k now =>
    have herr : error = .failure := by
      by_contra hn
      exact hC hn
    obtain ⟨⟨hmem, _⟩, hsome⟩ := Option.ite_none_right_eq_some.mp hstep
    have hcleared := (h.of_stale hmem hr).2
    have hnone : { s.client with pending := [] } = s.client := by
      rw [← hcleared.pending]
    rw [if_pos herr, herr] at hsome
    simp only [transfer_failure, hcleared.handleWrite now, hnone, hcleared.pending,
      List.append_nil] at hsome
    exact ⟨_, hmem, (Option.some.inj hsome).symm⟩
  | _ => exact (Bool.false_ne_true he).elim

theorem Settled.erase {s : State} (h : Settled s) (op : Op) :
    Settled { s with stale := s.stale.erase op } := by
  refine ⟨h.phase, h.opened, ?_, h.cleared⟩
  intro hne
  apply h.stale_closed
  intro hnil
  exact hne (by simp [hnil])

/-- Behind a new `DoSend` a stale completion that is not late leaves the client idle or in the
phase in which it is. -/
theorem Settled.resumed_step {s t : State} {e : Event} (h : Settled s) (hr : s.resumed = true)
    (hC : ¬ Disturbs s e) (hstep : step s e = some t) (he : e.isStale = true) : Settled t := by
  have hresumed {c : Tcp.State} (hnew : s.resumed = false) : Cleared c :=
    nomatch hr.symm.trans hnew
  cases e with
  | staleConnect endpoint next error now =>
    obtain ⟨hmem, hsome⟩ := Option.ite_none_right_eq_some.mp hstep
    obtain rfl := Option.some.inj hsome
    have hclosed := h.stale_closed (List.ne_nil_of_mem hmem)
    by_cases herr : error = .success
    · have hconnecting : s.client.connecting = false := by
        refine Bool.eq_false_iff.mpr ?_
        intro hc
        exact hC (.inl ⟨hr, by rwa [if_pos herr]⟩)
      rw [herr, handleConnect_again hconnecting]
      exact ⟨h.phase, h.opened, fun _ => hclosed, fun _ => hresumed⟩
    · have hidle : s.client.pending = [] ∧ next = [] := by
        by_contra hn
        refine hC (.inl ⟨hr, ?_⟩)
        rw [if_neg herr]
        tauto
      obtain ⟨hnone, rfl⟩ := hidle
      refine ⟨phase_given_up h.phase hnone herr now, ?_, fun _ => hclosed, fun _ => hresumed⟩
      rw [State.handleConnect, if_pos herr]
      exact h.opened
  | staleWrite conn buffer error k now =>
    have herr : error = .failure := by
      by_contra hn
      exact hC (.inr hn)
    obtain ⟨⟨hmem, _⟩, hsome⟩ := Option.ite_none_right_eq_some.mp hstep
    rw [if_pos herr, herr] at hsome
    obtain rfl := Option.some.inj hsome
    have hclosed := h.stale_closed (List.ne_nil_of_mem hmem)
    exact ⟨(cleared_doClose s.client).phase, h.opened, fun _ => hclosed, fun _ => hresumed⟩
  | _ => exact (Bool.false_ne_true he).elim

theorem Settled.step_of_stale {s t : State} {e : Event} (h : Settled s) (hC : ¬ Disturbs s e)
    (hstep : step s e = some t) (he : e.isStale = true) : Settled t := by
  cases hr : s.resumed with
  | true => exact h.resumed_step hr hC hstep he
  | false =>
    obtain ⟨op, _, rfl⟩ := h.stale_step hr (fun hrestarts => hC (.inr hrestarts)) hstep he
    exact h.erase op

theorem Settled.step {s t : State} {e : Event} (h : Settled s) (hC : ¬ Disturbs s e)
    (hstep : Closing.step s e = some t) : Settled t := by
  cases e with
  | client e =>
    obtain ⟨c, hc, rfl⟩ := Option.map_eq_some_iff.mp hstep
    have hmove := step_move h.phase hc
    refine ⟨hmove.phase h.phase, ?_, h.stale_closed, ?_⟩
    · intro hclosed
      exact hmove.endpoints (h.opened hclosed)
    · intro hclosed hr
      have hr' : s.resumed = false ∧ e ≠ .doSend := by simpa using hr
      exact (h.cleared hclosed hr'.1).move hmove (h.opened hclosed) hr'.2
  | close =>
    obtain rfl := Option.some.inj hstep
    exact ⟨h.phase, h.opened, h.stale_closed, h.cleared⟩
  | doClose =>
    simp only [Closing.step] at hstep
    split at hstep
    · rename_i hguard
      obtain rfl := Option.some.inj hstep
      have hcleared := cleared_doClose s.client
      exact ⟨hcleared.phase, (fun _ => hguard.2), (fun _ => rfl), fun _ _ => hcleared⟩
    · exact nomatch hstep
  | staleConnect => exact h.step_of_stale hC hstep rfl
  | staleWrite => exact h.step_of_stale hC hstep rfl

theorem Settled.harmless {s t : State} {e : Event} (h : Settled s) (hC : ¬ Disturbs s e)
    (hstep : Closing.step s e = some t) : Harmless s e := by
  constructor
  · intro _ hpops
    cases e with
    | client e =>
      obtain ⟨c, hc, _⟩ := Option.map_eq_some_iff.mp hstep
      cases e with
      | handleWrite conn buffer error k now =>
        simp only [Tcp.step] at hc
        split at hc
        · rename_i hguard
          obtain ⟨rest, _, _, _, _, _, hq, _⟩ := h.phase.of_write hguard.1
          simp [hq]
        · cases hc
      | _ => exact (Bool.false_ne_true hpops).elim
    | staleWrite conn buffer error k now =>
      cases error with
      | success => exact (hC (Or.inr (by simp [Restarts]))).elim
      | _ => exact (Bool.false_ne_true hpops).elim
    | _ => exact (Bool.false_ne_true hpops).elim
  · intro hclosed hr hcompletes u hu
    have hnever : ¬ Restarts e := fun hrestarts => hC (.inr hrestarts)
    obtain rfl := Option.some.inj (hstep.symm.trans hu)
    cases e with
    | client e =>
      have hnone := (h.cleared hclosed hr).pending
      obtain ⟨c, hc, _⟩ := Option.map_eq_some_iff.mp hstep
      cases e with
      | handleConnect => simp [Tcp.step, hnone] at hc
      | handleWrite => simp [Tcp.step, hnone] at hc
      | _ => exact (Bool.false_ne_true hcompletes).elim
    | staleConnect endpoint next error now =>
      obtain ⟨op, hop, rfl⟩ := h.stale_step hr hnever hstep rfl
      exact erase_outstanding hop
    | staleWrite conn buffer error k now =>
      obtain ⟨op, hop, rfl⟩ := h.stale_step hr hnever hstep rfl
      exact erase_outstanding hop
    | _ => exact (Bool.false_ne_true hcompletes).elim

theorem erase_and_start {stale : List Op} {op new : Op} {pending : List Op} (h : op ∈ stale)
    (hnone : pending = []) :
    ¬ ((pending ++ [new]) ++ stale.erase op).length < (pending ++ stale).length := by
  have hlen := List.length_erase_of_mem h
  have hpos := List.length_pos_of_mem h
  simp only [hnone, List.nil_append, List.length_append, List.length_singleton]
  omega

/-- A completion that the handlers take for a current one is late behind a new `DoSend`. -/
theorem not_resumed {s : State} {e : Event} (hlate : ¬ Late s e) (hrestarts : Restarts e) :
    s.resumed = false := by
  refine Bool.eq_false_iff.mpr ?_
  intro hr
  cases e with
  | staleConnect endpoint next error now =>
    obtain ⟨herr, hnext⟩ := hrestarts
    refine hlate ⟨hr, ?_⟩
    rw [if_neg herr]
    exact .inr hnext
  | staleWrite => exact hlate ⟨hr, hrestarts⟩
  | _ => exact hrestarts

theorem Settled.not_harmless {s t : State} {e : Event} (h : Settled s) (hlate : ¬ Late s e)
    (hrestarts : Restarts e) (hstep : Closing.step s e = some t) : ¬ Harmless s e := by
  intro hharmless
  have hr := not_resumed hlate hrestarts
  cases e with
  | staleConnect endpoint next error now =>
    obtain ⟨herr, hnext⟩ := hrestarts
    obtain ⟨hmem, hsome⟩ := Option.ite_none_right_eq_some.mp hstep
    obtain rfl := Option.some.inj hsome
    obtain ⟨hclosed, hcleared⟩ := h.of_stale hmem hr
    have hfewer := hharmless.starts_none hclosed hr rfl _ hstep
    obtain ⟨first, rest, rfl⟩ := List.exists_cons_of_ne_nil hnext
    simp only [State.handleConnect, herr, ne_eq, not_false_eq_true, reduceCtorEq, ↓reduceIte,
      State.asyncConnect, State.outstanding] at hfewer
    exact erase_and_start hmem hcleared.pending hfewer
  | staleWrite conn buffer error k now =>
    obtain ⟨⟨hmem, _⟩, hsome⟩ := Option.ite_none_right_eq_some.mp hstep
    rw [if_neg hrestarts] at hsome
    obtain rfl := Option.some.inj hsome
    obtain ⟨hclosed, hcleared⟩ := h.of_stale hmem hr
    cases error with
    | success => exact hharmless.front hclosed rfl hcleared.queue
    | brokenPipe =>
      obtain ⟨first, rest, hends⟩ := List.exists_cons_of_ne_nil (h.opened hclosed)
      have hfewer := hharmless.starts_none hclosed hr rfl _ hstep
      simp only [State.transfer, State.handleWrite, reduceCtorEq, ↓reduceIte, State.doConnect,
        hends, State.asyncConnect, State.outstanding] at hfewer
      exact erase_and_start hmem hcleared.pending hfewer
    | failure => exact hrestarts rfl
  | _ => exact hrestarts

/-- Completions after a `DoClose` are harmless when no stale one is taken for a current one
and none meets what a new `DoSend` started. Among the runs without the second kind, these
are the only harmless ones. -/
theorem stale_completions_harmless {trace : List (State × Event)} {s : State}
    (h : Run step init trace s) :
    ((∀ p ∈ trace, ¬ Disturbs p.1 p.2) → ∀ p ∈ trace, Harmless p.1 p.2) ∧
      ((∀ p ∈ trace, ¬ Late p.1 p.2) → (∀ p ∈ trace, Harmless p.1 p.2) →
        ∀ p ∈ trace, ¬ Disturbs p.1 p.2) := by
  have hexact (hlate : ∀ p ∈ trace, ¬ Late p.1 p.2) :
      (∀ p ∈ trace, Harmless p.1 p.2) ↔ ∀ p ∈ trace, ¬ Disturbs p.1 p.2 := by
    refine h.exact_steps (I := Settled) (H := fun s e => ¬ Late s e)
      (C := fun s e => ¬ Disturbs s e) hlate settled_init ?_ ?_ ?_
    · intro s e t hs hC hstep
      exact hs.step hC hstep
    · intro s e t hs hC hstep
      exact hs.harmless hC hstep
    · intro s e t hs hlate hC hstep
      exact hs.not_harmless hlate ((not_not.mp hC).resolve_left hlate) hstep
  constructor
  · intro hC
    exact (hexact fun p hp hlate => hC p hp (Or.inl hlate)).mpr hC
  · intro hlate
    exact (hexact hlate).mp

/-- The second write is aborted behind a new `DoSend`, and closes the client again. -/
theorem aborted_write_is_harmless :
    (∃ trace s, Run step init trace s ∧
      trace.head?.map Prod.snd = some (.staleWrite 0 ⟨0, [0, 0, 0, 1, 47]⟩ .failure 0 0) ∧
      ∀ p ∈ trace, Harmless p.1 p.2) ∧
    ∃ trace s, Run step init trace s ∧
      trace.head?.map Prod.snd = some (.staleWrite 0 ⟨0, [0, 0, 0, 1, 47]⟩ .failure 0 0) ∧
      s.stale = [.connect ⟨1, 15002⟩ []] ∧ ∀ p ∈ trace, Harmless p.1 p.2 := by
  constructor
  · have h := run_of_events step init
      [.client (.send [47]), .client (.connect ⟨[⟨1, 15002⟩], by decide⟩), .client .doSend,
       .client (.handleConnect ⟨1, 15002⟩ [] .success 0), .close, .doClose,
       .staleWrite 0 ⟨0, [0, 0, 0, 1, 47]⟩ .failure 0 0] rfl
    exact ⟨_, _, h, rfl, (stale_completions_harmless h).1 (by simp [Disturbs, Late, Restarts])⟩
  · have h := run_of_events step init
      [.client (.send [47]), .client (.connect ⟨[⟨1, 15002⟩], by decide⟩), .client .doSend,
       .client (.handleConnect ⟨1, 15002⟩ [] .success 0), .close, .doClose, .client (.send [47]),
       .client .doSend, .staleWrite 0 ⟨0, [0, 0, 0, 1, 47]⟩ .failure 0 0] rfl
    exact ⟨_, _, h, rfl, rfl,
      (stale_completions_harmless h).1 (by simp [Disturbs, Late, Restarts])⟩

/-- A write that succeeded just before the close takes the front of the emptied queue; a
connect that was aborted goes on to the next endpoint. -/
theorem stale_completions_disturb :
    (∃ trace s, Run step init trace s ∧
      trace.map Prod.snd =
        [.staleWrite 0 ⟨0, [0, 0, 0, 1, 47]⟩ .success 5 0, .doClose, .close,
         .client (.handleConnect ⟨1, 15002⟩ [] .success 0), .client .doSend,
         .client (.connect ⟨[⟨1, 15002⟩], by decide⟩), .client (.send [47])] ∧
      s.client.fault = true ∧ ∃ p ∈ trace, ¬ Harmless p.1 p.2) ∧
    ∃ trace s, Run step init trace s ∧
      trace.map Prod.snd =
        [.staleConnect ⟨1, 15002⟩ [⟨2, 15002⟩] .failure 0, .doClose, .close,
         .client (.connect ⟨[⟨1, 15002⟩, ⟨2, 15002⟩], by decide⟩), .client (.send [47])] ∧
      s.outstanding = [.connect ⟨2, 15002⟩ []] ∧ ∃ p ∈ trace, ¬ Harmless p.1 p.2 := by
  constructor
  · have h := run_of_events step init
      [.client (.send [47]), .client (.connect ⟨[⟨1, 15002⟩], by decide⟩), .client .doSend,
       .client (.handleConnect ⟨1, 15002⟩ [] .success 0), .close, .doClose,
       .staleWrite 0 ⟨0, [0, 0, 0, 1, 47]⟩ .success 5 0] rfl
    refine ⟨_, _, h, rfl, rfl, _, List.mem_cons_self, ?_⟩
    intro hharmless
    exact hharmless.front rfl rfl rfl
  · have h := run_of_events step init
      [.client (.send [47]), .client (.connect ⟨[⟨1, 15002⟩, ⟨2, 15002⟩], by decide⟩), .close,
       .doClose, .staleConnect ⟨1, 15002⟩ [⟨2, 15002⟩] .failure 0] rfl
    refine ⟨_, _, h, rfl, rfl, _, List.mem_cons_self, ?_⟩
    intro hharmless
    have hfewer := hharmless.starts_none rfl rfl rfl _ rfl
    revert hfewer
    decide

end AmClient.Tcp.Closing
