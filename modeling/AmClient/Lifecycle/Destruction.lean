import AmClient.Tcp.Closing
import AmClient.Lifecycle.Thread

/-!
# The destructors and the IO thread

`~TCPClient` and `~UDPClient` read the two flags of `Run` and then either stop the
`io_service` and join the thread, or give up on it with a `timed_join` of zero seconds.
Every read and every call of the destructor is a step of its own. `io_service::run` returns
once it is stopped, or by an exception that passes through it.
-/

namespace AmClient.Lifecycle.Destruction
open Foundation
set_option autoImplicit false

/-- What the destructor does with the asynchronous client before it stops the service. -/
structure Closable (σ ε α : Type) extends Transport σ ε α where
  close : σ → σ

inductive Dtor where
  | notCalled
  | readingRunning
  | readingReady
  | closing
  | stopping
  | joining
  | timedJoining
  | finished
  deriving DecidableEq, Repr

structure State (σ α : Type) where
  threads : Lifecycle.State σ α
  dtor : Dtor := .notCalled
  stopped : Bool := false

inductive Event (ε α : Type) where
  | thread (e : Lifecycle.Event ε α)
  | destroy
  | readRunning
  | readReady
  | close
  | stop
  | join
  | timedJoin
  | runReturns
  | runThrows

/-- The IO thread was started and has not executed its last access to the object, the
assignment `thread_is_running_ = false`. -/
def live {α : Type} : Io α → Bool
  | .absent => false
  | _ => true

section
variable {σ ε α : Type} (T : Closable σ ε α)

def init : State σ α := { threads := Lifecycle.init T.toTransport }

/-- The application thread is in the destructor from `destroy` on; the IO thread goes on. -/
def step (s : State σ α) : Event ε α → Option (State σ α)
  | .thread e =>
    if e.byIo = true ∨ s.dtor = .notCalled then
      (Lifecycle.step T.toTransport s.threads e).map fun threads =>
        { s with threads := threads, stopped := match e with
          | .reset => false
          | _ => s.stopped }
    else none
  | .destroy => match s.threads.app, s.dtor with
    | .idle, .notCalled => some { s with dtor := .readingRunning }
    | _, _ => none
  -- `if (thread_is_running_)`
  | .readRunning => match s.dtor with
    | .readingRunning =>
      some { s with dtor := if s.threads.threadIsRunning then .readingReady else .finished }
    | _ => none
  -- `if (service_is_ready_)`
  | .readReady => match s.dtor with
    | .readingReady =>
      some { s with dtor := if s.threads.serviceIsReady then .closing else .timedJoining }
    | _ => none
  | .close => match s.dtor with
    | .closing =>
      some { s with threads := { s.threads with client := T.close s.threads.client },
                    dtor := .stopping }
    | _ => none
  | .stop => match s.dtor with
    | .stopping => some { s with stopped := true, dtor := .joining }
    | _ => none
  -- `thread_.join()` waits for `Run` to return
  | .join => match s.dtor, s.threads.io with
    | .joining, .absent => some { s with dtor := .finished }
    | _, _ => none
  -- `thread_.timed_join(seconds(0))` returns whether the thread has ended or not
  | .timedJoin => match s.dtor with
    | .timedJoining => some { s with dtor := .finished }
    | _ => none
  | .runReturns => match s.threads.io with
    | .running =>
      if s.stopped then some { s with threads := { s.threads with io := .resetting } } else none
    | _ => none
  | .runThrows => match s.threads.io with
    | .starting _ => some { s with threads := { s.threads with io := .resetting } }
    | .running => some { s with threads := { s.threads with io := .resetting } }
    | _ => none

/-- The destructor does not finish before the IO thread is done with the object. -/
def Waited (s : State σ α) : Prop := s.dtor = .finished → live s.threads.io = false

/-- The destructor, which has found `thread_is_running_` set, finds `service_is_ready_`
not set while the IO thread is live: it still resolves or connects, or it is on its way out. -/
def FindsNotReady (s : State σ α) : Event ε α → Prop
  | .readReady => s.threads.serviceIsReady = false ∧ live s.threads.io = true
  | _ => False

end

/-- `~TCPClient` posts `DoClose`. -/
def tcp : Closable Tcp.Closing.State Tcp.Closing.Event Tcp.Resolved where
  init := Tcp.Closing.init
  send s msg := { s with client := s.client.send msg }
  start s endpoints := { s with client := s.client.connect endpoints.val }
  handle s
    | .client (.send _) => none
    | .client (.connect _) => none
    | .close => none
    | e => Tcp.Closing.step s e
  mustWait s := s.client.mustWait
  close s := { s with closes := s.closes + 1 }

/-- `~UDPClient` only stops the service. -/
def udp : Closable Udp.State Udp.Event Unit where
  toTransport := Lifecycle.udp
  close s := s

section
variable {σ ε α : Type}

/-- A live thread has `thread_is_running_` set, and none is created while one is live. -/
structure Flags (s : Lifecycle.State σ α) : Prop where
  running : live s.io = true → s.threadIsRunning = true
  launching : ∀ msg, s.app = .launching msg ∨ s.app = .creating msg → live s.io = false
  creating : ∀ msg, s.app = .creating msg → s.threadIsRunning = true

theorem Flags.moveApp {s : Lifecycle.State σ α} (h : Flags s) {app : App}
    (happ : ∀ msg, app ≠ .launching msg ∧ app ≠ .creating msg) :
    Flags { s with app := app } := by
  refine ⟨h.running, ?_, fun msg hmsg => ((happ msg).2 hmsg).elim⟩
  intro msg hmsg
  rcases hmsg with hmsg | hmsg
  · exact ((happ msg).1 hmsg).elim
  · exact ((happ msg).2 hmsg).elim

theorem Flags.moveIo {s : Lifecycle.State σ α} (h : Flags s) (hio : live s.io = true)
    (client : σ) (ready : Bool) (io : Io α) :
    Flags { s with client := client, serviceIsReady := ready, io := io } := by
  refine ⟨fun _ => h.running hio, ?_, h.creating⟩
  intro msg hmsg
  exact nomatch hio.symm.trans (h.launching msg hmsg)

theorem Flags.leaving {s : Lifecycle.State σ α} (h : Flags s) (hio : live s.io = true) :
    Flags ({ s with threadIsRunning := false, io := .absent } : Lifecycle.State σ α) := by
  refine ⟨(fun hlive => nomatch hlive), (fun _ _ => rfl), ?_⟩
  intro msg hmsg
  exact nomatch hio.symm.trans (h.launching msg (Or.inr hmsg))

theorem Flags.move {T : Transport σ ε α} {s t : Lifecycle.State σ α}
    {e : Lifecycle.Event ε α} (h : Flags s) (hmove : Move T s e t) : Flags t := by
  have alive {io : Io α} (hio : s.io = io) (hlive : live io = true) : live s.io = true := by
    rw [hio]
    exact hlive
  cases hmove with
  | passes _ _ happ => exact h.moveApp fun msg => ⟨(happ msg).1, (happ msg).2.1⟩
  | finds => exact h.moveApp (by simp)
  | launches _ hrun =>
    have hdead : live s.io = false := by
      by_contra hlive
      exact nomatch hrun.symm.trans (h.running (by simpa using hlive))
    exact ⟨h.running, fun _ _ => hdead, by simp⟩
  | announces happ =>
    exact ⟨fun _ => rfl, fun _ _ => h.launching _ (Or.inl happ), fun _ _ => rfl⟩
  | creates happ =>
    have hrun := h.creating _ happ
    exact ⟨fun _ => hrun, by simp, by simp⟩
  | fails happ =>
    have hdead := h.launching _ (Or.inr happ)
    exact ⟨(fun hlive => nomatch hlive.symm.trans hdead), by simp, by simp⟩
  | posts => exact ⟨h.running, by simp, by simp⟩
  | resolves hio => exact h.moveIo (alive hio rfl) _ _ _
  | throws hio => exact h.moveIo (alive hio rfl) _ _ _
  | starts hio => exact h.moveIo (alive hio rfl) _ _ _
  | ready hio => exact h.moveIo (alive hio rfl) _ _ _
  | handles hio => exact h.moveIo (alive hio rfl) _ _ _
  | resets hio => exact h.moveIo (alive hio rfl) _ _ _
  | clearsReady hio => exact h.moveIo (alive hio rfl) _ _ _
  | clearsRunning hio => exact h.leaving (alive hio rfl)

theorem live_of_present {io : Io α} (h : io ≠ .absent) : live io = true := by
  cases io with
  | absent => exact (h rfl).elim
  | _ => rfl

/-- Once the destructor gives up on the thread, or has finished, the thread is gone. -/
structure Safe (s : State σ α) : Prop where
  flags : Flags s.threads
  timed : s.dtor = .timedJoining → live s.threads.io = false
  finished : s.dtor = .finished → live s.threads.io = false

variable {T : Closable σ ε α}

theorem safe_init : Safe (init T) := by
  refine ⟨⟨?_, ?_, ?_⟩, ?_, ?_⟩
  · exact fun hlive => nomatch hlive
  · exact fun _ _ => rfl
  · exact fun _ hmsg => nomatch hmsg
  · exact fun hdtor => nomatch hdtor
  · exact fun hdtor => nomatch hdtor

theorem Safe.moveDtor {s : State σ α} (h : Safe s) {dtor : Dtor} {stopped : Bool}
    (htimed : dtor ≠ .timedJoining) (hfinished : dtor ≠ .finished) :
    Safe { s with dtor := dtor, stopped := stopped } :=
  ⟨h.flags, fun hdtor => (htimed hdtor).elim, fun hdtor => (hfinished hdtor).elim⟩

theorem Safe.gone {s : State σ α} (h : Safe s) {dtor : Dtor} (hdead : live s.threads.io = false) :
    Safe { s with dtor := dtor } :=
  ⟨h.flags, fun _ => hdead, fun _ => hdead⟩

theorem Safe.unwind {s : State σ α} (h : Safe s) (hlive : live s.threads.io = true) :
    Safe ({ s with threads := { s.threads with io := .resetting } } : State σ α) := by
  refine ⟨h.flags.moveIo hlive s.threads.client s.threads.serviceIsReady .resetting, ?_, ?_⟩
  · intro hdtor
    exact nomatch hlive.symm.trans (h.timed hdtor)
  · intro hdtor
    exact nomatch hlive.symm.trans (h.finished hdtor)

theorem Safe.thread_step {s : State σ α} (h : Safe s) {e : Lifecycle.Event ε α}
    {threads : Lifecycle.State σ α} {stopped : Bool}
    (he : e.byIo = true ∨ s.dtor = .notCalled)
    (hstep : Lifecycle.step T.toTransport s.threads e = some threads) :
    Safe { s with threads := threads, stopped := stopped } := by
  have hflags := h.flags.move (step_move hstep)
  rcases he with hio | hbefore
  · have hlive := live_of_present ((step_move hstep).io_present hio)
    refine ⟨hflags, ?_, ?_⟩
    · intro hdtor
      exact nomatch hlive.symm.trans (h.timed hdtor)
    · intro hdtor
      exact nomatch hlive.symm.trans (h.finished hdtor)
  · refine ⟨hflags, ?_, ?_⟩
    · intro hdtor
      exact nomatch hdtor.symm.trans hbefore
    · intro hdtor
      exact nomatch hdtor.symm.trans hbefore

theorem Safe.step {s t : State σ α} {e : Event ε α} (h : Safe s) (hC : ¬ FindsNotReady s e)
    (hstep : Destruction.step T s e = some t) : Safe t := by
  cases e with
  | thread e =>
    simp only [Destruction.step] at hstep
    split at hstep
    · rename_i he
      obtain ⟨threads, hthreads, rfl⟩ := Option.map_eq_some_iff.mp hstep
      exact h.thread_step he hthreads
    · exact nomatch hstep
  | destroy =>
    simp only [Destruction.step] at hstep
    split at hstep
    · obtain rfl := Option.some.inj hstep
      exact h.moveDtor (by simp) (by simp)
    · exact nomatch hstep
  | readRunning =>
    simp only [Destruction.step] at hstep
    split at hstep
    · obtain rfl := Option.some.inj hstep
      by_cases hrun : s.threads.threadIsRunning = true
      · simp only [hrun, ↓reduceIte]
        exact h.moveDtor (by simp) (by simp)
      · have hdead : live s.threads.io = false := by
          by_contra hlive
          exact hrun (h.flags.running (by simpa using hlive))
        exact h.gone hdead
    · exact nomatch hstep
  | readReady =>
    simp only [Destruction.step] at hstep
    split at hstep
    · obtain rfl := Option.some.inj hstep
      by_cases hready : s.threads.serviceIsReady = true
      · simp only [hready, ↓reduceIte]
        exact h.moveDtor (by simp) (by simp)
      · have hdead : live s.threads.io = false := by
          by_contra hlive
          exact hC ⟨by simpa using hready, by simpa using hlive⟩
        exact h.gone hdead
    · exact nomatch hstep
  | close =>
    simp only [Destruction.step] at hstep
    split at hstep
    · obtain rfl := Option.some.inj hstep
      refine ⟨⟨h.flags.running, h.flags.launching, h.flags.creating⟩, ?_, ?_⟩
      · exact fun hdtor => nomatch hdtor
      · exact fun hdtor => nomatch hdtor
    · exact nomatch hstep
  | stop =>
    simp only [Destruction.step] at hstep
    split at hstep
    · obtain rfl := Option.some.inj hstep
      exact h.moveDtor (by simp) (by simp)
    · exact nomatch hstep
  | join =>
    simp only [Destruction.step] at hstep
    split at hstep
    · rename_i hio
      obtain rfl := Option.some.inj hstep
      exact h.gone (by rw [hio]; rfl)
    · exact nomatch hstep
  | timedJoin =>
    simp only [Destruction.step] at hstep
    split at hstep
    · rename_i hdtor
      obtain rfl := Option.some.inj hstep
      exact h.gone (h.timed hdtor)
    · exact nomatch hstep
  | runReturns =>
    simp only [Destruction.step] at hstep
    split at hstep
    · rename_i hio
      split at hstep
      · obtain rfl := Option.some.inj hstep
        exact h.unwind (by rw [hio]; rfl)
      · exact nomatch hstep
    · exact nomatch hstep
  | runThrows =>
    simp only [Destruction.step] at hstep
    split at hstep
    · rename_i answer hio
      obtain rfl := Option.some.inj hstep
      exact h.unwind (by rw [hio]; rfl)
    · rename_i hio
      obtain rfl := Option.some.inj hstep
      exact h.unwind (by rw [hio]; rfl)
    · exact nomatch hstep

/-- A destructor that finds the service not ready can finish at once, with the thread live. -/
theorem gives_up_on_live_thread {s t : State σ α} {e : Event ε α} (hC : FindsNotReady s e)
    (hstep : Destruction.step T s e = some t) :
    ∃ u, Destruction.step T t .timedJoin = some u ∧ ¬ Waited u := by
  cases e with
  | readReady =>
    obtain ⟨hready, hlive⟩ := hC
    simp only [Destruction.step] at hstep
    split at hstep
    · obtain rfl := Option.some.inj hstep
      simp only [hready, Bool.false_eq_true, ↓reduceIte]
      refine ⟨_, rfl, ?_⟩
      intro hwaited
      exact nomatch hlive.symm.trans (hwaited rfl)
    · exact nomatch hstep
  | _ => exact hC.elim

/-- The destructor of either class waits for the IO thread in every run in which it finds
`service_is_ready_` set, or the thread gone; where it does not, it can finish before. -/
theorem destructor_waits {trace : List (State σ α × Event ε α)} {s : State σ α}
    (h : Run (Destruction.step T) (init T) trace s) :
    ((∀ p ∈ trace, ¬ FindsNotReady p.1 p.2) → ∀ t ∈ visited trace s, Waited t) ∧
      ∀ p ∈ trace, FindsNotReady p.1 p.2 → ∀ t, Destruction.step T p.1 p.2 = some t →
        ∃ u, Destruction.step T t .timedJoin = some u ∧ ¬ Waited u := by
  constructor
  · intro hC t ht
    have hsafe := h.visited_invariant_of (I := Safe) (C := fun s e => ¬ FindsNotReady s e)
      safe_init (fun hs hC hstep => hs.step hC hstep) hC
    exact (hsafe t ht).finished
  · intro p _ hnot t hstep
    exact gives_up_on_live_thread hnot hstep

end

/-- The thread runs, the destructor stops the service and joins it. -/
theorem destructor_waits_for_running_thread :
    (∃ trace s, Run (step tcp) (init tcp) trace s ∧ s.dtor = .finished ∧
      ∀ t ∈ visited trace s, Waited t) ∧
    ∃ trace s, Run (step udp) (init udp) trace s ∧ s.dtor = .finished ∧
      ∀ t ∈ visited trace s, Waited t := by
  constructor
  · have h := run_of_events (step tcp) (init tcp)
      [.thread (.callSend [47]), .thread .testThread, .thread .setRunning,
       .thread (.createThread true), .thread .post,
       .thread (.resolved ⟨[⟨1, 15002⟩], by decide⟩), .thread .start, .thread .setReady, .destroy,
       .readRunning, .readReady, .close, .stop, .runReturns, .thread .reset, .thread .clearReady,
       .thread .clearRunning, .join] rfl
    exact ⟨_, _, h, rfl, (destructor_waits h).1 (by simp [FindsNotReady])⟩
  · have h := run_of_events (step udp) (init udp)
      [.thread (.callSend [47]), .thread .testThread, .thread .setRunning,
       .thread (.createThread true), .thread .post, .thread (.resolved ()), .thread .start,
       .thread .setReady, .destroy, .readRunning, .readReady, .close, .stop, .runReturns,
       .thread .reset, .thread .clearReady, .thread .clearRunning, .join] rfl
    exact ⟨_, _, h, rfl, (destructor_waits h).1 (by simp [FindsNotReady])⟩

/-- The object is destroyed while the thread that its only `Send` created still resolves
the host name. -/
theorem destructor_leaves_resolving_thread :
    (∃ trace s, Run (step tcp) (init tcp) trace s ∧
      trace.map Prod.snd =
        [.timedJoin, .readReady, .readRunning, .destroy, .thread .post,
         .thread (.createThread true), .thread .setRunning, .thread .testThread,
         .thread (.callSend [47])] ∧
      s.threads.io = .resolving ∧ ¬ Waited s) ∧
    ∃ trace s, Run (step udp) (init udp) trace s ∧
      trace.map Prod.snd =
        [.timedJoin, .readReady, .readRunning, .destroy, .thread .post,
         .thread (.createThread true), .thread .setRunning, .thread .testThread,
         .thread (.callSend [47])] ∧
      s.threads.io = .resolving ∧ ¬ Waited s := by
  constructor
  · have h := run_of_events (step tcp) (init tcp)
      [.thread (.callSend [47]), .thread .testThread, .thread .setRunning,
       .thread (.createThread true), .thread .post, .destroy, .readRunning, .readReady,
       .timedJoin] rfl
    refine ⟨_, _, h, rfl, rfl, ?_⟩
    intro hwaited
    exact nomatch hwaited rfl
  · have h := run_of_events (step udp) (init udp)
      [.thread (.callSend [47]), .thread .testThread, .thread .setRunning,
       .thread (.createThread true), .thread .post, .destroy, .readRunning, .readReady,
       .timedJoin] rfl
    refine ⟨_, _, h, rfl, rfl, ?_⟩
    intro hwaited
    exact nomatch hwaited rfl

end AmClient.Lifecycle.Destruction
