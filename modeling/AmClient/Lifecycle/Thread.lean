import AmClient.Tcp.Waiting
import AmClient.Udp.Waiting

/-!
# TCPClient and UDPClient: the application thread and the IO thread

Both classes have the same `Send`, `BlockUntilQueueIsEmpty`, `RunThread` and `Run` around
their asynchronous client. Every access to `thread_is_running_` and `service_is_ready_` is
a step of its own. The `work` object keeps `io_service::run` from returning before the
destructor stops it, and `socket_.close()` and allocations are assumed not to throw out of
`Connect` or a handler, so here a thread ends only after `resolve` has thrown. The handlers
that are queued then stay queued: `reset` drops nothing.
-/

namespace AmClient.Lifecycle
open Foundation
set_option autoImplicit false

/-- What the two classes do with their asynchronous client. -/
structure Transport (σ ε α : Type) where
  init : σ
  send : σ → Bytes → σ
  /-- What `Run` does with the answer of the resolver. -/
  start : σ → α → σ
  handle : σ → ε → Option σ
  /-- The loop condition of `BlockUntilQueueIsEmpty`. -/
  mustWait : σ → Bool

/-- Where the application thread is: in `Send` and `RunThread` (`testing` to `posting`), or
in `BlockUntilQueueIsEmpty` (`readingRunning` to `waiting`). -/
inductive App where
  | idle
  | testing (msg : Bytes)
  | launching (msg : Bytes)
  | creating (msg : Bytes)
  | posting (msg : Bytes)
  | readingRunning
  | readingReady
  | testingQueue
  | waiting
  deriving DecidableEq, Repr

inductive Io (α : Type) where
  | absent
  | resolving
  | starting (answer : α)
  | readying
  | running
  | resetting
  | clearingReady
  | clearingRunning
  deriving DecidableEq, Repr

structure State (σ α : Type) where
  client : σ
  serviceIsReady : Bool := false
  threadIsRunning : Bool := false
  app : App := .idle
  io : Io α := .absent

inductive Event (ε α : Type) where
  | callSend (msg : Bytes)
  | testThread
  | setRunning
  | createThread (created : Bool)
  | post
  | callBlock
  | readRunning
  | readReady
  | testQueue
  | wake
  | resolved (answer : α)
  | resolveThrows
  | start
  | setReady
  | handle (e : ε)
  | reset
  | clearReady
  | clearRunning

def Event.byIo {ε α : Type} : Event ε α → Bool
  | .resolved _ => true
  | .resolveThrows => true
  | .start => true
  | .setReady => true
  | .handle _ => true
  | .reset => true
  | .clearReady => true
  | .clearRunning => true
  | _ => false

section
variable {σ ε α : Type} (T : Transport σ ε α)

def init : State σ α := { client := T.init }

/-- One step of one of the two threads; `none` when that thread is somewhere else. The
wait on the condition variable may end at any time, notified or not. -/
def step (s : State σ α) : Event ε α → Option (State σ α)
  -- `if (!thread_is_running_ && !RunThread()) return; client_.Send(msg);`
  | .callSend msg => match s.app with
    | .idle => some { s with app := .testing msg }
    | _ => none
  | .testThread => match s.app with
    | .testing msg =>
      some { s with app := if s.threadIsRunning then .posting msg else .launching msg }
    | _ => none
  | .setRunning => match s.app with
    | .launching msg => some { s with threadIsRunning := true, app := .creating msg }
    | _ => none
  | .createThread created => match s.app with
    | .creating msg =>
      if created then some { s with io := .resolving, app := .posting msg }
      else some { s with threadIsRunning := false, app := .idle }
    | _ => none
  | .post => match s.app with
    | .posting msg => some { s with client := T.send s.client msg, app := .idle }
    | _ => none
  -- `while (thread_is_running_ && !service_is_ready_);` and the wait behind it
  | .callBlock => match s.app with
    | .idle => some { s with app := .readingRunning }
    | _ => none
  | .readRunning => match s.app with
    | .readingRunning =>
      some { s with app := if s.threadIsRunning then .readingReady else .testingQueue }
    | _ => none
  | .readReady => match s.app with
    | .readingReady =>
      some { s with app := if s.serviceIsReady then .testingQueue else .readingRunning }
    | _ => none
  | .testQueue => match s.app with
    | .testingQueue => some { s with app := if T.mustWait s.client then .waiting else .idle }
    | _ => none
  | .wake => match s.app with
    | .waiting => some { s with app := .testingQueue }
    | _ => none
  -- `Run`
  | .resolved answer => match s.io with
    | .resolving => some { s with io := .starting answer }
    | _ => none
  | .resolveThrows => match s.io with
    | .resolving => some { s with io := .resetting }
    | _ => none
  | .start => match s.io with
    | .starting answer => some { s with client := T.start s.client answer, io := .readying }
    | _ => none
  | .setReady => match s.io with
    | .readying => some { s with serviceIsReady := true, io := .running }
    | _ => none
  | .handle e => match s.io with
    | .running => (T.handle s.client e).map fun c => { s with client := c }
    | _ => none
  | .reset => match s.io with
    | .resetting => some { s with io := .clearingReady }
    | _ => none
  | .clearReady => match s.io with
    | .clearingReady => some { s with serviceIsReady := false, io := .clearingRunning }
    | _ => none
  | .clearRunning => match s.io with
    | .clearingRunning => some { s with threadIsRunning := false, io := .absent }
    | _ => none

/-- The application thread waits in `BlockUntilQueueIsEmpty`, or would if it called it now:
it is not inside `Send`. -/
def App.blocks : App → Bool
  | .idle => true
  | .readingRunning => true
  | .readingReady => true
  | .testingQueue => true
  | .waiting => true
  | _ => false

/-- The IO thread alone can come to run a handler, posted or completing an operation. -/
def CanRun (s : State σ α) : Prop :=
  ∃ events e, (∀ x ∈ events, Event.byIo x = true) ∧
    (exec (step T) s (events ++ [.handle e])).isSome = true

/-- A flag holds the waiter and no handler can ever lower it. -/
def Stuck (s : State σ α) : Prop :=
  s.app.blocks = true ∧ T.mustWait s.client = true ∧ ¬ CanRun T s

end

section
variable {σ ε α : Type} {T : Transport σ ε α}

/-- Outside of `Send` a step of the application thread only moves it on. -/
inductive Move (T : Transport σ ε α) (s : State σ α) : Event ε α → State σ α → Prop where
  | passes {e : Event ε α} {app : App} : e.byIo = false → (∀ msg, s.app ≠ .creating msg) →
      (∀ msg, app ≠ .launching msg ∧ app ≠ .creating msg ∧ app ≠ .posting msg) →
      Move T s e { s with app := app }
  | finds {msg : Bytes} : s.app = .testing msg → s.threadIsRunning = true →
      Move T s .testThread { s with app := .posting msg }
  | launches {msg : Bytes} : s.app = .testing msg → s.threadIsRunning = false →
      Move T s .testThread { s with app := .launching msg }
  | announces {msg : Bytes} : s.app = .launching msg →
      Move T s .setRunning { s with threadIsRunning := true, app := .creating msg }
  | creates {msg : Bytes} : s.app = .creating msg →
      Move T s (.createThread true) { s with io := .resolving, app := .posting msg }
  | fails {msg : Bytes} : s.app = .creating msg →
      Move T s (.createThread false) { s with threadIsRunning := false, app := .idle }
  | posts {msg : Bytes} : s.app = .posting msg →
      Move T s .post { s with client := T.send s.client msg, app := .idle }
  | resolves {answer : α} : s.io = .resolving →
      Move T s (.resolved answer) { s with io := .starting answer }
  | throws : s.io = .resolving → Move T s .resolveThrows { s with io := .resetting }
  | starts {answer : α} : s.io = .starting answer →
      Move T s .start { s with client := T.start s.client answer, io := .readying }
  | ready : s.io = .readying →
      Move T s .setReady { s with serviceIsReady := true, io := .running }
  | handles {x : ε} {c : σ} : s.io = .running → T.handle s.client x = some c →
      Move T s (.handle x) { s with client := c }
  | resets : s.io = .resetting → Move T s .reset { s with io := .clearingReady }
  | clearsReady : s.io = .clearingReady →
      Move T s .clearReady { s with serviceIsReady := false, io := .clearingRunning }
  | clearsRunning : s.io = .clearingRunning →
      Move T s .clearRunning { s with threadIsRunning := false, io := .absent }

theorem step_move {s t : State σ α} {e : Event ε α} (h : step T s e = some t) : Move T s e t := by
  cases e with
  | callSend msg =>
    simp only [step] at h
    split at h
    · rename_i happ
      obtain rfl := Option.some.inj h
      exact .passes rfl (by simp [happ]) (by simp)
    · exact nomatch h
  | testThread =>
    simp only [step] at h
    split at h
    · rename_i msg happ
      obtain rfl := Option.some.inj h
      cases hrun : s.threadIsRunning with
      | false => simpa [hrun] using Move.launches (T := T) happ hrun
      | true => simpa [hrun] using Move.finds (T := T) happ hrun
    · exact nomatch h
  | setRunning =>
    simp only [step] at h
    split at h
    · rename_i msg happ
      obtain rfl := Option.some.inj h
      exact .announces happ
    · exact nomatch h
  | createThread created =>
    simp only [step] at h
    split at h
    · rename_i msg happ
      cases created with
      | true =>
        obtain rfl := Option.some.inj h
        exact .creates happ
      | false =>
        obtain rfl := Option.some.inj h
        exact .fails happ
    · exact nomatch h
  | post =>
    simp only [step] at h
    split at h
    · rename_i msg happ
      obtain rfl := Option.some.inj h
      exact .posts happ
    · exact nomatch h
  | callBlock =>
    simp only [step] at h
    split at h
    · rename_i happ
      obtain rfl := Option.some.inj h
      exact .passes rfl (by simp [happ]) (by simp)
    · exact nomatch h
  | readRunning =>
    simp only [step] at h
    split at h
    · rename_i happ
      obtain rfl := Option.some.inj h
      exact .passes rfl (by simp [happ]) (by intro msg; split <;> simp)
    · exact nomatch h
  | readReady =>
    simp only [step] at h
    split at h
    · rename_i happ
      obtain rfl := Option.some.inj h
      exact .passes rfl (by simp [happ]) (by intro msg; split <;> simp)
    · exact nomatch h
  | testQueue =>
    simp only [step] at h
    split at h
    · rename_i happ
      obtain rfl := Option.some.inj h
      exact .passes rfl (by simp [happ]) (by intro msg; split <;> simp)
    · exact nomatch h
  | wake =>
    simp only [step] at h
    split at h
    · rename_i happ
      obtain rfl := Option.some.inj h
      exact .passes rfl (by simp [happ]) (by simp)
    · exact nomatch h
  | resolved answer =>
    simp only [step] at h
    split at h
    · rename_i hio
      obtain rfl := Option.some.inj h
      exact .resolves hio
    · exact nomatch h
  | resolveThrows =>
    simp only [step] at h
    split at h
    · rename_i hio
      obtain rfl := Option.some.inj h
      exact .throws hio
    · exact nomatch h
  | start =>
    simp only [step] at h
    split at h
    · rename_i answer hio
      obtain rfl := Option.some.inj h
      exact .starts hio
    · exact nomatch h
  | setReady =>
    simp only [step] at h
    split at h
    · rename_i hio
      obtain rfl := Option.some.inj h
      exact .ready hio
    · exact nomatch h
  | handle x =>
    simp only [step] at h
    split at h
    · rename_i hio
      obtain ⟨c, hc, rfl⟩ := Option.map_eq_some_iff.mp h
      exact .handles hio hc
    · exact nomatch h
  | reset =>
    simp only [step] at h
    split at h
    · rename_i hio
      obtain rfl := Option.some.inj h
      exact .resets hio
    · exact nomatch h
  | clearReady =>
    simp only [step] at h
    split at h
    · rename_i hio
      obtain rfl := Option.some.inj h
      exact .clearsReady hio
    · exact nomatch h
  | clearRunning =>
    simp only [step] at h
    split at h
    · rename_i hio
      obtain rfl := Option.some.inj h
      exact .clearsRunning hio
    · exact nomatch h

/-- A step of the IO thread is taken only while there is one. -/
theorem Move.io_present {s t : State σ α} {e : Event ε α} (h : Move T s e t)
    (he : e.byIo = true) : s.io ≠ .absent := by
  cases h with
  | passes hnot => simp [hnot] at he
  | resolves hio => simp [hio]
  | throws hio => simp [hio]
  | starts hio => simp [hio]
  | ready hio => simp [hio]
  | handles hio => simp [hio]
  | resets hio => simp [hio]
  | clearsReady hio => simp [hio]
  | clearsRunning hio => simp [hio]
  | _ => simp [Event.byIo] at he

end

/-- `TCPClient`: `Run` calls `client_.Connect` with the endpoints. -/
def tcp : Transport Tcp.State Tcp.Event Tcp.Resolved where
  init := Tcp.init
  send := Tcp.State.send
  start s endpoints := s.connect endpoints.val
  handle s
    | .send _ => none
    | .connect _ => none
    | e => Tcp.step s e
  mustWait := Tcp.State.mustWait

/-- `UDPClient`: `Run` calls `client_.SetEndpoint`, which stores where datagrams go and
changes nothing else. -/
def udp : Transport Udp.State Udp.Event Unit where
  init := Udp.init
  send := Udp.State.send
  start s _ := s
  handle s
    | .send _ => none
    | e => Udp.step s e
  mustWait := Udp.State.mustWait

end AmClient.Lifecycle
