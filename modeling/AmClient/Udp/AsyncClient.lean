import AmClient.Foundation.Scheduling
import AmClient.Buffers

/-!
# UDPClient::AsyncUDPClient

The handlers of the client as state transformers, and the machine in which the
application thread calls `Send`, posted `DoSend` handlers run in the order they were
posted, and an outstanding `async_send_to` completes at any moment with any result.
-/

namespace AmClient.Udp
open Foundation
set_option autoImplicit false

/-- The members of `AsyncUDPClient`, what its `io_service` holds for it (`posted`, the
`DoSend` handlers not run yet, and `pending`, the buffers of the outstanding
`async_send_to` operations), and the history of the run (`sent`, the arguments of the
`Send` calls, and `started`, the buffers of all `async_send_to` calls). `fault` records
that `front` or `pop_front` was called on an empty deque. -/
structure State where
  writeInProgress : Bool := false
  msgToSend : Bool := false
  writeMsgs : List Msg := []
  posted : List Msg := []
  pending : List Msg := []
  sent : List Bytes := []
  started : List Msg := []
  fault : Bool := false
  deriving DecidableEq, Repr

inductive Event where
  | send (msg : Bytes)
  | doSend
  | handlerWrite (buffer : Msg) (error : Bool)
  deriving DecidableEq, Repr

namespace State

/-- `Send`: raises `msg_to_send_` and posts a `DoSend`. -/
def send (s : State) (msg : Bytes) : State :=
  { s with msgToSend := true, posted := s.posted ++ [⟨s.sent.length, msg⟩],
           sent := s.sent ++ [msg] }

/-- `socket_.async_send_to(asio::buffer(write_msgs_.front()), ...)`. -/
def asyncSendTo (s : State) : State :=
  match s.writeMsgs with
  | [] => { s with fault := true }
  | front :: _ => { s with pending := s.pending ++ [front], started := s.started ++ [front] }

def doSend (s : State) (msg : Msg) : State :=
  let s := { s with writeInProgress := !s.writeMsgs.isEmpty }
  let s := { s with writeMsgs := s.writeMsgs ++ [msg] }
  let s := if !s.writeInProgress then s.asyncSendTo else s
  { s with msgToSend := false }

def handlerWrite (s : State) (error : Bool) : State :=
  if !error then
    match s.writeMsgs with
    | [] => { s with fault := true }
    | _ :: rest =>
      let s := { s with writeMsgs := rest }
      if !rest.isEmpty then s.asyncSendTo else { s with writeInProgress := false }
  else
    -- the branch also closes the socket; `write_msgs_` keeps its front
    { s with writeInProgress := false }

/-- The handler calls `write_progress_cond_.notify_all()`. -/
def notifies (s : State) : Event → Bool
  | .handlerWrite _ error => error || s.writeMsgs.tail.isEmpty
  | _ => false

end State

def step (s : State) : Event → Option State
  | .send msg => some (s.send msg)
  | .doSend => match s.posted with
    | [] => none
    | msg :: rest => some (State.doSend { s with posted := rest } msg)
  | .handlerWrite buffer error =>
    if buffer ∈ s.pending then
      some (State.handlerWrite { s with pending := s.pending.erase buffer } error)
    else none

def init : State := {}

def mayComplete (s : State) (ready : List Event) : Event → Bool
  | .handlerWrite buffer _ =>
    ready.countP (fun e => e = .handlerWrite buffer true ∨ e = .handlerWrite buffer false) <
      s.pending.count buffer
  | _ => false

def service : Service State Event where
  step := step
  queues
    | .send _ => some [.doSend]
    | _ => none
  mayComplete := mayComplete

end AmClient.Udp
