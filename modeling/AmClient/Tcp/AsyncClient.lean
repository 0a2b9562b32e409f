import AmClient.Foundation.Scheduling
import AmClient.Foundation.Framing
import AmClient.Buffers

/-!
# TCPClient::AsyncTCPClient

The handlers of the client as state transformers, and the machine in which the
application thread calls `Send`, `Run` calls `Connect` once before it runs handlers,
posted `DoSend` handlers run in the order they were posted, and outstanding operations
complete at any moment with any result. `DoClose` runs here only where `HandleWrite`
calls it; a posted `Close` belongs to the destructor.

A successful `async_write_some` accepts at least one byte of its buffer and at most all
of them; a failed one accepts none. Notifications of the condition variable and the
closing of the socket leave no trace in this state.
-/

namespace AmClient.Tcp
open Foundation
set_option autoImplicit false

def TIMEOUT_SECONDS : Int := 10

structure Endpoint where
  address : Nat
  port : Nat
  deriving DecidableEq, Repr

/-- The answer of a resolver that did not throw. -/
abbrev Resolved := { endpoints : List Endpoint // endpoints ≠ [] }

/-- `boost::system::error_code`, as far as the handlers look at it. -/
inductive ErrorCode where
  | success
  | brokenPipe
  | failure
  deriving DecidableEq, Repr

/-- An outstanding operation: `async_connect` with the iterator bound to its handler, or
`async_write_some` on a connection with its buffer. -/
inductive Op where
  | connect (endpoint : Endpoint) (next : List Endpoint)
  | write (conn : Nat) (buffer : Msg)
  deriving DecidableEq, Repr

/-- One established connection: the buffers of the writes started on it, and the
successful writes with the number of bytes the socket accepted. -/
structure Conn where
  started : List Msg := []
  transfers : List (Msg × Nat) := []
  deriving DecidableEq, Repr

def Conn.start (c : Conn) (buffer : Msg) : Conn := { c with started := c.started ++ [buffer] }

def Conn.transfer (c : Conn) (buffer : Msg) (k : Nat) : Conn :=
  { c with transfers := c.transfers ++ [(buffer, k)] }

def Conn.accepted (c : Conn) : Bytes := c.transfers.flatMap fun p => p.1.bytes.take p.2

structure Prev where
  time : Int := 0
  msg : Msg := ⟨0, []⟩
  deriving DecidableEq, Repr

/-- The members of `AsyncTCPClient` (an iterator is the list of endpoints from it on),
the posted `DoSend` handlers and the outstanding operations, and the history of the run:
the arguments of the `Send` calls, the messages whose `DoSend` has run, the buffers whose
writes succeeded, the connections.
`fault` records a dereference of the end iterator or of the front of an empty deque. -/
structure State where
  connected : Bool := false
  connecting : Bool := false
  writeInProgress : Bool := false
  msgToSend : Bool := false
  prev : Prev := {}
  writeMsgs : List Msg := []
  endpointIterator : List Endpoint := []
  posted : List Msg := []
  pending : List Op := []
  sent : List Bytes := []
  queued : List Msg := []
  written : List Msg := []
  conns : List Conn := []
  fault : Bool := false
  deriving DecidableEq, Repr

inductive Event where
  | send (msg : Bytes)
  | connect (endpoints : Resolved)
  | doSend
  | handleConnect (endpoint : Endpoint) (next : List Endpoint) (error : ErrorCode) (now : Int)
  | handleWrite (conn : Nat) (buffer : Msg) (error : ErrorCode) (transferred : Nat) (now : Int)
  deriving DecidableEq

namespace State

def send (s : State) (msg : Bytes) : State :=
  { s with msgToSend := true, posted := s.posted ++ [⟨s.sent.length, msg⟩],
           sent := s.sent ++ [msg] }

/-- `socket_.async_connect(*it, ... ++it)`. -/
def asyncConnect (s : State) : List Endpoint → State
  | [] => { s with fault := true }
  | endpoint :: next => { s with pending := s.pending ++ [.connect endpoint next] }

/-- `socket_.async_write_some(asio::buffer(write_msgs_.front()), ...)`. -/
def asyncWriteSome (s : State) : State :=
  match s.writeMsgs with
  | [] => { s with fault := true }
  | front :: _ =>
    let current := s.conns.length - 1
    { s with pending := s.pending ++ [.write current front],
             conns := s.conns.modify current fun c => c.start front }

def doConnect (s : State) : State :=
  let s := { s with connecting := true }
  s.asyncConnect s.endpointIterator

def connect (s : State) (endpoints : List Endpoint) : State :=
  if !s.connecting then
    let s := { s with endpointIterator := endpoints }
    s.doConnect
  else s

/-- `td.seconds()`: the seconds field of a duration, not its total. -/
def seconds (td : Int) : Int := td.tmod 60

def handleConnect (s : State) (error : ErrorCode) (it : List Endpoint) (now : Int) : State :=
  if error ≠ .success then
    if it ≠ [] then s.asyncConnect it
    else { s with connected := false, connecting := false, writeMsgs := [] }
  else if s.connecting then
    let s := { s with connected := true, connecting := false }
    if !s.writeInProgress && (!s.writeMsgs.isEmpty || !s.prev.msg.bytes.isEmpty) then
      let s :=
        if !s.prev.msg.bytes.isEmpty then
          let td := now - s.prev.time
          if seconds td < TIMEOUT_SECONDS then { s with writeMsgs := s.prev.msg :: s.writeMsgs }
          else s
        else s
      if !s.writeMsgs.isEmpty then
        let s := { s with writeInProgress := true }
        s.asyncWriteSome
      else s
    else s
  else { s with connecting := false }

/-- `prefixed_msg`: `htonl(msg.size())` copied in front of the message. The size is
converted to 32 bits. -/
def prefixedMsg (msg : Bytes) : Bytes := leBytes 4 (hton 4 msg.length) ++ msg

def doSend (s : State) (msg : Msg) : State :=
  let s := if !s.connected && !s.connecting then s.doConnect else s
  let s := { s with writeMsgs := s.writeMsgs ++ [{ msg with bytes := prefixedMsg msg.bytes }] }
  let s :=
    if !s.writeInProgress && !s.connecting then
      let s := { s with writeInProgress := true }
      s.asyncWriteSome
    else s
  { s with msgToSend := false }

def doClose (s : State) : State :=
  { s with connected := false, connecting := false, writeInProgress := false,
           prev := { s.prev with msg := { s.prev.msg with bytes := [] } }, writeMsgs := [] }

def handleWrite (s : State) (error : ErrorCode) (now : Int) : State :=
  if error = .success then
    match s.writeMsgs with
    | [] => { s with fault := true }
    | front :: rest =>
      let s := { s with prev := ⟨now, front⟩, writeMsgs := rest }
      if !rest.isEmpty then s.asyncWriteSome else { s with writeInProgress := false }
  else if error = .brokenPipe then
    let s := { s with connected := false, connecting := false, writeInProgress := false }
    s.doConnect
  else
    let s := { s with writeInProgress := false }
    s.doClose

/-- The handler calls `write_progress_cond_.notify_all()`. -/
def notifies (s : State) : Event → Bool
  | .handleConnect _ it error _ => if error ≠ .success then it.isEmpty else !s.connecting
  | .handleWrite _ _ .success _ _ => s.writeMsgs.tail.isEmpty
  | .handleWrite _ _ .brokenPipe _ _ => false
  | .handleWrite _ _ .failure _ _ => true
  | _ => false

/-- What the socket does when a connection attempt succeeds. -/
def establish (s : State) (error : ErrorCode) : State :=
  if error = .success then { s with conns := s.conns ++ [{}] } else s

/-- What the socket does when a write completes. -/
def transfer (s : State) (conn : Nat) (buffer : Msg) (error : ErrorCode) (k : Nat) : State :=
  if error = .success then
    { s with written := s.written ++ [buffer],
             conns := s.conns.modify conn fun c => c.transfer buffer k }
  else s

end State

/-- The number of bytes boost::asio may report for a completed `async_write_some`. -/
def Transferable (buffer : Msg) (error : ErrorCode) (k : Nat) : Prop :=
  if error = .success then 1 ≤ k ∧ k ≤ buffer.bytes.length else k = 0

instance (buffer : Msg) (error : ErrorCode) (k : Nat) : Decidable (Transferable buffer error k) :=
  inferInstanceAs
    (Decidable (if error = .success then 1 ≤ k ∧ k ≤ buffer.bytes.length else k = 0))

def step (s : State) : Event → Option State
  | .send msg => some (s.send msg)
  | .connect endpoints =>
    if s.endpointIterator = [] then some (s.connect endpoints.val) else none
  | .doSend =>
    if s.endpointIterator = [] then none
    else match s.posted with
      | [] => none
      | msg :: rest =>
        some (State.doSend { s with posted := rest, queued := s.queued ++ [msg] } msg)
  | .handleConnect endpoint next error now =>
    if .connect endpoint next ∈ s.pending then
      let s := { s with pending := s.pending.erase (.connect endpoint next) }
      some ((s.establish error).handleConnect error next now)
    else none
  | .handleWrite conn buffer error k now =>
    if .write conn buffer ∈ s.pending ∧ Transferable buffer error k then
      let s := { s with pending := s.pending.erase (.write conn buffer) }
      some ((s.transfer conn buffer error k).handleWrite error now)
    else none

def init : State := {}

def Event.op : Event → Option Op
  | .handleConnect endpoint next _ _ => some (.connect endpoint next)
  | .handleWrite conn buffer _ _ _ => some (.write conn buffer)
  | _ => none

def uncompleted (s : State) (ready : List Event) (op : Op) : Bool :=
  ready.countP (fun e => e.op = some op) < s.pending.count op

def mayComplete (s : State) (ready : List Event) : Event → Bool
  | .handleConnect endpoint next _ _ => uncompleted s ready (.connect endpoint next)
  | .handleWrite conn buffer error k _ =>
    decide (Transferable buffer error k) && uncompleted s ready (.write conn buffer)
  | _ => false

/-- The client driven by its `io_service`, which runs handlers in queue order. `Run` calls
`Connect` itself, before it runs any handler. -/
def service : Service State Event where
  step := step
  queues
    | .send _ => some [.doSend]
    | .connect _ => some []
    | _ => none
  mayComplete := mayComplete

end AmClient.Tcp
