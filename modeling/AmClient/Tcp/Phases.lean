import AmClient.Tcp.AsyncClient

/-!
# The connection and write state machine

Between handlers the client is idle, connecting or writing, with nothing, one
`async_connect` or one `async_write_some` in flight. `Move` lists every step from these
phases with the state it leads to; later modules read a step off this list and do not
unfold the handlers.
-/

namespace AmClient.Tcp
open Foundation
set_option autoImplicit false

inductive Phase (s : State) : Prop where
  | idle : s.connecting = false → s.writeInProgress = false → s.pending = [] →
      s.writeMsgs = [] → (s.connected = true → s.conns ≠ [] ∧ s.endpointIterator ≠ []) → Phase s
  | connecting (endpoint : Endpoint) (next : List Endpoint) :
      s.connecting = true → s.writeInProgress = false → s.connected = false →
      s.pending = [.connect endpoint next] → s.endpointIterator ≠ [] → Phase s
  | writing (front : Msg) (rest : List Msg) (earlier : List Conn) (current : Conn) :
      s.connecting = false → s.writeInProgress = true → s.connected = true →
      s.writeMsgs = front :: rest → s.conns = earlier ++ [current] →
      s.pending = [.write earlier.length front] → s.endpointIterator ≠ [] → Phase s

def framed (msg : Msg) : Msg := { msg with bytes := State.prefixedMsg msg.bytes }

@[simp] theorem framed_origin (msg : Msg) : (framed msg).origin = msg.origin := rfl

/-- A connect that succeeds at time `now` sends the previous message again: it was written
less than `TIMEOUT_SECONDS` ago by the seconds field of the elapsed time. -/
def State.Retransmits (s : State) (now : Int) : Prop :=
  s.prev.msg.bytes ≠ [] ∧ State.seconds (now - s.prev.time) < TIMEOUT_SECONDS

instance (s : State) (now : Int) : Decidable (s.Retransmits now) :=
  inferInstanceAs
    (Decidable (s.prev.msg.bytes ≠ [] ∧ State.seconds (now - s.prev.time) < TIMEOUT_SECONDS))

def State.requeued (s : State) (now : Int) : List Msg :=
  if s.Retransmits now then s.prev.msg :: s.writeMsgs else s.writeMsgs

inductive Move (s : State) : Event → State → Prop where
  | send (msg : Bytes) : Move s (.send msg) (s.send msg)
  | opened {endpoints : Resolved} {endpoint : Endpoint} {next : List Endpoint} :
      endpoints.val = endpoint :: next → s.endpointIterator = [] → s.connected = false →
      s.writeInProgress = false → s.pending = [] → s.writeMsgs = [] →
      Move s (.connect endpoints) { s with
        connecting := true, endpointIterator := endpoint :: next,
        pending := [.connect endpoint next] }
  | sendNow {msg : Msg} {posted : List Msg} {earlier : List Conn} {current : Conn} :
      s.posted = msg :: posted → s.connected = true → s.connecting = false →
      s.writeInProgress = false → s.pending = [] → s.writeMsgs = [] →
      s.conns = earlier ++ [current] → s.endpointIterator ≠ [] →
      Move s .doSend { s with
        posted := posted, queued := s.queued ++ [msg], writeMsgs := [framed msg],
        writeInProgress := true,
        pending := [.write earlier.length (framed msg)],
        conns := earlier ++ [current.start (framed msg)], msgToSend := false }
  | reconnect {msg : Msg} {posted : List Msg} {endpoint : Endpoint} {next : List Endpoint} :
      s.posted = msg :: posted → s.connected = false → s.connecting = false →
      s.writeInProgress = false → s.pending = [] → s.writeMsgs = [] →
      s.endpointIterator = endpoint :: next →
      Move s .doSend { s with
        posted := posted, queued := s.queued ++ [msg], connecting := true,
        pending := [.connect endpoint next], writeMsgs := [framed msg], msgToSend := false }
  | push {msg : Msg} {posted : List Msg} :
      s.posted = msg :: posted → s.connecting = true ∨ s.writeInProgress = true →
      Move s .doSend { s with
        posted := posted, queued := s.queued ++ [msg],
        writeMsgs := s.writeMsgs ++ [framed msg], msgToSend := false }
  | tryNext {endpoint e : Endpoint} {next : List Endpoint} {error : ErrorCode} (now : Int) :
      error ≠ .success → s.connecting = true → s.pending = [.connect endpoint (e :: next)] →
      Move s (.handleConnect endpoint (e :: next) error now) { s with
        pending := [.connect e next] }
  | giveUp {endpoint : Endpoint} {error : ErrorCode} (now : Int) :
      error ≠ .success → s.connecting = true → s.pending = [.connect endpoint []] →
      s.writeInProgress = false →
      Move s (.handleConnect endpoint [] error now) { s with
        connected := false, connecting := false, writeMsgs := [], pending := [] }
  | rest {endpoint : Endpoint} {next : List Endpoint} (now : Int) :
      s.connecting = true → s.pending = [.connect endpoint next] → s.writeInProgress = false →
      s.requeued now = [] → s.endpointIterator ≠ [] →
      Move s (.handleConnect endpoint next .success now) { s with
        connected := true, connecting := false, pending := [], conns := s.conns ++ [{}] }
  | resume {endpoint : Endpoint} {next : List Endpoint} {front : Msg} {later : List Msg}
      (now : Int) :
      s.connecting = true → s.pending = [.connect endpoint next] → s.writeInProgress = false →
      s.requeued now = front :: later → s.endpointIterator ≠ [] →
      Move s (.handleConnect endpoint next .success now) { s with
        connected := true, connecting := false, writeInProgress := true,
        writeMsgs := front :: later, pending := [.write s.conns.length front],
        conns := s.conns ++ [Conn.start {} front] }
  | drained {front : Msg} {earlier : List Conn} {current : Conn} {k : Nat} (now : Int) :
      1 ≤ k → k ≤ front.bytes.length → s.connecting = false → s.connected = true →
      s.writeMsgs = [front] → s.conns = earlier ++ [current] →
      s.pending = [.write earlier.length front] → s.endpointIterator ≠ [] →
      Move s (.handleWrite earlier.length front .success k now) { s with
        prev := ⟨now, front⟩, writeMsgs := [], writeInProgress := false, pending := [],
        written := s.written ++ [front], conns := earlier ++ [current.transfer front k] }
  | advance {front following : Msg} {rest : List Msg} {earlier : List Conn} {current : Conn}
      {k : Nat} (now : Int) :
      1 ≤ k → k ≤ front.bytes.length → s.connecting = false → s.connected = true →
      s.writeInProgress = true → s.writeMsgs = front :: following :: rest →
      s.conns = earlier ++ [current] → s.pending = [.write earlier.length front] →
      s.endpointIterator ≠ [] →
      Move s (.handleWrite earlier.length front .success k now) { s with
        prev := ⟨now, front⟩, writeMsgs := following :: rest,
        pending := [.write earlier.length following], written := s.written ++ [front],
        conns := earlier ++ [(current.transfer front k).start following] }
  | brokenPipe {front : Msg} {rest : List Msg} {earlier : List Conn} {current : Conn}
      {endpoint : Endpoint} {next : List Endpoint} (k : Nat) (now : Int) :
      s.writeMsgs = front :: rest → s.conns = earlier ++ [current] →
      s.pending = [.write earlier.length front] → s.endpointIterator = endpoint :: next →
      Move s (.handleWrite earlier.length front .brokenPipe k now) { s with
        connected := false, connecting := true, writeInProgress := false,
        pending := [.connect endpoint next] }
  | abandon {front : Msg} {rest : List Msg} {earlier : List Conn} {current : Conn}
      (k : Nat) (now : Int) :
      s.writeMsgs = front :: rest → s.conns = earlier ++ [current] →
      s.pending = [.write earlier.length front] →
      Move s (.handleWrite earlier.length front .failure k now) { s with
        connected := false, connecting := false, writeInProgress := false,
        prev := { s.prev with msg := { s.prev.msg with bytes := [] } },
        writeMsgs := [], pending := [] }

theorem modify_last {α : Type} (xs : List α) (x : α) (f : α → α) :
    (xs ++ [x]).modify xs.length f = xs ++ [f x] := by
  induction xs with
  | nil => rfl
  | cons y ys ih => simp [ih]

theorem Phase.nothing_open {s : State} (h : Phase s) (hit : s.endpointIterator = []) :
    s.connecting = false ∧ s.writeInProgress = false ∧ s.connected = false ∧
      s.pending = [] ∧ s.writeMsgs = [] := by
  cases h with
  | idle hc hw hp hq hconn =>
    refine ⟨hc, hw, ?_, hp, hq⟩
    by_contra hn
    exact (hconn (by simpa using hn)).2 hit
  | connecting _ _ _ _ _ _ hne => exact (hne hit).elim
  | writing _ _ _ _ _ _ _ _ _ _ hne => exact (hne hit).elim

theorem Phase.of_connect {s : State} (h : Phase s) {endpoint : Endpoint} {next : List Endpoint}
    (hmem : Op.connect endpoint next ∈ s.pending) :
    s.connecting = true ∧ s.writeInProgress = false ∧
      s.pending = [.connect endpoint next] ∧ s.endpointIterator ≠ [] := by
  cases h with
  | idle _ _ hp _ _ => simp [hp] at hmem
  | connecting e n hc hw _ hp hne =>
    have heq : endpoint = e ∧ next = n := by simpa [hp] using hmem
    obtain ⟨rfl, rfl⟩ := heq
    exact ⟨hc, hw, hp, hne⟩
  | writing _ _ _ _ _ _ _ _ _ hp _ => simp [hp] at hmem

theorem Phase.of_write {s : State} (h : Phase s) {conn : Nat} {buffer : Msg}
    (hmem : Op.write conn buffer ∈ s.pending) :
    ∃ rest earlier current, s.connecting = false ∧ s.writeInProgress = true ∧
      s.connected = true ∧ s.writeMsgs = buffer :: rest ∧ s.conns = earlier ++ [current] ∧
      conn = earlier.length ∧ s.pending = [.write earlier.length buffer] ∧
      s.endpointIterator ≠ [] := by
  cases h with
  | idle _ _ hp _ _ => simp [hp] at hmem
  | connecting _ _ _ _ _ hp _ => simp [hp] at hmem
  | writing front rest earlier current hc hw hconn hq hcs hp hne =>
    have heq : conn = earlier.length ∧ buffer = front := by simpa [hp] using hmem
    obtain ⟨rfl, rfl⟩ := heq
    exact ⟨rest, earlier, current, hc, hw, hconn, hq, hcs, rfl, hp, hne⟩

theorem doSend_move {s : State} (hs : Phase s) {msg : Msg} {posted : List Msg}
    (hposted : s.posted = msg :: posted) (hit : s.endpointIterator ≠ []) :
    Move s .doSend
      (State.doSend { s with posted := posted, queued := s.queued ++ [msg] } msg) := by
  cases hs with
  | idle hc hw hp hq hconn =>
    cases hcd : s.connected with
    | true =>
      obtain ⟨hcs, _⟩ := hconn hcd
      obtain ⟨earlier, current, hsplit⟩ := List.eq_nil_or_concat s.conns |>.resolve_left hcs
      rw [List.concat_eq_append] at hsplit
      have hlen : (earlier ++ [current]).length - 1 = earlier.length := by simp
      have hmove := Move.sendNow hposted hcd hc hw hp hq hsplit hit
      simpa only [State.doSend, State.asyncWriteSome, framed, hcd, hc, hw, hp, hq, hsplit, hlen,
        modify_last, Bool.not_true, Bool.not_false, Bool.and_false, Bool.and_true,
        Bool.false_and, Bool.false_eq_true, ↓reduceIte, List.nil_append] using hmove
    | false =>
      obtain ⟨endpoint, next, hend⟩ := List.exists_cons_of_ne_nil hit
      have hmove := Move.reconnect hposted hcd hc hw hp hq hend
      simpa only [State.doSend, State.doConnect, State.asyncConnect, framed, hcd, hc, hw, hp, hq,
        hend, Bool.not_true, Bool.not_false, Bool.and_true, Bool.and_false, Bool.false_eq_true,
        ↓reduceIte, List.nil_append] using hmove
  | connecting endpoint next hc hw hcd hp hne =>
    have hmove := Move.push hposted (.inl hc)
    simpa only [State.doSend, framed, hc, hw, hcd, Bool.not_true, Bool.not_false, Bool.and_false,
      Bool.false_eq_true, ↓reduceIte] using hmove
  | writing front rest earlier current hc hw hcd hq hcs hp hne =>
    have hmove := Move.push hposted (.inr hw)
    simpa only [State.doSend, framed, hc, hw, hcd, Bool.not_true, Bool.not_false, Bool.false_and,
      Bool.false_eq_true, ↓reduceIte] using hmove

theorem handleConnect_success {s : State} (hc : s.connecting = true)
    (hw : s.writeInProgress = false) (it : List Endpoint) (now : Int) :
    s.handleConnect .success it now =
      if s.requeued now = [] then
        { s with connected := true, connecting := false, writeMsgs := s.requeued now }
      else State.asyncWriteSome { s with
        connected := true, connecting := false, writeInProgress := true,
        writeMsgs := s.requeued now } := by
  by_cases hprev : s.prev.msg.bytes = []
  · by_cases hq : s.writeMsgs = []
    · simp [State.handleConnect, State.requeued, State.Retransmits, hc, hw, hprev, hq]
    · simp [State.handleConnect, State.requeued, State.Retransmits, hc, hw, hprev, hq]
  · by_cases htime : State.seconds (now - s.prev.time) < TIMEOUT_SECONDS
    · simp [State.handleConnect, State.requeued, State.Retransmits, hc, hw, hprev, htime]
    · by_cases hq : s.writeMsgs = []
      · simp [State.handleConnect, State.requeued, State.Retransmits, hc, hw, hprev, htime, hq]
      · simp [State.handleConnect, State.requeued, State.Retransmits, hc, hw, hprev, htime, hq]

theorem requeued_eq_nil {s : State} {now : Int} (h : s.requeued now = []) : s.writeMsgs = [] := by
  unfold State.requeued at h
  split at h
  · exact nomatch h
  · exact h

theorem handleConnect_move {s t : State} (hs : Phase s) {endpoint : Endpoint}
    {next : List Endpoint} {error : ErrorCode} {now : Int}
    (h : step s (.handleConnect endpoint next error now) = some t) :
    Move s (.handleConnect endpoint next error now) t := by
  simp only [step] at h
  split at h
  case isFalse => exact nomatch h
  rename_i hmem
  obtain ⟨hc, hw, hp, hne⟩ := hs.of_connect hmem
  simp only [hp, List.erase_cons_head, Option.some.injEq] at h
  by_cases herr : error = .success
  · subst herr
    have hreq : State.requeued (State.establish { s with pending := [] } .success) now =
        s.requeued now := rfl
    rw [handleConnect_success (by simpa [State.establish] using hc)
      (by simpa [State.establish] using hw), hreq] at h
    cases hq : s.requeued now with
    | nil =>
      rw [hq, if_pos rfl] at h
      have hmove := Move.rest now hc hp hw hq hne
      simpa only [State.establish, ↓reduceIte, ← h, requeued_eq_nil hq] using hmove
    | cons front later =>
      rw [hq, if_neg (List.cons_ne_nil _ _)] at h
      have hlen : (s.conns ++ [({} : Conn)]).length - 1 = s.conns.length := by simp
      have hmove := Move.resume now hc hp hw hq hne
      simpa only [State.establish, State.asyncWriteSome, ↓reduceIte, ← h, hlen, modify_last,
        List.nil_append] using hmove
  · cases next with
    | nil =>
      have hmove := Move.giveUp now herr hc hp hw
      simpa only [State.establish, State.handleConnect, if_neg herr, ne_eq, herr,
        not_false_eq_true, not_true_eq_false, ↓reduceIte, ← h] using hmove
    | cons e next =>
      have hmove := Move.tryNext now herr hc hp
      simpa only [State.establish, State.handleConnect, State.asyncConnect, if_neg herr, ne_eq,
        herr, not_false_eq_true, reduceCtorEq, ↓reduceIte, List.nil_append, ← h] using hmove

theorem handleWrite_move {s t : State} (hs : Phase s) {conn : Nat} {buffer : Msg}
    {error : ErrorCode} {k : Nat} {now : Int}
    (h : step s (.handleWrite conn buffer error k now) = some t) :
    Move s (.handleWrite conn buffer error k now) t := by
  simp only [step] at h
  split at h
  case isFalse => exact nomatch h
  rename_i hguard
  obtain ⟨hmem, hk⟩ := hguard
  obtain ⟨rest, earlier, current, hc, hw, hcd, hq, hcs, rfl, hp, hne⟩ := hs.of_write hmem
  simp only [hp, List.erase_cons_head, Option.some.injEq] at h
  cases error with
  | success =>
    obtain ⟨hlow, hhigh⟩ : 1 ≤ k ∧ k ≤ buffer.bytes.length := by simpa [Transferable] using hk
    cases rest with
    | nil =>
      have hmove := Move.drained now hlow hhigh hc hcd hq hcs hp hne
      simpa only [State.transfer, State.handleWrite, ↓reduceIte, hq, hcs, modify_last,
        List.isEmpty_nil, Bool.not_true, Bool.false_eq_true, ← h] using hmove
    | cons following rest =>
      have hlen (c : Conn) : (earlier ++ [c]).length - 1 = earlier.length := by simp
      have hmove := Move.advance now hlow hhigh hc hcd hw hq hcs hp hne
      simpa only [State.transfer, State.handleWrite, State.asyncWriteSome, ↓reduceIte, hq, hcs,
        modify_last, hlen, List.isEmpty_cons, Bool.not_false, List.nil_append, ← h] using hmove
  | brokenPipe =>
    obtain ⟨endpoint, next, hend⟩ := List.exists_cons_of_ne_nil hne
    have hmove := Move.brokenPipe k now hq hcs hp hend
    simpa only [State.transfer, State.handleWrite, State.doConnect, State.asyncConnect,
      reduceCtorEq, ↓reduceIte, hend, List.nil_append, ← h] using hmove
  | failure =>
    have hmove := Move.abandon k now hq hcs hp
    simpa only [State.transfer, State.handleWrite, State.doClose, reduceCtorEq, ↓reduceIte,
      ← h] using hmove

theorem step_move {s t : State} {e : Event} (hs : Phase s) (h : step s e = some t) :
    Move s e t := by
  cases e with
  | send msg =>
    obtain rfl := Option.some.inj h
    exact .send msg
  | connect endpoints =>
    simp only [step] at h
    split at h
    · rename_i hit
      obtain ⟨hc, hw, hcd, hp, hq⟩ := hs.nothing_open hit
      obtain ⟨endpoint, next, hend⟩ := List.exists_cons_of_ne_nil endpoints.property
      have hmove := Move.opened hend hit hcd hw hp hq
      simpa only [State.connect, State.doConnect, State.asyncConnect, hc, hp, hend,
        Bool.not_false, ↓reduceIte, List.nil_append, ← Option.some.inj h] using hmove
    · exact nomatch h
  | doSend =>
    simp only [step] at h
    split at h
    · exact nomatch h
    · rename_i hit
      split at h
      · exact nomatch h
      · rename_i msg posted hposted
        exact Option.some.inj h ▸ doSend_move hs hposted hit
  | handleConnect endpoint next error now => exact handleConnect_move hs h
  | handleWrite conn buffer error k now => exact handleWrite_move hs h

theorem Move.phase {s t : State} {e : Event} (h : Move s e t) (hs : Phase s) : Phase t := by
  cases h with
  | send msg =>
    cases hs with
    | idle hc hw hp hq hconn => exact .idle hc hw hp hq hconn
    | connecting endpoint next hc hw hcd hp hne => exact .connecting endpoint next hc hw hcd hp hne
    | writing front rest earlier current hc hw hcd hq hcs hp hne =>
      exact .writing front rest earlier current hc hw hcd hq hcs hp hne
  | opened hend hit hcd hw hp hq =>
    exact .connecting _ _ rfl hw hcd rfl (List.cons_ne_nil _ _)
  | sendNow hposted hcd hc hw hp hq hcs hne =>
    exact .writing _ [] _ _ hc rfl hcd rfl rfl rfl hne
  | reconnect hposted hcd hc hw hp hq hend =>
    have hne : s.endpointIterator ≠ [] := by simp [hend]
    exact .connecting _ _ rfl hw hcd rfl hne
  | @push msg _ hposted hbusy =>
    cases hs with
    | idle hc hw _ _ _ => simp [hc, hw] at hbusy
    | connecting endpoint next hc hw hcd hp hne =>
      exact .connecting endpoint next hc hw hcd hp hne
    | writing front rest earlier current hc hw hcd hq hcs hp hne =>
      exact .writing front (rest ++ [framed msg]) earlier current hc hw hcd (by simp [hq]) hcs hp
        hne
  | tryNext now herr hc hp =>
    obtain ⟨_, hw, _, hne⟩ := hs.of_connect (hp ▸ List.mem_singleton_self _)
    cases hs with
    | idle hc' _ _ _ _ => simp [hc] at hc'
    | connecting _ _ _ _ hcd _ _ => exact .connecting _ _ hc hw hcd rfl hne
    | writing _ _ _ _ hc' _ _ _ _ _ _ => simp [hc] at hc'
  | giveUp now herr hc hp hw => exact .idle rfl hw rfl rfl (fun hn => nomatch hn)
  | rest now hc hp hw hq hne =>
    exact .idle rfl hw rfl (requeued_eq_nil hq) (fun _ => ⟨by simp, hne⟩)
  | resume now hc hp hw hq hne => exact .writing _ _ _ _ rfl rfl rfl rfl rfl rfl hne
  | drained now hlow hhigh hc hcd hq hcs hp hne =>
    exact .idle hc rfl rfl rfl (fun _ => ⟨by simp, hne⟩)
  | advance now hlow hhigh hc hcd hw hq hcs hp hne =>
    exact .writing _ _ _ _ hc hw hcd rfl rfl rfl hne
  | brokenPipe k now hq hcs hp hend =>
    have hne : s.endpointIterator ≠ [] := by simp [hend]
    exact .connecting _ _ rfl rfl rfl rfl hne
  | abandon k now hq hcs hp => exact .idle rfl rfl rfl rfl (fun hn => nomatch hn)

theorem Move.fault {s t : State} {e : Event} (h : Move s e t) : t.fault = s.fault := by
  cases h <;> rfl

theorem Move.endpoints {s t : State} {e : Event} (h : Move s e t)
    (hs : s.endpointIterator ≠ []) : t.endpointIterator ≠ [] := by
  cases h with
  | opened => exact List.cons_ne_nil _ _
  | _ => exact hs

theorem phase_init : Phase init := .idle rfl rfl rfl rfl (fun hn => nomatch hn)

theorem phase_run {trace : List (State × Event)} {s : State} (h : Run step init trace s) :
    Phase s :=
  h.invariant phase_init fun hs hstep => (step_move hs hstep).phase hs

def Op.isConnect : Op → Bool
  | .connect _ _ => true
  | .write _ _ => false

/-- At most one operation is in flight, the flags say which, and it can release whatever
is queued. -/
structure OneOperation (s : State) : Prop where
  connecting_iff : s.connecting = true ↔ s.pending.countP Op.isConnect = 1
  writing_iff : s.writeInProgress = true ↔ s.pending.countP (fun o => !o.isConnect) = 1
  exclusive : ¬(s.connecting = true ∧ s.writeInProgress = true)
  single : s.pending.length ≤ 1
  writes_front : ∀ conn buffer, .write conn buffer ∈ s.pending →
    s.connected = true ∧ s.writeMsgs.head? = some buffer
  released : s.writeMsgs ≠ [] → s.pending ≠ []
  no_fault : s.fault = false

theorem Phase.oneOperation {s : State} (h : Phase s) (hf : s.fault = false) :
    OneOperation s := by
  cases h with
  | idle hc hw hp hq _ =>
    refine ⟨by simp [hc, hp], by simp [hw, hp], by simp [hc], by simp [hp], ?_, ?_, hf⟩
    · intro conn buffer hmem
      simp [hp] at hmem
    · exact fun hne => (hne hq).elim
  | connecting endpoint next hc hw hcd hp _ =>
    refine ⟨by simp [hc, hp, Op.isConnect], by simp [hw, hp, Op.isConnect], by simp [hw],
      by simp [hp], ?_, by simp [hp], hf⟩
    intro conn buffer hmem
    simp [hp] at hmem
  | writing front rest earlier current hc hw hcd hq hcs hp _ =>
    refine ⟨by simp [hc, hp, Op.isConnect], by simp [hw, hp, Op.isConnect], by simp [hc],
      by simp [hp], ?_, by simp [hp], hf⟩
    intro conn buffer hmem
    obtain ⟨_, rfl⟩ : conn = earlier.length ∧ buffer = front := by simpa [hp] using hmem
    exact ⟨hcd, by simp [hq]⟩

/-- Every state that a run of the client reaches without `Close`, whatever the order and
the results of the handlers. -/
theorem one_operation_in_flight {trace : List (State × Event)} {s : State}
    (h : Run step init trace s) : OneOperation s := by
  have hfault : Phase s ∧ s.fault = false := by
    refine h.invariant (I := fun s => Phase s ∧ s.fault = false) ⟨phase_init, rfl⟩ ?_
    intro s e t ⟨hs, hf⟩ hstep
    have hmove := step_move hs hstep
    exact ⟨hmove.phase hs, hmove.fault.trans hf⟩
  exact hfault.1.oneOperation hfault.2

theorem one_operation_while_writing :
    ∃ trace s, Run step init trace s ∧ s.writeInProgress = true ∧ OneOperation s := by
  have h := run_of_events step init
    [.send [47], .connect ⟨[⟨1, 15002⟩], by decide⟩, .doSend,
     .handleConnect ⟨1, 15002⟩ [] .success 0] rfl
  exact ⟨_, _, h, rfl, one_operation_in_flight h⟩

end AmClient.Tcp
