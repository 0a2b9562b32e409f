import AmClient.Tcp.Delivery

/-!
# TCPClient::BlockUntilQueueIsEmpty

`msg_to_send_` is lowered by the first of several posted `DoSend` handlers. The others are
covered by the connect or the write that the first one left in flight, unless that
operation fails for good: then everything queued is discarded and no flag speaks for the
handlers that still wait.
-/

namespace AmClient.Tcp
open Foundation
set_option autoImplicit false

/-- The loop condition of `BlockUntilQueueIsEmpty`:
`client_.WriteInProgress() || client_.HaveMsgToSend() || client_.Connecting()`. -/
def State.mustWait (s : State) : Bool := s.writeInProgress || s.msgToSend || s.connecting

/-- Nothing given to `Send` is left: every `DoSend` has run, the queue is empty and no
operation is outstanding. -/
def State.Drained (s : State) : Prop := s.posted = [] ∧ s.writeMsgs = [] ∧ s.pending = []

def NoEarlyReturn (s : State) : Prop := s.mustWait = false → s.Drained

/-- The step runs a discarding completion while `msg_to_send_` is down and a posted
`DoSend` still waits. -/
def DiscardsUncovered (q : Queued State Event) (e : QueueEvent Event) : Prop :=
  ∃ ev ∈ Service.performed q e, ev.Discards ∧ q.client.msgToSend = false ∧ q.client.posted ≠ []

instance (q : Queued State Event) (e : QueueEvent Event) : Decidable (DiscardsUncovered q e) :=
  inferInstanceAs (Decidable (∃ ev ∈ Service.performed q e,
    ev.Discards ∧ q.client.msgToSend = false ∧ q.client.posted ≠ []))

def State.Busy (s : State) : Prop := s.connecting = true ∨ s.writeInProgress = true

/-- Unless it discards, this completion leaves an operation in flight. -/
def Covered (s : State) : Event → Prop
  | .handleConnect _ _ _ _ => 1 ≤ s.writeMsgs.length
  | .handleWrite _ _ _ _ _ => 2 ≤ s.writeMsgs.length
  | _ => True

theorem Phase.drained {s : State} (h : Phase s) (hb : ¬ s.Busy) :
    s.writeMsgs = [] ∧ s.pending = [] := by
  cases h with
  | idle _ _ hp hq => exact ⟨hq, hp⟩
  | connecting _ _ hc => exact (hb (.inl hc)).elim
  | writing _ _ _ _ _ hw => exact (hb (.inr hw)).elim

theorem State.busy_of_mustWait {s : State} (hwait : s.mustWait = false) :
    s.msgToSend = false ∧ ¬ s.Busy := by
  simp only [State.mustWait, Bool.or_eq_false_iff] at hwait
  obtain ⟨⟨hw, hm⟩, hc⟩ := hwait
  exact ⟨hm, by simp [State.Busy, hw, hc]⟩

theorem Move.doSend_busy {s t : State} (h : Move s .doSend t) :
    t.Busy ∧ t.writeMsgs.length = s.writeMsgs.length + 1 ∧ s.pending <+: t.pending ∧
      ∃ msg, s.posted = msg :: t.posted := by
  cases h with
  | @sendNow msg _ _ _ hposted _ _ _ hp hq =>
    exact ⟨.inr rfl, by simp [hq], by simp [hp], msg, hposted⟩
  | @reconnect msg _ _ _ hposted _ _ _ hp hq =>
    exact ⟨.inl rfl, by simp [hq], by simp [hp], msg, hposted⟩
  | @push msg _ hposted hbusy => exact ⟨hbusy, by simp, List.prefix_refl _, msg, hposted⟩

theorem Move.completion_flags {s t : State} {e : Event} (h : Move s e t)
    (he : e.op.isSome = true) : t.msgToSend = s.msgToSend ∧ t.posted = s.posted := by
  cases h with
  | send => exact nomatch he
  | opened => exact nomatch he
  | sendNow => exact nomatch he
  | reconnect => exact nomatch he
  | push => exact nomatch he
  | _ => exact ⟨rfl, rfl⟩

theorem Move.discard_not_busy {s t : State} {e : Event} (h : Move s e t) (hd : e.Discards) :
    ¬ t.Busy := by
  cases h with
  | giveUp _ _ _ _ hw => simp [State.Busy, hw]
  | abandon => simp [State.Busy]
  | tryNext => exact nomatch hd.2
  | rest => exact (hd.1 rfl).elim
  | resume => exact (hd.1 rfl).elim
  | drained => exact nomatch hd
  | advance => exact nomatch hd
  | brokenPipe => exact nomatch hd
  | _ => exact hd.elim

theorem Move.covered_busy {s t : State} {e : Event} (h : Move s e t) (he : e.op.isSome = true)
    (hcov : Covered s e) (hd : ¬ e.Discards) : t.Busy := by
  cases h with
  | send => exact nomatch he
  | opened => exact nomatch he
  | sendNow => exact nomatch he
  | reconnect => exact nomatch he
  | push => exact nomatch he
  | tryNext _ _ hc => exact .inl hc
  | giveUp _ herr => exact (hd ⟨herr, rfl⟩).elim
  | rest _ _ _ _ hq =>
    have hempty := requeued_eq_nil hq
    simp [Covered, hempty] at hcov
  | resume => exact .inr rfl
  | drained _ _ _ _ _ hq => simp [Covered, hq] at hcov
  | advance _ _ _ _ _ hw => exact .inr hw
  | brokenPipe => exact .inl rfl
  | abandon => exact (hd rfl).elim

theorem Move.doSend_covers {s t : State} (h : Move s .doSend t) (hs : Phase s) {e : Event}
    (he : ∀ op ∈ e.op, op ∈ s.pending) : Covered t e := by
  obtain ⟨_, hlen, _, _⟩ := h.doSend_busy
  cases e with
  | handleConnect endpoint next error now =>
    simp only [Covered, hlen]
    omega
  | handleWrite conn buffer error k now =>
    obtain ⟨rest, _, _, _, _, _, hq, _⟩ := hs.of_write (he _ rfl)
    simp only [Covered, hlen, hq, List.length_cons]
    omega
  | _ => trivial

/-- The queue holds a `DoSend` for each posted message, and at most one completion, of the
operation in flight. -/
structure ReadyQueue (q : Queued State Event) : Prop where
  handlers : ∀ e ∈ q.ready, e = .doSend ∨ e.op.isSome = true
  posts : q.ready.count .doSend = q.client.posted.length
  outstanding : ∀ e ∈ q.ready, ∀ op ∈ e.op, op ∈ q.client.pending
  single : q.ready.countP (fun e => e.op.isSome) ≤ q.client.pending.length

/-- A `DoSend` that no flag announces waits behind something in flight, and no completion
in front of it can leave the client idle except by discarding. -/
structure Announced (q : Queued State Event) : Prop where
  busy : q.client.msgToSend = false → q.client.posted ≠ [] → q.client.Busy
  covered : q.client.msgToSend = false → ∀ before after, q.ready = before ++ .doSend :: after →
    ∀ e ∈ before, Covered q.client e

structure Waiting (q : Queued State Event) : Prop where
  phase : Phase q.client
  ready : ReadyQueue q
  announced : Announced q

theorem Phase.pending_le {s : State} (h : Phase s) : s.pending.length ≤ 1 := by
  cases h with
  | idle _ _ hp => simp [hp]
  | connecting _ _ _ _ _ hp => simp [hp]
  | writing _ _ _ _ _ _ _ _ _ hp => simp [hp]

theorem ReadyQueue.alone {q : Queued State Event} (hr : ReadyQueue q) (hs : Phase q.client)
    {e : Event} {rest : List Event} (hready : q.ready = e :: rest) (he : e.op.isSome = true) :
    ∀ x ∈ rest, x = .doSend := by
  intro x hx
  have hsingle := hr.single
  have hpend := hs.pending_le
  rw [hready, List.countP_cons_of_pos (by simpa using he)] at hsingle
  rcases hr.handlers x (hready ▸ List.mem_cons_of_mem _ hx) with hd | hop
  · exact hd
  · have hpos : 0 < rest.countP fun e => e.op.isSome := List.countP_pos_iff.mpr ⟨x, hx, hop⟩
    omega

theorem ReadyQueue.none_queued {q : Queued State Event} (hr : ReadyQueue q)
    (hs : Phase q.client) {op : Op} (hfree : uncompleted q.client q.ready op = true) :
    op ∈ q.client.pending ∧ ∀ x ∈ q.ready, x = .doSend := by
  have hlt : q.ready.countP (fun e => e.op = some op) < q.client.pending.count op :=
    of_decide_eq_true hfree
  have hmem : op ∈ q.client.pending := List.count_pos_iff.mp (by omega)
  refine ⟨hmem, ?_⟩
  intro x hx
  rcases hr.handlers x hx with hd | hsome
  · exact hd
  · exfalso
    obtain ⟨other, hother⟩ := Option.isSome_iff_exists.mp hsome
    have hin := hr.outstanding x hx other hother
    have hpend := hs.pending_le
    have hsame : other = op := by
      obtain ⟨only, honly⟩ : ∃ only, q.client.pending = [only] := by
        apply List.length_eq_one_iff.mp
        have hpos := List.length_pos_of_mem hmem
        omega
      rw [honly, List.mem_singleton] at hin hmem
      rw [hin, hmem]
    have hcount : 0 < q.ready.countP fun e => e.op = some op := by
      apply List.countP_pos_iff.mpr
      exact ⟨x, hx, by simp [hother, hsame]⟩
    have hle := List.count_le_length (a := op) (l := q.client.pending)
    omega

theorem countP_doSends {events : List Event} (h : ∀ x ∈ events, x = .doSend) :
    events.countP (fun e => e.op.isSome) = 0 := by
  apply List.countP_eq_zero.mpr
  intro x hx
  rw [h x hx]
  simp [Event.op]

theorem covered_doSends {s : State} {events : List Event} (h : ∀ x ∈ events, x = .doSend) :
    ∀ x ∈ events, Covered s x := by
  intro x hx
  rw [h x hx]
  trivial

theorem service_queues {e : Event} {handlers : List Event}
    (h : service.queues e = some handlers) :
    (∃ msg, e = .send msg ∧ handlers = [.doSend]) ∨
      ∃ endpoints, e = .connect endpoints ∧ handlers = [] := by
  cases e with
  | send msg => exact Or.inl ⟨msg, rfl, (Option.some.inj h).symm⟩
  | connect endpoints => exact Or.inr ⟨endpoints, rfl, (Option.some.inj h).symm⟩
  | _ => simp [service] at h

theorem Waiting.send {q : Queued State Event} (hq : Waiting q) (msg : Bytes) :
    Waiting ⟨q.client.send msg, q.ready ++ [.doSend]⟩ := by
  obtain ⟨hs, hr, ha⟩ := hq
  refine ⟨(Move.send msg).phase hs, ⟨?_, ?_, ?_, ?_⟩, ⟨?_, ?_⟩⟩
  · intro x hx
    rcases List.mem_append.mp hx with hx | hx
    · exact hr.handlers x hx
    · exact Or.inl (List.mem_singleton.mp hx)
  · simp [State.send, hr.posts]
  · intro x hx op hop
    rcases List.mem_append.mp hx with hx | hx
    · exact hr.outstanding x hx op hop
    · rw [List.mem_singleton.mp hx] at hop
      simp [Event.op] at hop
  · simpa [State.send, List.countP_append, Event.op] using hr.single
  · simp [State.send]
  · simp [State.send]

theorem Waiting.connect {q : Queued State Event} (hq : Waiting q) {endpoints : Resolved}
    {c : State} (hstep : step q.client (.connect endpoints) = some c) : Waiting ⟨c, q.ready⟩ := by
  obtain ⟨hs, hr, ha⟩ := hq
  have hmove := step_move hs hstep
  have hphase := hmove.phase hs
  cases hmove with
  | opened _ _ _ _ hp =>
    have hdoSends : ∀ x ∈ q.ready, x = .doSend := by
      intro x hx
      rcases hr.handlers x hx with hd | hsome
      · exact hd
      · obtain ⟨op, hop⟩ := Option.isSome_iff_exists.mp hsome
        have hin := hr.outstanding x hx op hop
        simp [hp] at hin
    refine ⟨hphase, ⟨hr.handlers, hr.posts, ?_, ?_⟩, ⟨fun _ _ => .inl rfl, ?_⟩⟩
    · intro x hx op hop
      have hin := hr.outstanding x hx op hop
      simp [hp] at hin
    · simp [countP_doSends hdoSends]
    · intro _ before after (hsplit : q.ready = _) x hx
      apply covered_doSends hdoSends
      rw [hsplit]
      exact List.mem_append_left _ hx

theorem mayComplete_op {s : State} {ready : List Event} {e : Event}
    (h : mayComplete s ready e = true) :
    ∃ op, e.op = some op ∧ uncompleted s ready op = true := by
  cases e with
  | handleConnect endpoint next error now => exact ⟨_, rfl, h⟩
  | handleWrite conn buffer error k now => exact ⟨_, rfl, (Bool.and_eq_true_iff.mp h).2⟩
  | _ => exact nomatch h

theorem Waiting.complete {q : Queued State Event} (hq : Waiting q) {e : Event}
    (hmay : mayComplete q.client q.ready e = true) : Waiting ⟨q.client, q.ready ++ [e]⟩ := by
  obtain ⟨hs, hr, ha⟩ := hq
  obtain ⟨op, hop, hfree⟩ := mayComplete_op hmay
  obtain ⟨hmem, hdoSends⟩ := hr.none_queued hs hfree
  have hne : e ≠ .doSend := by
    rintro rfl
    exact nomatch hop
  refine ⟨hs, ⟨?_, ?_, ?_, ?_⟩, ⟨ha.busy, ?_⟩⟩
  · intro x hx
    rcases List.mem_append.mp hx with hx | hx
    · exact hr.handlers x hx
    · rw [List.mem_singleton.mp hx]
      exact Or.inr (by simp [hop])
  · simp [List.count_append, hr.posts, hne]
  · intro x hx op' hop'
    rcases List.mem_append.mp hx with hx | hx
    · exact hr.outstanding x hx op' hop'
    · rw [List.mem_singleton.mp hx, hop] at hop'
      exact Option.some.inj hop' ▸ hmem
  · have hpos := List.length_pos_of_mem hmem
    simp [List.countP_append, countP_doSends hdoSends, hop]
    omega
  · intro hm before after hsplit x hx
    -- the new completion stands last, behind every `DoSend`
    have hin : x ∈ q.ready := by
      rcases List.eq_nil_or_concat after with rfl | ⟨after', last, rfl⟩
      · exact (hne (List.append_inj_right' hsplit rfl |> List.singleton_inj.mp)).elim
      · rw [List.concat_eq_append, ← List.cons_append, ← List.append_assoc] at hsplit
        have hready := List.append_inj_left' hsplit rfl
        rw [hready]
        exact List.mem_append_left _ hx
    exact covered_doSends hdoSends x hin

theorem Waiting.run_doSend {q : Queued State Event} (hq : Waiting q) {rest : List Event}
    {c : State} (hready : q.ready = .doSend :: rest) (hstep : step q.client .doSend = some c) :
    Waiting ⟨c, rest⟩ := by
  obtain ⟨hs, hr, ha⟩ := hq
  have hmove := step_move hs hstep
  obtain ⟨hbusy, _, hpend, msg, hposted⟩ := hmove.doSend_busy
  have hrest {x : Event} (hx : x ∈ rest) : x ∈ q.ready := hready ▸ List.mem_cons_of_mem _ hx
  refine ⟨hmove.phase hs, ⟨fun x hx => hr.handlers x (hrest hx), ?_, ?_, ?_⟩,
    ⟨fun _ _ => hbusy, ?_⟩⟩
  · have hposts := hr.posts
    rw [hready, hposted, List.count_cons_self, List.length_cons] at hposts
    exact Nat.succ.inj hposts
  · intro x hx op hop
    exact hpend.subset (hr.outstanding x (hrest hx) op hop)
  · have hsingle := hr.single
    rw [hready, List.countP_cons_of_neg (by simp [Event.op])] at hsingle
    exact Nat.le_trans hsingle hpend.length_le
  · intro _ before after (hsplit : rest = _) x hx
    have hin : x ∈ rest := hsplit ▸ List.mem_append_left _ hx
    exact hmove.doSend_covers hs (hr.outstanding x (hrest hin))

theorem Waiting.run_completion {q : Queued State Event} (hq : Waiting q) {e : Event}
    {rest : List Event} {c : State} (hready : q.ready = e :: rest) (he : e.op.isSome = true)
    (hC : e.Discards → q.client.msgToSend = true ∨ q.client.posted = [])
    (hstep : step q.client e = some c) : Waiting ⟨c, rest⟩ := by
  obtain ⟨hs, hr, ha⟩ := hq
  have hmove := step_move hs hstep
  obtain ⟨hmsg, hposted⟩ := hmove.completion_flags he
  have hdoSends := hr.alone hs hready he
  have hne : e ≠ .doSend := by
    rintro rfl
    exact nomatch he
  have hposts : rest.count .doSend = c.posted.length := by
    have hcount := hr.posts
    rwa [hready, List.count_cons_of_ne hne, ← hposted] at hcount
  refine ⟨hmove.phase hs, ⟨fun x hx => .inl (hdoSends x hx), hposts, ?_, ?_⟩, ⟨?_, ?_⟩⟩
  · intro x hx op hop
    rw [hdoSends x hx] at hop
    exact nomatch hop
  · simp [countP_doSends hdoSends]
  · intro hm hwaits
    have hwait : .doSend ∈ rest := by
      apply List.count_pos_iff.mp
      rw [hposts]
      exact List.length_pos_of_ne_nil hwaits
    obtain ⟨before, after, hsplit⟩ := List.append_of_mem hwait
    have hcov : Covered q.client e := by
      apply ha.covered (hmsg ▸ hm) (e :: before) after
      · rw [hready, hsplit, List.cons_append]
      · exact List.mem_cons_self
    apply hmove.covered_busy he hcov
    intro hd
    rcases hC hd with htrue | hnil
    · simp [← hmsg, show c.msgToSend = false from hm] at htrue
    · exact hwaits (hposted.trans hnil)
  · intro _ before after (hsplit : rest = _) x hx
    apply covered_doSends hdoSends
    rw [hsplit]
    exact List.mem_append_left _ hx

theorem Waiting.noEarlyReturn {q : Queued State Event} (hq : Waiting q) :
    NoEarlyReturn q.client := by
  intro hwait
  obtain ⟨hmsg, hidle⟩ := State.busy_of_mustWait hwait
  obtain ⟨hqueue, hpend⟩ := hq.phase.drained hidle
  refine ⟨?_, hqueue, hpend⟩
  by_contra hne
  exact hidle (hq.announced.busy hmsg hne)

theorem waiting_init : Waiting ⟨init, []⟩ := by
  refine ⟨phase_init, ⟨?_, rfl, ?_, Nat.le_refl 0⟩, ⟨fun _ hne => (hne rfl).elim, ?_⟩⟩
  · simp
  · simp
  · intro _ before after hsplit
    simp at hsplit

theorem Waiting.step {q t : Queued State Event} {e : QueueEvent Event} (hq : Waiting q)
    (hC : ¬ DiscardsUncovered q e) (hstep : service.fifo q e = some t) : Waiting t := by
  cases e with
  | call e =>
    obtain ⟨handlers, c, hcall, hc, rfl⟩ := Service.fifo_call hstep
    rcases service_queues hcall with ⟨msg, rfl, rfl⟩ | ⟨endpoints, rfl, rfl⟩
    · obtain rfl := Option.some.inj hc
      exact hq.send msg
    · rw [List.append_nil]
      exact hq.connect hc
  | complete e =>
    obtain ⟨hmay, rfl⟩ := Service.fifo_complete hstep
    exact hq.complete hmay
  | run =>
    obtain ⟨e, rest, c, hready, hc, rfl⟩ := Service.fifo_run hstep
    rcases hq.ready.handlers e (hready ▸ List.mem_cons_self) with rfl | he
    · exact hq.run_doSend hready hc
    · refine hq.run_completion hready he ?_ hc
      intro hd
      by_contra hn
      have hn' : q.client.msgToSend = false ∧ q.client.posted ≠ [] := by simpa using hn
      exact hC ⟨e, by simp [Service.performed, hready], hd, hn'.1, hn'.2⟩

theorem Waiting.broken {q t : Queued State Event} {e : QueueEvent Event} (hq : Waiting q)
    (hbad : DiscardsUncovered q e) (hstep : service.fifo q e = some t) :
    ¬ NoEarlyReturn t.client := by
  intro hsafe
  obtain ⟨ev, hperf, hd, hmsg, hposted⟩ := hbad
  have hop : ev.op.isSome = true := by
    cases ev with
    | handleConnect => rfl
    | handleWrite => rfl
    | _ => exact hd.elim
  cases e with
  | call e =>
    obtain ⟨handlers, c, hcall, _, _⟩ := Service.fifo_call hstep
    obtain rfl : e = ev := Option.some.inj hperf
    rcases service_queues hcall with ⟨msg, rfl, _⟩ | ⟨endpoints, rfl, _⟩
    · exact hd.elim
    · exact hd.elim
  | complete e => simp [Service.performed] at hperf
  | run =>
    obtain ⟨e, rest, c, hready, hc, rfl⟩ := Service.fifo_run hstep
    obtain rfl : e = ev := by simpa [Service.performed, hready] using hperf
    have hmove := step_move hq.phase hc
    obtain ⟨hmsg', hposted'⟩ := hmove.completion_flags hop
    have hidle := hmove.discard_not_busy hd
    have hwait : c.mustWait = false := by
      simp only [State.Busy, not_or, Bool.not_eq_true] at hidle
      simp [State.mustWait, hidle.1, hidle.2, hmsg', hmsg]
    exact hposted (hposted' ▸ (hsafe hwait).1)

/-- With handlers run in queue order, the waiter is held as long as needed exactly in the
runs where no completion discards the queue behind the back of a waiting `DoSend`. -/
theorem no_early_return_unless_discarded {trace : List (Queued State Event × QueueEvent Event)}
    {s : Queued State Event} (h : Run service.fifo ⟨init, []⟩ trace s) :
    (∀ t ∈ visited trace s, NoEarlyReturn t.client) ↔
      ∀ p ∈ trace, ¬ DiscardsUncovered p.1 p.2 := by
  refine h.exact_condition (I := Waiting) (C := fun q e => ¬ DiscardsUncovered q e) waiting_init
    Waiting.noEarlyReturn ?_ ?_
  · intro q e t hq hC hstep
    exact hq.step hC hstep
  · intro q e t hq hC hstep
    exact hq.broken (not_not.mp hC) hstep

theorem no_early_return_of_connect :
    ∃ trace s, Run service.fifo ⟨init, []⟩ trace s ∧ s.client.writeInProgress = true ∧
      ∀ t ∈ visited trace s, NoEarlyReturn t.client := by
  have h := run_of_events service.fifo ⟨init, []⟩
    [.call (.connect ⟨[⟨1, 15002⟩], by decide⟩), .call (.send [47]), .call (.send [48]),
     .complete (.handleConnect ⟨1, 15002⟩ [] .success 0), .run, .run, .run] rfl
  exact ⟨_, _, h, rfl, (no_early_return_unless_discarded h).mpr (by decide)⟩

/-- When the waiter may return, every message was written or was in the queue when that
was discarded. -/
theorem written_or_discarded {trace : List (Queued State Event × QueueEvent Event)}
    {s : Queued State Event} (h : Run service.fifo ⟨init, []⟩ trace s)
    (hC : ∀ p ∈ trace, ¬ DiscardsUncovered p.1 p.2) (hwait : s.client.mustWait = false) :
    ∀ m ∈ numbered s.client.sent, framed m ∈ s.client.written ∨
      ∃ p ∈ Run.projected Queued.client Service.performed trace,
        p.2.Discards ∧ framed m ∈ p.1.writeMsgs := by
  intro m hm
  have hclient : Run Tcp.step init (Run.projected Queued.client Service.performed trace)
      s.client := Service.fifo_project h
  have hwaiting := h.invariant_of (C := fun q e => ¬ DiscardsUncovered q e) waiting_init
    (fun hq hC hstep => Waiting.step hq hC hstep) hC
  obtain ⟨hposted, hqueue, _⟩ := hwaiting.noEarlyReturn hwait
  obtain ⟨n, old, fresh, hd⟩ := delivery_run hclient
  have hqueued : s.client.queued = numbered s.client.sent := by
    rw [← hd.numbered, hposted, List.append_nil]
  rcases accounted_run hclient m (hqueued ▸ hm) with hw | hq | hdiscard
  · exact Or.inl hw
  · simp [hqueue] at hq
  · exact Or.inr hdiscard

/-- The only endpoint refuses the connection between the two `DoSend` handlers: the second
message has not been handled and the waiter may return. -/
theorem refused_connect_returns_early :
    ∃ trace s,
      trace.map Prod.snd =
        [.run, .run, .call (.send [48]),
         .complete (.handleConnect ⟨1, 15002⟩ [] .failure 0), .call (.send [47]),
         .call (.connect ⟨[⟨1, 15002⟩], by decide⟩)] ∧
      Run service.fifo ⟨init, []⟩ trace s ∧ s.client.posted = [⟨1, [48]⟩] ∧
      ¬ NoEarlyReturn s.client := by
  have hrun := run_of_events service.fifo ⟨init, []⟩
    [.call (.connect ⟨[⟨1, 15002⟩], by decide⟩), .call (.send [47]),
     .complete (.handleConnect ⟨1, 15002⟩ [] .failure 0), .call (.send [48]), .run, .run] rfl
  refine ⟨_, _, rfl, hrun, rfl, ?_⟩
  intro h
  exact nomatch (h rfl).1

/-- A connect that has nothing to write was made before the first `DoSend`, which lowers
`msg_to_send_`. -/
structure Opening (s : State) : Prop where
  fresh : s.endpointIterator = [] → s.queued = []
  opening : s.connecting = true → s.writeMsgs = [] → s.queued = []
  raised : s.queued = [] → s.sent ≠ [] → s.msgToSend = true

theorem opening_init : Opening init :=
  ⟨fun _ => rfl, (fun h => nomatch h), fun _ h => (h rfl).elim⟩

theorem Move.opening {s t : State} {e : Event} (h : Move s e t) (hs : Phase s)
    (ho : Opening s) : Opening t := by
  cases h with
  | send => exact ⟨ho.fresh, ho.opening, fun _ _ => rfl⟩
  | opened _ hfresh => exact ⟨by simp, fun _ _ => ho.fresh hfresh, ho.raised⟩
  | sendNow _ _ hc _ _ _ _ hit => exact ⟨fun h => (hit h).elim, by simp [hc], by simp⟩
  | reconnect _ _ _ _ _ _ hit => exact ⟨by simp [hit], by simp, by simp⟩
  | push _ hbusy =>
    refine ⟨fun hfresh => ?_, by simp, by simp⟩
    obtain ⟨hc, hw, _⟩ := hs.nothing_open hfresh
    simp [hc, hw] at hbusy
  | tryNext => exact ⟨ho.fresh, ho.opening, ho.raised⟩
  | giveUp | rest | resume | abandon => exact ⟨ho.fresh, (fun h => nomatch h), ho.raised⟩
  | drained _ _ _ hc | advance _ _ _ hc =>
    exact ⟨ho.fresh, fun h => by simp [hc] at h, ho.raised⟩
  | brokenPipe _ _ hq => exact ⟨ho.fresh, fun _ h => by simp [hq] at h, ho.raised⟩

theorem opening_run {trace : List (State × Event)} {s : State} (h : Run step init trace s) :
    Phase s ∧ Opening s := by
  refine h.invariant (I := fun s => Phase s ∧ Opening s) ⟨phase_init, opening_init⟩ ?_
  intro s e t hI hstep
  have hmove := step_move hI.1 hstep
  exact ⟨hmove.phase hI.1, hmove.opening hI.1 hI.2⟩

/-- The step that lowers the last flag notifies the waiter, once anything was sent. -/
theorem Move.notifies {s t : State} {e : Event} (h : Move s e t) (ho : Opening s)
    (hsent : s.sent ≠ []) (hfree : t.mustWait = false) :
    s.mustWait = false ∨ s.notifies e = true := by
  cases h with
  | send => simp [State.mustWait, State.send] at hfree
  | opened | sendNow | reconnect | resume | brokenPipe => simp [State.mustWait] at hfree
  | push _ hbusy => rcases hbusy with hb | hb <;> simp [State.mustWait, hb] at hfree
  | tryNext _ _ hc => simp [State.mustWait, hc] at hfree
  | giveUp _ herr => exact Or.inr (by simp [State.notifies, herr])
  | rest now hc _ hw hq =>
    have hraised := ho.raised (ho.opening hc (requeued_eq_nil hq)) hsent
    simp [State.mustWait, hraised] at hfree
  | drained _ _ _ _ _ hq => exact Or.inr (by simp [State.notifies, hq])
  | advance _ _ _ _ _ hw => simp [State.mustWait, hw] at hfree
  | abandon => exact Or.inr rfl

end AmClient.Tcp
