import AmClient.Udp.Progress

/-!
# UDPClient::BlockUntilQueueIsEmpty

`DoSend` computes `write_in_progress_` before it pushes its message, so the send it
starts on an empty queue is not covered by the flag, and `msg_to_send_` is already down.
-/

namespace AmClient.Udp
open Foundation
set_option autoImplicit false

/-- The loop condition of `BlockUntilQueueIsEmpty`:
`client_.WriteInProgress() || client_.HaveMsgToSend()`. -/
def State.mustWait (s : State) : Bool := s.writeInProgress || s.msgToSend

/-- Nothing given to `Send` is left: no `DoSend` waits, the queue is empty and no
`async_send_to` is outstanding. -/
def State.Drained (s : State) : Prop :=
  s.posted = [] ∧ s.writeMsgs = [] ∧ s.pending = []

def NoEarlyReturn (s : State) : Prop := s.mustWait = false → s.Drained

/-- The step makes the `io_service` run a `DoSend` that finds `write_msgs_` empty. -/
def StartsOnEmptyQueue (s : Queued State Event) (e : QueueEvent Event) : Prop :=
  Service.performed s e = some .doSend ∧ s.client.writeMsgs = []

/-- No `DoSend` has run: the state of the client before its first message is handled. -/
structure Unstarted (s : State) : Prop where
  queue : s.writeMsgs = []
  pending : s.pending = []
  flag : s.writeInProgress = false
  posted : s.posted ≠ [] → s.msgToSend = true

theorem Unstarted.noEarlyReturn {s : State} (h : Unstarted s) : NoEarlyReturn s := by
  intro hwait
  have hmsg : s.msgToSend = false := by simpa [State.mustWait, h.flag] using hwait
  refine ⟨?_, h.queue, h.pending⟩
  by_contra hne
  simp [h.posted hne] at hmsg

theorem Unstarted.phase {s : State} (h : Unstarted s) : Phase s :=
  .idle h.queue h.pending h.flag

theorem Unstarted.step {s t : State} {e : Event} (h : Unstarted s) (hne : e ≠ .doSend)
    (hstep : Udp.step s e = some t) : Unstarted t := by
  cases step_move h.phase hstep with
  | send msg => exact ⟨h.queue, h.pending, h.flag, fun _ => rfl⟩
  | start => exact (hne rfl).elim
  | push => exact (hne rfl).elim
  | last hw _ => simp [h.queue] at hw
  | advance hw _ => simp [h.queue] at hw
  | strand hw _ => simp [h.queue] at hw

theorem Move.returns_early {s t : State} (h : Move s .doSend t) (hq : s.writeMsgs = []) :
    t.mustWait = false ∧ t.pending ≠ [] := by
  cases h with
  | start => exact ⟨rfl, by simp⟩
  | push _ hw => simp [hq] at hw

/-- With handlers run in queue order, and whatever the results of the sends, the waiter
is held as long as needed exactly in the runs where no `DoSend` meets an empty queue. -/
theorem no_early_return_iff {trace : List (Queued State Event × QueueEvent Event)}
    {s : Queued State Event} (h : Run service.fifo ⟨init, []⟩ trace s) :
    (∀ t ∈ visited trace s, NoEarlyReturn t.client) ↔
      ∀ p ∈ trace, ¬ StartsOnEmptyQueue p.1 p.2 := by
  refine h.exact_condition (I := fun q => Unstarted q.client)
    (C := fun q e => ¬ StartsOnEmptyQueue q e)
    ⟨rfl, rfl, rfl, fun hne => (hne rfl).elim⟩ Unstarted.noEarlyReturn ?_ ?_
  · intro q e t hq hC hstep
    cases e with
    | call e =>
      obtain ⟨handlers, c, hcall, hc, rfl⟩ := Service.fifo_call hstep
      refine hq.step ?_ hc
      rintro rfl
      simp [service] at hcall
    | complete e =>
      obtain ⟨_, rfl⟩ := Service.fifo_complete hstep
      exact hq
    | run =>
      obtain ⟨e, rest, c, hready, hc, rfl⟩ := Service.fifo_run hstep
      refine hq.step ?_ hc
      rintro rfl
      exact hC ⟨by simp [Service.performed, hready], hq.queue⟩
  · intro q e t hq hC hstep hsafe
    obtain ⟨hperf, hempty⟩ := not_not.mp hC
    cases e with
    | call e =>
      obtain ⟨handlers, c, hcall, _, _⟩ := Service.fifo_call hstep
      obtain rfl : e = .doSend := Option.some.inj hperf
      simp [service] at hcall
    | complete e => simp [Service.performed] at hperf
    | run =>
      obtain ⟨e, rest, c, hready, hc, rfl⟩ := Service.fifo_run hstep
      simp only [Service.performed, hready, List.head?_cons, Option.some.injEq] at hperf
      subst hperf
      have hrun : Udp.step q.client .doSend = some c := hc
      obtain ⟨hwait, hpend⟩ := (step_move hq.phase hrun).returns_early hempty
      exact hpend (hsafe hwait).2.2

theorem no_early_return_of_one_send :
    ∃ trace s, Run service.fifo ⟨init, []⟩ trace s ∧ s.ready = [.doSend] ∧
      ∀ t ∈ visited trace s, NoEarlyReturn t.client := by
  have h := run_of_events service.fifo ⟨init, []⟩ [.call (.send [47])] rfl
  exact ⟨_, _, h, rfl,
    (no_early_return_iff h).mpr (by simp [StartsOnEmptyQueue, Service.performed])⟩

/-- One `Send` and its `DoSend`: the datagram is in flight and the waiter may return. -/
theorem one_doSend_returns_early :
    ∃ trace s,
      trace.map Prod.snd = [.run, .call (.send [47])] ∧
      Run service.fifo ⟨init, []⟩ trace s ∧ s.client.pending = [⟨0, [47]⟩] ∧
      ¬ NoEarlyReturn s.client := by
  have hrun := run_of_events service.fifo ⟨init, []⟩ [.call (.send [47]), .run] rfl
  refine ⟨_, _, rfl, hrun, rfl, ?_⟩
  intro h
  exact nomatch (h rfl).2.2

/-- The handler that leaves the flags low and the queue empty notifies the waiter; `DoSend`
never does. -/
theorem Move.notifies {s t : State} {e : Event} (h : Move s e t) (hfree : t.mustWait = false)
    (hempty : t.writeMsgs = []) :
    (s.mustWait = false ∧ s.writeMsgs = []) ∨ s.notifies e = true := by
  cases h with
  | send => simp [State.mustWait, State.send] at hfree
  | start | push | advance => simp at hempty
  | last hq => exact Or.inr (by simp [State.notifies, hq])
  | strand => exact Or.inr rfl

end AmClient.Udp
