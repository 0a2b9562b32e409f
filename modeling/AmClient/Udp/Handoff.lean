import Mathlib.Data.List.Nodup
import AmClient.Udp.Progress

/-!
# The order in which datagrams are handed to the socket

The messages of all `Send` calls are, in this order, those whose send has succeeded, those
in `write_msgs_` and those in posted `DoSend` handlers. Of the queue only the front has
been handed to `async_send_to`, also after an error.
-/

namespace AmClient.Udp
open Foundation
set_option autoImplicit false

/-- The messages of the `Send` calls, in the order of the calls. -/
def sendOrder (sent : List Bytes) : List Msg := sent.mapIdx fun i msg => ⟨i, msg⟩

theorem sendOrder_concat (sent : List Bytes) (msg : Bytes) :
    sendOrder (sent ++ [msg]) = sendOrder sent ++ [⟨sent.length, msg⟩] := by
  simp [sendOrder]

theorem sendOrder_nodup (sent : List Bytes) : (sendOrder sent).Nodup := by
  apply List.Nodup.of_map Msg.origin
  have horigins : (sendOrder sent).map Msg.origin = List.range sent.length := by
    apply List.ext_getElem
    · simp [sendOrder]
    · intro i hi hj
      simp [sendOrder]
  rw [horigins]
  exact List.nodup_range

/-- `done` are the messages whose send has succeeded. -/
structure InOrder (s : State) (done : List Msg) : Prop where
  accepted : done ++ s.writeMsgs ++ s.posted = sendOrder s.sent
  started : s.started = done ++ s.writeMsgs.take 1

theorem inOrder_init : InOrder init [] := ⟨rfl, rfl⟩

theorem InOrder.handed {s : State} {done : List Msg} (h : InOrder s done) :
    s.started <+: sendOrder s.sent := by
  rw [← h.accepted, h.started, List.append_assoc]
  apply (List.prefix_append_right_inj _).mpr
  exact (List.take_prefix 1 s.writeMsgs).trans (List.prefix_append _ _)

theorem Move.inOrder {s t : State} {e : Event} {done : List Msg} (h : Move s e t)
    (hs : InOrder s done) : ∃ done', InOrder t done' := by
  have haccepted := hs.accepted
  have hstarted := hs.started
  cases h with
  | send msg =>
    refine ⟨done, ?_, hstarted⟩
    simp only [State.send]
    rw [sendOrder_concat, ← haccepted, List.append_assoc, List.append_assoc, List.append_assoc]
  | start hposted hw hp =>
    rw [hw, hposted] at haccepted
    rw [hw] at hstarted
    refine ⟨done, ?_, ?_⟩
    · rw [← haccepted]
      simp
    · rw [hstarted]
      simp
  | push hposted hw =>
    rw [hw, hposted] at haccepted
    rw [hw] at hstarted
    refine ⟨done, ?_, ?_⟩
    · rw [← haccepted]
      simp
    · rw [hstarted]
      simp
  | @last front hw hp =>
    rw [hw] at haccepted hstarted
    refine ⟨done ++ [front], ?_, ?_⟩
    · rw [← haccepted]
      simp
    · rw [hstarted]
      simp
  | @advance front next rest hw hp =>
    rw [hw] at haccepted hstarted
    refine ⟨done ++ [front], ?_, ?_⟩
    · rw [← haccepted]
      simp
    · rw [hstarted]
      simp
  | strand hw hp => exact ⟨done, haccepted, hstarted⟩

theorem Move.fault {s t : State} {e : Event} (h : Move s e t) : t.fault = s.fault := by
  cases h with
  | send => rfl
  | _ => rfl

/-- At most one send is outstanding, of the front of the queue, and the sends started so
far took the messages in the order of the `Send` calls, each once. -/
structure HandedOff (s : State) : Prop where
  single : s.pending.length ≤ 1
  front : ∀ buffer ∈ s.pending, s.writeMsgs.head? = some buffer
  no_fault : s.fault = false
  in_order : s.started <+: sendOrder s.sent
  once : s.started.Nodup

theorem Phase.one_front {s : State} (h : Phase s) :
    s.pending.length ≤ 1 ∧ ∀ buffer ∈ s.pending, s.writeMsgs.head? = some buffer := by
  cases h with
  | idle hw hp hf => simp [hp]
  | sending front rest hw hp => simp [hp, hw]
  | stranded front rest hw hp => simp [hp]

/-- Whatever the order of the handlers and the results of the sends. -/
theorem handed_off_in_order {trace : List (State × Event)} {s : State}
    (h : Run step init trace s) : HandedOff s := by
  have hinv : Phase s ∧ s.fault = false ∧ ∃ done, InOrder s done := by
    refine h.invariant (I := fun s => Phase s ∧ s.fault = false ∧ ∃ done, InOrder s done)
      ⟨phase_init, rfl, [], inOrder_init⟩ ?_
    intro s e t hI hstep
    obtain ⟨hs, hf, done, hdone⟩ := hI
    have hmove := step_move hs hstep
    exact ⟨hmove.phase hs, hmove.fault.trans hf, hmove.inOrder hdone⟩
  obtain ⟨hphase, hfault, done, hdone⟩ := hinv
  obtain ⟨hsingle, hfront⟩ := hphase.one_front
  refine ⟨hsingle, hfront, hfault, hdone.handed, ?_⟩
  exact hdone.handed.sublist.nodup (sendOrder_nodup s.sent)

/-- The second message was sent after the first one, and failed; the third stays queued. -/
theorem handed_off_after_failure :
    ∃ trace s, Run step init trace s ∧ s.started.map Msg.origin = [0, 1] ∧
      s.writeMsgs.map Msg.origin = [1, 2] ∧ HandedOff s := by
  have h := run_of_events step init
    [.send [47], .send [48], .send [49], .doSend, .doSend, .handlerWrite ⟨0, [47]⟩ false,
     .handlerWrite ⟨1, [48]⟩ true, .doSend] rfl
  exact ⟨_, _, h, rfl, rfl, handed_off_in_order h⟩

end AmClient.Udp
