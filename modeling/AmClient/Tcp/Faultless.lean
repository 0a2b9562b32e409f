import AmClient.Tcp.Stream

/-!
# AsyncTCPClient without faults

As long as every operation succeeds and every write is taken whole, the client makes one
connection, writes each message to it once, and the peer gets the frames of the messages in
the order of the `Send` calls.
-/

namespace AmClient.Tcp
open Foundation
set_option autoImplicit false

/-- An operation fails, or the socket takes only a part of a buffer. -/
def Event.falters : Event → Bool
  | .handleConnect _ _ error _ => error ≠ .success
  | .handleWrite _ buffer error k _ => error ≠ .success ∨ k ≠ buffer.bytes.length
  | _ => false

/-- A buffer and what the socket took of it. -/
def whole (m : Msg) : Msg × Nat := (m, m.bytes.length)

/-- Before the first connection, or on the only one. -/
inductive Link (s : State) : Prop where
  | none : s.connected = false → s.conns = [] → s.written = [] → s.prev.msg.bytes = [] → Link s
  | one (c : Conn) : s.connected = true → s.conns = [c] → c.transfers = s.written.map whole → Link s

structure Faultless (s : State) : Prop where
  kept : s.written ++ s.writeMsgs = s.queued.map framed
  link : Link s

theorem faultless_init : Faultless init := ⟨rfl, .none rfl rfl rfl rfl⟩

theorem Link.same {s t : State} (h : Link s) (hconnected : t.connected = s.connected)
    (hconns : t.conns = s.conns) (hwritten : t.written = s.written) (hprev : t.prev = s.prev) :
    Link t := by
  cases h with
  | none hcd hcs hw hp =>
    exact .none (hconnected.trans hcd) (hconns.trans hcs) (hwritten.trans hw) (hprev ▸ hp)
  | one c hcd hcs ht => exact .one c (hconnected.trans hcd) (hconns.trans hcs) (hwritten ▸ ht)

theorem Link.current {s : State} (h : Link s) {earlier : List Conn} {current : Conn}
    (hcs : s.conns = earlier ++ [current]) :
    earlier = [] ∧ s.connected = true ∧ current.transfers = s.written.map whole := by
  cases h with
  | none _ hnone => simp [hnone] at hcs
  | one c hcd hone ht =>
    have hcs : [] ++ [c] = earlier ++ [current] := hone.symm.trans hcs
    obtain ⟨rfl, hlast⟩ := List.append_inj' hcs rfl
    obtain rfl := List.singleton_inj.mp hlast
    exact ⟨rfl, hcd, ht⟩

theorem Link.before {s : State} (h : Link s) (hcd : s.connected = false) :
    s.conns = [] ∧ s.written = [] ∧ s.prev.msg.bytes = [] := by
  cases h with
  | none _ hcs hw hp => exact ⟨hcs, hw, hp⟩
  | one c hcd' => cases hcd.symm.trans hcd'

theorem Phase.connecting_closed {s : State} (h : Phase s) (hc : s.connecting = true) :
    s.connected = false := by
  cases h with
  | idle hnot => cases hnot.symm.trans hc
  | connecting _ _ _ _ hcd => exact hcd
  | writing _ _ _ _ hnot => cases hnot.symm.trans hc

theorem Link.transferred {s t : State} (h : Link s) {earlier : List Conn} {current : Conn}
    {front : Msg} {k : Nat} (hcs : s.conns = earlier ++ [current]) (hk : k = front.bytes.length)
    {c : Conn} (hconns : t.conns = earlier ++ [c])
    (htransfers : c.transfers = (current.transfer front k).transfers)
    (hcd : t.connected = s.connected) (hwritten : t.written = s.written ++ [front]) : Link t := by
  obtain ⟨rfl, hopen, ht⟩ := h.current hcs
  refine .one c (hcd.trans hopen) hconns ?_
  rw [htransfers, hwritten, List.map_append, ← ht, hk]
  rfl

theorem Move.faultless {s t : State} {e : Event} (h : Move s e t) (hphase : Phase s)
    (hs : Faultless s) (hok : e.falters = false) : Faultless t := by
  obtain ⟨hkept, hlink⟩ := hs
  cases h with
  | send msg => exact ⟨hkept, hlink.same rfl rfl rfl rfl⟩
  | opened _ _ _ _ _ hq => exact ⟨hkept, hlink.same rfl rfl rfl rfl⟩
  | @sendNow msg posted earlier current _ _ _ _ _ hq hcs =>
    rw [hq, List.append_nil] at hkept
    obtain ⟨rfl, hcd, ht⟩ := hlink.current hcs
    refine ⟨?_, .one _ hcd rfl ht⟩
    rw [hkept, List.map_append]
    rfl
  | reconnect _ _ _ _ _ hq =>
    rw [hq, List.append_nil] at hkept
    refine ⟨?_, hlink.same rfl rfl rfl rfl⟩
    rw [hkept, List.map_append]
    rfl
  | push =>
    refine ⟨?_, hlink.same rfl rfl rfl rfl⟩
    rw [← List.append_assoc, hkept, List.map_append]
    rfl
  | tryNext now herr => simp [Event.falters, herr] at hok
  | giveUp now herr => simp [Event.falters, herr] at hok
  | rest now hconnecting _ _ hq =>
    obtain ⟨hcs, hw, _⟩ := hlink.before (hphase.connecting_closed hconnecting)
    refine ⟨hkept, .one {} rfl ?_ ?_⟩
    · simp only [hcs, List.nil_append]
    · simp only [hw, List.map_nil]
  | @resume endpoint next front later now hconnecting _ _ hq =>
    obtain ⟨hcs, hw, hprev⟩ := hlink.before (hphase.connecting_closed hconnecting)
    have hnot : ¬ s.Retransmits now := fun hre => hre.1 hprev
    rw [State.requeued, if_neg hnot] at hq
    rw [hq] at hkept
    refine ⟨hkept, .one (Conn.start {} front) rfl ?_ ?_⟩
    · simp only [hcs, List.nil_append]
    · simp only [hw, List.map_nil]
      rfl
  | drained now _ _ _ _ hq hcs =>
    have hk := of_decide_eq_false hok
    simp only [ne_eq, not_true_eq_false, false_or, not_not] at hk
    rw [hq] at hkept
    refine ⟨?_, hlink.transferred hcs hk rfl rfl rfl rfl⟩
    rw [List.append_nil]
    exact hkept
  | advance now _ _ _ _ _ hq hcs =>
    have hk := of_decide_eq_false hok
    simp only [ne_eq, not_true_eq_false, false_or, not_not] at hk
    rw [hq] at hkept
    refine ⟨?_, hlink.transferred hcs hk rfl rfl rfl rfl⟩
    rw [List.append_assoc]
    exact hkept
  | brokenPipe => simp [Event.falters] at hok
  | abandon => simp [Event.falters] at hok

theorem faultless_run {trace : List (State × Event)} {s : State} (h : Run step init trace s)
    (hok : ∀ p ∈ trace, p.2.falters = false) : Phase s ∧ Faultless s := by
  refine h.invariant_of (I := fun s => Phase s ∧ Faultless s) (C := fun _ e => e.falters = false)
    ⟨phase_init, faultless_init⟩ ?_ hok
  intro s e t hI hC hstep
  have hmove := step_move hI.1 hstep
  exact ⟨hmove.phase hI.1, hmove.faultless hI.1 hI.2 hC⟩

/-- What the peers get, over all connections. -/
def State.delivered (s : State) : Bytes := s.conns.flatMap Conn.accepted

theorem Link.delivered {s : State} (h : Link s) :
    s.conns.length ≤ 1 ∧ s.delivered = s.written.flatMap Msg.bytes := by
  cases h with
  | none _ hcs hw =>
    rw [State.delivered, hcs, hw]
    exact ⟨Nat.zero_le 1, rfl⟩
  | one c _ hcs ht =>
    rw [State.delivered, hcs, List.flatMap_singleton, Conn.accepted, ht, List.flatMap_map]
    refine ⟨Nat.le_refl 1, ?_⟩
    apply List.flatMap_congr
    intro m _
    rw [whole, List.take_length]

theorem bytes_framed (ms : List Msg) :
    (ms.map framed).flatMap Msg.bytes = frames (ms.map Msg.bytes) := by
  induction ms with
  | nil => rfl
  | cons m ms ih =>
    rw [List.map_cons, List.flatMap_cons, ih, List.map_cons, frames_cons, framed,
      prefixedMsg_eq_frame]

theorem numbered_bytes (sent : List Bytes) : (numbered sent).map Msg.bytes = sent := by
  apply List.ext_getElem
  · simp [numbered]
  · intro i hi hj
    simp [numbered]

/-- In a run without faults there is at most one connection; what it accepted is a beginning
of the frames of all messages, and all of them when nothing is posted or queued. -/
theorem faultless_stream {trace : List (State × Event)} {s : State} (h : Run step init trace s)
    (hok : ∀ p ∈ trace, p.2.falters = false) :
    s.conns.length ≤ 1 ∧ s.delivered <+: frames s.sent ∧
      (s.posted = [] → s.writeMsgs = [] → s.delivered = frames s.sent) := by
  obtain ⟨_, hkept, hlink⟩ := faultless_run h hok
  obtain ⟨hone, hdelivered⟩ := hlink.delivered
  obtain ⟨_, _, _, hd⟩ := delivery_run h
  have hsent : frames s.sent = s.delivered ++ (s.writeMsgs.flatMap Msg.bytes ++
      frames (s.posted.map Msg.bytes)) := by
    have hnumbered := hd.numbered
    unfold Numbered at hnumbered
    rw [← numbered_bytes s.sent, ← hnumbered, List.map_append, frames_append, ← bytes_framed,
      ← hkept, List.flatMap_append, hdelivered, List.append_assoc]
  refine ⟨hone, ?_, ?_⟩
  · rw [hsent]
    exact List.prefix_append _ _
  · intro hposted hqueue
    rw [hsent, hposted, hqueue]
    simp

end AmClient.Tcp
