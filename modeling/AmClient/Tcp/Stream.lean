import AmClient.Tcp.Delivery

/-!
# What a connection carries

`HandleWrite` does not look at the number of bytes transferred. The bytes accepted on a
connection are therefore a prefix of the frames of the messages started on it as long as
no write follows one that fell short.
-/

namespace AmClient.Tcp
open Foundation
set_option autoImplicit false

theorem prefixedMsg_eq_frame (msg : Bytes) : State.prefixedMsg msg = frame msg := by
  rw [State.prefixedMsg, leBytes_hton, frame]

def State.payload (s : State) (m : Msg) : Bytes := s.sent.getD m.origin []

/-- A receiver on this connection decodes messages that were sent, in the order of the
`Send` calls, and what it has not decoded yet begins the next frame. -/
structure InSync (s : State) (c : Conn) : Prop where
  started_sent : ∀ m ∈ c.started, s.sent[m.origin]? = some (s.payload m) ∧
    (s.payload m).length < 256 ^ 4 ∧ m.bytes = frame (s.payload m)
  in_order : (c.started.map Msg.origin).Pairwise (· ≤ ·)
  accepted_framed : c.accepted <+: frames (c.started.map s.payload)
  received : ∃ rest, c.started.map s.payload = (deframe c.accepted).1 ++ rest ∧
    (deframe c.accepted).2 <+: frames rest

/-- The condition on the steps: `Send` gets less than 2^32 bytes, and a write succeeds
only on a connection that accepted all earlier ones whole. -/
def KeepsUp (s : State) : Event → Prop
  | .send msg => msg.length < 256 ^ 4
  | .handleWrite conn _ .success _ _ =>
    ∀ c ∈ s.conns[conn]?, ∀ p ∈ c.transfers, p.2 = p.1.bytes.length
  | _ => True

instance (s : State) : (e : Event) → Decidable (KeepsUp s e)
  | .send msg => inferInstanceAs (Decidable (msg.length < 256 ^ 4))
  | .handleWrite conn _ .success _ _ =>
    inferInstanceAs (Decidable (∀ c ∈ s.conns[conn]?, ∀ p ∈ c.transfers, p.2 = p.1.bytes.length))
  | .handleWrite _ _ .brokenPipe _ _ => .isTrue trivial
  | .handleWrite _ _ .failure _ _ => .isTrue trivial
  | .connect _ => .isTrue trivial
  | .doSend => .isTrue trivial
  | .handleConnect _ _ _ _ => .isTrue trivial

/-- A connection carries queued messages in their order, and only its last transfer may
have fallen short. -/
structure Sound (queued : List Msg) (c : Conn) : Prop where
  from_queue : ∀ m ∈ c.started, ∃ q ∈ queued, m = framed q
  in_order : (c.started.map Msg.origin).Pairwise (· ≤ ·)
  begun : c.transfers.map Prod.fst <+: c.started
  whole : ∀ p ∈ c.transfers.dropLast, p.2 = p.1.bytes.length

/-- On the open connection everything but the front of `write_msgs_` has completed, and
the rest of the queue comes later in the order. -/
structure Current (s : State) (c : Conn) : Prop where
  started : c.started = c.transfers.map Prod.fst ++ s.writeMsgs.take 1
  later : ((c.started ++ s.writeMsgs.tail).map Msg.origin).Pairwise (· ≤ ·)

structure Streams (s : State) : Prop where
  sizes : ∀ m ∈ s.sent, m.length < 256 ^ 4
  conns : ∀ c ∈ s.conns, Sound s.queued c
  current : s.connected = true → ∀ earlier c, s.conns = earlier ++ [c] → Current s c

theorem Sound.mono {queued : List Msg} {c : Conn} (h : Sound queued c) (msg : Msg) :
    Sound (queued ++ [msg]) c := by
  refine ⟨?_, h.in_order, h.begun, h.whole⟩
  intro m hm
  obtain ⟨q, hq, heq⟩ := h.from_queue m hm
  exact ⟨q, List.mem_append_left _ hq, heq⟩

theorem Sound.empty (queued : List Msg) : Sound queued {} :=
  ⟨(fun _ hm => nomatch hm), .nil, List.prefix_refl _, (fun _ hp => nomatch hp)⟩

theorem Sound.start {queued : List Msg} {c : Conn} (h : Sound queued c) {m : Msg}
    (hm : ∃ q ∈ queued, m = framed q)
    (horder : ((c.started ++ [m]).map Msg.origin).Pairwise (· ≤ ·)) :
    Sound queued (c.start m) := by
  refine ⟨?_, horder, h.begun.trans (List.prefix_append _ _), h.whole⟩
  intro x hx
  rcases List.mem_append.mp hx with hx | hx
  · exact h.from_queue x hx
  · rw [List.mem_singleton.mp hx]
    exact hm

theorem Sound.transfer {queued : List Msg} {c : Conn} (h : Sound queued c) {front : Msg}
    {k : Nat} (hstarted : c.started = c.transfers.map Prod.fst ++ [front])
    (hwhole : ∀ p ∈ c.transfers, p.2 = p.1.bytes.length) :
    Sound queued (c.transfer front k) := by
  refine ⟨h.from_queue, h.in_order, ?_, ?_⟩
  · simp only [Conn.transfer, List.map_append, List.map_cons, List.map_nil, ← hstarted]
    exact List.prefix_refl _
  · intro p hp
    apply hwhole p
    simpa [Conn.transfer] using hp

theorem append_in_order {ms : List Msg} {msg : Msg}
    (h : (ms.map Msg.origin).Pairwise (· ≤ ·)) (hlt : ∀ m ∈ ms, m.origin < msg.origin) :
    ((ms ++ [framed msg]).map Msg.origin).Pairwise (· ≤ ·) := by
  rw [List.map_append, List.pairwise_append]
  refine ⟨h, List.pairwise_singleton _ _, ?_⟩
  intro i hi j hj
  obtain ⟨m, hm, rfl⟩ := List.mem_map.mp hi
  have hj' : j = msg.origin := by simpa [framed] using hj
  rw [hj']
  exact Nat.le_of_lt (hlt m hm)

theorem Delivery.queue_in_order {s : State} {n : Nat} {old fresh : List Msg}
    (h : Delivery s n old fresh) : (s.writeMsgs.map Msg.origin).Pairwise (· ≤ ·) := by
  have hlt : (s.queued.map framed).Pairwise fun x y => x.origin < y.origin := by
    have horigins := h.numbered.origins_lt
    rwa [← framed_origins, List.pairwise_map] at horigins
  have hqueue := h.split.queue_pairwise hlt
  rw [List.pairwise_map]
  apply hqueue.imp
  intro x y hxy
  rcases hxy with rfl | hlt
  · exact Nat.le_refl _
  · exact Nat.le_of_lt hlt

theorem Delivery.from_queue {s : State} {n : Nat} {old fresh : List Msg}
    (h : Delivery s n old fresh) {m : Msg} (hm : m ∈ s.writeMsgs) :
    ∃ q ∈ s.queued, m = framed q := by
  have hacc : m ∈ s.queued.map framed := h.split.queue_accepted hm
  obtain ⟨q, hq, heq⟩ := List.mem_map.mp hacc
  exact ⟨q, hq, heq.symm⟩

theorem Streams.current_done {s : State} (hs : Streams s) (hcd : s.connected = true)
    (hq : s.writeMsgs = []) {earlier : List Conn} {c : Conn} (hcs : s.conns = earlier ++ [c]) :
    c.started = c.transfers.map Prod.fst := by
  have hstarted := (hs.current hcd earlier c hcs).started
  rwa [hq, List.take_nil, List.append_nil] at hstarted

theorem Streams.last_sound {s : State} (hs : Streams s) {earlier : List Conn} {c : Conn}
    (hcs : s.conns = earlier ++ [c]) : Sound s.queued c := by
  apply hs.conns
  rw [hcs]
  exact List.mem_append_right _ List.mem_cons_self

theorem Streams.earlier_sound {s : State} (hs : Streams s) {earlier : List Conn} {c : Conn}
    (hcs : s.conns = earlier ++ [c]) : ∀ x ∈ earlier, Sound s.queued x := by
  intro x hx
  apply hs.conns
  rw [hcs]
  exact List.mem_append_left _ hx

theorem streams_open {t : State} {earlier : List Conn} {c : Conn}
    (hsizes : ∀ m ∈ t.sent, m.length < 256 ^ 4) (hcs : t.conns = earlier ++ [c])
    (hearlier : ∀ x ∈ earlier, Sound t.queued x) (hsound : Sound t.queued c)
    (hcurrent : Current t c) : Streams t := by
  refine ⟨hsizes, ?_, ?_⟩
  · intro x hx
    rw [hcs] at hx
    rcases List.mem_append.mp hx with hx | hx
    · exact hearlier x hx
    · rw [List.mem_singleton.mp hx]
      exact hsound
  · intro _ earlier' c' hcs'
    have hsame : [c] = [c'] := (List.append_inj' (hcs.symm.trans hcs') rfl).2
    rwa [← List.singleton_inj.mp hsame]

theorem streams_closed {t : State} (hsizes : ∀ m ∈ t.sent, m.length < 256 ^ 4)
    (hconns : ∀ c ∈ t.conns, Sound t.queued c) (hcd : t.connected = false) : Streams t :=
  ⟨hsizes, hconns, fun hopen => absurd hopen (by simp [hcd])⟩

theorem Sound.started_before {s : State} {c : Conn} (hc : Sound s.queued c) (hn : Numbered s)
    {msg : Msg} {posted : List Msg} (hposted : s.posted = msg :: posted) :
    ∀ x ∈ c.started, x.origin < msg.origin := by
  intro x hx
  obtain ⟨q, hq, rfl⟩ := hc.from_queue x hx
  rw [framed_origin]
  exact hn.after hposted hq

theorem Move.streams {s t : State} {e : Event} (h : Move s e t) (hs : Streams s)
    {n m : Nat} {old fresh old' fresh' : List Msg} (hd : Delivery s n old fresh)
    (hd' : Delivery t m old' fresh') (hC : KeepsUp s e) : Streams t := by
  cases h with
  | send msg =>
    refine ⟨?_, hs.conns, ?_⟩
    · intro x hx
      rcases List.mem_append.mp hx with hx | hx
      · exact hs.sizes x hx
      · rw [List.mem_singleton.mp hx]
        exact hC
    · intro hcd earlier c hcs
      have hcur := hs.current hcd earlier c hcs
      exact ⟨hcur.started, hcur.later⟩
  | opened _ _ hcd => exact streams_closed hs.sizes hs.conns hcd
  | @sendNow msg posted earlier current hposted hcd _ _ _ hq hcs =>
    have hsound := hs.last_sound hcs
    have horder := append_in_order hsound.in_order (hsound.started_before hd.numbered hposted)
    have hnew : ∃ q ∈ s.queued ++ [msg], framed msg = framed q :=
      ⟨msg, List.mem_append_right _ List.mem_cons_self, rfl⟩
    refine streams_open hs.sizes rfl ?_ ((hsound.mono msg).start hnew horder) ⟨?_, ?_⟩
    · exact fun x hx => (hs.earlier_sound hcs x hx).mono msg
    · simp [Conn.start, hs.current_done hcd hq hcs]
    · simpa [Conn.start] using horder
  | @reconnect msg _ _ _ _ hcd =>
    refine streams_closed hs.sizes ?_ hcd
    exact fun x hx => (hs.conns x hx).mono msg
  | @push msg posted hposted hbusy =>
    refine ⟨hs.sizes, fun x hx => (hs.conns x hx).mono msg, ?_⟩
    intro hcd earlier c hcs
    have hcur := hs.current hcd earlier c hcs
    cases hd.phase with
    | idle hc hw => simp [hc, hw] at hbusy
    | connecting _ _ _ _ hn => simp [hn] at hcd
    | writing front rest _ _ _ _ _ hq =>
      have hlater := hcur.later
      rw [hq, List.tail_cons] at hlater
      refine ⟨by simp [hcur.started, hq], ?_⟩
      simp only [hq, List.cons_append, List.tail_cons, ← List.append_assoc]
      apply append_in_order hlater
      intro x hx
      rcases List.mem_append.mp hx with hx | hx
      · exact (hs.last_sound hcs).started_before hd.numbered hposted x hx
      · obtain ⟨q, hqueued, rfl⟩ := hd.from_queue (hq ▸ List.mem_cons_of_mem front hx)
        rw [framed_origin]
        exact hd.numbered.after hposted hqueued
  | tryNext now _ hc =>
    refine ⟨hs.sizes, hs.conns, ?_⟩
    intro hcd earlier c hcs
    have hcur := hs.current hcd earlier c hcs
    exact ⟨hcur.started, hcur.later⟩
  | giveUp => exact streams_closed hs.sizes hs.conns rfl
  | rest now _ _ _ hq =>
    have hempty : s.writeMsgs = [] := requeued_eq_nil hq
    refine streams_open hs.sizes rfl hs.conns (Sound.empty _) ?_
    exact ⟨by simp [hempty], by simp [hempty]⟩
  | @resume _ _ front later now _ _ _ hq =>
    have hqueue : ((front :: later).map Msg.origin).Pairwise (· ≤ ·) := hd'.queue_in_order
    have hfront : ∃ q ∈ s.queued, front = framed q := hd'.from_queue List.mem_cons_self
    refine streams_open hs.sizes rfl hs.conns ?_ ?_
    · exact (Sound.empty _).start hfront (List.pairwise_singleton _ _)
    · exact ⟨rfl, hqueue⟩
  | @drained front earlier current k now _ _ _ hcd hq hcs =>
    have hsound := hs.last_sound hcs
    have hstarted : current.started = current.transfers.map Prod.fst ++ [front] := by
      simpa [hq] using (hs.current hcd earlier current hcs).started
    have hwhole := hC current (by simp [hcs])
    have hsound' := hsound.transfer (k := k) hstarted hwhole
    refine streams_open hs.sizes rfl (hs.earlier_sound hcs) hsound'
      ⟨by simp [Conn.transfer, hstarted], ?_⟩
    simpa [Conn.transfer] using hsound.in_order
  | @advance front following rest earlier current k now _ _ _ hcd _ hq hcs =>
    have hsound := hs.last_sound hcs
    have hcur := hs.current hcd earlier current hcs
    have hstarted : current.started = current.transfers.map Prod.fst ++ [front] := by
      simpa [hq] using hcur.started
    have hwhole := hC current (by simp [hcs])
    have hlater : ((current.started ++ following :: rest).map Msg.origin).Pairwise (· ≤ ·) := by
      simpa [hq] using hcur.later
    have horder : ((current.started ++ [following]).map Msg.origin).Pairwise (· ≤ ·) := by
      have hsplit : current.started ++ following :: rest =
          (current.started ++ [following]) ++ rest := by simp
      rw [hsplit, List.map_append, List.pairwise_append] at hlater
      exact hlater.1
    have hfollowing : ∃ q ∈ s.queued, following = framed q := by
      apply hd.from_queue
      rw [hq]
      exact List.mem_cons_of_mem _ List.mem_cons_self
    refine streams_open hs.sizes rfl (hs.earlier_sound hcs) ?_ ?_
    · exact (hsound.transfer hstarted hwhole).start hfollowing horder
    · refine ⟨by simp [Conn.start, Conn.transfer, hstarted], ?_⟩
      simpa [Conn.start, Conn.transfer] using hlater
  | brokenPipe => exact streams_closed hs.sizes hs.conns rfl
  | abandon => exact streams_closed hs.sizes hs.conns rfl

theorem Numbered.sent_queued {s : State} (hs : Numbered s) {q : Msg} (hq : q ∈ s.queued) :
    s.sent[q.origin]? = some q.bytes := by
  have hmem : q ∈ numbered s.sent := hs ▸ List.mem_append_left _ hq
  obtain ⟨i, hi, rfl⟩ := List.mem_mapIdx.mp hmem
  exact List.getElem?_eq_getElem hi

theorem Sound.in_sync {s : State} {c : Conn} (h : Sound s.queued c) (hn : Numbered s)
    (hsizes : ∀ m ∈ s.sent, m.length < 256 ^ 4) : InSync s c := by
  have hsent : ∀ m ∈ c.started, s.sent[m.origin]? = some (s.payload m) ∧
      (s.payload m).length < 256 ^ 4 ∧ m.bytes = frame (s.payload m) := by
    intro m hm
    obtain ⟨q, hq, rfl⟩ := h.from_queue m hm
    have hfound : s.sent[(framed q).origin]? = some q.bytes := hn.sent_queued hq
    have hpayload : s.payload (framed q) = q.bytes := by
      rw [State.payload, List.getD_eq_getElem?_getD, hfound, Option.getD_some]
    rw [hpayload]
    exact ⟨hfound, hsizes _ (List.mem_of_getElem? hfound), prefixedMsg_eq_frame _⟩
  have hbytes : c.started.flatMap Msg.bytes = frames (c.started.map s.payload) := by
    rw [frames, List.flatMap_map]
    apply List.flatMap_congr
    intro m hm
    exact (hsent m hm).2.2
  have hframed : c.accepted <+: frames (c.started.map s.payload) := by
    rw [← hbytes]
    obtain ⟨more, hmore⟩ := h.begun
    have hwritten := short_write_prefix Msg.bytes c.transfers h.whole
    rw [← hmore, List.flatMap_append]
    exact hwritten.trans (List.prefix_append _ _)
  refine ⟨hsent, h.in_order, hframed, deframe_prefix ?_ hframed⟩
  intro x hx
  obtain ⟨m, hm, rfl⟩ := List.mem_map.mp hx
  exact (hsent m hm).2.1

theorem streams_init : Streams init :=
  ⟨(fun _ hm => nomatch hm), (fun _ hc => nomatch hc), fun hn => nomatch hn⟩

/-- Every connection of every state of a run carries whole frames in order, when no write
succeeds behind one that fell short. -/
theorem connections_in_sync {trace : List (State × Event)} {s : State}
    (h : Run step init trace s) (hC : ∀ p ∈ trace, KeepsUp p.1 p.2) :
    ∀ t ∈ visited trace s, ∀ c ∈ t.conns, InSync t c := by
  have hinv := h.visited_invariant_of
    (I := fun s => Streams s ∧ ∃ n old fresh, Delivery s n old fresh)
    (C := KeepsUp) ⟨streams_init, _, _, _, delivery_init⟩ ?_ hC
  · intro t ht c hc
    obtain ⟨hstreams, n, old, fresh, hd⟩ := hinv t ht
    exact (hstreams.conns c hc).in_sync hd.numbered hstreams.sizes
  · intro s e t hI hC hstep
    obtain ⟨hs, n, old, fresh, hd⟩ := hI
    obtain ⟨m, old', fresh', hd', _⟩ := hd.step hstep
    exact ⟨(step_move hd.phase hstep).streams hs hd hd' hC, m, old', fresh', hd'⟩

/-- One message of two bytes, of which the socket takes the frame but for its last byte. -/
theorem connections_in_sync_after_short_write :
    ∃ trace s, Run step init trace s ∧
      s.conns.map Conn.accepted = [[0, 0, 0, 2, 47]] ∧
      ∀ t ∈ visited trace s, ∀ c ∈ t.conns, InSync t c := by
  have h := run_of_events step init
    [.send [47, 48], .connect ⟨[⟨1, 15002⟩], by decide⟩, .doSend,
     .handleConnect ⟨1, 15002⟩ [] .success 0,
     .handleWrite 0 ⟨0, [0, 0, 0, 2, 47, 48]⟩ .success 5 0] rfl
  exact ⟨_, _, h, rfl, connections_in_sync h (by decide)⟩

/-- The first frame loses its last byte and the second follows: the receiver takes the
first byte of the second length for the end of the first message. -/
theorem short_write_corrupts :
    ∃ trace s,
      trace.map Prod.snd =
        [.handleWrite 0 ⟨1, [0, 0, 0, 1, 49]⟩ .success 5 0,
         .handleWrite 0 ⟨0, [0, 0, 0, 2, 47, 48]⟩ .success 5 0,
         .handleConnect ⟨1, 15002⟩ [] .success 0, .doSend, .doSend,
         .connect ⟨[⟨1, 15002⟩], by decide⟩, .send [49], .send [47, 48]] ∧
      Run step init trace s ∧
      s.conns.map Conn.accepted = [[0, 0, 0, 2, 47, 0, 0, 0, 1, 49]] ∧
      ¬ ∀ c ∈ s.conns, InSync s c := by
  have hrun := run_of_events step init
    [.send [47, 48], .send [49], .connect ⟨[⟨1, 15002⟩], by decide⟩, .doSend, .doSend,
     .handleConnect ⟨1, 15002⟩ [] .success 0,
     .handleWrite 0 ⟨0, [0, 0, 0, 2, 47, 48]⟩ .success 5 0,
     .handleWrite 0 ⟨1, [0, 0, 0, 1, 49]⟩ .success 5 0] rfl
  refine ⟨_, _, rfl, hrun, rfl, ?_⟩
  intro h
  have hframed := (h _ List.mem_cons_self).accepted_framed
  revert hframed
  decide

end AmClient.Tcp
