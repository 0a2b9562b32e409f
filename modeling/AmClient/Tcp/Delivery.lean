import AmClient.Foundation.Replay
import AmClient.Tcp.Phases

/-!
# Conservation, order and repetition of messages

Seen from its queue the client is a replaying queue: `DoSend` accepts a message, a
successful write completes the front, a reconnect may replay `prev_.msg_`, and the two
failure branches empty the queue. What holds of every replaying queue then holds of
every run of the client.
-/

namespace AmClient.Tcp
open Foundation
set_option autoImplicit false

def numbered (sent : List Bytes) : List Msg := sent.mapIdx fun i m => ⟨i, m⟩

/-- `DoSend` handlers run in the order of the `Send` calls. -/
def Numbered (s : State) : Prop := s.queued ++ s.posted = numbered s.sent

theorem numbered_concat (sent : List Bytes) (msg : Bytes) :
    numbered (sent ++ [msg]) = numbered sent ++ [⟨sent.length, msg⟩] := by
  simp [numbered]

theorem numbered_origins (sent : List Bytes) :
    (numbered sent).map Msg.origin = List.range sent.length := by
  apply List.ext_getElem
  · simp [numbered]
  · intro i hi hj
    simp [numbered]

theorem Move.numbered {s t : State} {e : Event} (h : Move s e t) (hs : Numbered s) :
    Numbered t := by
  have posts {msg : Msg} {posted : List Msg} (hposted : s.posted = msg :: posted) :
      (s.queued ++ [msg]) ++ posted = Tcp.numbered s.sent := by
    rw [List.append_assoc, List.singleton_append, ← hposted]
    exact hs
  cases h with
  | send msg =>
    unfold Numbered at hs ⊢
    simp only [State.send]
    rw [numbered_concat, ← hs, List.append_assoc]
  | sendNow hposted => exact posts hposted
  | reconnect hposted => exact posts hposted
  | push hposted => exact posts hposted
  | _ => exact hs

theorem Numbered.all_lt {s : State} (hs : Numbered s) :
    ((s.queued ++ s.posted).map Msg.origin).Pairwise (· < ·) := by
  rw [hs, numbered_origins]
  exact List.pairwise_lt_range

theorem Numbered.origins_lt {s : State} (hs : Numbered s) :
    (s.queued.map Msg.origin).Pairwise (· < ·) := by
  have hall := hs.all_lt
  rw [List.map_append, List.pairwise_append] at hall
  exact hall.1

theorem framed_origins (ms : List Msg) : (ms.map framed).map Msg.origin = ms.map Msg.origin := by
  rw [List.map_map]
  rfl

theorem Numbered.after {s : State} (hs : Numbered s) {msg : Msg} {posted : List Msg}
    (hposted : s.posted = msg :: posted) {q : Msg} (hq : q ∈ s.queued) :
    q.origin < msg.origin := by
  have hall := hs.all_lt
  rw [hposted, List.map_append, List.pairwise_append] at hall
  apply hall.2.2
  · exact List.mem_map_of_mem hq
  · exact List.mem_map_of_mem List.mem_cons_self

theorem Numbered.framed_new {s : State} (hs : Numbered s) {msg : Msg} {posted : List Msg}
    (hposted : s.posted = msg :: posted) : framed msg ∉ s.queued.map framed := by
  intro hmem
  obtain ⟨old, hold, heq⟩ := List.mem_map.mp hmem
  have horigin : (framed old).origin = (framed msg).origin := by rw [heq]
  rw [framed_origin, framed_origin] at horigin
  have hlt := hs.after hposted hold
  omega

def view (s : State) : Replay Msg where
  last := if s.prev.msg.bytes = [] then none else some s.prev.msg
  queue := s.writeMsgs
  accepted := s.queued.map framed
  completed := s.written

def replayOp (s : State) : Event → Option (ReplayOp Msg)
  | .doSend => s.posted.head?.map fun msg => .accept (framed msg)
  | .handleConnect _ next error now =>
    if error = .success then if s.Retransmits now then some .replay else none
    else if next = [] then some .discard
    else none
  | .handleWrite _ _ .success _ _ => some .complete
  | .handleWrite _ _ .brokenPipe _ _ => none
  | .handleWrite _ _ .failure _ _ => some .reset
  | _ => none

theorem Move.view_accept {s t : State} (hs : Numbered s) {msg : Msg} {posted : List Msg}
    (hposted : s.posted = msg :: posted) (hqueue : t.writeMsgs = s.writeMsgs ++ [framed msg])
    (hqueued : t.queued = s.queued ++ [msg]) (hprev : t.prev = s.prev)
    (hwritten : t.written = s.written) :
    (view s).step (.accept (framed msg)) = some (view t) := by
  have hnew := hs.framed_new hposted
  simp only [Replay.step, view, hnew, ↓reduceIte, hqueue, hqueued, hprev, hwritten,
    List.map_append, List.map_cons, List.map_nil]

theorem Move.view_connect {s t : State} {now : Int} (hqueue : t.writeMsgs = s.requeued now)
    (hqueued : t.queued = s.queued) (hprev : t.prev = s.prev) (hwritten : t.written = s.written) :
    if s.Retransmits now then (view s).step .replay = some (view t) else view t = view s := by
  split
  · rename_i hre
    have hlast : (view s).last = some s.prev.msg := if_neg hre.1
    simp only [Replay.step, hlast, Option.map_some]
    simp only [view, hqueue, State.requeued, if_pos hre, if_neg hre.1, hqueued, hprev, hwritten]
  · rename_i hre
    simp only [view, hqueue, State.requeued, if_neg hre, hqueued, hprev, hwritten]

theorem Move.view_complete {s t : State} {front : Msg} {rest : List Msg} {now : Int}
    (hfront : front.bytes ≠ []) (hq : s.writeMsgs = front :: rest) (hqueue : t.writeMsgs = rest)
    (hqueued : t.queued = s.queued) (hprev : t.prev = ⟨now, front⟩)
    (hwritten : t.written = s.written ++ [front]) :
    (view s).step .complete = some (view t) := by
  simp only [Replay.step, view, hq, hqueue, hqueued, hprev, hwritten, if_neg hfront]

theorem Move.view_step {s t : State} {e : Event} (h : Move s e t) (hs : Numbered s) :
    match replayOp s e with
    | none => view t = view s
    | some op => (view s).step op = some (view t) := by
  have bytes_ne {front : Msg} {k : Nat} (hlow : 1 ≤ k) (hhigh : k ≤ front.bytes.length) :
      front.bytes ≠ [] := by
    apply List.ne_nil_of_length_pos
    omega
  cases h with
  | send msg => rfl
  | opened => rfl
  | sendNow hposted _ _ _ _ hq =>
    simp only [replayOp, hposted, List.head?_cons, Option.map_some]
    exact view_accept hs hposted (by simp [hq]) rfl rfl rfl
  | reconnect hposted _ _ _ _ hq =>
    simp only [replayOp, hposted, List.head?_cons, Option.map_some]
    exact view_accept hs hposted (by simp [hq]) rfl rfl rfl
  | push hposted =>
    simp only [replayOp, hposted, List.head?_cons, Option.map_some]
    exact view_accept hs hposted rfl rfl rfl rfl
  | tryNext now herr => simp [replayOp, herr, view]
  | giveUp now herr => simp [replayOp, herr, view, Replay.step]
  | rest now _ _ _ hq =>
    have hview := view_connect (t := { s with
      connected := true, connecting := false, pending := [], conns := s.conns ++ [{}] })
      ((requeued_eq_nil hq).trans hq.symm) rfl rfl rfl
    simp only [replayOp, ↓reduceIte]
    split at hview
    · rename_i hre
      simpa only [if_pos hre] using hview
    · rename_i hre
      simpa only [if_neg hre] using hview
  | @resume _ _ front later now _ _ _ hq =>
    have hview := view_connect (t := { s with
      connected := true, connecting := false, writeInProgress := true,
      writeMsgs := front :: later, pending := [.write s.conns.length front],
      conns := s.conns ++ [Conn.start {} front] }) hq.symm rfl rfl rfl
    simp only [replayOp, ↓reduceIte]
    split at hview
    · rename_i hre
      simpa only [if_pos hre] using hview
    · rename_i hre
      simpa only [if_neg hre] using hview
  | drained now hlow hhigh _ _ hq => exact view_complete (bytes_ne hlow hhigh) hq rfl rfl rfl rfl
  | advance now hlow hhigh _ _ _ hq =>
    exact view_complete (bytes_ne hlow hhigh) hq rfl rfl rfl rfl
  | brokenPipe => rfl
  | abandon => simp [replayOp, view, Replay.step]

/-- What every run keeps: the phase, the numbering and the shape of the queue. -/
structure Delivery (s : State) (n : Nat) (old fresh : List Msg) : Prop where
  phase : Phase s
  numbered : Numbered s
  split : (view s).Split n old fresh

theorem delivery_init : Delivery init 0 [] [] := ⟨phase_init, rfl, Replay.Split.start⟩

theorem Delivery.step {s t : State} {e : Event} {n : Nat} {old fresh : List Msg}
    (hs : Delivery s n old fresh) (h : Tcp.step s e = some t) :
    ∃ m old' fresh', Delivery t m old' fresh' ∧
      (m ≤ n ∨ replayOp s e = some .replay ∧ m = n + 1) := by
  have hmove := step_move hs.phase h
  have hview := hmove.view_step hs.numbered
  cases hop : replayOp s e with
  | none =>
    simp only [hop] at hview
    exact ⟨n, old, fresh, ⟨hmove.phase hs.phase, hmove.numbered hs.numbered, hview ▸ hs.split⟩,
      .inl (Nat.le_refl n)⟩
  | some op =>
    simp only [hop] at hview
    obtain ⟨m, old', fresh', hsplit, hm⟩ := hs.split.step hview
    refine ⟨m, old', fresh', ⟨hmove.phase hs.phase, hmove.numbered hs.numbered, hsplit⟩, ?_⟩
    exact hm.imp_right fun hrep => ⟨congrArg some hrep.1, hrep.2⟩

theorem delivery_run {trace : List (State × Event)} {s : State} (h : Run step init trace s) :
    ∃ n old fresh, Delivery s n old fresh := by
  refine h.invariant (I := fun s => ∃ n old fresh, Delivery s n old fresh)
    ⟨_, _, _, delivery_init⟩ ?_
  intro s e t hI hstep
  obtain ⟨n, old, fresh, hs⟩ := hI
  obtain ⟨m, old', fresh', ht, _⟩ := hs.step hstep
  exact ⟨m, old', fresh', ht⟩

/-- The events after which `write_msgs_` is cleared: a connect that failed on the last
endpoint, and a write error other than `EPIPE`. -/
def Event.Discards : Event → Prop
  | .handleConnect _ next error _ => error ≠ .success ∧ next = []
  | .handleWrite _ _ error _ _ => error = .failure
  | _ => False

instance : (e : Event) → Decidable e.Discards
  | .handleConnect _ next error _ => inferInstanceAs (Decidable (error ≠ .success ∧ next = []))
  | .handleWrite _ _ error _ _ => inferInstanceAs (Decidable (error = .failure))
  | .send _ => .isFalse id
  | .connect _ => .isFalse id
  | .doSend => .isFalse id

theorem Move.keeps {s t : State} {e : Event} (h : Move s e t) (hd : ¬ e.Discards) {m : Msg}
    (hm : m ∈ s.writeMsgs) : m ∈ t.written ∨ m ∈ t.writeMsgs := by
  cases h with
  | send msg => exact .inr hm
  | opened _ _ _ _ _ hq => exact .inr hm
  | sendNow _ _ _ _ _ hq => simp [hq] at hm
  | reconnect _ _ _ _ _ hq => simp [hq] at hm
  | push => exact .inr (List.mem_append_left _ hm)
  | tryNext => exact .inr hm
  | giveUp now herr => exact (hd ⟨herr, rfl⟩).elim
  | rest => exact .inr hm
  | resume now _ _ _ hq =>
    refine .inr ?_
    simp only [← hq, State.requeued]
    split
    · exact List.mem_cons_of_mem _ hm
    · exact hm
  | drained now _ _ _ _ hq =>
    rw [hq, List.mem_singleton] at hm
    exact .inl (hm ▸ List.mem_append_right _ List.mem_cons_self)
  | advance now _ _ _ _ _ hq =>
    rw [hq] at hm
    rcases List.mem_cons.mp hm with rfl | hm
    · exact .inl (List.mem_append_right _ List.mem_cons_self)
    · exact .inr hm
  | brokenPipe => exact .inr hm
  | abandon => exact (hd rfl).elim

theorem Move.written_mono {s t : State} {e : Event} (h : Move s e t) {m : Msg}
    (hm : m ∈ s.written) : m ∈ t.written := by
  cases h with
  | drained => exact List.mem_append_left _ hm
  | advance => exact List.mem_append_left _ hm
  | _ => exact hm

theorem Move.queued_new {s t : State} {e : Event} (h : Move s e t) {m : Msg}
    (hm : m ∈ t.queued) : m ∈ s.queued ∨ framed m ∈ t.writeMsgs := by
  cases h with
  | sendNow =>
    refine (List.mem_append.mp hm).imp_right fun hm => ?_
    rw [List.mem_singleton.mp hm]
    exact List.mem_singleton_self _
  | reconnect =>
    refine (List.mem_append.mp hm).imp_right fun hm => ?_
    rw [List.mem_singleton.mp hm]
    exact List.mem_singleton_self _
  | push =>
    refine (List.mem_append.mp hm).imp_right fun hm => ?_
    rw [List.mem_singleton.mp hm]
    exact List.mem_append_right _ (List.mem_singleton_self _)
  | _ => exact .inl hm

theorem Move.pipe_keeps {s t : State} {conn k : Nat} {buffer : Msg} {now : Int}
    (h : Move s (.handleWrite conn buffer .brokenPipe k now) t) : t.writeMsgs = s.writeMsgs := by
  cases h with
  | brokenPipe => rfl

def Accounted (trace : List (State × Event)) (s : State) (m : Msg) : Prop :=
  framed m ∈ s.written ∨ framed m ∈ s.writeMsgs ∨
    ∃ p ∈ trace, p.2.Discards ∧ framed m ∈ p.1.writeMsgs

theorem accounted_run {trace : List (State × Event)} {s : State} (h : Run step init trace s) :
    ∀ m ∈ s.queued, Accounted trace s m := by
  induction h with
  | start => exact fun m hm => nomatch hm
  | @next trace s t e hrun hstep ih =>
    intro m hm
    have hmove := step_move (phase_run hrun) hstep
    rcases hmove.queued_new hm with hold | hnew
    · rcases ih m hold with hw | hq | ⟨p, hp, hd, hin⟩
      · exact .inl (hmove.written_mono hw)
      · by_cases hd : e.Discards
        · exact .inr (.inr ⟨_, List.mem_cons_self, hd, hq⟩)
        · rcases hmove.keeps hd hq with hw | hq
          · exact .inl hw
          · exact .inr (.inl hq)
      · exact .inr (.inr ⟨p, List.mem_cons_of_mem _ hp, hd, hin⟩)
    · exact .inr (.inl hnew)

structure Conserved (trace : List (State × Event)) (s : State) : Prop where
  accounted : ∀ m ∈ s.queued, Accounted trace s m
  send_order : s.queued <+: numbered s.sent
  write_order : s.written.eraseDups.Sublist (s.queued.map framed)
  pipe_keeps : ∀ p ∈ trace, ∀ conn buffer k now t,
    p.2 = .handleWrite conn buffer .brokenPipe k now → step p.1 p.2 = some t →
      t.writeMsgs = p.1.writeMsgs

/-- No message is lost other than in the two failure branches, and the first successful
writes follow the order of the `Send` calls. -/
theorem messages_conserved {trace : List (State × Event)} {s : State}
    (h : Run step init trace s) : Conserved trace s := by
  obtain ⟨n, old, fresh, hs⟩ := delivery_run h
  refine ⟨accounted_run h, ⟨s.posted, hs.numbered⟩, ?_, ?_⟩
  · have haccepted : s.queued.map framed = old ++ fresh := hs.split.accepted
    rw [haccepted]
    exact hs.split.order.trans (List.sublist_append_left _ _)
  · intro p hp conn buffer k now t hevent hstep
    obtain ⟨early, _, hearly⟩ := h.of_mem hp
    rw [hevent] at hstep
    exact (step_move (phase_run hearly) hstep).pipe_keeps

theorem messages_conserved_over_reconnect :
    ∃ trace s, Run step init trace s ∧ s.written.map Msg.origin = [0] ∧ Conserved trace s := by
  have h := run_of_events step init
    [.send [47], .connect ⟨[⟨1, 15002⟩], by decide⟩, .doSend,
     .handleConnect ⟨1, 15002⟩ [] .success 0,
     .handleWrite 0 ⟨0, [0, 0, 0, 1, 47]⟩ .brokenPipe 0 0,
     .handleConnect ⟨1, 15002⟩ [] .success 0,
     .handleWrite 1 ⟨0, [0, 0, 0, 1, 47]⟩ .success 5 0] rfl
  exact ⟨_, _, h, rfl, messages_conserved h⟩

/-- A connect that succeeds within the window while the front of `write_msgs_` is already
the previous message. -/
def RepeatsReplay (s : State) : Event → Prop
  | .handleConnect _ _ .success now => s.Retransmits now ∧ s.writeMsgs.head? = some s.prev.msg
  | _ => False

instance (s : State) : (e : Event) → Decidable (RepeatsReplay s e)
  | .handleConnect _ _ .success now =>
    inferInstanceAs (Decidable (s.Retransmits now ∧ s.writeMsgs.head? = some s.prev.msg))
  | .handleConnect _ _ .brokenPipe _ => .isFalse id
  | .handleConnect _ _ .failure _ => .isFalse id
  | .send _ => .isFalse id
  | .connect _ => .isFalse id
  | .doSend => .isFalse id
  | .handleWrite _ _ _ _ _ => .isFalse id

def SingleCopy (s : State) : Prop := (s.writeMsgs.map Msg.origin).Nodup

instance (s : State) : Decidable (SingleCopy s) :=
  inferInstanceAs (Decidable (s.writeMsgs.map Msg.origin).Nodup)

theorem Delivery.single_copy {s : State} {n : Nat} {old fresh : List Msg}
    (h : Delivery s n old fresh) (hn : n ≤ 1) : SingleCopy s := by
  have hsub : s.writeMsgs.Sublist (s.queued.map framed) := h.split.queue_sublist hn
  have horigins := hsub.map Msg.origin
  rw [framed_origins] at horigins
  have hlt := h.numbered.origins_lt.sublist horigins
  exact hlt.imp fun h => Nat.ne_of_lt h

theorem replayOp_replay {s : State} {e : Event} (h : replayOp s e = some .replay) :
    ∃ endpoint next now, e = .handleConnect endpoint next .success now ∧ s.Retransmits now := by
  cases e with
  | send msg => exact nomatch h
  | connect endpoints => exact nomatch h
  | doSend =>
    obtain ⟨msg, _, hop⟩ := Option.map_eq_some_iff.mp h
    exact nomatch hop
  | handleConnect endpoint next error now =>
    simp only [replayOp] at h
    by_cases herr : error = .success
    · rw [if_pos herr] at h
      by_cases hre : s.Retransmits now
      · exact ⟨endpoint, next, now, by rw [herr], hre⟩
      · rw [if_neg hre] at h
        exact nomatch h
    · rw [if_neg herr] at h
      split at h
      · exact nomatch h
      · exact nomatch h
  | handleWrite conn buffer error k now => cases error <;> exact nomatch h

theorem Delivery.keeps_one {s t : State} {e : Event} {n : Nat} {old fresh : List Msg}
    (hs : Delivery s n old fresh) (hn : n ≤ 1) (hC : ¬ RepeatsReplay s e)
    (h : Tcp.step s e = some t) : ∃ m ≤ 1, ∃ old' fresh', Delivery t m old' fresh' := by
  obtain ⟨m, old', fresh', ht, hm⟩ := hs.step h
  rcases hm with hm | ⟨hop, hm⟩
  · exact ⟨m, by omega, old', fresh', ht⟩
  · obtain ⟨endpoint, next, now, rfl, hre⟩ := replayOp_replay hop
    have hlast : (view s).last = some s.prev.msg := if_neg hre.1
    have hzero : n = 0 := hs.split.no_copy hlast fun hhead => hC ⟨hre, hhead⟩
    exact ⟨m, by omega, old', fresh', ht⟩

/-- Another replay in front of a copy leaves two entries of one `Send`. -/
theorem Move.doubles {s t : State} {e : Event} (h : Move s e t) (hr : RepeatsReplay s e) :
    ¬ SingleCopy t := by
  obtain ⟨endpoint, next, now, rfl, hre, hhead⟩ :
      ∃ endpoint next now, e = .handleConnect endpoint next .success now ∧
        s.Retransmits now ∧ s.writeMsgs.head? = some s.prev.msg := by
    cases e with
    | handleConnect endpoint next error now =>
      cases error with
      | success => exact ⟨endpoint, next, now, rfl, hr⟩
      | _ => exact hr.elim
    | _ => exact hr.elim
  obtain ⟨tail, htail⟩ := List.head?_eq_some_iff.mp hhead
  have hqueue : s.requeued now = s.prev.msg :: s.prev.msg :: tail := by
    rw [State.requeued, if_pos hre, htail]
  have hmsgs : t.writeMsgs = s.requeued now := by
    cases h with
    | tryNext now herr => exact (herr rfl).elim
    | giveUp now herr => exact (herr rfl).elim
    | rest now _ _ _ hq => simp [hqueue] at hq
    | resume now _ _ _ hq => exact hq.symm
  simp [SingleCopy, hmsgs, hqueue]

/-- A reconnect adds a second copy exactly when it replays in front of a copy. -/
theorem single_copy_iff {trace : List (State × Event)} {s : State} (h : Run step init trace s) :
    (∀ t ∈ visited trace s, SingleCopy t) ↔ ∀ p ∈ trace, ¬ RepeatsReplay p.1 p.2 := by
  refine h.exact_condition (I := fun s => ∃ n ≤ 1, ∃ old fresh, Delivery s n old fresh)
    (C := fun s e => ¬ RepeatsReplay s e) ⟨0, by omega, _, _, delivery_init⟩ ?_ ?_ ?_
  · intro s hI
    obtain ⟨n, hn, old, fresh, hs⟩ := hI
    exact hs.single_copy hn
  · intro s e t hI hC hstep
    obtain ⟨n, hn, old, fresh, hs⟩ := hI
    exact hs.keeps_one hn hC hstep
  · intro s e t hI hC hstep
    obtain ⟨n, hn, old, fresh, hs⟩ := hI
    exact (step_move hs.phase hstep).doubles (not_not.mp hC)

theorem single_copy_over_reconnect :
    ∃ trace s, Run step init trace s ∧ s.writeMsgs.map Msg.origin = [0, 1] ∧
      ∀ t ∈ visited trace s, SingleCopy t := by
  have h := run_of_events step init
    [.send [47], .connect ⟨[⟨1, 15002⟩], by decide⟩, .doSend,
     .handleConnect ⟨1, 15002⟩ [] .success 0,
     .handleWrite 0 ⟨0, [0, 0, 0, 1, 47]⟩ .success 5 0, .send [48], .doSend,
     .handleWrite 0 ⟨1, [0, 0, 0, 1, 48]⟩ .brokenPipe 0 1,
     .handleConnect ⟨1, 15002⟩ [] .success 1] rfl
  exact ⟨_, _, h, rfl, (single_copy_iff h).mpr (by decide)⟩

/-- Two messages; the write of the second breaks the pipe, and so does the write of the
replayed first one. The second reconnect queues the first message twice. -/
theorem second_reconnect_repeats :
    ∃ trace s,
      trace.map Prod.snd =
        [.handleConnect ⟨1, 15002⟩ [] .success 2,
         .handleWrite 1 ⟨0, [0, 0, 0, 1, 47]⟩ .brokenPipe 0 2,
         .handleConnect ⟨1, 15002⟩ [] .success 1,
         .handleWrite 0 ⟨1, [0, 0, 0, 1, 48]⟩ .brokenPipe 0 1,
         .handleWrite 0 ⟨0, [0, 0, 0, 1, 47]⟩ .success 5 0,
         .handleConnect ⟨1, 15002⟩ [] .success 0, .doSend, .doSend,
         .connect ⟨[⟨1, 15002⟩], by decide⟩, .send [48], .send [47]] ∧
      Run step init trace s ∧ s.writeMsgs.map Msg.origin = [0, 0, 1] ∧ ¬ SingleCopy s := by
  have h := run_of_events step init
    [.send [47], .send [48], .connect ⟨[⟨1, 15002⟩], by decide⟩, .doSend, .doSend,
     .handleConnect ⟨1, 15002⟩ [] .success 0,
     .handleWrite 0 ⟨0, [0, 0, 0, 1, 47]⟩ .success 5 0,
     .handleWrite 0 ⟨1, [0, 0, 0, 1, 48]⟩ .brokenPipe 0 1,
     .handleConnect ⟨1, 15002⟩ [] .success 1,
     .handleWrite 1 ⟨0, [0, 0, 0, 1, 47]⟩ .brokenPipe 0 2,
     .handleConnect ⟨1, 15002⟩ [] .success 2] rfl
  exact ⟨_, _, rfl, h, rfl, by decide⟩

end AmClient.Tcp
