import AmClient.Tcp.Phases

/-!
# Behind DoClose

A `DoClose` behind which no message is posted leaves nothing to write. The handlers of the
operations that it cut off may still connect, and then find nothing to send; a write that it
cut off may have sent something before.
-/

namespace AmClient.Tcp
open Foundation
set_option autoImplicit false

/-- There is nothing to write and no write is outstanding; to the connections of before
only such are added as nothing is written to. -/
structure Silent (before : List Conn) (s : State) : Prop where
  posted : s.posted = []
  queue : s.writeMsgs = []
  prev : s.prev.msg.bytes = []
  connects : ∀ op ∈ s.pending, op.isConnect = true
  conns : ∃ n, s.conns.map Conn.transfers = before.map Conn.transfers ++ List.replicate n []

theorem silent_doClose {before : List Conn} {s : State} (hposted : s.posted = [])
    (hconns : ∃ n, s.conns.map Conn.transfers =
      before.map Conn.transfers ++ List.replicate n []) :
    Silent before { s.doClose with pending := [] } :=
  ⟨hposted, rfl, rfl, by simp, hconns⟩

theorem map_modify {α β : Type} {f : α → α} {g : β → β} {m : α → β} (h : ∀ a, m (f a) = g (m a))
    (i : Nat) (l : List α) : (l.modify i f).map m = (l.map m).modify i g := by
  induction l generalizing i with
  | nil => rw [List.map_nil, List.modify_nil, List.modify_nil, List.map_nil]
  | cons a l ih =>
    cases i with
    | zero => simp [h]
    | succ i => simp [ih]

theorem modify_append {α : Type} (f : α → α) {i : Nat} {l : List α} (h : i < l.length)
    (more : List α) : (l ++ more).modify i f = l.modify i f ++ more := by
  induction l generalizing i with
  | nil => cases h
  | cons a l ih =>
    cases i with
    | zero => rfl
    | succ i => simp [ih (Nat.lt_of_succ_lt_succ h)]

theorem transfers_transfer (conns : List Conn) (i : Nat) (buffer : Msg) (k : Nat) :
    (conns.modify i fun c => c.transfer buffer k).map Conn.transfers =
      (conns.map Conn.transfers).modify i fun done => done ++ [(buffer, k)] := by
  apply map_modify
  intro c
  rfl

theorem transfers_start (conns : List Conn) (i : Nat) (buffer : Msg) :
    (conns.modify i fun c => c.start buffer).map Conn.transfers = conns.map Conn.transfers := by
  have hsame (c : Conn) : (c.start buffer).transfers = id c.transfers := rfl
  rw [map_modify hsame, List.modify_id]

theorem transfers_handleWrite (s : State) (now : Int) :
    (s.handleWrite .success now).conns.map Conn.transfers = s.conns.map Conn.transfers := by
  rw [State.handleWrite, if_pos rfl]
  split
  · rfl
  · rename_i front rest hq
    cases rest with
    | nil => rfl
    | cons next rest => exact transfers_start _ _ _

namespace Silent
variable {before : List Conn} {s : State}

theorem of_transfers {after : List Conn} (h : Silent before s)
    (hsame : after.map Conn.transfers = before.map Conn.transfers) : Silent after s :=
  ⟨h.posted, h.queue, h.prev, h.connects, by rw [hsame]; exact h.conns⟩

theorem same_transfers (h : Silent before s) {i : Nat} {d : Conn} (hd : before[i]? = some d) :
    ∃ c, s.conns[i]? = some c ∧ c.transfers = d.transfers := by
  obtain ⟨n, hconns⟩ := h.conns
  have hi : i < (before.map Conn.transfers).length := by
    rw [List.length_map]
    exact (List.getElem?_eq_some_iff.mp hd).1
  have hget : (s.conns.map Conn.transfers)[i]? = some d.transfers := by
    rw [hconns, List.getElem?_append_left hi, List.getElem?_map, hd]
    rfl
  rw [List.getElem?_map] at hget
  exact Option.map_eq_some_iff.mp hget

/-- What has been accepted was accepted by the connections of before. -/
theorem accepted (h : Silent before s) {c : Conn} (hc : c ∈ s.conns) :
    (∃ d ∈ before, d.accepted = c.accepted) ∨ c.accepted = [] := by
  obtain ⟨n, hconns⟩ := h.conns
  have hmem := List.mem_map_of_mem (f := Conn.transfers) hc
  rw [hconns] at hmem
  rcases List.mem_append.mp hmem with hbefore | hfresh
  · obtain ⟨d, hd, hsame⟩ := List.mem_map.mp hbefore
    exact .inl ⟨d, hd, by rw [Conn.accepted, hsame, Conn.accepted]⟩
  · right
    rw [Conn.accepted, List.eq_of_mem_replicate hfresh]
    rfl

/-- A write on a connection of before is accepted there too. -/
theorem transfer (h : Silent before s) {conn : Nat} (hconn : conn < before.length) (buffer : Msg)
    (k : Nat) : Silent (before.modify conn fun c => c.transfer buffer k)
      (s.transfer conn buffer .success k) := by
  obtain ⟨n, hconns⟩ := h.conns
  refine ⟨h.posted, h.queue, h.prev, h.connects, n, ?_⟩
  have hlen : conn < (before.map Conn.transfers).length := by rwa [List.length_map]
  rw [transfers_transfer, ← modify_append _ hlen, ← hconns, ← transfers_transfer]
  rfl

theorem cut_off (h : Silent before s) : Silent before { s with pending := [] } :=
  ⟨h.posted, h.queue, h.prev, by simp, h.conns⟩

theorem asyncConnect (h : Silent before s) (it : List Endpoint) :
    Silent before (s.asyncConnect it) := by
  cases it with
  | nil => exact ⟨h.posted, h.queue, h.prev, h.connects, h.conns⟩
  | cons endpoint next =>
    refine ⟨h.posted, h.queue, h.prev, ?_, h.conns⟩
    intro op hop
    rcases List.mem_append.mp hop with hop | hop
    · exact h.connects op hop
    · rw [List.mem_singleton.mp hop]
      rfl

theorem doConnect (h : Silent before s) : Silent before s.doConnect := by
  have hconnecting : Silent before { s with connecting := true } :=
    ⟨h.posted, h.queue, h.prev, h.connects, h.conns⟩
  exact hconnecting.asyncConnect s.endpointIterator

theorem connect (h : Silent before s) (endpoints : List Endpoint) :
    Silent before (s.connect endpoints) := by
  unfold State.connect
  split
  · exact doConnect ⟨h.posted, h.queue, h.prev, h.connects, h.conns⟩
  · exact h

theorem handleConnect (h : Silent before s) (error : ErrorCode) (it : List Endpoint) (now : Int) :
    Silent before (s.handleConnect error it now) := by
  unfold State.handleConnect
  split
  · split
    · exact h.asyncConnect it
    · exact ⟨h.posted, rfl, h.prev, h.connects, h.conns⟩
  · split
    · simp only [h.queue, h.prev, List.isEmpty_nil, Bool.not_true, Bool.or_self, Bool.and_false,
        Bool.false_eq_true, ↓reduceIte]
      exact ⟨h.posted, rfl, h.prev, h.connects, h.conns⟩
    · exact ⟨h.posted, h.queue, h.prev, h.connects, h.conns⟩

theorem handleWrite (h : Silent before s) (error : ErrorCode) (now : Int) :
    Silent before (s.handleWrite error now) := by
  unfold State.handleWrite
  split
  · rw [h.queue]
    exact ⟨h.posted, rfl, h.prev, h.connects, h.conns⟩
  · split
    · exact doConnect ⟨h.posted, h.queue, h.prev, h.connects, h.conns⟩
    · exact ⟨h.posted, rfl, rfl, h.connects, h.conns⟩

theorem establish (h : Silent before s) (error : ErrorCode) :
    Silent before (s.establish error) := by
  unfold State.establish
  split
  · obtain ⟨n, hconns⟩ := h.conns
    refine ⟨h.posted, h.queue, h.prev, h.connects, n + 1, ?_⟩
    rw [List.map_append, hconns, List.append_assoc, List.replicate_succ']
    rfl
  · exact h

theorem step {t : State} {e : Event} (h : Silent before s) (hsend : ∀ msg, e ≠ .send msg)
    (hstep : Tcp.step s e = some t) : Silent before t := by
  cases e with
  | send msg => exact (hsend msg rfl).elim
  | connect endpoints =>
    obtain ⟨_, hsome⟩ := Option.ite_none_right_eq_some.mp hstep
    obtain rfl := Option.some.inj hsome
    exact h.connect endpoints.val
  | doSend => simp [Tcp.step, h.posted] at hstep
  | handleConnect endpoint next error now =>
    obtain ⟨_, hsome⟩ := Option.ite_none_right_eq_some.mp hstep
    obtain rfl := Option.some.inj hsome
    have herased : Silent before { s with pending := s.pending.erase (.connect endpoint next) } :=
      ⟨h.posted, h.queue, h.prev, fun op hop => h.connects op (List.mem_of_mem_erase hop), h.conns⟩
    exact (herased.establish error).handleConnect error next now
  | handleWrite conn buffer error k now =>
    obtain ⟨⟨hmem, _⟩, _⟩ := Option.ite_none_right_eq_some.mp hstep
    cases h.connects _ hmem

end Silent

end AmClient.Tcp
