import AmClient.Udp.AsyncClient

/-!
# Progress of the UDP client

Between handlers the client is idle, sending the front of its queue, or stranded: the
queue kept its front after a failed send and nothing is outstanding. `Move` lists every
step from these states; only a failed send leads to the third.
-/

namespace AmClient.Udp
open Foundation
set_option autoImplicit false

inductive Phase (s : State) : Prop where
  | idle : s.writeMsgs = [] → s.pending = [] → s.writeInProgress = false → Phase s
  | sending (front : Msg) (rest : List Msg) :
      s.writeMsgs = front :: rest → s.pending = [front] → Phase s
  | stranded (front : Msg) (rest : List Msg) :
      s.writeMsgs = front :: rest → s.pending = [] → Phase s

inductive Move (s : State) : Event → State → Prop where
  | send (msg : Bytes) : Move s (.send msg) (s.send msg)
  | start {msg : Msg} {posted : List Msg} :
      s.posted = msg :: posted → s.writeMsgs = [] → s.pending = [] →
      Move s .doSend { s with
        posted := posted, writeInProgress := false, writeMsgs := [msg],
        pending := [msg], started := s.started ++ [msg], msgToSend := false }
  | push {msg front : Msg} {posted rest : List Msg} :
      s.posted = msg :: posted → s.writeMsgs = front :: rest →
      Move s .doSend { s with
        posted := posted, writeInProgress := true, writeMsgs := front :: rest ++ [msg],
        msgToSend := false }
  | last {front : Msg} :
      s.writeMsgs = [front] → s.pending = [front] →
      Move s (.handlerWrite front false) { s with
        pending := [], writeMsgs := [], writeInProgress := false }
  | advance {front next : Msg} {rest : List Msg} :
      s.writeMsgs = front :: next :: rest → s.pending = [front] →
      Move s (.handlerWrite front false) { s with
        pending := [next], writeMsgs := next :: rest, started := s.started ++ [next] }
  | strand {front : Msg} {rest : List Msg} :
      s.writeMsgs = front :: rest → s.pending = [front] →
      Move s (.handlerWrite front true) { s with pending := [], writeInProgress := false }

theorem Phase.pending_nil {s : State} (h : Phase s) (hq : s.writeMsgs = []) :
    s.pending = [] := by
  cases h with
  | idle _ hp _ => exact hp
  | sending front rest hw _ => simp [hq] at hw
  | stranded front rest _ hp => exact hp

theorem Phase.front_of_pending {s : State} (h : Phase s) {buffer : Msg}
    (hmem : buffer ∈ s.pending) :
    s.pending = [buffer] ∧ ∃ rest, s.writeMsgs = buffer :: rest := by
  cases h with
  | idle _ hp _ => simp [hp] at hmem
  | sending front rest hw hp =>
    have heq : buffer = front := by simpa [hp] using hmem
    subst heq
    exact ⟨hp, rest, hw⟩
  | stranded front rest _ hp => simp [hp] at hmem

theorem step_move {s t : State} {e : Event} (hs : Phase s) (h : step s e = some t) :
    Move s e t := by
  cases e with
  | send msg =>
    obtain rfl := Option.some.inj h
    exact .send msg
  | doSend =>
    cases hposted : s.posted with
    | nil => simp [step, hposted] at h
    | cons msg posted =>
      simp only [step, hposted, Option.some.injEq] at h
      cases hq : s.writeMsgs with
      | nil =>
        have hp := hs.pending_nil hq
        simp only [State.doSend, hq, State.asyncSendTo, hp, List.isEmpty_nil, Bool.not_true,
          Bool.not_false, ↓reduceIte, List.nil_append] at h
        exact h ▸ .start hposted hq hp
      | cons front rest =>
        simp only [State.doSend, hq, List.isEmpty_cons, Bool.not_false, Bool.not_true,
          Bool.false_eq_true, ↓reduceIte] at h
        exact h ▸ .push hposted hq
  | handlerWrite buffer error =>
    simp only [step] at h
    split at h
    · rename_i hmem
      obtain ⟨hp, rest, hw⟩ := hs.front_of_pending hmem
      simp only [hp, List.erase_cons_head, Option.some.injEq] at h
      cases error with
      | true => exact h ▸ .strand hw hp
      | false =>
        cases rest with
        | nil =>
          simp only [State.handlerWrite, hw, Bool.not_false, ↓reduceIte, List.isEmpty_nil,
            Bool.not_true, Bool.false_eq_true] at h
          exact h ▸ .last hw hp
        | cons next rest =>
          simp only [State.handlerWrite, hw, Bool.not_false, ↓reduceIte, List.isEmpty_cons,
            State.asyncSendTo, List.nil_append] at h
          exact h ▸ .advance hw hp
    · exact nomatch h

theorem Move.phase {s t : State} {e : Event} (h : Move s e t) (hs : Phase s) : Phase t := by
  cases h with
  | send msg =>
    cases hs with
    | idle hw hp hf => exact .idle hw hp hf
    | sending front rest hw hp => exact .sending front rest hw hp
    | stranded front rest hw hp => exact .stranded front rest hw hp
  | start hposted hw hp => exact .sending _ [] rfl rfl
  | @push msg _ _ _ hposted hw =>
    cases hs with
    | idle hnil _ _ => simp [hnil] at hw
    | sending front rest hw' hp =>
      obtain ⟨rfl, rfl⟩ := List.cons.inj (hw.symm.trans hw')
      exact .sending _ _ rfl hp
    | stranded front rest _ hp => exact .stranded _ _ rfl hp
  | last hw hp => exact .idle rfl rfl rfl
  | advance hw hp => exact .sending _ _ rfl rfl
  | strand hw hp => exact .stranded _ _ hw rfl

theorem phase_init : Phase init := .idle rfl rfl rfl

/-- A queued message, or a waiter held by `write_in_progress_`, has an operation in flight
that can release it. -/
def Progress (s : State) : Prop :=
  (s.writeMsgs ≠ [] → s.pending ≠ []) ∧ (s.writeInProgress = true → s.pending ≠ [])

def Event.failed : Event → Bool
  | .handlerWrite _ error => error
  | _ => false

def Flowing (s : State) : Prop :=
  (s.writeMsgs = [] ∧ s.pending = [] ∧ s.writeInProgress = false) ∨
    ∃ front rest, s.writeMsgs = front :: rest ∧ s.pending = [front]

theorem Flowing.phase {s : State} (h : Flowing s) : Phase s := by
  rcases h with ⟨hw, hp, hf⟩ | ⟨front, rest, hw, hp⟩
  · exact .idle hw hp hf
  · exact .sending front rest hw hp

theorem Flowing.progress {s : State} (h : Flowing s) : Progress s := by
  rcases h with ⟨hw, hp, hf⟩ | ⟨front, rest, hw, hp⟩
  · exact ⟨fun hne => (hne hw).elim, fun ht => by simp [hf] at ht⟩
  · exact ⟨fun _ => by simp [hp], fun _ => by simp [hp]⟩

theorem Move.flowing {s t : State} {e : Event} (h : Move s e t) (hs : Flowing s)
    (hok : e.failed = false) : Flowing t := by
  cases h with
  | send msg => exact hs
  | start => exact .inr ⟨_, _, rfl, rfl⟩
  | push _ hw =>
    rcases hs with ⟨hnil, _⟩ | ⟨front, rest, hw', hp⟩
    · simp [hnil] at hw
    · obtain ⟨rfl, rfl⟩ := List.cons.inj (hw.symm.trans hw')
      exact .inr ⟨_, _, rfl, hp⟩
  | last => exact .inl ⟨rfl, rfl, rfl⟩
  | advance => exact .inr ⟨_, _, rfl, rfl⟩
  | strand => simp [Event.failed] at hok

theorem Move.not_progress {s t : State} {e : Event} (h : Move s e t)
    (hfail : e.failed ≠ false) : ¬ Progress t := by
  cases h with
  | strand hw hp =>
    intro hprog
    exact hprog.1 (by simp [hw]) rfl
  | _ => simp [Event.failed] at hfail

/-- A run keeps `Progress` in every state exactly when no `async_send_to` of it fails. -/
theorem progress_iff_no_failure {trace : List (State × Event)} {s : State}
    (h : Run step init trace s) :
    (∀ t ∈ visited trace s, Progress t) ↔ ∀ p ∈ trace, p.2.failed = false := by
  refine h.exact_condition (I := Flowing) (C := fun _ e => e.failed = false)
    (.inl ⟨rfl, rfl, rfl⟩) Flowing.progress ?_ ?_
  · intro s e t hs hok hstep
    exact (step_move hs.phase hstep).flowing hs hok
  · intro s e t hs hfail hstep
    exact (step_move hs.phase hstep).not_progress hfail

theorem progress_of_one_message :
    ∃ trace s, Run step init trace s ∧ s.sent = [[47]] ∧ ∀ t ∈ visited trace s, Progress t := by
  have h := run_of_events step init [.send [47], .doSend, .handlerWrite ⟨0, [47]⟩ false] rfl
  exact ⟨_, _, h, rfl, (progress_iff_no_failure h).mpr (by simp [Event.failed])⟩

/-- After one failed send the message stays queued with nothing outstanding. -/
theorem failed_send_strands :
    ∃ trace s,
      trace.map Prod.snd = [.handlerWrite ⟨0, [47]⟩ true, .doSend, .send [47]] ∧
      Run step init trace s ∧ s.writeMsgs = [⟨0, [47]⟩] ∧ ¬ Progress s := by
  have hrun := run_of_events step init [.send [47], .doSend, .handlerWrite ⟨0, [47]⟩ true] rfl
  refine ⟨_, _, rfl, hrun, rfl, ?_⟩
  intro h
  exact h.1 (List.cons_ne_nil _ _) rfl

end AmClient.Udp
