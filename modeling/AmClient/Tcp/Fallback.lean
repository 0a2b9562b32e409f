import AmClient.Tcp.Phases

/-!
# Endpoint fallback

`DoConnect` starts a round of attempts at the first endpoint. The handler of an attempt
carries the endpoints behind its own, and `DoSend` may queue messages between any two of
them. A round is the part of a run after a step that calls `DoConnect`, for as long as
`connecting_` is set before each step.
-/

namespace AmClient.Tcp
open Foundation
set_option autoImplicit false

/-- The step calls `DoConnect`. -/
def StartsRound (s : State) : Event → Prop
  | .connect _ => s.connecting = false
  | .doSend => s.connected = false ∧ s.connecting = false
  | .handleWrite _ _ error _ _ => error = .brokenPipe
  | _ => False

/-- The endpoint and the result of an attempt, when its handler runs. -/
def Event.attempt : Event → Option (Endpoint × ErrorCode)
  | .handleConnect endpoint _ error _ => some (endpoint, error)
  | _ => none

/-- The attempts that were completed, oldest first. -/
def attempts (round : List (State × Event)) : List (Endpoint × ErrorCode) :=
  round.reverse.filterMap fun p => p.2.attempt

def Op.endpoint : Op → Option Endpoint
  | .connect endpoint _ => some endpoint
  | .write _ _ => none

/-- The endpoints of the completed attempts and of the outstanding one. -/
def tried (round : List (State × Event)) (s : State) : List Endpoint :=
  (attempts round).map Prod.fst ++ s.pending.filterMap Op.endpoint

def AllFailed (results : List (Endpoint × ErrorCode)) : Prop := ∀ a ∈ results, a.2 ≠ .success

/-- What was in `write_msgs_` before the round and what was queued since is there in order,
behind at most one copy of the previous message. -/
def Kept (u s : State) : Prop :=
  ∃ copy queued, (copy = [] ∨ copy = [s.prev.msg]) ∧ s.queued = u.queued ++ queued ∧
    s.writeMsgs = copy ++ u.writeMsgs ++ queued.map framed

/-- The last step has given up and notified the waiters. -/
structure GivenUp (round : List (State × Event)) (s : State) : Prop where
  connecting : s.connecting = false
  connected : s.connected = false
  emptied : s.writeMsgs = []
  notified : ∃ p ∈ round.head?, p.1.notifies p.2 = true

/-- The attempts of a round that the step from `u` has started and that has come to `s`. -/
structure Fallback (endpoints : List Endpoint) (u : State) (round : List (State × Event))
    (s : State) : Prop where
  from_first : tried round s ≠ []
  in_order : tried round s <+: endpoints
  one_outstanding :
    (tried round s).length = (attempts round).length + if s.connecting then 1 else 0
  until_success : AllFailed (attempts round).dropLast
  connecting_iff : s.connecting = true ↔
    AllFailed (attempts round) ∧ (attempts round).length < endpoints.length
  connected_iff : s.connected = true ↔ ¬ AllFailed (attempts round)
  delivered : s.connected = true → Kept u s
  given_up_iff : GivenUp round s ↔
    AllFailed (attempts round) ∧ (attempts round).length = endpoints.length
  resumed : GivenUp round s → ∀ later v, Run step s later v →
    (∀ p ∈ later, p.2 ≠ .doSend) → StartsRound v .doSend

/-- An attempt is outstanding, or the last one succeeded, or all have failed. -/
inductive Stage (endpoints : List Endpoint) (u : State) (round : List (State × Event))
    (s : State) : Prop where
  | trying (endpoint : Endpoint) (next : List Endpoint) (queued : List Msg) :
      endpoints = (attempts round).map Prod.fst ++ endpoint :: next →
      AllFailed (attempts round) → s.connecting = true → s.connected = false →
      s.pending = [.connect endpoint next] → s.queued = u.queued ++ queued →
      s.writeMsgs = u.writeMsgs ++ queued.map framed → Stage endpoints u round s
  | connected (failed : List (Endpoint × ErrorCode)) (endpoint : Endpoint)
      (next : List Endpoint) :
      attempts round = failed ++ [(endpoint, .success)] →
      endpoints = failed.map Prod.fst ++ endpoint :: next → AllFailed failed →
      s.connecting = false → s.connected = true → s.pending.filterMap Op.endpoint = [] →
      Kept u s → Stage endpoints u round s
  | exhausted : endpoints = (attempts round).map Prod.fst → AllFailed (attempts round) →
      s.pending = [] → s.endpointIterator ≠ [] → GivenUp round s → Stage endpoints u round s

@[simp] theorem attempts_nil : attempts [] = [] := rfl

theorem attempts_cons (s : State) (e : Event) (round : List (State × Event)) :
    attempts ((s, e) :: round) = attempts round ++ e.attempt.toList := by
  unfold attempts
  rw [List.reverse_cons, List.filterMap_append]
  cases h : e.attempt with
  | none => simp [h]
  | some a => simp [h]

theorem AllFailed.append {xs ys : List (Endpoint × ErrorCode)} (hx : AllFailed xs)
    (hy : AllFailed ys) : AllFailed (xs ++ ys) := by
  intro a ha
  rcases List.mem_append.mp ha with ha | ha
  · exact hx a ha
  · exact hy a ha

theorem AllFailed.concat {xs : List (Endpoint × ErrorCode)} (hx : AllFailed xs)
    {endpoint : Endpoint} {error : ErrorCode} (herr : error ≠ .success) :
    AllFailed (xs ++ [(endpoint, error)]) := by
  apply hx.append
  intro a ha
  rw [List.mem_singleton.mp ha]
  exact herr

theorem not_allFailed_success (xs : List (Endpoint × ErrorCode)) (endpoint : Endpoint) :
    ¬ AllFailed (xs ++ [(endpoint, .success)]) := by
  intro h
  exact h _ (List.mem_append_right _ (List.mem_singleton_self _)) rfl

/-- A step that calls `DoConnect` leaves the attempt at the first endpoint outstanding. -/
theorem Move.starts {u t : State} {e : Event} (h : Move u e t) (hu : Phase u)
    (hstart : StartsRound u e) : Stage t.endpointIterator u [] t := by
  have hnone : AllFailed (attempts []) := by simp [AllFailed]
  cases h with
  | send => exact hstart.elim
  | opened _ _ hcd =>
    exact .trying _ _ [] rfl hnone rfl hcd rfl (List.append_nil _).symm (List.append_nil _).symm
  | sendNow _ hcd => exact nomatch hcd.symm.trans hstart.1
  | @reconnect msg _ _ _ _ hcd _ _ _ hq hends =>
    exact .trying _ _ [msg] hends hnone rfl hcd rfl rfl (by simp [hq])
  | push _ hbusy =>
    obtain ⟨hcd, hc⟩ := hstart
    rcases hbusy with hbusy | hbusy
    · exact nomatch hbusy.symm.trans hc
    · cases hu with
      | idle _ hw => exact nomatch hbusy.symm.trans hw
      | connecting _ _ _ hw => exact nomatch hbusy.symm.trans hw
      | writing _ _ _ _ _ _ hconnected => exact nomatch hconnected.symm.trans hcd
  | tryNext => exact hstart.elim
  | giveUp => exact hstart.elim
  | rest => exact hstart.elim
  | resume => exact hstart.elim
  | drained => exact nomatch hstart
  | advance => exact nomatch hstart
  | brokenPipe _ _ _ _ _ hends =>
    exact .trying _ _ [] hends hnone rfl rfl rfl (List.append_nil _).symm (List.append_nil _).symm
  | abandon => exact nomatch hstart

theorem requeued_kept {u s : State} {queued : List Msg}
    (hq : s.writeMsgs = u.writeMsgs ++ queued.map framed) (now : Int) :
    ∃ copy, (copy = [] ∨ copy = [s.prev.msg]) ∧
      s.requeued now = copy ++ u.writeMsgs ++ queued.map framed := by
  unfold State.requeued
  rw [hq]
  split
  · exact ⟨[s.prev.msg], Or.inr rfl, rfl⟩
  · exact ⟨[], Or.inl rfl, rfl⟩

/-- While an attempt is outstanding, messages are queued and the handler of the attempt goes
on to the next endpoint, gives up behind the last one, or is connected. -/
theorem Move.stage {endpoints : List Endpoint} {u s t : State} {e : Event}
    {round : List (State × Event)} (h : Move s e t) (hs : Stage endpoints u round s)
    (hends : s.endpointIterator ≠ []) (hc : s.connecting = true) :
    Stage endpoints u ((s, e) :: round) t := by
  cases hs with
  | connected _ _ _ _ _ _ hnot => exact nomatch hc.symm.trans hnot
  | exhausted _ _ _ _ hgiven => exact nomatch hc.symm.trans hgiven.connecting
  | trying endpoint next queued hsplit hfailed _ hcd hp hqueued hq =>
    have same {endpoint' : Endpoint} {next' : List Endpoint}
        (hp' : s.pending = [.connect endpoint' next']) : endpoint' = endpoint ∧ next' = next := by
      have heq := hp'.symm.trans hp
      simpa using heq
    have attempted {endpoint' : Endpoint} {next' : List Endpoint} {error : ErrorCode} {now : Int} :
        attempts ((s, .handleConnect endpoint' next' error now) :: round) =
          attempts round ++ [(endpoint', error)] := attempts_cons s _ round
    cases h with
    | send msg =>
      refine .trying endpoint next queued ?_ ?_ hc hcd hp hqueued hq
      · simpa only [attempts_cons, Event.attempt, Option.toList_none, List.append_nil] using hsplit
      · simpa only [attempts_cons, Event.attempt, Option.toList_none, List.append_nil] using hfailed
    | opened _ hnone => exact (hends hnone).elim
    | sendNow _ hcd' => exact nomatch hcd'.symm.trans hcd
    | reconnect _ _ hc' => exact nomatch hc.symm.trans hc'
    | @push msg =>
      refine .trying endpoint next (queued ++ [msg]) ?_ ?_ hc hcd hp ?_ ?_
      · simpa only [attempts_cons, Event.attempt, Option.toList_none, List.append_nil] using hsplit
      · simpa only [attempts_cons, Event.attempt, Option.toList_none, List.append_nil] using hfailed
      · simp only [hqueued, List.append_assoc]
      · simp only [hq, List.map_append, List.append_assoc]
        rfl
    | @tryNext _ e' next' _ now herr _ hp' =>
      obtain ⟨rfl, rfl⟩ := same hp'
      refine .trying e' next' queued ?_ ?_ hc hcd rfl hqueued hq
      · rw [attempted, List.map_append, List.append_assoc]
        exact hsplit
      · rw [attempted]
        exact hfailed.concat herr
    | giveUp now herr _ hp' =>
      obtain ⟨rfl, rfl⟩ := same hp'
      refine .exhausted ?_ ?_ rfl hends ⟨rfl, rfl, rfl, _, rfl, ?_⟩
      · rw [attempted, List.map_append]
        exact hsplit
      · rw [attempted]
        exact hfailed.concat herr
      · simp [State.notifies, herr]
    | rest now _ hp' _ hnone =>
      obtain ⟨rfl, rfl⟩ := same hp'
      obtain ⟨copy, hcopy, hrequeued⟩ := requeued_kept hq now
      refine .connected _ _ _ attempted hsplit hfailed rfl rfl rfl
        ⟨copy, queued, hcopy, hqueued, ?_⟩
      rw [← hrequeued, hnone]
      exact requeued_eq_nil hnone
    | resume now _ hp' _ hfront =>
      obtain ⟨rfl, rfl⟩ := same hp'
      obtain ⟨copy, hcopy, hrequeued⟩ := requeued_kept hq now
      refine .connected _ _ _ attempted hsplit hfailed rfl rfl rfl
        ⟨copy, queued, hcopy, hqueued, ?_⟩
      rw [← hrequeued, hfront]
    | drained _ _ _ hc' => exact nomatch hc.symm.trans hc'
    | advance _ _ _ hc' => exact nomatch hc.symm.trans hc'
    | brokenPipe _ _ _ _ hp' => exact nomatch hp'.symm.trans hp
    | abandon _ _ _ _ hp' => exact nomatch hp'.symm.trans hp

theorem Move.iterator {s t : State} {e : Event} (h : Move s e t) (hs : s.endpointIterator ≠ []) :
    t.endpointIterator = s.endpointIterator := by
  cases h with
  | opened _ hnone => exact (hs hnone).elim
  | _ => rfl

theorem Move.connects {s t : State} {endpoints : Resolved} (h : Move s (.connect endpoints) t) :
    t.endpointIterator = endpoints.val := by
  cases h with
  | opened hends => exact hends.symm

/-- `endpoint_iterator_` keeps the answer of the resolver. -/
theorem resolved_run {trace : List (State × Event)} {s : State} (h : Run step init trace s)
    {endpoints : Resolved} (hresolved : ∃ p ∈ trace, p.2 = .connect endpoints) :
    s.endpointIterator = endpoints.val := by
  induction h with
  | start =>
    obtain ⟨p, hp, _⟩ := hresolved
    exact nomatch hp
  | @next trace s t e hrun hstep ih =>
    have hmove := step_move (phase_run hrun) hstep
    obtain ⟨p, hp, he⟩ := hresolved
    rcases List.mem_cons.mp hp with rfl | hp
    · simp only at he
      subst he
      exact hmove.connects
    · have hends := ih ⟨p, hp, he⟩
      rw [← hends]
      apply hmove.iterator
      rw [hends]
      exact endpoints.property

theorem Phase.resolved {s : State} (h : Phase s) (hc : s.connecting = true) :
    s.endpointIterator ≠ [] := by
  cases h with
  | idle hnot => exact nomatch hc.symm.trans hnot
  | connecting _ _ _ _ _ _ hends => exact hends
  | writing _ _ _ _ hnot => exact nomatch hc.symm.trans hnot

theorem stage_run {round earlier : List (State × Event)} {u s : State} {e : Event}
    (h : Run step init (round ++ (u, e) :: earlier) s) (hstart : StartsRound u e)
    (hround : ∀ p ∈ round, p.1.connecting = true) : Stage s.endpointIterator u round s := by
  induction round generalizing s with
  | nil =>
    cases h with
    | next hrun hstep =>
      have hu := phase_run hrun
      exact (step_move hu hstep).starts hu hstart
  | cons p round ih =>
    cases h with
    | @next _ v _ e' hrun hstep =>
      obtain ⟨hc, hround⟩ := List.forall_mem_cons.mp hround
      have hv := phase_run hrun
      have hmove := step_move hv hstep
      have hends := hv.resolved hc
      rw [hmove.iterator hends]
      exact hmove.stage (ih hrun hround) hends hc

/-- Given up, the client stays idle until a `DoSend` runs, which starts over. -/
theorem restarts {later : List (State × Event)} {s v : State} (h : Run step s later v)
    (hc : s.connecting = false) (hcd : s.connected = false) (hp : s.pending = [])
    (hends : s.endpointIterator ≠ []) (hnone : ∀ p ∈ later, p.2 ≠ .doSend) :
    StartsRound v .doSend := by
  have hidle : (v.connected = false ∧ v.connecting = false) ∧ v.pending = [] ∧
      v.endpointIterator ≠ [] := by
    refine h.invariant_of (C := fun _ e => e ≠ .doSend)
      (I := fun v => (v.connected = false ∧ v.connecting = false) ∧ v.pending = [] ∧
        v.endpointIterator ≠ []) ⟨⟨hcd, hc⟩, hp, hends⟩ ?_ hnone
    intro s e t hI hne hstep
    obtain ⟨hflags, hp, hends⟩ := hI
    cases e with
    | send msg =>
      obtain rfl := Option.some.inj hstep
      exact ⟨hflags, hp, hends⟩
    | connect endpoints => simp [step, hends] at hstep
    | doSend => exact (hne rfl).elim
    | handleConnect endpoint next error now => simp [step, hp] at hstep
    | handleWrite conn buffer error k now => simp [step, hp] at hstep
  exact hidle.1

theorem allFailed_dropLast {xs : List (Endpoint × ErrorCode)} (h : AllFailed xs) :
    AllFailed xs.dropLast := fun a ha => h a (List.dropLast_subset xs ha)

theorem Stage.fallback {endpoints : List Endpoint} {u s : State} {round : List (State × Event)}
    (h : Stage endpoints u round s) (hne : endpoints ≠ []) : Fallback endpoints u round s := by
  cases h with
  | trying endpoint next queued hsplit hfailed hc hcd hp hqueued hq =>
    have htried : tried round s = (attempts round).map Prod.fst ++ [endpoint] := by
      simp [tried, hp, Op.endpoint]
    have hlen := congrArg List.length hsplit
    rw [List.length_append, List.length_map, List.length_cons] at hlen
    have hgiven : ¬ GivenUp round s := fun hgiven => nomatch hc.symm.trans hgiven.connecting
    refine ⟨?_, ?_, ?_, allFailed_dropLast hfailed, ?_, ?_, ?_, ?_, ?_⟩
    · simp [htried]
    · rw [htried, hsplit]
      exact ⟨next, by simp⟩
    · simp [htried, hc]
    · exact ⟨fun _ => ⟨hfailed, by omega⟩, fun _ => hc⟩
    · exact ⟨(fun hyes => nomatch hyes.symm.trans hcd), fun hnot => (hnot hfailed).elim⟩
    · exact fun hyes => nomatch hyes.symm.trans hcd
    · constructor
      · exact fun hyes => (hgiven hyes).elim
      · rintro ⟨_, hall⟩
        omega
    · exact fun hyes => (hgiven hyes).elim
  | connected failed endpoint next hattempts hsplit hfailed hc hcd hp hkept =>
    have hnot : ¬ AllFailed (attempts round) := by
      rw [hattempts]
      exact not_allFailed_success failed endpoint
    have htried : tried round s = failed.map Prod.fst ++ [endpoint] := by
      simp [tried, hp, hattempts]
    have hgiven : ¬ GivenUp round s := fun hgiven => nomatch hcd.symm.trans hgiven.connected
    refine ⟨?_, ?_, ?_, ?_, ?_, ?_, fun _ => hkept, ?_, ?_⟩
    · simp [htried]
    · rw [htried, hsplit]
      exact ⟨next, by simp⟩
    · simp [htried, hattempts, hc]
    · rwa [hattempts, List.dropLast_concat]
    · exact ⟨(fun hyes => nomatch hyes.symm.trans hc), fun hall => (hnot hall.1).elim⟩
    · exact ⟨fun _ => hnot, fun _ => hcd⟩
    · exact ⟨fun hyes => (hgiven hyes).elim, fun hall => (hnot hall.1).elim⟩
    · exact fun hyes => (hgiven hyes).elim
  | exhausted hall hfailed hp hiter hgiven =>
    have htried : tried round s = endpoints := by
      simp [tried, hp, hall]
    have hlen := congrArg List.length hall
    rw [List.length_map] at hlen
    refine ⟨?_, ?_, ?_, allFailed_dropLast hfailed, ?_, ?_, ?_, ?_, ?_⟩
    · rwa [htried]
    · exact ⟨[], by rw [htried, List.append_nil]⟩
    · simp [htried, hlen, hgiven.connecting]
    · constructor
      · exact fun hyes => nomatch hyes.symm.trans hgiven.connecting
      · rintro ⟨_, hless⟩
        omega
    · exact ⟨(fun hyes => nomatch hyes.symm.trans hgiven.connected), fun hn => (hn hfailed).elim⟩
    · exact fun hyes => nomatch hyes.symm.trans hgiven.connected
    · exact ⟨fun _ => ⟨hfailed, hlen.symm⟩, fun _ => hgiven⟩
    · intro _ later v hlater hnone
      exact restarts hlater hgiven.connecting hgiven.connected hp hiter hnone

/-- In every round the endpoints are tried in order from the first one, up to the first
that succeeds. Then nothing that was queued is lost; only when all have failed the round is
given up, and the next `DoSend` starts another. -/
theorem endpoints_fall_back (endpoints : Resolved) {round earlier : List (State × Event)}
    {u s : State} {e : Event} (h : Run step init (round ++ (u, e) :: earlier) s)
    (hresolved : ∃ p ∈ round ++ (u, e) :: earlier, p.2 = .connect endpoints)
    (hstart : StartsRound u e) (hround : ∀ p ∈ round, p.1.connecting = true) :
    Fallback endpoints.val u round s := by
  have hends := resolved_run h hresolved
  have hstage := stage_run h hstart hround
  rw [hends] at hstage
  exact hstage.fallback endpoints.property

/-- The second endpoint accepts; a message is queued between the two attempts. -/
theorem second_endpoint_accepts :
    ∃ round earlier u e s, Run step init (round ++ (u, e) :: earlier) s ∧
      attempts round = [(⟨1, 15002⟩, .failure), (⟨2, 15002⟩, .success)] ∧
      s.writeMsgs.map Msg.origin = [0, 1] ∧
      Fallback [⟨1, 15002⟩, ⟨2, 15002⟩] u round s := by
  have h := run_of_events step init
    [.send [47], .send [48], .connect ⟨[⟨1, 15002⟩, ⟨2, 15002⟩], by decide⟩, .doSend,
     .handleConnect ⟨1, 15002⟩ [⟨2, 15002⟩] .failure 0, .doSend,
     .handleConnect ⟨2, 15002⟩ [] .success 1] rfl
  refine ⟨[(_, _), (_, _), (_, _), (_, _)], _, _, _, _, h, rfl, rfl, ?_⟩
  exact endpoints_fall_back ⟨[⟨1, 15002⟩, ⟨2, 15002⟩], by decide⟩ h
    ⟨_, List.mem_append_right _ List.mem_cons_self, rfl⟩ rfl (by decide)

end AmClient.Tcp
