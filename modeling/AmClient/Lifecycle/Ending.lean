import AmClient.Lifecycle.Destruction
import AmClient.Lifecycle.Returning
import AmClient.Tcp.Silence
import AmClient.Tcp.Stream

/-!
# The end of a client

Once nothing is called but the destructor, only the IO thread and the destructor take steps.
The destructor can always come to its end, and `stop` is all that it needs for that: nothing
waits for the queue. What the client hands to its socket meanwhile is what it would hand to
it without the destructor.
-/

namespace AmClient.Lifecycle.Destruction
open Foundation
set_option autoImplicit false

section
variable {σ ε α : Type}

/-- Of the two threads only the IO thread goes on, and a handler runs when it is its turn. -/
def mayEnd (turn : σ → ε → Bool) (s : State σ α) : Event ε α → Bool
  | .thread (.handle x) => turn s.threads.client x
  | .thread e => e.byIo
  | _ => true

/-- Behind the destructor the object is gone. What a thread that is still live does then
has no meaning. -/
def endStep (T : Closable σ ε α) (turn : σ → ε → Bool) (s : State σ α) (e : Event ε α) :
    Option (State σ α) :=
  if s.dtor ≠ .finished ∧ mayEnd turn s e = true then step T s e else none

/-- The IO thread is behind `io_service::run`, or there is none. -/
def behindRun : Io α → Bool
  | .resetting | .clearingReady | .clearingRunning | .absent => true
  | _ => false

def joinable : Io α → Bool
  | .running => true
  | io => behindRun io

/-- The destructor has found `service_is_ready_` set and has not joined the thread. -/
def Dtor.waits : Dtor → Bool
  | .closing | .stopping | .joining => true
  | _ => false

variable {T : Closable σ ε α} {turn : σ → ε → Bool}

/-- What a step does. -/
inductive EndMove (T : Closable σ ε α) (turn : σ → ε → Bool) (s : State σ α) :
    Event ε α → State σ α → Prop where
  | thread {e : Lifecycle.Event ε α} {threads : Lifecycle.State σ α} {stopped : Bool} :
      e.byIo = true → (∀ x, e = .handle x → turn s.threads.client x = true) →
      Move T.toTransport s.threads e threads → (e ≠ .reset → stopped = s.stopped) →
      EndMove T turn s (.thread e) { s with threads := threads, stopped := stopped }
  | passes {e : Event ε α} {dtor : Dtor} : dtor.waits = false →
      EndMove T turn s e { s with dtor := dtor }
  | findsReady : s.threads.serviceIsReady = true →
      EndMove T turn s .readReady { s with dtor := .closing }
  | closes : s.dtor = .closing →
      EndMove T turn s .close
        { s with threads := { s.threads with client := T.close s.threads.client },
                 dtor := .stopping }
  | stops : s.dtor = .stopping → EndMove T turn s .stop { s with stopped := true, dtor := .joining }
  | leaves {e : Event ε α} :
      EndMove T turn s e { s with threads := { s.threads with io := .resetting } }

theorem endStep_move {s t : State σ α} {e : Event ε α} (h : endStep T turn s e = some t) :
    EndMove T turn s e t := by
  obtain ⟨⟨_, hmay⟩, hstep⟩ := Option.ite_none_right_eq_some.mp h
  cases e with
  | thread e =>
    obtain ⟨_, hmap⟩ := Option.ite_none_right_eq_some.mp hstep
    obtain ⟨threads, hthreads, rfl⟩ := Option.map_eq_some_iff.mp hmap
    refine .thread ?_ ?_ (step_move hthreads) ?_
    · cases e with
      | handle => rfl
      | _ => exact hmay
    · rintro x rfl
      exact hmay
    · intro hne
      cases e with
      | reset => exact (hne rfl).elim
      | _ => rfl
  | destroy =>
    simp only [step] at hstep
    split at hstep
    · obtain rfl := Option.some.inj hstep
      exact .passes rfl
    · cases hstep
  | readRunning =>
    simp only [step] at hstep
    split at hstep
    · obtain rfl := Option.some.inj hstep
      apply EndMove.passes
      split
      · rfl
      · rfl
    · cases hstep
  | readReady =>
    simp only [step] at hstep
    split at hstep
    · obtain rfl := Option.some.inj hstep
      cases hready : s.threads.serviceIsReady with
      | true => exact .findsReady hready
      | false => exact .passes rfl
    · cases hstep
  | close =>
    simp only [step] at hstep
    split at hstep
    · rename_i hnow
      obtain rfl := Option.some.inj hstep
      exact .closes hnow
    · cases hstep
  | stop =>
    simp only [step] at hstep
    split at hstep
    · rename_i hnow
      obtain rfl := Option.some.inj hstep
      exact .stops hnow
    · cases hstep
  | join | timedJoin =>
    simp only [step] at hstep
    split at hstep
    · obtain rfl := Option.some.inj hstep
      exact .passes rfl
    · cases hstep
  | runReturns =>
    simp only [step] at hstep
    split at hstep
    · split at hstep
      · obtain rfl := Option.some.inj hstep
        exact .leaves
      · cases hstep
    · cases hstep
  | runThrows =>
    simp only [step] at hstep
    split at hstep
    · obtain rfl := Option.some.inj hstep
      exact .leaves
    · obtain rfl := Option.some.inj hstep
      exact .leaves
    · cases hstep

/-- A destructor that waits finds the thread in `run` and stopped, or behind it. -/
structure Ends (s : State σ α) : Prop where
  idle : s.threads.app = .idle
  ready : s.threads.serviceIsReady = true → joinable s.threads.io = true
  waits : s.dtor.waits = true → joinable s.threads.io = true
  stopped : s.dtor = .joining → s.threads.io = .running → s.stopped = true

/-- The IO thread goes from `run` only to what is behind it. -/
theorem joinable_move {s t : Lifecycle.State σ α} {e : Lifecycle.Event ε α}
    (h : Move T.toTransport s e t) (he : e.byIo = true) (hjoin : joinable s.io = true) :
    joinable t.io = true := by
  cases h with
  | passes hnot => exact nomatch he.symm.trans hnot
  | finds | launches | announces | creates | fails | posts => cases he
  | resolves hio | starts hio =>
    rw [hio] at hjoin
    cases hjoin
  | handles hio => exact hjoin
  | _ => rfl

/-- The destructor goes on to where it does not wait. -/
theorem Ends.passes {s : State σ α} (h : Ends s) {dtor : Dtor} (hnot : dtor.waits = false) :
    Ends { s with dtor := dtor } := by
  refine ⟨h.idle, h.ready, (fun hwaits => nomatch hwaits.symm.trans hnot), ?_⟩
  rintro rfl
  cases hnot

theorem Ends.move {s t : State σ α} {e : Event ε α} (h : Ends s) (hmove : EndMove T turn s e t) :
    Ends t := by
  cases hmove with
  | thread hio _ hthreads hstopped =>
    have hkeep := joinable_move hthreads hio
    refine ⟨?_, ?_, fun hwaits => hkeep (h.waits hwaits), ?_⟩
    · cases hthreads with
      | passes hnot => exact nomatch hio.symm.trans hnot
      | finds | launches | announces | creates | fails | posts => cases hio
      | _ => exact h.idle
    · cases hthreads with
      | passes hnot => exact nomatch hio.symm.trans hnot
      | finds | launches | announces | creates | fails | posts => cases hio
      | ready => exact fun _ => rfl
      | clearsReady => exact nofun
      | _ => exact fun hready => hkeep (h.ready hready)
    · intro hjoining hrunning
      have hbefore := h.waits (by rw [hjoining]; rfl)
      cases hthreads with
      | passes hnot => exact nomatch hio.symm.trans hnot
      | finds | launches | announces | creates | fails | posts => cases hio
      | ready hnow =>
        rw [hnow] at hbefore
        cases hbefore
      | handles hnow => exact (hstopped (by simp)).trans (h.stopped hjoining hnow)
      | _ => cases hrunning
  | passes hnot => exact h.passes hnot
  | findsReady hready => exact ⟨h.idle, h.ready, fun _ => h.ready hready, nofun⟩
  | closes hnow => exact ⟨h.idle, h.ready, fun _ => h.waits (by rw [hnow]; rfl), nofun⟩
  | stops hnow => exact ⟨h.idle, h.ready, fun _ => h.waits (by rw [hnow]; rfl), fun _ _ => rfl⟩
  | leaves => exact ⟨h.idle, fun _ => rfl, fun _ => rfl, fun _ => nofun⟩

theorem ends_run {s₀ s : State σ α} {trace : List (State σ α × Event ε α)} (h₀ : Ends s₀)
    (h : Run (endStep T turn) s₀ trace s) : Ends s :=
  h.invariant h₀ fun hs hstep => hs.move (endStep_move hstep)

theorem joinable_of_not_opening {io : Io α} (h : io.opening = false) : joinable io = true := by
  cases io with
  | resolving | starting | readying => cases h
  | _ => rfl

/-- A client to which no handler can do anything but this is left as it is. -/
theorem quiet_run {ω : Type} {wire : σ → ω} {quiet : σ → Prop}
    (hhandle : ∀ {c c' x}, quiet c → turn c x = true → T.handle c x = some c' →
      quiet c' ∧ wire c' = wire c)
    (hclose : ∀ {c}, quiet c → quiet (T.close c) ∧ wire (T.close c) = wire c)
    {s₀ s : State σ α} {trace : List (State σ α × Event ε α)} (h : Run (endStep T turn) s₀ trace s)
    (hio : joinable s₀.threads.io = true) (h₀ : quiet s₀.threads.client) :
    wire s.threads.client = wire s₀.threads.client := by
  have hinv : joinable s.threads.io = true ∧ quiet s.threads.client ∧
      wire s.threads.client = wire s₀.threads.client := by
    refine h.invariant (I := fun s => joinable s.threads.io = true ∧ quiet s.threads.client ∧
      wire s.threads.client = wire s₀.threads.client) ⟨hio, h₀, rfl⟩ ?_
    rintro s e t ⟨hjoin, hquiet, hwire⟩ hstep
    cases endStep_move hstep with
    | passes | findsReady | stops => exact ⟨hjoin, hquiet, hwire⟩
    | leaves => exact ⟨rfl, hquiet, hwire⟩
    | closes =>
      obtain ⟨hquiet', hsame⟩ := hclose hquiet
      exact ⟨hjoin, hquiet', hsame.trans hwire⟩
    | thread hbyIo hturn hthreads =>
      refine ⟨joinable_move hthreads hbyIo hjoin, ?_⟩
      cases hthreads with
      | passes hnot => exact nomatch hbyIo.symm.trans hnot
      | finds | launches | announces | creates | fails | posts => cases hbyIo
      | @handles x _ _ hc =>
        obtain ⟨hquiet', hsame⟩ := hhandle hquiet (hturn x rfl) hc
        exact ⟨hquiet', hsame.trans hwire⟩
      | starts hnow =>
        rw [hnow] at hjoin
        cases hjoin
      | _ => exact ⟨hquiet, hwire⟩
  exact hinv.2.2

/-- The destructor can come to its end without that a handler runs. -/
def CanEnd (T : Closable σ ε α) (turn : σ → ε → Bool) {ω : Type} (wire : σ → ω) (s : State σ α) :
    Prop :=
  ∃ later t, Run (endStep T turn) s later t ∧ t.dtor = .finished ∧
    wire t.threads.client = wire s.threads.client

section
variable {ω : Type} {wire : σ → ω}

theorem CanEnd.of_step {s t : State σ α} {e : Event ε α} (ht : CanEnd T turn wire t)
    (hstep : endStep T turn s e = some t) (hwire : wire t.threads.client = wire s.threads.client) :
    CanEnd T turn wire s := by
  obtain ⟨later, u, hlater, hfinished, hsame⟩ := ht
  exact ⟨later ++ [(s, e)], u, (Run.start.next hstep).append hlater, hfinished, hsame.trans hwire⟩

theorem finished_ends {s : State σ α} (hnow : s.dtor = .finished) : CanEnd T turn wire s :=
  ⟨[], s, .start, hnow, rfl⟩

theorem absent_joins {s : State σ α} (hnow : s.dtor = .joining) (hio : s.threads.io = .absent) :
    CanEnd T turn wire s := by
  have hlast : CanEnd T turn wire { s with dtor := .finished } := finished_ends rfl
  refine hlast.of_step (e := .join) ?_ rfl
  simp [endStep, mayEnd, step, hnow, hio]

theorem clearingRunning_joins {s : State σ α} (hnow : s.dtor = .joining)
    (hio : s.threads.io = .clearingRunning) : CanEnd T turn wire s := by
  have hnext : CanEnd T turn wire
      { s with threads := { s.threads with threadIsRunning := false, io := .absent } } :=
    absent_joins hnow rfl
  refine hnext.of_step (e := .thread .clearRunning) ?_ rfl
  simp [endStep, mayEnd, step, Lifecycle.step, Lifecycle.Event.byIo, hnow, hio]

theorem clearingReady_joins {s : State σ α} (hnow : s.dtor = .joining)
    (hio : s.threads.io = .clearingReady) : CanEnd T turn wire s := by
  have hnext : CanEnd T turn wire
      { s with threads := { s.threads with serviceIsReady := false, io := .clearingRunning } } :=
    clearingRunning_joins hnow rfl
  refine hnext.of_step (e := .thread .clearReady) ?_ rfl
  simp [endStep, mayEnd, step, Lifecycle.step, Lifecycle.Event.byIo, hnow, hio]

theorem resetting_joins {s : State σ α} (hnow : s.dtor = .joining)
    (hio : s.threads.io = .resetting) : CanEnd T turn wire s := by
  have hnext : CanEnd T turn wire
      { s with threads := { s.threads with io := .clearingReady }, stopped := false } :=
    clearingReady_joins hnow rfl
  refine hnext.of_step (e := .thread .reset) ?_ rfl
  simp [endStep, mayEnd, step, Lifecycle.step, Lifecycle.Event.byIo, hnow, hio]

/-- The service is stopped: `run` returns. -/
theorem joining_ends {s : State σ α} (hnow : s.dtor = .joining)
    (hjoin : joinable s.threads.io = true) (hstopped : s.threads.io = .running → s.stopped = true) :
    CanEnd T turn wire s := by
  cases hio : s.threads.io with
  | absent => exact absent_joins hnow hio
  | clearingRunning => exact clearingRunning_joins hnow hio
  | clearingReady => exact clearingReady_joins hnow hio
  | resetting => exact resetting_joins hnow hio
  | running =>
    have hnext : CanEnd T turn wire { s with threads := { s.threads with io := .resetting } } :=
      resetting_joins hnow rfl
    refine hnext.of_step (e := .runReturns) ?_ rfl
    simp [endStep, mayEnd, step, hnow, hio, hstopped hio]
  | _ =>
    rw [hio] at hjoin
    cases hjoin

theorem stopping_ends {s : State σ α} (hnow : s.dtor = .stopping)
    (hjoin : joinable s.threads.io = true) : CanEnd T turn wire s := by
  have hnext : CanEnd T turn wire { s with stopped := true, dtor := .joining } :=
    joining_ends rfl hjoin fun _ => rfl
  refine hnext.of_step (e := .stop) ?_ rfl
  simp [endStep, mayEnd, step, hnow]

/-- From wherever the destructor and the IO thread are, the destructor can come to its end;
then nothing more has been handed to the socket. -/
theorem Ends.can_end (hclose : ∀ c, wire (T.close c) = wire c) {s : State σ α} (h : Ends s) :
    CanEnd T turn wire s := by
  have closing {s : State σ α} (hnow : s.dtor = .closing) (hjoin : joinable s.threads.io = true) :
      CanEnd T turn wire s := by
    have hnext : CanEnd T turn wire
        { s with threads := { s.threads with client := T.close s.threads.client },
                 dtor := .stopping } :=
      stopping_ends rfl hjoin
    refine hnext.of_step (e := .close) ?_ (hclose _)
    simp [endStep, mayEnd, step, hnow]
  have timedJoining {s : State σ α} (hnow : s.dtor = .timedJoining) : CanEnd T turn wire s := by
    have hlast : CanEnd T turn wire { s with dtor := .finished } := finished_ends rfl
    refine hlast.of_step (e := .timedJoin) ?_ rfl
    simp [endStep, mayEnd, step, hnow]
  have readingReady {s : State σ α} (h : Ends s) (hnow : s.dtor = .readingReady) :
      CanEnd T turn wire s := by
    cases hready : s.threads.serviceIsReady with
    | true =>
      have hnext : CanEnd T turn wire { s with dtor := .closing } := closing rfl (h.ready hready)
      refine hnext.of_step (e := .readReady) ?_ rfl
      simp [endStep, mayEnd, step, hnow, hready]
    | false =>
      have hnext : CanEnd T turn wire { s with dtor := .timedJoining } := timedJoining rfl
      refine hnext.of_step (e := .readReady) ?_ rfl
      simp [endStep, mayEnd, step, hnow, hready]
  have readingRunning {s : State σ α} (h : Ends s) (hnow : s.dtor = .readingRunning) :
      CanEnd T turn wire s := by
    cases hrun : s.threads.threadIsRunning with
    | true =>
      have hnext : CanEnd T turn wire { s with dtor := .readingReady } :=
        readingReady (h.passes rfl) rfl
      refine hnext.of_step (e := .readRunning) ?_ rfl
      simp [endStep, mayEnd, step, hnow, hrun]
    | false =>
      have hlast : CanEnd T turn wire { s with dtor := .finished } := finished_ends rfl
      refine hlast.of_step (e := .readRunning) ?_ rfl
      simp [endStep, mayEnd, step, hnow, hrun]
  cases hnow : s.dtor with
  | notCalled =>
    have hnext : CanEnd T turn wire { s with dtor := .readingRunning } :=
      readingRunning (h.passes rfl) rfl
    refine hnext.of_step (e := .destroy) ?_ rfl
    simp [endStep, mayEnd, step, hnow, h.idle]
  | readingRunning => exact readingRunning h hnow
  | readingReady => exact readingReady h hnow
  | closing => exact closing hnow (h.waits (by rw [hnow]; rfl))
  | stopping => exact stopping_ends hnow (h.waits (by rw [hnow]; rfl))
  | joining => exact joining_ends hnow (h.waits (by rw [hnow]; rfl)) (h.stopped hnow)
  | timedJoining => exact timedJoining hnow
  | finished => exact finished_ends hnow

end

section
variable {τ κ : Type} {U : Transport τ κ α} {Image : σ → ε → τ → κ → Prop} {same cut : σ → τ → Prop}

/-- The client takes the steps of `U`, until it is `cut` off from what it has to send: then
it takes some of them, and others that hand nothing over. -/
structure Mirrors (T : Closable σ ε α) (turn : σ → ε → Bool) (U : Transport τ κ α)
    (Image : σ → ε → τ → κ → Prop) (same cut : σ → τ → Prop) : Prop where
  start : ∀ {c u} answer, same c u → same (T.start c answer) (U.start u answer)
  handle : ∀ {early u c c' x}, Run (Lifecycle.step U) (Lifecycle.init U) early u →
    same c u.client → turn c x = true → T.handle c x = some c' → cut c' u.client ∨
      ∃ k v, Image c x u.client k ∧ U.handle u.client k = some v ∧ same c' v
  close : ∀ {c u}, same c u → same (T.close c) u
  cut_handle : ∀ {c c' u x}, cut c u → turn c x = true → T.handle c x = some c' → cut c' u ∨
    ∃ k v, Image c x u k ∧ U.handle u k = some v ∧ cut c' v
  cut_close : ∀ {c u}, cut c u → cut (T.close c) u

/-- `u` is where the class would be without its destructor. -/
def Follows (same cut : σ → τ → Prop) (s : State σ α) (u : Lifecycle.State τ α) : Prop :=
  cut s.threads.client u.client ∧
      (behindRun s.threads.io = true ∨ s.threads.io = .running ∧ u.io = .running) ∨
    same s.threads.client u.client ∧ (behindRun s.threads.io = true ∨ u.io = s.threads.io)

/-- A handler that runs in the one runs in the other. -/
def Images (Image : σ → ε → τ → κ → Prop) (p : State σ α × Event ε α)
    (q : Lifecycle.State τ α × Lifecycle.Event κ α) : Prop :=
  ∀ k, q.2 = .handle k → ∃ x, p.2 = .thread (.handle x) ∧
    Image p.1.threads.client x q.1.client k

theorem images_of_ne {p : State σ α × Event ε α} {q : Lifecycle.State τ α × Lifecycle.Event κ α}
    (h : ∀ k, q.2 ≠ .handle k) : Images Image p q :=
  fun k hk => (h k hk).elim

theorem Mirrors.step (M : Mirrors T turn U Image same cut) {s t : State σ α} {e : Event ε α}
    {early : List (Lifecycle.State τ α × Lifecycle.Event κ α)} {u : Lifecycle.State τ α}
    (hu : Run (Lifecycle.step U) (Lifecycle.init U) early u) (h : Follows same cut s u)
    (hstep : endStep T turn s e = some t) :
    Follows same cut t u ∨
      ∃ k v, ioStep U u k = some v ∧ Follows same cut t v ∧ Images Image (s, e) (u, k) := by
  cases endStep_move hstep with
  | passes | findsReady | stops => exact .inl h
  | leaves =>
    rcases h with ⟨hcut, _⟩ | ⟨hsame, _⟩
    · exact .inl (.inl ⟨hcut, .inl rfl⟩)
    · exact .inl (.inr ⟨hsame, .inl rfl⟩)
  | closes =>
    rcases h with ⟨hcut, hio⟩ | ⟨hsame, hio⟩
    · exact .inl (.inl ⟨M.cut_close hcut, hio⟩)
    · exact .inl (.inr ⟨M.close hsame, hio⟩)
  | thread hbyIo hturn hthreads =>
    have here {io : Io α} (hio : s.threads.io = io) (hin : behindRun io = false)
        (hfollows : behindRun s.threads.io = true ∨ u.io = s.threads.io) : u.io = io := by
      rcases hfollows with hbehind | hsame
      · rw [hio, hin] at hbehind
        cases hbehind
      · exact hsame.trans hio
    -- the client is cut off by a handler, so while the service runs
    have never {io : Io α} (hio : s.threads.io = io) (hin : behindRun io = false)
        (hne : io ≠ .running)
        (hcut : behindRun s.threads.io = true ∨ s.threads.io = .running ∧ u.io = .running) :
        False := by
      rcases hcut with hbehind | ⟨hrun, _⟩
      · rw [hio, hin] at hbehind
        cases hbehind
      · exact hne (hio.symm.trans hrun)
    cases hthreads with
    | passes hnot => exact nomatch hbyIo.symm.trans hnot
    | finds | launches | announces | creates | fails | posts => cases hbyIo
    | throws | resets | clearsReady | clearsRunning =>
      rcases h with ⟨hcut, _⟩ | ⟨hsame, _⟩
      · exact .inl (.inl ⟨hcut, .inl rfl⟩)
      · exact .inl (.inr ⟨hsame, .inl rfl⟩)
    | @resolves answer hio =>
      rcases h with ⟨_, hcut⟩ | ⟨hsame, hfollows⟩
      · exact (never hio rfl (by simp) hcut).elim
      · refine .inr ⟨.resolved answer, { u with io := .starting answer }, ?_,
          .inr ⟨hsame, .inr rfl⟩, images_of_ne (by simp)⟩
        simp [ioStep, Lifecycle.Event.byIo, Lifecycle.step, here hio rfl hfollows]
    | @starts answer hio =>
      rcases h with ⟨_, hcut⟩ | ⟨hsame, hfollows⟩
      · exact (never hio rfl (by simp) hcut).elim
      · refine .inr ⟨.start, { u with client := U.start u.client answer, io := .readying }, ?_,
          .inr ⟨M.start answer hsame, .inr rfl⟩, images_of_ne (by simp)⟩
        simp [ioStep, Lifecycle.Event.byIo, Lifecycle.step, here hio rfl hfollows]
    | ready hio =>
      rcases h with ⟨_, hcut⟩ | ⟨hsame, hfollows⟩
      · exact (never hio rfl (by simp) hcut).elim
      · refine .inr ⟨.setReady, { u with serviceIsReady := true, io := .running }, ?_,
          .inr ⟨hsame, .inr rfl⟩, images_of_ne (by simp)⟩
        simp [ioStep, Lifecycle.Event.byIo, Lifecycle.step, here hio rfl hfollows]
    | @handles x c hio hc =>
      have hturn := hturn x rfl
      have handled {k : κ} {v : τ} (hrun : u.io = .running) (hv : U.handle u.client k = some v) :
          ioStep U u (.handle k) = some { u with client := v } := by
        simp [ioStep, Lifecycle.Event.byIo, Lifecycle.step, hrun, hv]
      have images {k : κ} (himage : Image s.threads.client x u.client k) :
          Images Image (s, .thread (.handle x)) (u, .handle k) := by
        rintro _ ⟨⟩
        exact ⟨x, rfl, himage⟩
      rcases h with ⟨hcut, hbehind | ⟨_, hrun⟩⟩ | ⟨hsame, hfollows⟩
      · rw [hio] at hbehind
        cases hbehind
      · rcases M.cut_handle hcut hturn hc with hcut' | ⟨k, v, himage, hv, hcut'⟩
        · exact .inl (.inl ⟨hcut', .inr ⟨hio, hrun⟩⟩)
        · exact .inr ⟨.handle k, _, handled hrun hv, .inl ⟨hcut', .inr ⟨hio, hrun⟩⟩,
            images himage⟩
      · have hrun := here hio rfl hfollows
        rcases M.handle hu hsame hturn hc with hcut | ⟨k, v, himage, hv, hsame'⟩
        · exact .inl (.inl ⟨hcut, .inr ⟨hio, hrun⟩⟩)
        · exact .inr ⟨.handle k, _, handled hrun hv, .inr ⟨hsame', .inr (hrun.trans hio.symm)⟩,
            images himage⟩

/-- The class goes on without its destructor and hands over the same. -/
theorem Mirrors.follow (M : Mirrors T turn U Image same cut) {s₀ s : State σ α}
    {early : List (Lifecycle.State τ α × Lifecycle.Event κ α)} {u₀ : Lifecycle.State τ α}
    {trace : List (State σ α × Event ε α)}
    (hu₀ : Run (Lifecycle.step U) (Lifecycle.init U) early u₀) (h₀ : Follows same cut s₀ u₀)
    (h : Run (endStep T turn) s₀ trace s) :
    ∃ later u, Run (ioStep U) u₀ later u ∧ Follows same cut s u ∧
      ∀ q ∈ later, ∃ p ∈ trace, Images Image p q := by
  obtain ⟨later, u, hlater, ⟨_, hfollows⟩, himages⟩ := h.follow
    (fun s u => (∃ early, Run (Lifecycle.step U) (Lifecycle.init U) early u) ∧
      Follows same cut s u) (Images Image) ⟨⟨early, hu₀⟩, h₀⟩ (by
    rintro s t e u ⟨⟨early, hu⟩, hR⟩ hstep
    rcases M.step hu hR hstep with hstays | ⟨k, v, hk, hmoves, himage⟩
    · exact .inl ⟨⟨early, hu⟩, hstays⟩
    · exact .inr ⟨k, v, hk, ⟨⟨_, hu.next (ioStep_step hk).2⟩, hmoves⟩, himage⟩)
  exact ⟨later, u, hlater, hfollows, himages⟩

end

end

/-- `Close` posts `DoClose` behind the `DoSend` handlers. -/
def inTurn (c : Tcp.Closing.State) : Tcp.Closing.Event → Bool
  | .doClose => c.client.posted.isEmpty
  | _ => true

/-- The condition on a write that completes, also on one that `DoClose` cut off. -/
def KeepsUp (c : Tcp.Closing.State) : Tcp.Closing.Event → Prop
  | .client e => Tcp.KeepsUp c.client e
  | .staleWrite conn buffer error k now =>
    Tcp.KeepsUp c.client (.handleWrite conn buffer error k now)
  | _ => True

def tcpImage (c : Tcp.Closing.State) (x : Tcp.Closing.Event) (u : Tcp.State) (k : Tcp.Event) :
    Prop :=
  KeepsUp c x → Tcp.KeepsUp u k

/-- Before `DoClose`. -/
def tcpSame (c : Tcp.Closing.State) (u : Tcp.State) : Prop := c.client = u ∧ c.stale = []

def cutWrites (stale : List Tcp.Op) : List Tcp.Op := stale.filter fun op => !op.isConnect

/-- Behind it. A write that it cut off is outstanding in the client that goes on. -/
structure TcpCut (c : Tcp.Closing.State) (u : Tcp.State) : Prop where
  silent : Tcp.Silent u.conns c.client
  writes : cutWrites c.stale = [] ∨ ∃ conn buffer, cutWrites c.stale = [.write conn buffer] ∧
    .write conn buffer ∈ u.pending ∧ conn < u.conns.length

theorem cutWrites_pending {u : Tcp.State} (h : Tcp.Phase u) :
    cutWrites u.pending = [] ∨ ∃ conn buffer, cutWrites u.pending = [.write conn buffer] ∧
      .write conn buffer ∈ u.pending ∧ conn < u.conns.length := by
  cases h with
  | idle _ _ hp => exact .inl (by rw [hp]; rfl)
  | connecting _ _ _ _ _ hp => exact .inl (by rw [hp]; rfl)
  | writing front rest earlier current _ _ _ _ hcs hp =>
    refine .inr ⟨earlier.length, front, by rw [hp]; rfl, ?_, ?_⟩
    · rw [hp]
      exact List.mem_singleton_self _
    · rw [hcs, List.length_append]
      exact Nat.lt_succ_self _

theorem cutWrites_append {stale pending : List Tcp.Op}
    (h : ∀ op ∈ pending, op.isConnect = true) : cutWrites (stale ++ pending) = cutWrites stale := by
  have hnone : cutWrites pending = [] := by
    apply List.filter_eq_nil_iff.mpr
    intro op hop
    simp [h op hop]
  rw [cutWrites, List.filter_append, ← cutWrites, ← cutWrites, hnone, List.append_nil]

theorem cutWrites_erase (stale : List Tcp.Op) (op : Tcp.Op) :
    cutWrites (stale.erase op) = (cutWrites stale).erase op :=
  (List.erase_filter ..).symm

theorem cutWrites_erase_connect (stale : List Tcp.Op) (endpoint : Tcp.Endpoint)
    (next : List Tcp.Endpoint) :
    cutWrites (stale.erase (.connect endpoint next)) = cutWrites stale := by
  rw [cutWrites_erase]
  apply List.erase_of_not_mem
  simp [cutWrites, Tcp.Op.isConnect]

/-- The write that was cut off is the one that completes. -/
theorem TcpCut.write {c : Tcp.Closing.State} {u : Tcp.State} (h : TcpCut c u) {conn : Nat}
    {buffer : Msg} (hmem : .write conn buffer ∈ c.stale) : .write conn buffer ∈ u.pending ∧
      conn < u.conns.length ∧ cutWrites (c.stale.erase (.write conn buffer)) = [] := by
  have hcut : Tcp.Op.write conn buffer ∈ cutWrites c.stale :=
    List.mem_filter.mpr ⟨hmem, rfl⟩
  rcases h.writes with hnone | ⟨other, front, hone, hpending, hlt⟩
  · rw [hnone] at hcut
    cases hcut
  · rw [hone, List.mem_singleton] at hcut
    cases hcut
    refine ⟨hpending, hlt, ?_⟩
    rw [cutWrites_erase, hone, List.erase_cons_head]

theorem TcpCut.keepsUp {c : Tcp.Closing.State} {u : Tcp.State} (h : TcpCut c u) {conn : Nat}
    {buffer : Msg} {k : Nat} {now : Int}
    (hkeeps : Tcp.KeepsUp c.client (.handleWrite conn buffer .success k now)) :
    Tcp.KeepsUp u (.handleWrite conn buffer .success k now) := by
  intro d hd p hp
  obtain ⟨e, he, hsame⟩ := h.silent.same_transfers hd
  exact hkeeps e he p (hsame ▸ hp)

/-- A write that was cut off and had sent something completes in the client that goes on. -/
theorem TcpCut.sent {c : Tcp.Closing.State} {u : Tcp.State} (h : TcpCut c u) {conn : Nat}
    {buffer : Msg} {k : Nat} (now : Int) (hmem : .write conn buffer ∈ c.stale)
    (hk : Tcp.Transferable buffer .success k) :
    ∃ v, Tcp.step u (.handleWrite conn buffer .success k now) = some v ∧
      TcpCut { c with client := (c.client.transfer conn buffer .success k).handleWrite .success now,
                      stale := c.stale.erase (.write conn buffer) } v := by
  obtain ⟨hpending, hlt, hnone⟩ := h.write hmem
  refine ⟨_, if_pos ⟨hpending, hk⟩, ?_, .inl hnone⟩
  have hsilent := (h.silent.transfer hlt buffer k).handleWrite .success now
  exact hsilent.of_transfers (Tcp.transfers_handleWrite _ now)

/-- One that had sent nothing leaves it as it is. -/
theorem TcpCut.failed {c c' : Tcp.Closing.State} {u : Tcp.State} (h : TcpCut c u) {conn : Nat}
    {buffer : Msg} {error : Tcp.ErrorCode} {k : Nat} {now : Int} (herr : error ≠ .success)
    (hc : Tcp.Closing.step c (.staleWrite conn buffer error k now) = some c') : TcpCut c' u := by
  obtain ⟨⟨hmem, _⟩, hsome⟩ := Option.ite_none_right_eq_some.mp hc
  obtain ⟨_, _, hnone⟩ := h.write hmem
  have hwritten := h.silent.handleWrite error now
  rw [Tcp.State.transfer, if_neg herr] at hsome
  split at hsome
  · obtain rfl := Option.some.inj hsome
    exact ⟨hwritten.cut_off, .inl (by rw [cutWrites_append hwritten.connects, hnone])⟩
  · obtain rfl := Option.some.inj hsome
    exact ⟨hwritten, .inl hnone⟩

theorem tcp_mirrors : Mirrors tcp inTurn Lifecycle.tcp tcpImage tcpSame TcpCut where
  start := by
    rintro c u answer ⟨rfl, hstale⟩
    exact ⟨rfl, hstale⟩
  handle := by
    rintro early u c c' x hu ⟨hsame, hstale⟩ hturn hc
    cases x with
    | client e =>
      right
      have hkeeps {c' : Tcp.Closing.State} (hstep : Tcp.Closing.step c (.client e) = some c') :
          ∃ v, Tcp.step u.client e = some v ∧ c'.client = v ∧ c'.stale = [] := by
        obtain ⟨v, hv, rfl⟩ := Option.map_eq_some_iff.mp hstep
        exact ⟨v, hsame ▸ hv, rfl, hstale⟩
      have himage : tcpImage c (.client e) u.client e := by
        rw [← hsame]
        exact id
      cases e with
      | send | connect => cases hc
      | _ =>
        obtain ⟨v, hv, hsame'⟩ := hkeeps hc
        exact ⟨_, v, himage, hv, hsame'⟩
    | close => cases hc
    | doClose =>
      left
      obtain ⟨_, hsome⟩ := Option.ite_none_right_eq_some.mp hc
      obtain rfl := Option.some.inj hsome
      have hposted : c.client.posted = [] := List.isEmpty_iff.mp hturn
      rw [← hsame]
      refine ⟨Tcp.silent_doClose hposted ⟨0, (List.append_nil _).symm⟩, ?_⟩
      rw [hstale, hsame]
      exact cutWrites_pending (Tcp.phase_run (tcp_client_run hu))
    | staleConnect | staleWrite => simp [tcp, Tcp.Closing.step, hstale] at hc
  close := fun hsame => hsame
  cut_handle := by
    rintro c c' u x hcut _ hc
    cases x with
    | client e =>
      left
      have hkeeps {c' : Tcp.Closing.State} (hne : ∀ msg, e ≠ .send msg)
          (hstep : Tcp.Closing.step c (.client e) = some c') : TcpCut c' u := by
        obtain ⟨v, hv, rfl⟩ := Option.map_eq_some_iff.mp hstep
        exact ⟨hcut.silent.step hne hv, hcut.writes⟩
      cases e with
      | send | connect => cases hc
      | _ => exact hkeeps (by simp) hc
    | close => cases hc
    | doClose =>
      left
      obtain ⟨_, hsome⟩ := Option.ite_none_right_eq_some.mp hc
      obtain rfl := Option.some.inj hsome
      refine ⟨Tcp.silent_doClose hcut.silent.posted hcut.silent.conns, ?_⟩
      rw [cutWrites_append hcut.silent.connects]
      exact hcut.writes
    | staleConnect endpoint next error now =>
      left
      obtain ⟨_, hsome⟩ := Option.ite_none_right_eq_some.mp hc
      obtain rfl := Option.some.inj hsome
      refine ⟨hcut.silent.handleConnect error next now, ?_⟩
      rw [cutWrites_erase_connect]
      exact hcut.writes
    | staleWrite conn buffer error k now =>
      by_cases herr : error = .success
      · right
        subst herr
        obtain ⟨⟨hmem, hk⟩, hsome⟩ := Option.ite_none_right_eq_some.mp hc
        obtain rfl := Option.some.inj hsome
        obtain ⟨v, hv, hcut'⟩ := hcut.sent now hmem hk
        exact ⟨_, v, hcut.keepsUp, hv, hcut'⟩
      · exact .inl (hcut.failed herr hc)
  cut_close := fun hcut => ⟨hcut.silent, hcut.writes⟩

theorem udp_mirrors : Mirrors udp (fun _ _ => true) Lifecycle.udp (fun _ x _ k => x = k) Eq
    (fun _ _ => False) where
  start := by
    rintro c _ _ rfl
    rfl
  handle := by
    rintro early u _ c' x _ rfl _ hc
    exact .inr ⟨x, c', rfl, hc, rfl⟩
  close := fun hsame => hsame
  cut_handle := by
    rintro _ _ _ _ ⟨⟩
  cut_close := fun hcut => hcut

theorem tcp_arrived
    {trace : List (Lifecycle.State Tcp.State Tcp.Resolved × Lifecycle.Event Tcp.Event Tcp.Resolved)}
    {s : Lifecycle.State Tcp.State Tcp.Resolved}
    (h : Run (Lifecycle.step Lifecycle.tcp) (Lifecycle.init Lifecycle.tcp) trace s)
    (hidle : s.app = .idle) (hnone : s.client.posted = []) : joinable s.io = true := by
  have hconnect (c : Tcp.State) (endpoints : List Tcp.Endpoint) :
      (c.connect endpoints).posted = c.posted := by
    unfold Tcp.State.connect
    split
    · cases endpoints with
      | nil => rfl
      | cons => rfl
    · rfl
  apply joinable_of_not_opening
  exact arrived (T := Lifecycle.tcp) (fun c msg => by simp [Lifecycle.tcp, Tcp.State.send])
    (fun c answer => hconnect c answer.val) h hidle hnone

theorem udp_arrived {trace : List (Lifecycle.State Udp.State Unit × Lifecycle.Event Udp.Event Unit)}
    {s : Lifecycle.State Udp.State Unit}
    (h : Run (Lifecycle.step Lifecycle.udp) (Lifecycle.init Lifecycle.udp) trace s)
    (hidle : s.app = .idle) (hnone : s.client.posted = []) : joinable s.io = true := by
  apply joinable_of_not_opening
  exact arrived (T := Lifecycle.udp) (fun c msg => by simp [Lifecycle.udp, Udp.State.send])
    (fun _ _ => rfl) h hidle hnone

theorem tcp_left_alone {s₀ s : State Tcp.Closing.State Tcp.Resolved}
    {trace : List (State Tcp.Closing.State Tcp.Resolved × Event Tcp.Closing.Event Tcp.Resolved)}
    (h : Run (endStep tcp inTurn) s₀ trace s) (hio : joinable s₀.threads.io = true)
    (h₀ : s₀.threads.client.client.posted = [] ∧ s₀.threads.client.client.pending = [] ∧
      s₀.threads.client.stale = []) :
    s.threads.client.client.conns = s₀.threads.client.client.conns := by
  have hhandle {c c' : Tcp.Closing.State} {x : Tcp.Closing.Event}
      (hquiet : c.client.posted = [] ∧ c.client.pending = [] ∧ c.stale = [])
      (hc : tcp.handle c x = some c') :
      (c'.client.posted = [] ∧ c'.client.pending = [] ∧ c'.stale = []) ∧
        c'.client.conns = c.client.conns := by
    obtain ⟨hposted, hpending, hstale⟩ := hquiet
    cases x with
    | client e =>
      cases e with
      | send | connect => cases hc
      | doSend => simp [tcp, Tcp.Closing.step, Tcp.step, hposted] at hc
      | handleConnect | handleWrite => simp [tcp, Tcp.Closing.step, Tcp.step, hpending] at hc
    | close => cases hc
    | doClose =>
      obtain ⟨_, hsome⟩ := Option.ite_none_right_eq_some.mp hc
      obtain rfl := Option.some.inj hsome
      exact ⟨⟨hposted, rfl, by simp [hpending, hstale]⟩, rfl⟩
    | staleConnect | staleWrite => simp [tcp, Tcp.Closing.step, hstale] at hc
  exact quiet_run (T := tcp) (fun hquiet _ hc => hhandle hquiet hc)
    (fun hquiet => ⟨hquiet, rfl⟩) h hio h₀

theorem udp_left_alone {s₀ s : State Udp.State Unit}
    {trace : List (State Udp.State Unit × Event Udp.Event Unit)}
    (h : Run (endStep udp fun _ _ => true) s₀ trace s) (hio : joinable s₀.threads.io = true)
    (h₀ : s₀.threads.client.posted = [] ∧ s₀.threads.client.pending = []) :
    s.threads.client.started = s₀.threads.client.started := by
  have hnone {c c' : Udp.State} {x : Udp.Event} (hquiet : c.posted = [] ∧ c.pending = []) :
      udp.handle c x ≠ some c' := by
    obtain ⟨hposted, hpending⟩ := hquiet
    cases x with
    | send => exact nofun
    | doSend => simp [udp, Lifecycle.udp, Udp.step, hposted]
    | handlerWrite => simp [udp, Lifecycle.udp, Udp.step, hpending]
  exact quiet_run (T := udp) (fun hquiet _ hc => (hnone hquiet hc).elim)
    (fun hquiet => ⟨hquiet, rfl⟩) h hio h₀

end AmClient.Lifecycle.Destruction
