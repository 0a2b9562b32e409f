import AmClient.Lifecycle.Thread

/-!
# One IO thread at a time

`thread_is_running_` and `service_is_ready_` are plain booleans that both threads write.
In every run, also of hosts that do not resolve and of threads that cannot be created,
`RunThread` creates a thread only after the last one has left, and only one thread ever
connects.
-/

namespace AmClient.Lifecycle
open Foundation
set_option autoImplicit false

section
variable {σ ε α : Type} {T : Transport σ ε α}

structure OneThread (s : State σ α) : Prop where
  flag : s.threadIsRunning = true ↔ s.io ≠ .absent ∨ ∃ msg, s.app = .creating msg
  alone : ∀ msg, s.app = .launching msg ∨ s.app = .creating msg → s.io = .absent
  ready : s.serviceIsReady = true ↔ s.io = .running

theorem oneThread_init : OneThread (init T) :=
  ⟨by simp [init], (fun _ _ => rfl), by simp [init]⟩

theorem OneThread.flag_iff {s : State σ α} (h : OneThread s) (hnow : ∀ msg, s.app ≠ .creating msg) :
    s.threadIsRunning = true ↔ s.io ≠ .absent := by
  rw [h.flag]
  constructor
  · intro hor
    rcases hor with hio | ⟨msg, hmsg⟩
    · exact hio
    · exact (hnow msg hmsg).elim
  · exact Or.inl

/-- A step of the IO thread that keeps the thread and does not touch its flag. -/
theorem OneThread.moveIo {s : State σ α} (h : OneThread s) {io : Io α} {c : σ} {ready : Bool}
    (hio : s.io ≠ .absent) (hio' : io ≠ .absent) (hready : ready = true ↔ io = .running) :
    OneThread { s with client := c, serviceIsReady := ready, io := io } := by
  refine ⟨?_, ?_, hready⟩
  · exact ⟨fun _ => .inl hio', fun _ => h.flag.mpr (.inl hio)⟩
  · intro msg hmsg
    exact (hio (h.alone msg hmsg)).elim

theorem OneThread.move {s t : State σ α} {e : Event ε α} (h : OneThread s) (hmove : Move T s e t) :
    OneThread t := by
  have ready_false (hio : s.io ≠ .running) : s.serviceIsReady = false := by
    by_contra hne
    exact hio (h.ready.mp (by simpa using hne))
  cases hmove with
  | passes _ hnow happ =>
    refine ⟨?_, ?_, h.ready⟩
    · rw [h.flag_iff hnow]
      simp [fun msg => (happ msg).2.1]
    · intro msg hmsg
      rcases hmsg with hmsg | hmsg
      · exact ((happ msg).1 hmsg).elim
      · exact ((happ msg).2.1 hmsg).elim
  | finds happ hrun =>
    have hio := (h.flag_iff (by simp [happ])).mp hrun
    exact ⟨by simp [hrun, hio], by simp, h.ready⟩
  | launches happ hrun =>
    have hflag := h.flag_iff (by simp [happ])
    have hio : s.io = .absent := by
      by_contra hne
      exact nomatch hrun.symm.trans (hflag.mpr hne)
    exact ⟨by simp [hrun, hio], fun _ _ => hio, h.ready⟩
  | announces happ =>
    have hio := h.alone _ (.inl happ)
    exact ⟨by simp, fun _ _ => hio, h.ready⟩
  | creates happ =>
    have hio := h.alone _ (.inr happ)
    have hrun := h.flag.mpr (.inr ⟨_, happ⟩)
    exact ⟨by simp [hrun], by simp, by simp [ready_false (by simp [hio])]⟩
  | fails happ =>
    have hio := h.alone _ (.inr happ)
    exact ⟨by simp [hio], fun _ _ => hio, h.ready⟩
  | posts happ =>
    have hflag := h.flag_iff (by simp [happ])
    exact ⟨by simp [hflag], by simp, h.ready⟩
  | resolves hio => exact h.moveIo (by simp [hio]) (by simp) (by simp [ready_false, hio])
  | throws hio => exact h.moveIo (by simp [hio]) (by simp) (by simp [ready_false, hio])
  | starts hio => exact h.moveIo (by simp [hio]) (by simp) (by simp [ready_false, hio])
  | ready hio => exact h.moveIo (by simp [hio]) (by simp) (by simp)
  | handles hio => exact h.moveIo (by simp [hio]) (by simp [hio]) h.ready
  | resets hio => exact h.moveIo (by simp [hio]) (by simp) (by simp [ready_false, hio])
  | clearsReady hio => exact h.moveIo (by simp [hio]) (by simp) (by simp)
  | clearsRunning hio =>
    have hnow : ∀ msg, s.app ≠ .creating msg := by
      intro msg hmsg
      have habsent := h.alone msg (.inr hmsg)
      rw [hio] at habsent
      exact nomatch habsent
    refine ⟨by simp [hnow], fun _ _ => rfl, by simp [ready_false, hio]⟩

theorem oneThread_run {trace : List (State σ α × Event ε α)} {s : State σ α}
    (h : Run (step T) (init T) trace s) : OneThread s :=
  h.invariant oneThread_init fun hs hstep => hs.move (step_move hstep)

/-- The thread is on its way to `io_service::run`. -/
def Io.opening : Io α → Bool
  | .resolving | .starting _ | .readying => true
  | _ => false

/-- A thread on its way to `run` was created for a message that no handler has taken yet. -/
theorem opening_posted {posted : σ → List Msg} (hsend : ∀ c msg, posted (T.send c msg) ≠ [])
    (hstart : ∀ c answer, posted (T.start c answer) = posted c)
    {trace : List (State σ α × Event ε α)} {s : State σ α} (h : Run (step T) (init T) trace s) :
    s.io.opening = true → posted s.client ≠ [] ∨ ∃ msg, s.app = .posting msg := by
  refine h.invariant
    (I := fun s => s.io.opening = true → posted s.client ≠ [] ∨ ∃ msg, s.app = .posting msg)
    nofun ?_
  intro s e t hs hstep
  have stays (hnow : ∀ msg, s.app ≠ .posting msg) (hopening : s.io.opening = true) :
      posted s.client ≠ [] := by
    rcases hs hopening with hposted | ⟨msg, hmsg⟩
    · exact hposted
    · exact (hnow msg hmsg).elim
  cases e with
  | createThread created =>
    simp only [step] at hstep
    split at hstep
    · rename_i msg happ
      split at hstep
      · obtain rfl := Option.some.inj hstep
        exact fun _ => .inr ⟨msg, rfl⟩
      · obtain rfl := Option.some.inj hstep
        exact fun hopening => .inl (stays (by simp [happ]) hopening)
    · cases hstep
  | post =>
    simp only [step] at hstep
    split at hstep
    · obtain rfl := Option.some.inj hstep
      exact fun _ => .inl (hsend _ _)
    · cases hstep
  | callSend | testThread | setRunning | callBlock | readRunning | readReady | testQueue | wake =>
    simp only [step] at hstep
    split at hstep
    · rename_i happ
      obtain rfl := Option.some.inj hstep
      exact fun hopening => .inl (stays (by simp [happ]) hopening)
    · cases hstep
  | start =>
    simp only [step] at hstep
    split at hstep
    · rename_i answer hio
      obtain rfl := Option.some.inj hstep
      intro _
      rw [hstart]
      exact hs (by rw [hio]; rfl)
    · cases hstep
  | handle =>
    simp only [step] at hstep
    split at hstep
    · rename_i hio
      obtain ⟨c, _, rfl⟩ := Option.map_eq_some_iff.mp hstep
      intro hopening
      simp only [hio] at hopening
      cases hopening
    · cases hstep
  | resolved =>
    simp only [step] at hstep
    split at hstep
    · rename_i hio
      obtain rfl := Option.some.inj hstep
      exact fun _ => hs (by rw [hio]; rfl)
    · cases hstep
  | _ =>
    simp only [step] at hstep
    split at hstep
    · obtain rfl := Option.some.inj hstep
      intro hopening
      cases hopening
    · cases hstep

/-- With nothing posted no thread is on its way. -/
theorem arrived {posted : σ → List Msg} (hsend : ∀ c msg, posted (T.send c msg) ≠ [])
    (hstart : ∀ c answer, posted (T.start c answer) = posted c)
    {trace : List (State σ α × Event ε α)} {s : State σ α} (h : Run (step T) (init T) trace s)
    (hidle : s.app = .idle) (hnone : posted s.client = []) : s.io.opening = false := by
  by_contra hne
  have hopening : s.io.opening = true := by simpa using hne
  rcases opening_posted hsend hstart h hopening with hposted | ⟨msg, happ⟩
  · exact hposted hnone
  · rw [hidle] at happ
    cases happ

def Event.creates : Event ε α → Bool
  | .createThread created => created
  | _ => false

def Event.ends : Event ε α → Bool
  | .clearRunning => true
  | _ => false

def Event.starts : Event ε α → Bool
  | .start => true
  | _ => false

def Io.present : Io α → Nat
  | .absent => 0
  | _ => 1

/-- `Run` has called `Connect`. While nothing throws, such a thread does not leave before the
destructor stops it. -/
def Io.started : Io α → Bool
  | .readying => true
  | .running => true
  | _ => false

/-- What a step changes about the thread. -/
structure Passage (s : State σ α) (e : Event ε α) (t : State σ α) : Prop where
  present : t.io.present + (if e.ends then 1 else 0) = s.io.present + (if e.creates then 1 else 0)
  started : t.io.started = (s.io.started || e.starts)
  fresh : e.starts = true → s.io.started = false
  alone : e.creates = true → s.io = .absent

theorem Event.byApp_quiet {e : Event ε α} (h : e.byIo = false) :
    e.ends = false ∧ e.starts = false := by
  cases e with
  | clearRunning => exact nomatch h
  | start => exact nomatch h
  | _ => exact ⟨rfl, rfl⟩

theorem Move.io_unchanged {s t : State σ α} {e : Event ε α} (h : Move T s e t)
    (happ : e.byIo = false) (hcreates : e.creates = false) : t.io = s.io := by
  cases h with
  | passes => rfl
  | finds => rfl
  | launches => rfl
  | announces => rfl
  | creates => exact nomatch hcreates
  | fails => rfl
  | posts => rfl
  | _ => exact nomatch happ

theorem step_creates {s t : State σ α} {e : Event ε α} (h : step T s e = some t)
    (hcreates : e.creates = true) :
    ∃ msg, s.app = .creating msg ∧ t = { s with io := .resolving, app := .posting msg } := by
  cases e with
  | createThread created =>
    obtain rfl : created = true := hcreates
    simp only [step] at h
    split at h
    · rename_i msg happ
      exact ⟨msg, happ, (Option.some.inj h).symm⟩
    · cases h
  | _ => simp [Event.creates] at hcreates

theorem OneThread.passage {s t : State σ α} {e : Event ε α} (hs : OneThread s)
    (h : step T s e = some t) : Passage s e t := by
  have hmove := step_move h
  by_cases hcreates : e.creates = true
  · obtain ⟨msg, happ, rfl⟩ := step_creates h hcreates
    have hio := hs.alone msg (.inr happ)
    cases e with
    | createThread created => exact ⟨by simp [Event.ends, hcreates, hio, Io.present],
        by simp [Event.starts, hio, Io.started], (fun hn => nomatch hn), fun _ => hio⟩
    | _ => simp [Event.creates] at hcreates
  · simp only [Bool.not_eq_true] at hcreates
    by_cases happ : e.byIo = false
    · obtain ⟨hends, hstarts⟩ := Event.byApp_quiet happ
      have hio := hmove.io_unchanged happ hcreates
      exact ⟨by simp [hio, hends, hcreates], by simp [hio, hstarts], by simp [hstarts],
        by simp [hcreates]⟩
    · cases hmove with
      | passes hnot => exact (happ hnot).elim
      | handles hio | resolves hio | throws hio | starts hio | ready hio | resets hio
      | clearsReady hio | clearsRunning hio =>
        exact ⟨by simp [hio, Io.present, Event.ends, Event.creates],
          by simp [hio, Io.started, Event.starts], by simp [hio, Io.started, Event.starts],
          by simp [Event.creates]⟩
      | _ => exact (happ rfl).elim

/-- The threads of a run follow one another: the states keep the two flags in step, a
thread is created where there is none, and at most one thread connects. -/
structure Successive (trace : List (State σ α × Event ε α)) (s : State σ α) : Prop where
  one : ∀ t ∈ visited trace s, OneThread t
  created : trace.countP (fun p => p.2.creates) = trace.countP (fun p => p.2.ends) + s.io.present
  connected : trace.countP (fun p => p.2.starts) = if s.io.started then 1 else 0
  created_alone : ∀ p ∈ trace, p.2.creates = true → p.1.io = .absent

/-- Whatever the two threads interleave, whether or not hosts resolve and threads can be
created. -/
theorem threads_successive {trace : List (State σ α × Event ε α)} {s : State σ α}
    (h : Run (step T) (init T) trace s) : Successive trace s := by
  induction h with
  | start => exact ⟨by simpa [visited] using oneThread_init, rfl, rfl, (fun _ hp => nomatch hp)⟩
  | @next trace s t e hrun hstep ih =>
    have hone := oneThread_run hrun
    obtain ⟨hpresent, hstarted, hfresh, halone⟩ := hone.passage hstep
    refine ⟨?_, ?_, ?_, ?_⟩
    · exact List.forall_mem_cons.mpr ⟨hone.move (step_move hstep), ih.one⟩
    · simp only [List.countP_cons, ih.created]
      omega
    · simp only [List.countP_cons, ih.connected, hstarted]
      cases hstarts : e.starts with
      | false => simp
      | true => simp [hfresh hstarts]
    · exact List.forall_mem_cons.mpr ⟨halone, ih.created_alone⟩

end

/-- The host does not resolve for the first thread; the second `Send` creates another one,
which connects. -/
theorem threads_successive_of_two :
    ∃ trace s, Run (step tcp) (init tcp) trace s ∧
      trace.countP (fun p => p.2.creates) = 2 ∧ s.io = .running ∧ Successive trace s := by
  have h := run_of_events (step tcp) (init tcp)
    [.callSend [47], .testThread, .setRunning, .createThread true, .resolveThrows, .post, .reset,
     .clearReady, .clearRunning, .callSend [48], .testThread, .setRunning, .createThread true,
     .resolved ⟨[⟨1, 15002⟩], by decide⟩, .start, .setReady] rfl
  exact ⟨_, _, h, rfl, rfl, threads_successive h⟩

end AmClient.Lifecycle
