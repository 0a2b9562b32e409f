import AmClient.Lifecycle.Draining

/-!
# The return of Send and of BlockUntilQueueIsEmpty

`Send` waits for nothing. A waiter in `BlockUntilQueueIsEmpty` only reads the two flags and
tests the queue. Where the IO thread has come to rest, or was never there, it returns; and
as long as no `resolve` throws, and no datagram fails, the IO thread can come to rest with
an empty queue.
-/

namespace AmClient.Lifecycle
open Foundation
set_option autoImplicit false

section
variable {σ ε α : Type} {T : Transport σ ε α}

/-- An event that only `BlockUntilQueueIsEmpty` and the IO thread take part in. -/
def Event.waits : Event ε α → Bool
  | .callSend _ => false
  | .callBlock => false
  | _ => true

/-- A step of the waiter itself. -/
def Event.byWaiter : Event ε α → Bool
  | .readRunning | .readReady | .testQueue | .wake => true
  | _ => false

def Event.throws : Event ε α → Bool
  | .resolveThrows => true
  | _ => false

theorem Event.ne_throws {e : Event ε α} (h : e.throws = false) : e ≠ .resolveThrows := by
  rintro rfl
  simp [Event.throws] at h

theorem step_waits {s t : State σ α} {e : Event ε α} (h : step T s e = some t)
    (hwaits : e.waits = true) (happ : s.app.blocks = true) :
    t.app.blocks = true ∧ (s.app = .idle → t.app = .idle) := by
  cases e with
  | callSend | callBlock => simp [Event.waits] at hwaits
  | testThread | setRunning | createThread | post =>
    simp only [step] at h
    split at h
    · rename_i hin
      simp [hin, App.blocks] at happ
    · cases h
  | readRunning | readReady | testQueue =>
    simp only [step] at h
    split at h
    · rename_i hin
      obtain rfl := Option.some.inj h
      refine ⟨?_, by simp [hin]⟩
      simp only
      split
      · rfl
      · rfl
    · cases h
  | wake =>
    simp only [step] at h
    split at h
    · rename_i hin
      obtain rfl := Option.some.inj h
      exact ⟨rfl, by simp [hin]⟩
    · cases h
  | handle x =>
    simp only [step] at h
    split at h
    · obtain ⟨c, _, rfl⟩ := Option.map_eq_some_iff.mp h
      exact ⟨happ, id⟩
    · cases h
  | _ =>
    simp only [step] at h
    split at h
    · obtain rfl := Option.some.inj h
      exact ⟨happ, id⟩
    · cases h

theorem Event.byWaiter_waits {e : Event ε α} (h : e.byWaiter = true) : e.waits = true := by
  cases e with
  | callSend | callBlock => cases h
  | _ => rfl

/-- The waiter leaves the client as it is. -/
theorem byWaiter_client {s t : State σ α} {later : List (State σ α × Event ε α)}
    (h : Run (step T) s later t) (hwaiter : ∀ p ∈ later, p.2.byWaiter = true) :
    t.client = s.client ∧ ∀ p ∈ later, p.1.client = s.client := by
  induction h with
  | start => exact ⟨rfl, by simp⟩
  | @next later u t e _ hstep ih =>
    obtain ⟨hlast, hbefore⟩ := List.forall_mem_cons.mp hwaiter
    obtain ⟨hclient, hall⟩ := ih hbefore
    have hkept : t.client = u.client := by
      apply (step_move hstep).client_kept
      · rintro rfl
        cases hlast
      · rintro rfl
        cases hlast
      · rintro x rfl
        cases hlast
    exact ⟨hkept.trans hclient, List.forall_mem_cons.mpr ⟨hclient, hall⟩⟩

/-- The queue is tested once more, and the waiter returns. -/
theorem tests_and_returns {s : State σ α} (hfree : T.mustWait s.client = false)
    (happ : s.app = .testingQueue) :
    Run (step T) s [(s, .testQueue)] { s with app := .idle } := by
  refine Run.start.next ?_
  simp [step, happ, hfree]

/-- The waiter reads both flags, tests the queue and returns. -/
theorem waiter_returns {s : State σ α} (hone : OneThread s)
    (hio : s.io = .absent ∨ s.io = .running) (hfree : T.mustWait s.client = false)
    (happ : s.app.blocks = true) :
    ∃ later, Run (step T) s later { s with app := .idle } ∧ ∀ p ∈ later, p.2.byWaiter = true := by
  have hflag := hone.flag_iff (by
    intro msg hmsg
    simp [hmsg, App.blocks] at happ)
  have reads {u : State σ α} (hu : u = { s with app := .readingReady }) (hrun : s.io = .running) :
      Run (step T) u [({ s with app := .testingQueue }, .testQueue), (u, .readReady)]
        { s with app := .idle } := by
    have hready := hone.ready.mpr hrun
    have hfirst : step T u .readReady = some { s with app := .testingQueue } := by
      simp [step, hu, hready]
    exact (Run.start.next hfirst).append (tests_and_returns hfree rfl)
  have passes {u : State σ α} (hu : u = { s with app := .readingRunning })
      (habsent : s.io = .absent) :
      Run (step T) u [({ s with app := .testingQueue }, .testQueue), (u, .readRunning)]
        { s with app := .idle } := by
    have hnot : s.threadIsRunning = false := by simpa [habsent] using hflag
    have hfirst : step T u .readRunning = some { s with app := .testingQueue } := by
      simp [step, hu, hnot]
    exact (Run.start.next hfirst).append (tests_and_returns hfree rfl)
  cases hnow : s.app with
  | idle =>
    have hsame : { s with app := .idle } = s := by rw [← hnow]
    exact ⟨[], hsame ▸ .start, by simp⟩
  | testingQueue => exact ⟨_, tests_and_returns hfree hnow, by simp [Event.byWaiter]⟩
  | waiting =>
    have hfirst : step T s .wake = some { s with app := .testingQueue } := by simp [step, hnow]
    exact ⟨_, (Run.start.next hfirst).append (tests_and_returns hfree rfl),
      by simp [Event.byWaiter]⟩
  | readingReady =>
    rcases hio with habsent | hrun
    · have hfirst : step T s .readReady = some { s with app := .readingRunning } := by
        have hnot : s.serviceIsReady = false := by
          by_contra hne
          have hrun := hone.ready.mp (by simpa using hne)
          rw [habsent] at hrun
          cases hrun
        simp [step, hnow, hnot]
      exact ⟨_, (Run.start.next hfirst).append (passes rfl habsent), by simp [Event.byWaiter]⟩
    · have hsame : s = { s with app := .readingReady } := by rw [← hnow]
      exact ⟨_, reads hsame hrun, by simp [Event.byWaiter]⟩
  | readingRunning =>
    rcases hio with habsent | hrun
    · have hsame : s = { s with app := .readingRunning } := by rw [← hnow]
      exact ⟨_, passes hsame habsent, by simp [Event.byWaiter]⟩
    · have hfirst : step T s .readRunning = some { s with app := .readingReady } := by
        have hset := hflag.mpr (by simp [hrun])
        simp [step, hnow, hset]
      exact ⟨_, (Run.start.next hfirst).append (reads rfl hrun), by simp [Event.byWaiter]⟩
  | _ => simp [hnow, App.blocks] at happ

/-- No `resolve` throws, no operation fails, and every thread can be created. -/
def Smooth (failed : ε → Bool) (trace : List (State σ α × Event ε α)) : Prop :=
  ∀ p ∈ trace, p.2.throws = false ∧ p.2.loses = false ∧ p.2.costly failed = false

instance (failed : ε → Bool) (trace : List (State σ α × Event ε α)) :
    Decidable (Smooth failed trace) :=
  inferInstanceAs
    (Decidable (∀ p ∈ trace, p.2.throws = false ∧ p.2.loses = false ∧ p.2.costly failed = false))

theorem smooth_nil {failed : ε → Bool} : Smooth failed ([] : List (State σ α × Event ε α)) := by
  simp [Smooth]

theorem Smooth.append {failed : ε → Bool} {early later : List (State σ α × Event ε α)}
    (hearly : Smooth failed early) (hlater : Smooth failed later) :
    Smooth failed (later ++ early) :=
  List.forall_mem_append.mpr ⟨hlater, hearly⟩

/-- The application thread is not in `BlockUntilQueueIsEmpty`. -/
def App.sends (app : App) : Prop := app = .idle ∨ app.message.isSome = true

/-- The steps of `Send` behind the call, when a thread can be created. -/
def Event.sends : Event ε α → Bool
  | .testThread | .setRunning | .post => true
  | .createThread created => created
  | _ => false

theorem Event.sends_waits {e : Event ε α} (h : e.sends = true) : e.waits = true := by
  cases e with
  | callSend | callBlock => cases h
  | _ => rfl

theorem smooth_sends {trace : List (State σ α × Event ε α)} (failed : ε → Bool)
    (h : ∀ p ∈ trace, p.2.sends = true) : Smooth failed trace := by
  intro p hp
  have hsends := h p hp
  cases hevent : p.2 with
  | testThread | setRunning | post => exact ⟨rfl, rfl, rfl⟩
  | createThread created =>
    have hcreated : created = true := by simpa [hevent, Event.sends] using hsends
    rw [hcreated]
    exact ⟨rfl, rfl, rfl⟩
  | _ => simp [hevent, Event.sends] at hsends

theorem step_sends {s t : State σ α} {e : Event ε α} (h : step T s e = some t)
    (he : e ≠ .callBlock) (hs : s.app.sends) : t.app.sends := by
  cases e with
  | callBlock => exact (he rfl).elim
  | callSend msg =>
    simp only [step] at h
    split at h
    · obtain rfl := Option.some.inj h
      exact .inr rfl
    · cases h
  | testThread =>
    simp only [step] at h
    split at h
    · obtain rfl := Option.some.inj h
      simp only
      split
      · exact .inr rfl
      · exact .inr rfl
    · cases h
  | setRunning =>
    simp only [step] at h
    split at h
    · obtain rfl := Option.some.inj h
      exact .inr rfl
    · cases h
  | createThread created =>
    simp only [step] at h
    split at h
    · split at h
      · obtain rfl := Option.some.inj h
        exact .inr rfl
      · obtain rfl := Option.some.inj h
        exact .inl rfl
    · cases h
  | post =>
    simp only [step] at h
    split at h
    · obtain rfl := Option.some.inj h
      exact .inl rfl
    · cases h
  | readRunning | readReady | testQueue | wake =>
    simp only [step] at h
    split at h
    · rename_i hin
      simp [App.sends, hin, App.message] at hs
    · cases h
  | handle x =>
    simp only [step] at h
    split at h
    · obtain ⟨c, _, rfl⟩ := Option.map_eq_some_iff.mp h
      exact hs
    · cases h
  | _ =>
    simp only [step] at h
    split at h
    · obtain rfl := Option.some.inj h
      exact hs
    · cases h

/-- The application thread alone, creating a thread if there is none, returns from `Send`. -/
def CanReturn (T : Transport σ ε α) (s : State σ α) : Prop :=
  ∃ later t, Run (step T) s later t ∧ t.app = .idle ∧ ∀ p ∈ later, p.2.sends = true

theorem CanReturn.of_step {s u : State σ α} {e : Event ε α} (hu : CanReturn T u)
    (hstep : step T s e = some u) (he : e.sends = true) : CanReturn T s := by
  obtain ⟨later, t, hlater, hidle, hsends⟩ := hu
  refine ⟨later ++ [(s, e)], t, (Run.start.next hstep).append hlater, hidle, ?_⟩
  intro p hp
  rcases List.mem_append.mp hp with hp | hp
  · exact hsends p hp
  · rw [List.mem_singleton.mp hp]
    exact he

theorem posting_returns {s : State σ α} {msg : Bytes} (happ : s.app = .posting msg) :
    CanReturn T s := by
  have hidle : CanReturn T { s with client := T.send s.client msg, app := .idle } :=
    ⟨[], _, .start, rfl, by simp⟩
  apply hidle.of_step (e := .post) _ rfl
  simp [step, happ]

theorem creating_returns {s : State σ α} {msg : Bytes} (happ : s.app = .creating msg) :
    CanReturn T s := by
  have hposting : CanReturn T { s with io := .resolving, app := .posting msg } :=
    posting_returns rfl
  apply hposting.of_step (e := .createThread true) _ rfl
  simp [step, happ]

theorem launching_returns {s : State σ α} {msg : Bytes} (happ : s.app = .launching msg) :
    CanReturn T s := by
  have hcreating : CanReturn T { s with threadIsRunning := true, app := .creating msg } :=
    creating_returns rfl
  apply hcreating.of_step (e := .setRunning) _ rfl
  simp [step, happ]

theorem send_returns {s : State σ α} (h : s.app.sends) : CanReturn T s := by
  rcases h with hidle | hsending
  · exact ⟨[], s, .start, hidle, by simp⟩
  cases happ : s.app with
  | testing msg =>
    cases hrun : s.threadIsRunning with
    | true =>
      have hposting : CanReturn T { s with app := .posting msg } := posting_returns rfl
      apply hposting.of_step (e := .testThread) _ rfl
      simp [step, happ, hrun]
    | false =>
      have hlaunching : CanReturn T { s with app := .launching msg } := launching_returns rfl
      apply hlaunching.of_step (e := .testThread) _ rfl
      simp [step, happ, hrun]
  | launching => exact launching_returns happ
  | creating => exact creating_returns happ
  | posting => exact posting_returns happ
  | _ => simp [happ, App.message] at hsending

theorem Event.byIo_waits {e : Event ε α} (h : e.byIo = true) : e.waits = true := by
  cases e with
  | callSend | callBlock => cases h
  | _ => rfl

theorem Event.byIo_keeps {e : Event ε α} (h : e.byIo = true) : e.loses = false := by
  cases e with
  | createThread => cases h
  | _ => rfl

theorem ioRun_byIo {s t : State σ α} {later : List (State σ α × Event ε α)}
    (h : Run (ioStep T) s later t) : ∀ p ∈ later, p.2.byIo = true := by
  intro p hp
  obtain ⟨_, u, _, hstep⟩ := h.step_of_mem hp
  exact (ioStep_step hstep).1

end

theorem tcp_alive_run {trace : List (State Tcp.State Tcp.Resolved × Event Tcp.Event Tcp.Resolved)}
    {s : State Tcp.State Tcp.Resolved} (h : Run (step tcp) (init tcp) trace s)
    (hresolved : ∀ p ∈ trace, p.2 ≠ .resolveThrows) : Alive tcp TcpBefore TcpAfter s :=
  h.invariant_of (C := fun _ e => e ≠ .resolveThrows) alive_init
    (fun hs hne hstep => hs.move tcp_laws hne (fun _ _ => trivial) (step_move hstep)) hresolved

theorem udp_alive_run {trace : List (State Udp.State Unit × Event Udp.Event Unit)}
    {s : State Udp.State Unit} (h : Run (step udp) (init udp) trace s)
    (hresolved : ∀ p ∈ trace, p.2 ≠ .resolveThrows)
    (hsends : ∀ p ∈ trace, p.2.costly Udp.Event.failed = false) :
    Alive udp UdpAnnounced UdpAnnounced s := by
  have hinv : Alive udp UdpAnnounced UdpAnnounced s ∧ UdpFlowing s.client := by
    refine h.invariant_of
      (I := fun s => Alive udp UdpAnnounced UdpAnnounced s ∧ UdpFlowing s.client)
      (C := fun _ e => e ≠ .resolveThrows ∧ e.costly Udp.Event.failed = false)
      ⟨alive_init, udp_flowing_init⟩ ?_ fun p hp => ⟨hresolved p hp, hsends p hp⟩
    intro s e t hI hC hstep
    refine ⟨hI.1.move udp_laws hC.1 ?_ (step_move hstep), udp_flowing_step hI.2 hC.2 hstep⟩
    rintro x _ ⟨_, hqueue, hnone⟩
    exact hI.2.flowing.progress.1 hqueue hnone
  exact hinv.1

/-- The IO thread, alone, runs until nothing is left, if there is one, and no operation
fails; the application thread stays where it is. -/
structure Settles {σ ε α : Type} (T : Transport σ ε α) (failed : ε → Bool) (s : State σ α)
    (later : List (State σ α × Event ε α)) (t : State σ α) : Prop where
  run : Run (step T) s later t
  byIo : ∀ p ∈ later, p.2.byIo = true
  succeeds : ∀ p ∈ later, p.2.costly failed = false
  app : t.app = s.app
  thread : t.io = .absent ∨ t.io = .running

theorem ioRun_app {σ ε α : Type} {T : Transport σ ε α} {s t : State σ α}
    {later : List (State σ α × Event ε α)} (h : Run (ioStep T) s later t) : t.app = s.app := by
  induction h with
  | start => rfl
  | next _ hstep ih =>
    obtain ⟨hbyIo, hstep⟩ := ioStep_step hstep
    rw [← ih]
    cases step_move hstep with
    | passes happ => simp [hbyIo] at happ
    | finds | launches | announces | creates | fails | posts => simp [Event.byIo] at hbyIo
    | _ => rfl

section
variable {σ ε α : Type} {T : Transport σ ε α} {failed : ε → Bool} {s t : State σ α}
  {later : List (State σ α × Event ε α)}

theorem Settles.waits (h : Settles T failed s later t) : ∀ p ∈ later, p.2.waits = true :=
  fun p hp => Event.byIo_waits (h.byIo p hp)

theorem Settles.of_absent (hio : s.io = .absent) : Settles T failed s [] s :=
  ⟨.start, by simp, by simp, rfl, .inl hio⟩

theorem Settles.of_ioRun (h : Run (ioStep T) s later t) (hio : t.io = .running)
    (hsucceeds : ∀ p ∈ later, p.2.costly failed = false) : Settles T failed s later t :=
  ⟨ioRun_run h, ioRun_byIo h, hsucceeds, ioRun_app h, .inr hio⟩

/-- The resolver answers first. -/
theorem Settles.of_resolving {answer : α} (hio : s.io = .resolving)
    (h : Settles T failed { s with io := .starting answer } later t) :
    Settles T failed s (later ++ [(s, .resolved answer)]) t := by
  have hstep : step T s (.resolved answer) = some { s with io := .starting answer } := by
    simp [step, hio]
  refine ⟨(Run.start.next hstep).append h.run, ?_, ?_, h.app, h.thread⟩
  · exact List.forall_mem_append.mpr ⟨h.byIo, List.forall_mem_singleton.mpr rfl⟩
  · exact List.forall_mem_append.mpr ⟨h.succeeds, List.forall_mem_singleton.mpr rfl⟩

end

theorem tcp_settles {trace : List (State Tcp.State Tcp.Resolved × Event Tcp.Event Tcp.Resolved)}
    {s : State Tcp.State Tcp.Resolved} (h : Run (step tcp) (init tcp) trace s)
    (hresolved : ∀ p ∈ trace, p.2 ≠ .resolveThrows) :
    ∃ later t, Settles tcp Tcp.Event.falters s later t ∧ TcpSettled t.client := by
  have halive := tcp_alive_run h hresolved
  have answered {early : List (State Tcp.State Tcp.Resolved × Event Tcp.Event Tcp.Resolved)}
      {u : State Tcp.State Tcp.Resolved} (hu : Run (step tcp) (init tcp) early u)
      (hio : u.io.started = true ∨ ∃ answer, u.io = .starting answer) :
      ∃ later t, Settles tcp Tcp.Event.falters u later t ∧ TcpSettled t.client := by
    obtain ⟨later, t, hlater, hsucceeds, hrun, hrest⟩ := tcp_can_succeed hu hio
    exact ⟨later, t, .of_ioRun hlater hrun hsucceeds, hrest⟩
  cases hio : s.io with
  | absent =>
    have hclient := halive.client
    rw [hio] at hclient
    have hinit : s.client = Tcp.init := hclient
    refine ⟨[], s, .of_absent hio, ?_⟩
    rw [hinit]
    exact ⟨rfl, rfl, rfl, rfl⟩
  | resolving =>
    have hstep : step tcp s (.resolved ⟨[⟨0, 0⟩], by simp⟩) =
        some { s with io := .starting ⟨[⟨0, 0⟩], by simp⟩ } := by simp [step, hio]
    obtain ⟨later, t, hsettles, hrest⟩ := answered (h.next hstep) (.inr ⟨_, rfl⟩)
    exact ⟨_, t, hsettles.of_resolving hio, hrest⟩
  | starting answer => exact answered h (.inr ⟨answer, hio⟩)
  | readying | running => exact answered h (.inl (by simp [hio, Io.started]))
  | resetting => exact (halive.not_leaving.1 hio).elim
  | clearingReady => exact (halive.not_leaving.2.1 hio).elim
  | clearingRunning => exact (halive.not_leaving.2.2 hio).elim

/-- Every datagram has been sent, once and in the order of the posts. -/
structure UdpEmpty (c : Udp.State) : Prop where
  posted : c.posted = []
  queue : c.writeMsgs = []
  released : c.mustWait = false
  sent : c.started = Udp.sendOrder c.sent

theorem udp_settles {trace : List (State Udp.State Unit × Event Udp.Event Unit)}
    {s : State Udp.State Unit} (h : Run (step udp) (init udp) trace s)
    (hresolved : ∀ p ∈ trace, p.2 ≠ .resolveThrows)
    (hsends : ∀ p ∈ trace, p.2.costly Udp.Event.failed = false) :
    ∃ later t, Settles udp Udp.Event.failed s later t ∧ UdpEmpty t.client := by
  have halive := udp_alive_run h hresolved hsends
  have answered {early : List (State Udp.State Unit × Event Udp.Event Unit)}
      {u : State Udp.State Unit} (hu : Run (step udp) (init udp) early u)
      (hok : ∀ p ∈ early, p.2.costly Udp.Event.failed = false)
      (hio : u.io.started = true ∨ ∃ answer, u.io = .starting answer) :
      ∃ later t, Settles udp Udp.Event.failed u later t ∧ UdpEmpty t.client := by
    obtain ⟨later, t, hlater, hcheap, hrun, hrest⟩ := udp_can_rest hu (udp_answered hu hio)
    refine ⟨later, t, .of_ioRun hlater hrun hcheap, ?_⟩
    have hall : ∀ p ∈ later ++ early, p.2.costly Udp.Event.failed = false :=
      List.forall_mem_append.mpr ⟨hcheap, hok⟩
    obtain ⟨hqueue, hfree, hsent⟩ := hrest.all_sent hall
    rw [← udp_sent (hu.append (ioRun_run hlater))] at hsent
    exact ⟨hrest.posted, hqueue, hfree, hsent⟩
  cases hio : s.io with
  | absent =>
    have hclient := halive.client
    rw [hio] at hclient
    have hinit : s.client = Udp.init := hclient
    refine ⟨[], s, .of_absent hio, ?_⟩
    rw [hinit]
    exact ⟨rfl, rfl, rfl, rfl⟩
  | resolving =>
    have hstep : step udp s (.resolved ()) = some { s with io := .starting () } := by
      simp [step, hio]
    have hok : ∀ p ∈ (s, .resolved ()) :: trace, p.2.costly Udp.Event.failed = false :=
      List.forall_mem_cons.mpr ⟨rfl, hsends⟩
    obtain ⟨later, t, hsettles, hempty⟩ := answered (h.next hstep) hok (.inr ⟨_, rfl⟩)
    exact ⟨_, t, hsettles.of_resolving hio, hempty⟩
  | starting answer => exact answered h hsends (.inr ⟨answer, hio⟩)
  | readying | running => exact answered h hsends (.inl (by simp [hio, Io.started]))
  | resetting => exact (halive.not_leaving.1 hio).elim
  | clearingReady => exact (halive.not_leaving.2.1 hio).elim
  | clearingRunning => exact (halive.not_leaving.2.2 hio).elim

end AmClient.Lifecycle
