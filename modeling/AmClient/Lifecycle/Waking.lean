import AmClient.Lifecycle.Refinement

/-!
# Notifications of the condition variable

`step` lets the wait in `BlockUntilQueueIsEmpty` end at any time. Here it is shown that it
need not: the handler that leaves the waiter nothing to wait for calls `notify_all` behind
the waiter's last test of the queue. Nothing is left to wait for in `TCPClient` when the
three flags are low, in `UDPClient` when besides the queue is empty, since `DoSend` lowers
both flags there while the datagram is on its way, and notifies nobody.
-/

namespace AmClient.Lifecycle
open Foundation
set_option autoImplicit false

section
variable {σ ε α : Type} {T : Transport σ ε α}

/-- A handler has called `notify_all` since the waiter last tested the queue. -/
def Notified (notifies : σ → ε → Bool) : List (State σ α × Event ε α) → Prop
  | [] => False
  | (s, .handle x) :: before => notifies s.client x = true ∨ Notified notifies before
  | (_, .testQueue) :: _ => False
  | _ :: before => Notified notifies before

/-- Behind `before`, no wait ends but by a notification. -/
def Prompted (notifies : σ → ε → Bool) (before : List (State σ α × Event ε α)) :
    List (State σ α × Event ε α) → Prop
  | [] => True
  | p :: later =>
    (p.2 = .wake → Notified notifies (later ++ before)) ∧ Prompted notifies before later

/-- What a client must do for its waiter: the handler that leaves nothing to wait for
notifies. -/
structure Notifies (T : Transport σ ε α) (notifies : σ → ε → Bool) (done : σ → Prop) : Prop where
  released : ∀ {c}, done c → T.mustWait c = false
  start : ∀ {c answer}, done (T.start c answer) → done c
  handle : ∀ {trace s x c}, Run (step T) (init T) trace s → s.app = .waiting → s.io = .running →
    T.handle s.client x = some c → done c → done s.client ∨ notifies s.client x = true

variable {notifies : σ → ε → Bool} {done : σ → Prop} {trace : List (State σ α × Event ε α)}
  {s : State σ α}

theorem Notified.next {t : State σ α} {e : Event ε α} (h : Notified notifies trace)
    (htest : e ≠ .testQueue) : Notified notifies ((t, e) :: trace) := by
  cases e with
  | handle => exact Or.inr h
  | testQueue => exact (htest rfl).elim
  | _ => exact h

/-- Only a test of the queue leads into the wait. -/
theorem step_waiting {t : State σ α} {e : Event ε α} (h : step T s e = some t)
    (htest : e ≠ .testQueue) (happ : t.app = .waiting) : s.app = .waiting ∧ e.byIo = true := by
  cases e with
  | testQueue => exact (htest rfl).elim
  | callSend | setRunning | post | callBlock | wake =>
    simp only [step] at h
    split at h
    · obtain rfl := Option.some.inj h
      cases happ
    · cases h
  | testThread | createThread | readRunning | readReady =>
    simp only [step] at h
    split at h
    · split at h
      · obtain rfl := Option.some.inj h
        simp at happ
      · obtain rfl := Option.some.inj h
        simp at happ
    · cases h
  | handle x =>
    simp only [step] at h
    split at h
    · obtain ⟨c, _, rfl⟩ := Option.map_eq_some_iff.mp h
      exact ⟨happ, rfl⟩
    · cases h
  | _ =>
    simp only [step] at h
    split at h
    · obtain rfl := Option.some.inj h
      exact ⟨happ, rfl⟩
    · cases h

theorem testQueue_waiting {t : State σ α} (h : step T s .testQueue = some t)
    (happ : t.app = .waiting) : T.mustWait t.client = true := by
  simp only [step] at h
  split at h
  · obtain rfl := Option.some.inj h
    by_contra hfree
    simp [hfree] at happ
  · cases h

/-- A waiter with nothing left to wait for has been notified. -/
theorem Notifies.notified_run (N : Notifies T notifies done)
    (h : Run (step T) (init T) trace s) (happ : s.app = .waiting) (hdone : done s.client) :
    Notified notifies trace := by
  induction h with
  | start => cases happ
  | @next trace s t e hrun hstep ih =>
    by_cases htest : e = .testQueue
    · subst htest
      have hwait := testQueue_waiting hstep happ
      rw [N.released hdone] at hwait
      cases hwait
    obtain ⟨hbefore, hbyIo⟩ := step_waiting hstep htest happ
    cases step_move hstep with
    | handles hio hc =>
      rcases N.handle hrun hbefore hio hc hdone with hearlier | hnotifies
      · exact Or.inr (ih hbefore hearlier)
      · exact Or.inl hnotifies
    | starts => exact (ih hbefore (N.start hdone)).next htest
    | passes hnot => simp [hnot] at hbyIo
    | finds | launches | announces | creates | fails | posts => simp [Event.byIo] at hbyIo
    | _ => exact (ih hbefore hdone).next htest

/-- So a wait that ends with nothing left to wait for needs no other reason to end. -/
theorem Notifies.prompted (N : Notifies T notifies done)
    {before later : List (State σ α × Event ε α)} (h : Run (step T) (init T) (later ++ before) s)
    (hdone : ∀ p ∈ later, p.2 = .wake → done p.1.client) : Prompted notifies before later := by
  induction later generalizing s with
  | nil => trivial
  | cons p later ih =>
    obtain ⟨hlast, hbefore⟩ := List.forall_mem_cons.mp hdone
    cases h with
    | @next _ u _ e hrun hstep =>
      refine ⟨?_, ih hrun hbefore⟩
      rintro rfl
      simp only [step] at hstep
      split at hstep
      · rename_i happ
        exact N.notified_run hrun happ (hlast rfl)
      · cases hstep

theorem Move.io_before {t : State σ α} {e : Event ε α} (h : Move T s e t) (hio : t.io ≠ .absent) :
    s.io ≠ .absent ∨ t.app.message ≠ none := by
  cases h with
  | creates => exact Or.inr (by simp [App.message])
  | resolves hnow | throws hnow | starts hnow | ready hnow | resets hnow | clearsReady hnow
  | clearsRunning hnow => exact Or.inl (by simp [hnow])
  | _ => exact Or.inl hio

/-- A thread is there only behind the post of the `Send` that created it, or during it. -/
theorem posted_thread (h : Run (step T) (init T) trace s) :
    s.app.message = none → s.io ≠ .absent → posted trace ≠ [] := by
  induction h with
  | start => exact fun _ hio => (hio rfl).elim
  | @next trace s t e hrun hstep ih =>
    intro hmessage hio
    have hbefore := (step_move hstep).io_before hio
    rw [posted_cons]
    cases step_carry hstep with
    | takes msg _ ht => simp [ht] at hmessage
    | hands hs => simp [postOf, hs]
    | loses =>
      simp only [step] at hstep
      split at hstep
      · rename_i msg happ
        have habsent := (oneThread_run hrun).alone msg (.inr happ)
        exact absurd habsent (hbefore.resolve_right (· hmessage))
      · cases hstep
    | keeps _ _ _ hkeeps =>
      rw [hkeeps] at hmessage
      have hposted := ih hmessage (hbefore.resolve_right (by simp [hkeeps, hmessage]))
      simp [hposted]

end

theorem tcp_notifies : Notifies tcp Tcp.State.notifies fun c => c.mustWait = false where
  released hdone := hdone
  start := by
    intro c endpoints hdone
    have hdone : (c.connect endpoints.val).mustWait = false := hdone
    unfold Tcp.State.connect at hdone
    split at hdone
    · obtain ⟨endpoint, next, hend⟩ := List.exists_cons_of_ne_nil endpoints.property
      simp [hend, Tcp.State.doConnect, Tcp.State.asyncConnect, Tcp.State.mustWait] at hdone
    · exact hdone
  handle := by
    intro trace s x c hrun happ hio hc hdone
    have hclient := tcp_client_run hrun
    obtain ⟨hphase, hopening⟩ := Tcp.opening_run hclient
    have hsent : s.client.sent ≠ [] := by
      rw [tcp_sent hrun]
      exact posted_thread hrun (by simp [happ, App.message]) (by simp [hio])
    exact (Tcp.step_move hphase (tcp_handle_step hc)).notifies hopening hsent hdone

theorem udp_notifies :
    Notifies udp Udp.State.notifies fun c => c.mustWait = false ∧ c.writeMsgs = [] where
  released hdone := hdone.1
  start hdone := hdone
  handle := by
    intro trace s x c hrun happ hio hc hdone
    have hphase := udp_phase_run (udp_client_run hrun)
    exact (Udp.step_move hphase (udp_handle_step hc)).notifies hdone.1 hdone.2

end AmClient.Lifecycle
