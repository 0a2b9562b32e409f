import AmClient.Tcp.Phases

/-!
# The retransmission window

A connect that succeeds sends `prev_.msg_` again if its write was completed less than
`TIMEOUT_SECONDS` before. The elapsed time is read by its seconds field, which starts
again at zero with every minute.
-/

namespace AmClient.Tcp
open Foundation
set_option autoImplicit false

/-- The buffer of the last successful write and the time of its completion. -/
def lastWrite : List (State × Event) → Option (Msg × Int)
  | [] => none
  | (_, .handleWrite _ buffer .success _ now) :: _ => some (buffer, now)
  | _ :: earlier => lastWrite earlier

/-- Whatever `prev_.msg_` holds, it was written last, at the time `prev_.time_`. -/
def Records (trace : List (State × Event)) (s : State) : Prop :=
  s.prev.msg.bytes ≠ [] → lastWrite trace = some (s.prev.msg, s.prev.time)

theorem Move.records {s t : State} {e : Event} {trace : List (State × Event)} (h : Move s e t)
    (hs : Records trace s) : Records ((s, e) :: trace) t := by
  cases h with
  | send => exact hs
  | opened => exact hs
  | sendNow => exact hs
  | reconnect => exact hs
  | push => exact hs
  | tryNext => exact hs
  | giveUp => exact hs
  | rest => exact hs
  | resume => exact hs
  | drained => exact fun _ => rfl
  | advance => exact fun _ => rfl
  | brokenPipe => exact hs
  | abandon => exact fun hne => (hne rfl).elim

theorem records_run {trace : List (State × Event)} {s : State} (h : Run step init trace s) :
    Records trace s := by
  induction h with
  | start => exact fun hne => (hne rfl).elim
  | next hrun hstep ih => exact (step_move (phase_run hrun) hstep).records ih

theorem Move.requeues {s t : State} {endpoint : Endpoint} {next : List Endpoint} {now : Int}
    (h : Move s (.handleConnect endpoint next .success now) t) :
    t.writeMsgs = s.requeued now := by
  cases h with
  | tryNext _ herr => exact (herr rfl).elim
  | giveUp _ herr => exact (herr rfl).elim
  | rest _ _ _ _ hq => exact (requeued_eq_nil hq).trans hq.symm
  | resume _ _ _ _ hq => exact hq.symm

/-- `prev_.msg_` is pushed exactly by the connects within the window. -/
theorem Move.pushes_iff {s t : State} {endpoint : Endpoint} {next : List Endpoint} {now : Int}
    (h : Move s (.handleConnect endpoint next .success now) t) :
    t.writeMsgs = s.prev.msg :: s.writeMsgs ↔ s.Retransmits now := by
  rw [h.requeues, State.requeued]
  by_cases hre : s.Retransmits now
  · rw [if_pos hre]
    exact ⟨fun _ => hre, fun _ => rfl⟩
  · rw [if_neg hre]
    constructor
    · intro heq
      have hlen := congrArg List.length heq
      rw [List.length_cons] at hlen
      omega
    · exact fun hin => (hre hin).elim

theorem seconds_of_nonneg {elapsed : Int} (h : 0 ≤ elapsed) :
    State.seconds elapsed = elapsed % 60 :=
  Int.tmod_eq_emod_of_nonneg h

/-- A minute or more has passed, and the seconds field is below the limit again. -/
def FieldWraps (elapsed : Int) : Prop := 60 ≤ elapsed ∧ elapsed % 60 < TIMEOUT_SECONDS

instance (elapsed : Int) : Decidable (FieldWraps elapsed) :=
  inferInstanceAs (Decidable (60 ≤ elapsed ∧ elapsed % 60 < TIMEOUT_SECONDS))

theorem window_of_field {elapsed : Int} (h : 0 ≤ elapsed) :
    (State.seconds elapsed < TIMEOUT_SECONDS → elapsed < TIMEOUT_SECONDS) ↔
      ¬ FieldWraps elapsed := by
  rw [seconds_of_nonneg h]
  unfold FieldWraps TIMEOUT_SECONDS
  omega

/-- Every message that a successful connect pushes back was completed, at a time `t0` not
after the connect, less than `TIMEOUT_SECONDS` seconds before it. -/
def WithinWindow (trace : List (State × Event)) : Prop :=
  ∀ earlier u endpoint next now t,
    (u, .handleConnect endpoint next .success now) :: earlier <:+ trace →
    step u (.handleConnect endpoint next .success now) = some t →
    t.writeMsgs = u.prev.msg :: u.writeMsgs →
    ∃ t0, lastWrite earlier = some (u.prev.msg, t0) ∧
      (t0 ≤ now → 0 ≤ now - t0 ∧ now - t0 < TIMEOUT_SECONDS)

/-- The step is a connect that succeeds, with a previous message at hand, after an elapsed
time whose seconds field has wrapped. -/
def ConnectsLate (s : State) : Event → Prop
  | .handleConnect _ _ .success now =>
    s.prev.msg.bytes ≠ [] ∧ FieldWraps (now - s.prev.time)
  | _ => False

instance (s : State) : (e : Event) → Decidable (ConnectsLate s e)
  | .handleConnect _ _ .success now =>
    inferInstanceAs (Decidable (s.prev.msg.bytes ≠ [] ∧ FieldWraps (now - s.prev.time)))
  | .handleConnect _ _ .brokenPipe _ => .isFalse id
  | .handleConnect _ _ .failure _ => .isFalse id
  | .handleWrite _ _ _ _ _ => .isFalse id
  | .send _ => .isFalse id
  | .connect _ => .isFalse id
  | .doSend => .isFalse id

theorem late_connect {s : State} {e : Event} (h : ConnectsLate s e) :
    ∃ endpoint next now, e = .handleConnect endpoint next .success now ∧
      s.prev.msg.bytes ≠ [] ∧ FieldWraps (now - s.prev.time) := by
  cases e with
  | handleConnect endpoint next error now =>
    cases error with
    | success => exact ⟨endpoint, next, now, rfl, h⟩
    | brokenPipe => exact h.elim
    | failure => exact h.elim
  | _ => exact h.elim

theorem late_connect_breaks_window {trace : List (State × Event)} {s u : State} {e : Event}
    (h : Run step init trace s) (hmem : (u, e) ∈ trace) (hlate : ConnectsLate u e) :
    ¬ WithinWindow trace := by
  intro hwindow
  obtain ⟨later, earlier, rfl⟩ := List.append_of_mem hmem
  have hsuf : (u, e) :: earlier <:+ later ++ (u, e) :: earlier := List.suffix_append _ _
  obtain ⟨hearlier, t, hstep⟩ := h.of_suffix hsuf
  obtain ⟨endpoint, next, now, rfl, hne, hwraps⟩ := late_connect hlate
  have hmove := step_move (phase_run hearlier) hstep
  have helapsed : 0 ≤ now - u.prev.time := by
    have hlong := hwraps.1
    omega
  have hseconds : State.seconds (now - u.prev.time) < TIMEOUT_SECONDS := by
    rw [seconds_of_nonneg helapsed]
    exact hwraps.2
  have hpushed := hmove.pushes_iff.mpr ⟨hne, hseconds⟩
  obtain ⟨t0, hlast, hin⟩ := hwindow earlier u endpoint next now t hsuf hstep hpushed
  rw [records_run hearlier hne] at hlast
  obtain ⟨_, rfl⟩ := Prod.mk.inj (Option.some.inj hlast)
  have hshort := (hin (by omega)).2
  exact (window_of_field helapsed).mp (fun _ => hshort) hwraps

/-- The window is kept in the runs without a late connect, and in no others. -/
theorem within_window_iff {trace : List (State × Event)} {s : State}
    (h : Run step init trace s) :
    WithinWindow trace ↔ ∀ p ∈ trace, ¬ ConnectsLate p.1 p.2 := by
  constructor
  · intro hwindow p hp hlate
    exact late_connect_breaks_window h hp hlate hwindow
  · intro htimely earlier u endpoint next now t hsuf hstep hpushed
    obtain ⟨hearlier, _⟩ := h.of_suffix hsuf
    have hmove := step_move (phase_run hearlier) hstep
    obtain ⟨hne, hseconds⟩ := hmove.pushes_iff.mp hpushed
    refine ⟨u.prev.time, records_run hearlier hne, ?_⟩
    intro hle
    have helapsed : 0 ≤ now - u.prev.time := by omega
    have hwraps : ¬ FieldWraps (now - u.prev.time) := by
      intro hwraps
      exact htimely _ (hsuf.subset List.mem_cons_self) ⟨hne, hwraps⟩
    exact ⟨helapsed, (window_of_field helapsed).mpr hwraps hseconds⟩

/-- The first message is sent again five seconds after it was written. -/
theorem within_window_after_five_seconds :
    ∃ trace s, Run step init trace s ∧ s.writeMsgs.map Msg.origin = [0, 1] ∧
      WithinWindow trace := by
  obtain ⟨trace, s, h, hmsgs, htimely⟩ := run_of_record step init
    [.send [47], .send [48], .connect ⟨[⟨1, 15002⟩], by decide⟩, .doSend, .doSend,
      .handleConnect ⟨1, 15002⟩ [] .success 0,
      .handleWrite 0 ⟨0, [0, 0, 0, 1, 47]⟩ .success 5 58,
      .handleWrite 0 ⟨1, [0, 0, 0, 1, 48]⟩ .brokenPipe 0 62,
      .handleConnect ⟨1, 15002⟩ [] .success 63]
    (fun trace s => s.writeMsgs.map Msg.origin = [0, 1] ∧
      ∀ p ∈ trace, ¬ ConnectsLate p.1 p.2)
    (by decide)
  exact ⟨trace, s, h, hmsgs, (within_window_iff h).mpr htimely⟩

/-- The first message is sent again an hour after it was written. -/
theorem hour_old_message_is_sent_again :
    ∃ trace s, Run step init trace s ∧ s.prev = ⟨0, ⟨0, [0, 0, 0, 1, 47]⟩⟩ ∧
      trace.head?.map Prod.snd = some (.handleConnect ⟨1, 15002⟩ [] .success 3600) ∧
      s.writeMsgs.map Msg.origin = [0, 1] ∧ ¬ WithinWindow trace := by
  obtain ⟨trace, s, h, hprev, hlast, hmsgs, p, hp, hlate⟩ := run_of_record step init
    [.send [47], .send [48], .connect ⟨[⟨1, 15002⟩], by decide⟩, .doSend, .doSend,
      .handleConnect ⟨1, 15002⟩ [] .success 0,
      .handleWrite 0 ⟨0, [0, 0, 0, 1, 47]⟩ .success 5 0,
      .handleWrite 0 ⟨1, [0, 0, 0, 1, 48]⟩ .brokenPipe 0 3599,
      .handleConnect ⟨1, 15002⟩ [] .success 3600]
    (fun trace s => s.prev = ⟨0, ⟨0, [0, 0, 0, 1, 47]⟩⟩ ∧
      trace.head?.map Prod.snd = some (.handleConnect ⟨1, 15002⟩ [] .success 3600) ∧
      s.writeMsgs.map Msg.origin = [0, 1] ∧ ∃ p ∈ trace, ConnectsLate p.1 p.2)
    (by decide)
  exact ⟨trace, s, h, hprev, hlast, hmsgs, late_connect_breaks_window h hp hlate⟩

end AmClient.Tcp
