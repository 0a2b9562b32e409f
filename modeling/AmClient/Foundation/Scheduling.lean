import AmClient.Foundation.Runs

/-!
# Handlers run one at a time, in the order they were queued

A machine whose events may happen in any order is restricted to what a single-threaded
event queue does: a call from outside takes effect at once and queues handlers, the
completion of an outstanding operation is queued at any moment, and only the oldest
queued handler runs. Every run under this discipline is a run of the machine itself.
-/

namespace Foundation
set_option autoImplicit false

universe u v
variable {σ : Type u} {ε : Type v}

/-- What the queue has to know about the machine it drives. -/
structure Service (σ : Type u) (ε : Type v) where
  step : σ → ε → Option σ
  /-- The handlers a call from outside queues; `none` for an event that is a handler itself. -/
  queues : ε → Option (List ε)
  /-- The completion can be queued now, behind the given handlers. -/
  mayComplete : σ → List ε → ε → Bool

structure Queued (σ : Type u) (ε : Type v) where
  client : σ
  ready : List ε

inductive QueueEvent (ε : Type v) where
  | call (e : ε)
  | complete (e : ε)
  | run

namespace Service
variable (S : Service σ ε)

def fifo (s : Queued σ ε) : QueueEvent ε → Option (Queued σ ε)
  | .call e => (S.queues e).bind fun handlers =>
      (S.step s.client e).map fun c => ⟨c, s.ready ++ handlers⟩
  | .complete e =>
      if S.mayComplete s.client s.ready e then some ⟨s.client, s.ready ++ [e]⟩ else none
  | .run => match s.ready with
      | [] => none
      | e :: rest => (S.step s.client e).map fun c => ⟨c, rest⟩

def performed (s : Queued σ ε) : QueueEvent ε → Option ε
  | .call e => some e
  | .complete _ => none
  | .run => s.ready.head?

variable {S}

theorem fifo_call {s t : Queued σ ε} {e : ε} (h : S.fifo s (.call e) = some t) :
    ∃ handlers c, S.queues e = some handlers ∧ S.step s.client e = some c ∧
      t = ⟨c, s.ready ++ handlers⟩ := by
  obtain ⟨handlers, hq, h⟩ := Option.bind_eq_some_iff.mp h
  obtain ⟨c, hc, rfl⟩ := Option.map_eq_some_iff.mp h
  exact ⟨handlers, c, hq, hc, rfl⟩

theorem fifo_complete {s t : Queued σ ε} {e : ε} (h : S.fifo s (.complete e) = some t) :
    S.mayComplete s.client s.ready e = true ∧ t = ⟨s.client, s.ready ++ [e]⟩ := by
  simp only [fifo] at h
  split at h
  · rename_i hmay
    exact ⟨hmay, (Option.some.inj h).symm⟩
  · exact nomatch h

theorem fifo_run {s t : Queued σ ε} (h : S.fifo s .run = some t) :
    ∃ e rest c, s.ready = e :: rest ∧ S.step s.client e = some c ∧ t = ⟨c, rest⟩ := by
  simp only [fifo] at h
  split at h
  · exact nomatch h
  · rename_i e rest hready
    obtain ⟨c, hc, rfl⟩ := Option.map_eq_some_iff.mp h
    exact ⟨e, rest, c, hready, hc, rfl⟩

/-- Running handlers in queue order is one of the interleavings of the machine. -/
theorem fifo_project {s₀ s : Queued σ ε} {trace : List (Queued σ ε × QueueEvent ε)}
    (h : Run S.fifo s₀ trace s) :
    Run S.step s₀.client (Run.projected Queued.client performed trace) s.client := by
  refine h.project (I := fun _ => True) Queued.client performed trivial (fun _ _ => trivial) ?_ ?_
  · intro s e t _ hstep hlabel
    cases e with
    | call e => exact nomatch hlabel
    | complete e => rw [(fifo_complete hstep).2]
    | run =>
      obtain ⟨e, rest, c, hready, _⟩ := fifo_run hstep
      simp [performed, hready] at hlabel
  · intro s e t k _ hstep hlabel
    cases e with
    | call e =>
      obtain ⟨handlers, c, _, hc, rfl⟩ := fifo_call hstep
      exact Option.some.inj hlabel ▸ hc
    | complete e => exact nomatch hlabel
    | run =>
      obtain ⟨e, rest, c, hready, hc, rfl⟩ := fifo_run hstep
      simp only [performed, hready, List.head?_cons, Option.some.injEq] at hlabel
      exact hlabel ▸ hc

end Service
end Foundation
