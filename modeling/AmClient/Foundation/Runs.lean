import Mathlib.Data.List.Basic

/-!
# Runs of a labelled machine

A machine is a partial step function: `step s e = none` when the event `e` cannot
happen in `s`. A run keeps its trace, newest step first, each event together with
the state it was taken in, so that a condition on the steps of a run and a property
of the states it visits are both statements about one list.
-/

namespace Foundation
set_option autoImplicit false

universe u v w x
variable {σ : Type u} {ε : Type v}

/-- `Run step s₀ trace s`: the steps of `trace` lead from `s₀` to `s`. -/
inductive Run (step : σ → ε → Option σ) (s₀ : σ) : List (σ × ε) → σ → Prop where
  | start : Run step s₀ [] s₀
  | next {trace : List (σ × ε)} {s t : σ} {e : ε} :
      Run step s₀ trace s → step s e = some t → Run step s₀ ((s, e) :: trace) t

/-- The states of a run, the last one included. -/
def visited (trace : List (σ × ε)) (s : σ) : List σ := s :: trace.map Prod.fst

namespace Run
variable {step : σ → ε → Option σ} {s₀ s : σ} {trace : List (σ × ε)}

theorem invariant {I : σ → Prop} (h : Run step s₀ trace s) (h₀ : I s₀)
    (keep : ∀ {s e t}, I s → step s e = some t → I t) : I s := by
  induction h with
  | start => exact h₀
  | next _ hstep ih => exact keep ih hstep

theorem invariant_of {I : σ → Prop} {C : σ → ε → Prop} (h : Run step s₀ trace s) (h₀ : I s₀)
    (keep : ∀ {s e t}, I s → C s e → step s e = some t → I t)
    (hC : ∀ p ∈ trace, C p.1 p.2) : I s := by
  induction h with
  | start => exact h₀
  | next _ hstep ih =>
    have hlast := hC _ List.mem_cons_self
    exact keep (ih fun p hp => hC p (List.mem_cons_of_mem _ hp)) hlast hstep

theorem of_visited (h : Run step s₀ trace s) {t : σ} (ht : t ∈ visited trace s) :
    ∃ early, early <:+ trace ∧ Run step s₀ early t := by
  induction h with
  | start =>
    have heq : t = s₀ := by simpa [visited] using ht
    exact ⟨[], List.suffix_refl _, heq ▸ .start⟩
  | @next trace s u e hrun hstep ih =>
    rcases List.mem_cons.mp ht with rfl | hmem
    · exact ⟨_, List.suffix_refl _, .next hrun hstep⟩
    · obtain ⟨early, hsuf, hearly⟩ := ih (by simpa [visited] using hmem)
      exact ⟨early, hsuf.trans (List.suffix_cons _ _), hearly⟩

theorem of_mem (h : Run step s₀ trace s) {p : σ × ε} (hp : p ∈ trace) :
    ∃ early, early <:+ trace ∧ Run step s₀ early p.1 :=
  h.of_visited (List.mem_cons_of_mem _ (List.mem_map_of_mem hp))

theorem of_suffix (h : Run step s₀ trace s) {early : List (σ × ε)} {u : σ} {e : ε}
    (hsuf : (u, e) :: early <:+ trace) : Run step s₀ early u ∧ ∃ t, step u e = some t := by
  induction h with
  | start => simp at hsuf
  | @next trace s t e' hrun hstep ih =>
    rcases List.suffix_cons_iff.mp hsuf with heq | hsuf
    · obtain ⟨hlast, rfl⟩ := List.cons.inj heq
      obtain ⟨rfl, rfl⟩ := Prod.mk.inj hlast
      exact ⟨hrun, t, hstep⟩
    · exact ih hsuf

theorem step_of_mem (h : Run step s₀ trace s) {p : σ × ε} (hp : p ∈ trace) :
    ∃ early t, Run step s₀ early p.1 ∧ step p.1 p.2 = some t := by
  obtain ⟨later, early, rfl⟩ := List.append_of_mem hp
  obtain ⟨hearly, t, hstep⟩ := h.of_suffix (List.suffix_append later (p :: early))
  exact ⟨early, t, hearly, hstep⟩

theorem visited_invariant_of {I : σ → Prop} {C : σ → ε → Prop} (h : Run step s₀ trace s)
    (h₀ : I s₀) (keep : ∀ {s e t}, I s → C s e → step s e = some t → I t)
    (hC : ∀ p ∈ trace, C p.1 p.2) : ∀ t ∈ visited trace s, I t := by
  intro t ht
  obtain ⟨_, hsuf, hearly⟩ := h.of_visited ht
  exact hearly.invariant_of h₀ keep fun p hp => hC p (hsuf.subset hp)

/-- When a step outside `C` always breaks `P`, the runs that keep `P` in every visited
state are exactly those whose steps all meet `C`. `I` is what carries `P` along, and `H` is
what is known of every step. -/
theorem exact_condition_under {I P : σ → Prop} {H C : σ → ε → Prop} (h : Run step s₀ trace s)
    (hH : ∀ p ∈ trace, H p.1 p.2) (h₀ : I s₀) (implies : ∀ {s}, I s → P s)
    (keep : ∀ {s e t}, I s → H s e → C s e → step s e = some t → I t)
    (broken : ∀ {s e t}, I s → H s e → ¬ C s e → step s e = some t → ¬ P t) :
    (∀ t ∈ visited trace s, P t) ↔ ∀ p ∈ trace, C p.1 p.2 := by
  have keep' : ∀ {s e t}, I s → H s e ∧ C s e → step s e = some t → I t := by
    intro s e t hI hHC hstep
    exact keep hI hHC.1 hHC.2 hstep
  constructor
  · intro hP
    induction h with
    | start => simp
    | @next trace s u e hrun hstep ih =>
      have hHbefore : ∀ p ∈ trace, H p.1 p.2 := fun p hp => hH p (List.mem_cons_of_mem _ hp)
      have hbefore := ih hHbefore fun t ht => hP t (List.mem_cons_of_mem _ ht)
      have hI := hrun.invariant_of (C := fun s e => H s e ∧ C s e) h₀ keep'
        fun p hp => ⟨hHbefore p hp, hbefore p hp⟩
      have hlast : C s e := by
        by_contra hn
        exact broken hI (hH _ List.mem_cons_self) hn hstep (hP u List.mem_cons_self)
      intro p hp
      rcases List.mem_cons.mp hp with rfl | hp
      · exact hlast
      · exact hbefore p hp
  · intro hC t ht
    apply implies
    exact h.visited_invariant_of (C := fun s e => H s e ∧ C s e) h₀ keep'
      (fun p hp => ⟨hH p hp, hC p hp⟩) t ht

theorem exact_condition {I P : σ → Prop} {C : σ → ε → Prop} (h : Run step s₀ trace s)
    (h₀ : I s₀) (implies : ∀ {s}, I s → P s)
    (keep : ∀ {s e t}, I s → C s e → step s e = some t → I t)
    (broken : ∀ {s e t}, I s → ¬ C s e → step s e = some t → ¬ P t) :
    (∀ t ∈ visited trace s, P t) ↔ ∀ p ∈ trace, C p.1 p.2 :=
  h.exact_condition_under (H := fun _ _ => True) (fun _ _ => trivial) h₀ implies
    (fun hI _ hC hstep => keep hI hC hstep) fun hI _ hn hstep => broken hI hn hstep

/-- The same for a property `P` of the steps: the first step outside `C` breaks it. -/
theorem exact_steps {I : σ → Prop} {H P C : σ → ε → Prop} (h : Run step s₀ trace s)
    (hH : ∀ p ∈ trace, H p.1 p.2) (h₀ : I s₀)
    (keep : ∀ {s e t}, I s → C s e → step s e = some t → I t)
    (implies : ∀ {s e t}, I s → C s e → step s e = some t → P s e)
    (broken : ∀ {s e t}, I s → H s e → ¬ C s e → step s e = some t → ¬ P s e) :
    (∀ p ∈ trace, P p.1 p.2) ↔ ∀ p ∈ trace, C p.1 p.2 := by
  induction h with
  | start => simp
  | @next trace s t e hrun hstep ih =>
    have hbefore := ih fun p hp => hH p (List.mem_cons_of_mem _ hp)
    have hlast := hH _ List.mem_cons_self
    simp only [List.forall_mem_cons]
    constructor
    · intro hP
      have hC := hbefore.mp hP.2
      have hI := hrun.invariant_of h₀ keep hC
      refine ⟨?_, hC⟩
      by_contra hn
      exact broken hI hlast hn hstep hP.1
    · intro hC
      have hI := hrun.invariant_of h₀ keep hC.2
      exact ⟨implies hI hC.1 hstep, hbefore.mpr hC.2⟩

theorem append {early later : List (σ × ε)} {t : σ} (h : Run step s₀ early s)
    (hlater : Run step s later t) : Run step s₀ (later ++ early) t := by
  induction hlater with
  | start => exact h
  | next _ hstep ih => exact .next ih hstep

section Projection
variable {τ : Type w} {κ : Type x} {coarse : τ → κ → Option τ}

def projected (view : σ → τ) (label : σ → ε → Option κ) (trace : List (σ × ε)) : List (τ × κ) :=
  trace.filterMap fun p => (label p.1 p.2).map fun k => (view p.1, k)

/-- A run projects to a run of a coarser machine when each step is one coarse step, or
none and leaves the view alone. -/
theorem project {I : σ → Prop} (view : σ → τ) (label : σ → ε → Option κ)
    (h : Run step s₀ trace s) (h₀ : I s₀)
    (keep : ∀ {s e t}, I s → step s e = some t → I t)
    (silent : ∀ {s e t}, I s → step s e = some t → label s e = none → view t = view s)
    (moves : ∀ {s e t k}, I s → step s e = some t → label s e = some k →
      coarse (view s) k = some (view t)) :
    Run coarse (view s₀) (projected view label trace) (view s) := by
  induction h with
  | start => exact .start
  | @next trace s t e hrun hstep ih =>
    have hI := hrun.invariant h₀ keep
    cases hlabel : label s e with
    | none => simpa [projected, hlabel, silent hI hstep hlabel] using ih
    | some k =>
      have hnext := Run.next ih (moves hI hstep hlabel)
      simpa [projected, hlabel] using hnext

end Projection
end Run

def exec (step : σ → ε → Option σ) : σ → List ε → Option σ
  | s, [] => some s
  | s, e :: events => (step s e).bind fun t => exec step t events

theorem exec_append (step : σ → ε → Option σ) (s : σ) (events more : List ε) :
    exec step s (events ++ more) = (exec step s events).bind fun t => exec step t more := by
  induction events generalizing s with
  | nil => rfl
  | cons e events ih =>
    rw [List.cons_append, exec, exec]
    cases step s e with
    | none => rfl
    | some t => exact ih t

/-- Steps deleted from a run leave a run, when the states of the two stay related: a kept
step can be taken in both, and a deleted one moves only the longer run. -/
theorem Run.delete {step : σ → ε → Option σ} {s₀ s : σ} {trace : List (σ × ε)}
    (R : σ → σ → Prop) (keep : σ × ε → Bool) (h : Run step s₀ trace s) (h₀ : R s₀ s₀)
    (kept : ∀ {s t u : σ} {e : ε}, R s u → keep (s, e) = true → step s e = some t →
      ∃ v, step u e = some v ∧ R t v)
    (deleted : ∀ {s t u : σ} {e : ε}, R s u → keep (s, e) = false → step s e = some t → R t u) :
    ∃ u, exec step s₀ ((trace.filter keep).map Prod.snd).reverse = some u ∧ R s u := by
  induction h with
  | start => exact ⟨s₀, rfl, h₀⟩
  | @next trace s t e _ hstep ih =>
    obtain ⟨u, hu, hR⟩ := ih
    cases hkeep : keep (s, e) with
    | false =>
      refine ⟨u, ?_, deleted hR hkeep hstep⟩
      rw [List.filter_cons_of_neg (by simp [hkeep]), hu]
    | true =>
      obtain ⟨v, hv, hR'⟩ := kept hR hkeep hstep
      refine ⟨v, ?_, hR'⟩
      rw [List.filter_cons_of_pos hkeep, List.map_cons, List.reverse_cons, exec_append, hu]
      simp only [Option.bind_some, exec, hv]

/-- A run is followed in another machine, where each step is one step or none. What is said
of the two steps where it is one holds of all steps of the run that follows. -/
theorem Run.follow {τ : Type w} {κ : Type x} {step : σ → ε → Option σ} {other : τ → κ → Option τ}
    {s₀ s : σ} {t₀ : τ} {trace : List (σ × ε)} (R : σ → τ → Prop) (Image : σ × ε → τ × κ → Prop)
    (h : Run step s₀ trace s) (h₀ : R s₀ t₀)
    (follows : ∀ {s u : σ} {e : ε} {t : τ}, R s t → step s e = some u →
      R u t ∨ ∃ k v, other t k = some v ∧ R u v ∧ Image (s, e) (t, k)) :
    ∃ later t, Run other t₀ later t ∧ R s t ∧ ∀ q ∈ later, ∃ p ∈ trace, Image p q := by
  induction h with
  | start => exact ⟨[], t₀, .start, h₀, by simp⟩
  | @next trace s u e _ hstep ih =>
    obtain ⟨later, t, hlater, hR, himage⟩ := ih
    have hbefore : ∀ q ∈ later, ∃ p ∈ (s, e) :: trace, Image p q := by
      intro q hq
      obtain ⟨p, hp, hpq⟩ := himage q hq
      exact ⟨p, List.mem_cons_of_mem _ hp, hpq⟩
    rcases follows hR hstep with hstays | ⟨k, v, hother, hmoves, hpq⟩
    · exact ⟨later, t, hlater, hstays, hbefore⟩
    · exact ⟨_, v, hlater.next hother, hmoves,
        List.forall_mem_cons.mpr ⟨⟨(s, e), List.mem_cons_self, hpq⟩, hbefore⟩⟩

def record (step : σ → ε → Option σ) (trace : List (σ × ε)) (s : σ) :
    List ε → Option (List (σ × ε) × σ)
  | [] => some (trace, s)
  | e :: events => (step s e).bind fun t => record step ((s, e) :: trace) t events

theorem Run.record {step : σ → ε → Option σ} {s₀ s : σ} {trace : List (σ × ε)} {events : List ε}
    (h : Run step s₀ trace s) {r : List (σ × ε) × σ}
    (hr : r ∈ Foundation.record step trace s events) : Run step s₀ r.1 r.2 := by
  induction events generalizing s trace with
  | nil => exact Option.some.inj hr ▸ h
  | cons e events ih =>
    obtain ⟨t, ht, hrest⟩ := Option.bind_eq_some_iff.mp hr
    exact ih (h.next ht) hrest

/-- Events that can happen one after the other, oldest first, make a run. -/
theorem run_of_events (step : σ → ε → Option σ) (s : σ) (events : List ε)
    {r : List (σ × ε) × σ} (hr : record step [] s events = some r) : Run step s r.1 r.2 :=
  Run.start.record hr

theorem run_of_record (step : σ → ε → Option σ) (s : σ) (events : List ε)
    (P : List (σ × ε) → σ → Prop) (h : ∃ r ∈ record step [] s events, P r.1 r.2) :
    ∃ trace t, Run step s trace t ∧ P trace t := by
  obtain ⟨r, hr, hP⟩ := h
  exact ⟨r.1, r.2, run_of_events step s events hr, hP⟩

end Foundation
