import AmClient.Foundation.Runs
import Mathlib.Algebra.Group.Nat.Defs

/-!
# Machines that run dry

A measure of the work that is left falls with every step, but for costly steps that add a
bounded amount. Then a run is at most as long as the work it began with and what the costly
steps of it added, and from every state some run without costly steps leads to one where
only costly steps can follow.
-/

namespace Foundation
set_option autoImplicit false

universe u v
variable {σ : Type u} {ε : Type v}

structure Drains (step : σ → ε → Option σ) (I : σ → Prop) (costly : ε → Bool) (work : σ → Nat)
    (price : Nat) : Prop where
  keep : ∀ {s e t}, I s → step s e = some t → I t
  falls : ∀ {s e t}, I s → step s e = some t → costly e = false → work t < work s
  rises : ∀ {s e t}, I s → step s e = some t → costly e = true → work t ≤ work s + price

namespace Drains
variable {step : σ → ε → Option σ} {I : σ → Prop} {costly : ε → Bool} {work : σ → Nat} {price : Nat}

def costs (costly : ε → Bool) (trace : List (σ × ε)) : Nat := trace.countP fun p => costly p.2

theorem invariant (D : Drains step I costly work price) {s₀ s : σ} {trace : List (σ × ε)}
    (h : Run step s₀ trace s) (h₀ : I s₀) : I s :=
  h.invariant h₀ D.keep

theorem length_le (D : Drains step I costly work price) {s₀ s : σ} {trace : List (σ × ε)}
    (h : Run step s₀ trace s) (h₀ : I s₀) :
    trace.length + work s ≤ work s₀ + (price + 1) * costs costly trace := by
  induction h with
  | start => simp
  | @next trace s t e hrun hstep ih =>
    have hI := D.invariant hrun h₀
    have hcosts : costs costly ((s, e) :: trace) = costs costly trace + if costly e then 1 else 0 :=
      List.countP_cons
    rw [hcosts, List.length_cons, Nat.mul_add]
    cases hc : costly e with
    | false =>
      have hfalls := D.falls hI hstep hc
      simp
      omega
    | true =>
      have hrises := D.rises hI hstep hc
      simp
      omega

theorem runs_dry (D : Drains step I costly work price) (s : σ) (hs : I s) :
    ∃ trace t, Run step s trace t ∧ (∀ p ∈ trace, costly p.2 = false) ∧
      ∀ e, costly e = false → step t e = none := by
  generalize hw : work s = n
  induction n using Nat.strongRecOn generalizing s with
  | ind n ih =>
    by_cases hdry : ∀ e, costly e = false → step s e = none
    · exact ⟨[], s, .start, by simp, hdry⟩
    · simp only [not_forall] at hdry
      obtain ⟨e, hc, hstep⟩ := hdry
      obtain ⟨t, ht⟩ := Option.ne_none_iff_exists'.mp hstep
      have hless := D.falls hs ht hc
      obtain ⟨trace, u, hrun, hcheap, hend⟩ := ih (work t) (by omega) t (D.keep hs ht) rfl
      refine ⟨trace ++ [(s, e)], u, ?_, ?_, hend⟩
      · exact (Run.start.next ht).append hrun
      · intro p hp
        rcases List.mem_append.mp hp with hp | hp
        · exact hcheap p hp
        · rw [List.mem_singleton.mp hp]
          exact hc

/-- More may be known of the states, and more steps may be called costly. -/
theorem widen {J : σ → Prop} {more : ε → Bool} (D : Drains step I costly work price)
    (keep : ∀ {s e t}, I s → J s → step s e = some t → J t)
    (hmore : ∀ e, costly e = true → more e = true) :
    Drains step (fun s => I s ∧ J s) more work price where
  keep := fun hs h => ⟨D.keep hs.1 h, keep hs.1 hs.2 h⟩
  falls := by
    intro s e t hs h hcheap
    apply D.falls hs.1 h
    by_contra hcostly
    have hboth := hmore e (by simpa using hcostly)
    rw [hcheap] at hboth
    cases hboth
  rises := by
    intro s e t hs h _
    cases hcostly : costly e with
    | true => exact D.rises hs.1 h hcostly
    | false =>
      have hfalls := D.falls hs.1 h hcostly
      omega

/-- Steps that all lower the work may be called costly at will. -/
theorem of_falling (keep : ∀ {s e t}, I s → step s e = some t → I t)
    (falls : ∀ {s e t}, I s → step s e = some t → work t < work s) (costly : ε → Bool) :
    Drains step I costly work 0 :=
  ⟨keep, fun hs h _ => falls hs h, fun hs h _ => Nat.le_of_lt (falls hs h)⟩

end Drains
end Foundation
