import AmClient.Foundation.Runs

/-!
# A queue that replays its last completed element

Elements are accepted at the back and completed at the front. The last completed one may
be pushed to the front again at any time, and the queue may be emptied, with or without
forgetting that element. Each element is accepted at most once.

The queue is always some copies of the last completed element in front of a final part
of the accepted elements, and first completions happen in the order of acceptance.
-/

namespace Foundation
set_option autoImplicit false

universe u
variable {α : Type u}

structure Replay (α : Type u) where
  last : Option α := none
  queue : List α := []
  accepted : List α := []
  completed : List α := []

inductive ReplayOp (α : Type u) where
  | accept (a : α)
  | replay
  | complete
  | discard
  | reset

namespace Replay
variable [DecidableEq α]

def step (b : Replay α) : ReplayOp α → Option (Replay α)
  | .accept a =>
    if a ∈ b.accepted then none
    else some { b with queue := b.queue ++ [a], accepted := b.accepted ++ [a] }
  | .replay => b.last.map fun p => { b with queue := p :: b.queue }
  | .complete => match b.queue with
    | [] => none
    | a :: rest => some { b with last := some a, queue := rest, completed := b.completed ++ [a] }
  | .discard => some { b with queue := [] }
  | .reset => some { b with queue := [], last := none }

def copies (last : Option α) (n : Nat) : List α := last.elim [] (List.replicate n)

/-- `n` copies of the last completed element stand before the elements `fresh`, the end of
the accepted ones; `old` are the accepted elements before them. -/
structure Split (b : Replay α) (n : Nat) (old fresh : List α) : Prop where
  accepted : b.accepted = old ++ fresh
  queue : b.queue = copies b.last n ++ fresh
  nodup : b.accepted.Nodup
  last_completed : ∀ p, b.last = some p → p ∈ b.completed
  order : b.completed.eraseDups.Sublist old

theorem eraseDups_concat_mem {l : List α} {a : α} (h : a ∈ l) :
    (l ++ [a]).eraseDups = l.eraseDups := by
  simp [List.eraseDups_append, List.removeAll, h]

theorem eraseDups_concat_not_mem {l : List α} {a : α} (h : a ∉ l) :
    (l ++ [a]).eraseDups = l.eraseDups ++ [a] := by
  simp [List.eraseDups_append, List.removeAll, h, List.eraseDups_cons]

namespace Split
variable {b b' : Replay α} {n : Nat} {old fresh : List α}

theorem completed_old (h : Split b n old fresh) {a : α} (ha : a ∈ b.completed) : a ∈ old :=
  h.order.subset (List.mem_eraseDups.mpr ha)

theorem old_not_fresh (h : Split b n old fresh) {a : α} (ha : a ∈ old) : a ∉ fresh := by
  have hnodup := h.nodup
  rw [h.accepted, List.nodup_append] at hnodup
  exact fun hf => hnodup.2.2 a ha a hf rfl

theorem accept (h : Split b n old fresh) {a : α} (hstep : b.step (.accept a) = some b') :
    Split b' n old (fresh ++ [a]) := by
  simp only [step] at hstep
  split at hstep
  · exact nomatch hstep
  · rename_i hnew
    obtain rfl := Option.some.inj hstep
    refine ⟨by simp [h.accepted], by simp [h.queue], ?_, h.last_completed, h.order⟩
    refine List.nodup_append.mpr ⟨h.nodup, by simp, ?_⟩
    intro x hx y hy heq
    rw [List.mem_singleton] at hy
    exact hnew (hy ▸ heq ▸ hx)

theorem replay (h : Split b n old fresh) (hstep : b.step .replay = some b') :
    Split b' (n + 1) old fresh := by
  obtain ⟨p, hp, rfl⟩ := Option.map_eq_some_iff.mp hstep
  refine ⟨h.accepted, ?_, h.nodup, h.last_completed, h.order⟩
  simp [h.queue, copies, hp, List.replicate_succ]

/-- Completing a copy removes it; completing a fresh element leaves no copies. -/
theorem complete (h : Split b n old fresh) (hstep : b.step .complete = some b') :
    (∃ m, n = m + 1 ∧ Split b' m old fresh) ∨
      ∃ a rest, fresh = a :: rest ∧ Split b' 0 (old ++ [a]) rest := by
  have completes_fresh (hcopies : copies b.last n = []) :
      ∃ a rest, fresh = a :: rest ∧ Split b' 0 (old ++ [a]) rest := by
    have hq := h.queue
    rw [hcopies, List.nil_append] at hq
    cases fresh with
    | nil => simp [step, hq] at hstep
    | cons a rest =>
      simp only [step, hq, Option.some.injEq] at hstep
      subst hstep
      have hnew : a ∉ b.completed := by
        intro ha
        exact h.old_not_fresh (h.completed_old ha) List.mem_cons_self
      refine ⟨a, rest, rfl, by simp [h.accepted], by simp [copies], h.nodup, ?_, ?_⟩
      · rintro p ⟨⟩
        exact List.mem_append_right _ List.mem_cons_self
      · simp only
        rw [eraseDups_concat_not_mem hnew]
        exact h.order.append (List.Sublist.refl _)
  cases hlast : b.last with
  | none => exact .inr (completes_fresh (by simp [copies, hlast]))
  | some p =>
    cases n with
    | zero => exact .inr (completes_fresh (by simp [copies, hlast]))
    | succ m =>
      have hq : b.queue = p :: (List.replicate m p ++ fresh) := by
        simp [h.queue, copies, hlast, List.replicate_succ]
      simp only [step, hq, Option.some.injEq] at hstep
      subst hstep
      have hmem := h.last_completed p hlast
      refine .inl ⟨m, rfl, h.accepted, by simp [copies], h.nodup, ?_, ?_⟩
      · rintro q ⟨⟩
        exact List.mem_append_left _ hmem
      · simp only
        rw [eraseDups_concat_mem hmem]
        exact h.order

theorem discard (h : Split b n old fresh) (hstep : b.step .discard = some b') :
    Split b' 0 (old ++ fresh) [] := by
  obtain rfl := Option.some.inj hstep
  refine ⟨by simp [h.accepted], ?_, h.nodup, h.last_completed, ?_⟩
  · cases b.last with
    | none => rfl
    | some p => rfl
  · exact h.order.trans (List.sublist_append_left _ _)

theorem reset (h : Split b n old fresh) (hstep : b.step .reset = some b') :
    Split b' 0 (old ++ fresh) [] := by
  obtain rfl := Option.some.inj hstep
  refine ⟨by simp [h.accepted], by simp [copies], h.nodup, (fun p hp => nomatch hp), ?_⟩
  exact h.order.trans (List.sublist_append_left _ _)

theorem start : Split ({} : Replay α) 0 [] [] :=
  ⟨rfl, rfl, List.nodup_nil, (fun _ hp => nomatch hp), List.Sublist.refl _⟩

theorem step (h : Split b n old fresh) {op : ReplayOp α} (hstep : b.step op = some b') :
    ∃ m old' fresh', Split b' m old' fresh' ∧ (m ≤ n ∨ op = .replay ∧ m = n + 1) := by
  cases op with
  | accept a => exact ⟨_, _, _, h.accept hstep, .inl (Nat.le_refl _)⟩
  | replay => exact ⟨_, _, _, h.replay hstep, .inr ⟨rfl, rfl⟩⟩
  | complete =>
    rcases h.complete hstep with ⟨m, rfl, hs⟩ | ⟨a, rest, _, hs⟩
    · exact ⟨_, _, _, hs, .inl (Nat.le_succ _)⟩
    · exact ⟨_, _, _, hs, .inl (Nat.zero_le _)⟩
  | discard => exact ⟨_, _, _, h.discard hstep, .inl (Nat.zero_le _)⟩
  | reset => exact ⟨_, _, _, h.reset hstep, .inl (Nat.zero_le _)⟩

/-- With at most one copy the queue repeats nothing and keeps the order of acceptance. -/
theorem queue_sublist (h : Split b n old fresh) (hn : n ≤ 1) : b.queue.Sublist b.accepted := by
  rw [h.queue, h.accepted]
  cases hlast : b.last with
  | none => exact List.sublist_append_right _ _
  | some p =>
    have hp : p ∈ old := h.completed_old (h.last_completed p hlast)
    have hcopies : (copies (some p) n).Sublist old := by
      refine List.Sublist.trans ?_ (List.singleton_sublist.mpr hp)
      simpa [copies] using List.replicate_sublist_replicate p |>.mpr hn
    exact hcopies.append (List.Sublist.refl _)

theorem queue_pairwise (h : Split b n old fresh) {r : α → α → Prop}
    (hr : b.accepted.Pairwise r) : b.queue.Pairwise fun x y => x = y ∨ r x y := by
  rw [h.accepted, List.pairwise_append] at hr
  obtain ⟨_, hfresh, hcross⟩ := hr
  rw [h.queue, List.pairwise_append]
  refine ⟨?_, hfresh.imp .inr, ?_⟩
  · cases hlast : b.last with
    | none => exact .nil
    | some p => exact List.pairwise_replicate.mpr (.inr (.inl rfl))
  · intro x hx y hy
    cases hlast : b.last with
    | none => simp [copies, hlast] at hx
    | some p =>
      have hx' : x = p := by
        rw [hlast] at hx
        exact List.eq_of_mem_replicate hx
      exact .inr (hcross x (hx' ▸ h.completed_old (h.last_completed p hlast)) y hy)

theorem queue_accepted (h : Split b n old fresh) {a : α} (ha : a ∈ b.queue) :
    a ∈ b.accepted := by
  rw [h.queue] at ha
  rw [h.accepted]
  rcases List.mem_append.mp ha with ha | ha
  · cases hlast : b.last with
    | none => simp [copies, hlast] at ha
    | some p =>
      rw [hlast] at ha
      have heq := List.eq_of_mem_replicate ha
      exact List.mem_append_left _ (heq ▸ h.completed_old (h.last_completed p hlast))
  · exact List.mem_append_right _ ha

theorem no_copy (h : Split b n old fresh) {p : α} (hlast : b.last = some p)
    (hhead : b.queue.head? ≠ some p) : n = 0 := by
  cases n with
  | zero => rfl
  | succ m => simp [h.queue, copies, hlast, List.replicate_succ] at hhead

end Split

end Replay
end Foundation
