import AmClient.Client.Limits

/-!
# Bundles without a message

`EndBundle` sends a bundle only if it is longer than its header. `AppendBundle` sends the
bundle it has before a message that does not fit, and does not ask whether there is
anything in it.
-/

namespace AmClient.Client
open Foundation Osc
set_option autoImplicit false

variable {decibels : BitVec 32 → Decibels}

/-- Every bundle that was sent is longer than its header. -/
def NoEmptyBundle (s : State) : Prop :=
  ∀ d ∈ s.udpSent, header <+: d → header.length < d.length

/-- The call appends, to an open bundle that holds only its header, a message that does
not fit behind the header. -/
def FlushesHeader (decibels : BitVec 32 → Decibels) (s : State) (c : Call) : Prop :=
  s.startBundle = true ∧ s.udpBundle.length = 16 ∧
    ∃ m ∈ routedToUdp decibels s c, MAX_MESSAGE_SIZE - 16 < m.length

instance (decibels : BitVec 32 → Decibels) (s : State) (c : Call) :
    Decidable (FlushesHeader decibels s c) :=
  inferInstanceAs (Decidable (s.startBundle = true ∧ s.udpBundle.length = 16 ∧
    ∃ m ∈ routedToUdp decibels s c, MAX_MESSAGE_SIZE - 16 < m.length))

/-- `udp_bundle_` is empty or begins with the header, and an open one does. -/
def Headed (w : Wire) : Prop :=
  header <+: w.udpBundle ∨ w.udpBundle = [] ∧ w.startBundle = false

theorem length_header : header.length = 16 := by decide

theorem newBundle_of_header {bundle : Bytes} (h : header <+: bundle) :
    newBundle bundle = header := by
  obtain ⟨rest, rfl⟩ := h
  exact newBundle_header rest

theorem Headed.open_header {w : Wire} (h : Headed w) (hopen : w.startBundle = true) :
    header <+: w.udpBundle := by
  rcases h with hheader | ⟨_, hclosed⟩
  · exact hheader
  · exact nomatch hopen.symm.trans hclosed

theorem Headed.newBundle {w : Wire} (h : Headed w) : Client.newBundle w.udpBundle = header := by
  rcases h with hheader | ⟨hnil, _⟩
  · exact newBundle_of_header hheader
  · rw [hnil]
    exact newBundle_nil

theorem Move.headed {s : State} {c : Call} {w : Wire} (h : Move decibels s c w)
    (hs : Headed s.wire) : Headed w := by
  cases h with
  | silent => exact hs
  | datagram _ hclosed =>
    rcases hs with hheader | ⟨hnil, _⟩
    · exact Or.inl hheader
    · exact Or.inr ⟨hnil, rfl⟩
  | append _ hopen => exact Or.inl ((hs.open_header hopen).trans (List.prefix_append _ _))
  | flush _ hopen =>
    have hnew : newBundle s.udpBundle = header := hs.newBundle
    left
    simp only [hnew]
    exact List.prefix_append _ _
  | opened =>
    have hnew : newBundle s.udpBundle = header := hs.newBundle
    left
    simp only [hnew]
    exact List.prefix_refl _
  | reopened =>
    left
    simp only [newBundle_nil]
    exact List.prefix_refl _
  | restarted =>
    have hnew : newBundle s.udpBundle = header := hs.newBundle
    left
    simp only [hnew]
    exact List.prefix_refl _
  | closed => exact Or.inr ⟨rfl, rfl⟩
  | dropped =>
    rcases hs with hheader | ⟨hnil, _⟩
    · exact Or.inl hheader
    · exact Or.inr ⟨hnil, rfl⟩

theorem noEmpty_concat {ds : List Bytes} {d : Bytes}
    (hds : ∀ x ∈ ds, header <+: x → header.length < x.length)
    (hd : header <+: d → header.length < d.length) :
    ∀ x ∈ ds ++ [d], header <+: x → header.length < x.length := by
  intro x hx
  rcases List.mem_append.mp hx with hx | hx
  · exact hds x hx
  · rw [List.mem_singleton.mp hx]
    exact hd

theorem Move.noEmpty {s : State} {c : Call} {w : Wire} (h : Move decibels s c w)
    (hsent : NoEmptyBundle s) (hC : ¬ FlushesHeader decibels s c) :
    ∀ d ∈ w.udpSent, header <+: d → header.length < d.length := by
  cases h with
  | silent => exact hsent
  | datagram hroute =>
    apply noEmpty_concat hsent
    intro hheader
    exact (not_bundle_of_slash (routed_head hroute) hheader).elim
  | append => exact hsent
  | @flush _ m hroute hopen hover =>
    apply noEmpty_concat hsent
    intro hheader
    have hlong := hheader.length_le
    rw [length_header] at hlong ⊢
    by_contra hshort
    have hsize : s.udpBundle.length = 16 := by omega
    rw [hsize] at hover
    unfold MAX_MESSAGE_SIZE at hover
    exact hC ⟨hopen, hsize, m, hroute, by unfold MAX_MESSAGE_SIZE; omega⟩
  | opened => exact hsent
  | reopened _ hlen => exact noEmpty_concat hsent fun _ => by rwa [length_header]
  | restarted => exact hsent
  | closed hlen => exact noEmpty_concat hsent fun _ => by rwa [length_header]
  | dropped => exact hsent

theorem Move.flushes_header {s : State} {c : Call} {w : Wire} (h : Move decibels s c w)
    (hs : Headed s.wire) (hflush : FlushesHeader decibels s c) : header ∈ w.udpSent := by
  obtain ⟨hopen, hsize, m, hroute, hlong⟩ := hflush
  have same {m' : Bytes} (hroute' : routedToUdp decibels s c = some m') : m' = m :=
    Option.some.inj (hroute'.symm.trans hroute)
  cases h with
  | silent hnone => exact nomatch hnone.symm.trans hroute
  | datagram _ hclosed => exact nomatch hopen.symm.trans hclosed
  | append hroute' _ hfit =>
    rw [same hroute', hsize] at hfit
    omega
  | flush =>
    have hheader : s.udpBundle = header := by
      apply Eq.symm
      apply (hs.open_header hopen).eq_of_length
      rw [length_header]
      exact hsize.symm
    rw [← hheader]
    exact List.mem_append_right _ (List.mem_singleton_self _)
  | opened => simp [routed_start] at hroute
  | reopened => simp [routed_start] at hroute
  | restarted => simp [routed_start] at hroute
  | closed => simp [routed_end] at hroute
  | dropped => simp [routed_end] at hroute

/-- A bundle without a message is sent exactly in the runs that append to an empty bundle
a message longer than 1484 bytes. -/
theorem no_empty_bundle_iff {baseAddress : Bytes} {trace : List (State × Call)} {s : State}
    (h : Run (step decibels) (init baseAddress) trace s) :
    (∀ t ∈ visited trace s, NoEmptyBundle t) ↔
      ∀ p ∈ trace, ¬ FlushesHeader decibels p.1 p.2 := by
  refine h.exact_condition (I := fun s => Headed s.wire ∧ NoEmptyBundle s)
    (C := fun s c => ¬ FlushesHeader decibels s c) ?_ And.right ?_ ?_
  · exact ⟨Or.inr ⟨rfl, rfl⟩, fun _ hd => nomatch hd⟩
  · intro s c t hI hC hstep
    obtain ⟨hheaded, hsent⟩ := hI
    have hmove := step_move hstep
    exact ⟨hmove.headed hheaded, hmove.noEmpty hsent hC⟩
  · intro s c t hI hC hstep hnone
    have hmem := (step_move hstep).flushes_header hI.1 (not_not.mp hC)
    have hlong := hnone header hmem (List.prefix_refl _)
    omega

theorem no_empty_bundle_of_split :
    ∃ trace s, Run (step fun _ => .float 0) (init (ascii "/am")) trace s ∧
      s.udpSent.map List.length = [720] ∧ ∀ t ∈ visited trace s, NoEmptyBundle t := by
  obtain ⟨trace, s, h, hsent, hfit⟩ := run_of_record
    (step fun _ => .float 0) (init (ascii "/am")) [.startBundle, sendText 691, sendText 1479]
    (fun trace s => s.udpSent.map List.length = [720] ∧
      ∀ p ∈ trace, ¬ FlushesHeader (fun _ => .float 0) p.1 p.2)
    (by decide +kernel)
  exact ⟨trace, s, h, hsent, (no_empty_bundle_iff h).mpr hfit⟩

/-- A message of 1488 bytes is the first one of its bundle. -/
theorem long_message_flushes_header :
    ∃ trace s, Run (step fun _ => .float 0) (init (ascii "/am")) trace s ∧
      trace.map Prod.snd = [sendText 1479, .startBundle] ∧
      (∀ p ∈ trace, ∀ m ∈ routedToUdp (fun _ => .float 0) p.1 p.2, m.length = 1488) ∧
      s.udpSent = [header] ∧ ¬ NoEmptyBundle s := by
  obtain ⟨trace, s, h, hcalls, hsize, hsent⟩ := run_of_record
    (step fun _ => .float 0) (init (ascii "/am")) [.startBundle, sendText 1479]
    (fun trace s => trace.map Prod.snd = [sendText 1479, .startBundle] ∧
      (∀ p ∈ trace, ∀ m ∈ routedToUdp (fun _ => .float 0) p.1 p.2, m.length = 1488) ∧
      s.udpSent = [header])
    (by decide +kernel)
  refine ⟨trace, s, h, hcalls, hsize, hsent, ?_⟩
  intro hnone
  have hmem : header ∈ s.udpSent := by
    rw [hsent]
    exact List.mem_singleton_self _
  have hlong := hnone header hmem (List.prefix_refl _)
  omega

end AmClient.Client
