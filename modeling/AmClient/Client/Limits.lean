import AmClient.Client.Bundle

/-!
# The size limit of a bundle

`AppendBundle` compares the sizes of the bundle and the message with the limit and then
adds the length prefix too. A message that fills the bundle to within four bytes of the
limit goes in where it should have gone to the next bundle.
-/

namespace AmClient.Client
open Foundation Osc
set_option autoImplicit false

variable {decibels : BitVec 32 → Decibels}

structure WithinLimit (s : State) : Prop where
  bundle : s.udpBundle.length ≤ MAX_MESSAGE_SIZE
  sent : ∀ d ∈ s.udpSent, d.length ≤ MAX_MESSAGE_SIZE

/-- The message of the call fits alone in a fresh bundle, with its length prefix. -/
def FitsAlone (decibels : BitVec 32 → Decibels) (s : State) (c : Call) : Prop :=
  ∀ m ∈ routedToUdp decibels s c, m.length ≤ MAX_MESSAGE_SIZE - 20

instance (decibels : BitVec 32 → Decibels) (s : State) (c : Call) :
    Decidable (FitsAlone decibels s c) :=
  inferInstanceAs (Decidable (∀ m ∈ routedToUdp decibels s c, m.length ≤ MAX_MESSAGE_SIZE - 20))

/-- The call appends a message that fits in the open bundle only without its prefix. -/
def Overfills (decibels : BitVec 32 → Decibels) (s : State) (c : Call) : Prop :=
  s.startBundle = true ∧ ∃ m ∈ routedToUdp decibels s c,
    s.udpBundle.length + m.length ≤ MAX_MESSAGE_SIZE ∧
    MAX_MESSAGE_SIZE < s.udpBundle.length + 4 + m.length

instance (decibels : BitVec 32 → Decibels) (s : State) (c : Call) :
    Decidable (Overfills decibels s c) :=
  inferInstanceAs (Decidable (s.startBundle = true ∧ ∃ m ∈ routedToUdp decibels s c,
    s.udpBundle.length + m.length ≤ MAX_MESSAGE_SIZE ∧
    MAX_MESSAGE_SIZE < s.udpBundle.length + 4 + m.length))

theorem length_newBundle (bundle : Bytes) : (newBundle bundle).length = 16 := by
  simp only [newBundle, List.length_set, List.length_append, List.length_drop, length_resize]
  decide

theorem within_concat {ds : List Bytes} {d : Bytes}
    (hds : ∀ x ∈ ds, x.length ≤ MAX_MESSAGE_SIZE) (hd : d.length ≤ MAX_MESSAGE_SIZE) :
    ∀ x ∈ ds ++ [d], x.length ≤ MAX_MESSAGE_SIZE := by
  intro x hx
  rcases List.mem_append.mp hx with hx | hx
  · exact hds x hx
  · rw [List.mem_singleton.mp hx]
    exact hd

theorem Move.within {s : State} {c : Call} {w : Wire} (h : Move decibels s c w)
    (hs : WithinLimit s) (hfits : FitsAlone decibels s c) (hC : ¬ Overfills decibels s c) :
    w.udpBundle.length ≤ MAX_MESSAGE_SIZE ∧ ∀ d ∈ w.udpSent, d.length ≤ MAX_MESSAGE_SIZE := by
  have hnew (bundle : Bytes) : (newBundle bundle).length ≤ MAX_MESSAGE_SIZE := by
    rw [length_newBundle]
    decide
  have hall := within_concat hs.sent hs.bundle
  cases h with
  | silent => exact ⟨hs.bundle, hs.sent⟩
  | datagram hroute =>
    have hm := hfits _ hroute
    exact ⟨hs.bundle, within_concat hs.sent (by omega)⟩
  | @append _ m hroute hopen hfit =>
    refine ⟨?_, hs.sent⟩
    by_contra hover
    apply hC
    rw [List.length_append, length_frame] at hover
    exact ⟨hopen, m, hroute, hfit, by omega⟩
  | flush hroute =>
    have hm := hfits _ hroute
    refine ⟨?_, hall⟩
    rw [List.length_append, length_newBundle, length_frame]
    unfold MAX_MESSAGE_SIZE at hm ⊢
    omega
  | opened => exact ⟨hnew _, hs.sent⟩
  | reopened => exact ⟨hnew _, hall⟩
  | restarted => exact ⟨hnew _, hs.sent⟩
  | closed => exact ⟨Nat.zero_le _, hall⟩
  | dropped => exact ⟨hs.bundle, hs.sent⟩

theorem Move.overfilled {s : State} {c : Call} {w : Wire} (h : Move decibels s c w)
    (hover : Overfills decibels s c) : MAX_MESSAGE_SIZE < w.udpBundle.length := by
  obtain ⟨hopen, m, hroute, hfit, hlong⟩ := hover
  have same {m' : Bytes} (hroute' : routedToUdp decibels s c = some m') : m' = m :=
    Option.some.inj (hroute'.symm.trans hroute)
  cases h with
  | silent hnone => exact nomatch hnone.symm.trans hroute
  | datagram _ hclosed => simp [hopen] at hclosed
  | append hroute' =>
    rw [same hroute', List.length_append, length_frame]
    omega
  | flush hroute' _ hflush =>
    rw [same hroute'] at hflush
    omega
  | opened => simp [routed_start] at hroute
  | reopened => simp [routed_start] at hroute
  | restarted => simp [routed_start] at hroute
  | closed => simp [routed_end] at hroute
  | dropped => simp [routed_end] at hroute

/-- When every message fits alone in a bundle, the limit is kept exactly in the runs that
append no message that fits only without its prefix. -/
theorem within_limit_iff {baseAddress : Bytes} {trace : List (State × Call)} {s : State}
    (h : Run (step decibels) (init baseAddress) trace s)
    (hfits : ∀ p ∈ trace, FitsAlone decibels p.1 p.2) :
    (∀ t ∈ visited trace s, WithinLimit t) ↔ ∀ p ∈ trace, ¬ Overfills decibels p.1 p.2 := by
  refine h.exact_condition_under (I := WithinLimit) (C := fun s c => ¬ Overfills decibels s c)
    hfits ⟨Nat.zero_le _, fun _ hd => nomatch hd⟩ id ?_ ?_
  · intro s c t hs hfit hC hstep
    have hwithin := (step_move hstep).within hs hfit hC
    exact ⟨hwithin.1, hwithin.2⟩
  · intro s c t _ _ hC hstep hsafe
    have hlong : MAX_MESSAGE_SIZE < t.udpBundle.length :=
      (step_move hstep).overfilled (not_not.mp hC)
    have hbundle := hsafe.bundle
    omega

/-- A call whose message is `n + 9` bytes long, for `n` one less than a multiple of four. -/
def sendText (n : Nat) : Call :=
  .sendCustomUDP [] (cstr (ascii "s")) [.string (cstr (List.replicate n 97))]

theorem within_limit_of_split :
    ∃ trace s, Run (step fun _ => .float 0) (init (ascii "/am")) trace s ∧
      s.udpSent.map List.length = [720] ∧ s.udpBundle.length = 804 ∧
      ∀ t ∈ visited trace s, WithinLimit t := by
  obtain ⟨trace, s, h, hsent, hbundle, hfits, hlimit⟩ := run_of_record
    (step fun _ => .float 0) (init (ascii "/am")) [.startBundle, sendText 691, sendText 775]
    (fun trace s => s.udpSent.map List.length = [720] ∧ s.udpBundle.length = 804 ∧
      (∀ p ∈ trace, FitsAlone (fun _ => .float 0) p.1 p.2) ∧
      ∀ p ∈ trace, ¬ Overfills (fun _ => .float 0) p.1 p.2)
    (by decide +kernel)
  exact ⟨trace, s, h, hsent, hbundle, (within_limit_iff h hfits).mpr hlimit⟩

/-- Messages of 700 and 780 bytes: with the header and two prefixes they make 1504. -/
theorem two_messages_exceed_limit :
    ∃ trace s, Run (step fun _ => .float 0) (init (ascii "/am")) trace s ∧
      trace.map Prod.snd = [sendText 771, sendText 691, .startBundle] ∧
      (∀ p ∈ trace, FitsAlone (fun _ => .float 0) p.1 p.2) ∧
      s.udpBundle.length = 1504 ∧ ¬ WithinLimit s := by
  obtain ⟨trace, s, h, hcalls, hfits, hlong⟩ := run_of_record
    (step fun _ => .float 0) (init (ascii "/am")) [.startBundle, sendText 691, sendText 771]
    (fun trace s => trace.map Prod.snd = [sendText 771, sendText 691, .startBundle] ∧
      (∀ p ∈ trace, FitsAlone (fun _ => .float 0) p.1 p.2) ∧ s.udpBundle.length = 1504)
    (by decide +kernel)
  refine ⟨trace, s, h, hcalls, hfits, hlong, ?_⟩
  intro hlimit
  have hbundle := hlimit.bundle
  rw [hlong] at hbundle
  revert hbundle
  decide

end AmClient.Client
