import AmClient.Client.Bundle
import AmClient.Osc.Bounded

/-!
# Custom messages and their buffer

`SendCustomTCP` and `SendCustomUDP` give `voscpack` a buffer of `MAX_MESSAGE_SIZE` bytes
and look at nothing but its result. Here the two calls run on the checked `voscpack`.
-/

namespace AmClient.Client
open Foundation Osc
set_option autoImplicit false

variable {decibels : BitVec 32 → Decibels}

namespace Checked

/-- A custom call that passes its message on by `send`. -/
def sendCustom (send : Bytes → State) (s : State) (url : Bytes) (format : CString)
    (args : List Arg) : Except Undefined State := do
  let (buf, size) ← voscpackInto MAX_MESSAGE_SIZE (cstr (s.baseAddress ++ url)) format args
  if size > 0 then
    let buf := resize (resize buf.bytes MAX_MESSAGE_SIZE) size.toNat
    return send buf
  else return s

def sendCustomTCP (s : State) : Bytes → CString → List Arg → Except Undefined State :=
  sendCustom (fun buf => { s with tcpSent := s.tcpSent ++ [buf] }) s

def sendCustomUDP (s : State) : Bytes → CString → List Arg → Except Undefined State :=
  sendCustom (fun buf =>
    if s.startBundle then s.appendBundle buf
    else { s with udpSent := s.udpSent ++ [buf] }) s

end Checked

/-- The message can be packed and is no longer than the buffer. -/
def FitsBuffer (addr format : CString) (args : List Arg) : Prop :=
  addr.val.head? = some slash ∧ Supported format.val ∧
    packedSize addr.val format.val args ≤ MAX_MESSAGE_SIZE

/-- No write goes behind the end of the buffer, and a message that does not fit in it is
rejected. -/
structure NoOverrun (s : State) (addr format : CString) (args : List Arg)
    (result : Except Undefined State) : Prop where
  in_range : result ≠ .error .outOfRange
  rejected : ¬ FitsBuffer addr format args → result = .ok s

/-- There is room for the message or, when its format is rejected, for what is written
before the first unknown tag. -/
def HasRoom (addr format : CString) (args : List Arg) : Prop :=
  addr.val.head? = some slash →
    if Supported format.val then packedSize addr.val format.val args ≤ MAX_MESSAGE_SIZE
    else 0 ≤ int32 addr.val.length ∧
      alignedLength (int32 addr.val.length).toNat + 1 + (knownTags format.val).length ≤
        MAX_MESSAGE_SIZE

section Custom
variable {send : Bytes → State} {s : State} {url : Bytes} {format : CString} {args : List Arg}

theorem sendCustom_ok {buf : Buffer MAX_MESSAGE_SIZE} {size : Int}
    (h : voscpackInto MAX_MESSAGE_SIZE (cstr (s.baseAddress ++ url)) format args =
      .ok (buf, size)) :
    Checked.sendCustom send s url format args =
      .ok (if size > 0 then send (resize (resize buf.bytes MAX_MESSAGE_SIZE) size.toNat)
        else s) := by
  unfold Checked.sendCustom
  rw [h]
  change (if size > 0 then pure (send _) else pure s) = _
  split
  · rfl
  · rfl

theorem sendCustom_error {e : Undefined}
    (h : voscpackInto MAX_MESSAGE_SIZE (cstr (s.baseAddress ++ url)) format args = .error e) :
    Checked.sendCustom send s url format args = .error e := by
  unfold Checked.sendCustom
  rw [h]
  rfl

/-- A custom call with a supported format either passes a message on or is undefined. -/
theorem sendCustom_sent {t : State}
    (hslash : (cstr (s.baseAddress ++ url)).val.head? = some slash)
    (hformat : Supported format.val)
    (h : Checked.sendCustom send s url format args = .ok t) : ∃ m ≠ [], t = send m := by
  obtain ⟨⟨buf, size⟩, hpack, _⟩ := bind_ok h
  have hpos := voscpackInto_size hslash hformat hpack
  rw [sendCustom_ok hpack, if_pos hpos] at h
  refine ⟨_, ?_, (Except.ok.inj h).symm⟩
  intro hnil
  have hlen := congrArg List.length hnil
  rw [length_resize, List.length_nil] at hlen
  omega

theorem length_leading (addr format : Bytes) :
    (leadingBytes addr format).length =
      alignedLength (int32 addr.length).toNat + 1 + (knownTags format).length := by
  have htake : (addr.take (int32 addr.length).toNat).length = (int32 addr.length).toNat := by
    rw [List.length_take]
    exact Nat.min_eq_left (int32_toNat_le _)
  simp only [leadingBytes, List.length_append, length_padded, htake]
  rfl

theorem supported_iff (hsend : ∀ m ≠ [], send m ≠ s)
    (hslash : (cstr (s.baseAddress ++ url)).val.head? = some slash)
    (hformat : Supported format.val) (hargs : Matches format.val args) :
    NoOverrun s (cstr (s.baseAddress ++ url)) format args
        (Checked.sendCustom send s url format args) ↔
      packedSize (cstr (s.baseAddress ++ url)).val format.val args ≤ MAX_MESSAGE_SIZE := by
  constructor
  · intro hsafe
    by_contra hlong
    have hkept := hsafe.rejected fun hfits => hlong hfits.2.2
    obtain ⟨m, hm, hsent⟩ := sendCustom_sent hslash hformat hkept
    exact hsend m hm hsent.symm
  · intro hfits
    have hlen := length_packed (cstr (s.baseAddress ++ url)).val format.val args
    have hsmall : packedSize (cstr (s.baseAddress ++ url)).val format.val args < 2 ^ 31 :=
      Nat.lt_of_le_of_lt hfits (by decide)
    have hpack : voscpackInto MAX_MESSAGE_SIZE _ format args = _ :=
      voscpackInto_supported hslash hformat (packArgs_of_matches hargs) (by omega)
    rw [Buffer.put_ok (by simpa [Buffer.empty, hlen] using hfits)] at hpack
    have hok : Checked.sendCustom send s url format args = _ := sendCustom_ok hpack
    refine ⟨?_, fun hnot => (hnot ⟨hslash, hformat, hfits⟩).elim⟩
    simp [hok]

theorem unsupported_iff
    (hslash : (cstr (s.baseAddress ++ url)).val.head? = some slash)
    (hformat : ¬ Supported format.val) :
    NoOverrun s (cstr (s.baseAddress ++ url)) format args
        (Checked.sendCustom send s url format args) ↔
      0 ≤ int32 (cstr (s.baseAddress ++ url)).val.length ∧
        alignedLength (int32 (cstr (s.baseAddress ++ url)).val.length).toNat + 1 +
          (knownTags format.val).length ≤ MAX_MESSAGE_SIZE := by
  rw [← length_leading]
  constructor
  · intro hsafe
    by_cases hneg : int32 (cstr (s.baseAddress ++ url)).val.length < 0
    · exact (hsafe.in_range (sendCustom_error (voscpackInto_negative hslash hneg))).elim
    · refine ⟨by omega, ?_⟩
      by_contra hlong
      have hpack : voscpackInto MAX_MESSAGE_SIZE _ format args = _ :=
        voscpackInto_unsupported hslash (by omega) hformat
      rw [Buffer.put_error (by simpa [Buffer.empty] using hlong)] at hpack
      exact hsafe.in_range (sendCustom_error hpack)
  · rintro ⟨hint, hfits⟩
    have hpack : voscpackInto MAX_MESSAGE_SIZE _ format args = _ :=
      voscpackInto_unsupported hslash hint hformat
    rw [Buffer.put_ok (by simpa [Buffer.empty] using hfits)] at hpack
    have hok : Checked.sendCustom send s url format args = _ := sendCustom_ok hpack
    rw [if_neg (by decide)] at hok
    refine ⟨?_, fun _ => hok⟩
    simp [hok]

theorem sendCustom_iff (hsend : ∀ m ≠ [], send m ≠ s)
    (hargs : Supported format.val → Matches format.val args) :
    NoOverrun s (cstr (s.baseAddress ++ url)) format args
        (Checked.sendCustom send s url format args) ↔
      HasRoom (cstr (s.baseAddress ++ url)) format args := by
  unfold HasRoom
  by_cases hslash : (cstr (s.baseAddress ++ url)).val.head? = some slash
  · by_cases hformat : Supported format.val
    · simp only [hslash, hformat, ↓reduceIte, forall_const]
      exact supported_iff hsend hslash hformat (hargs hformat)
    · simp only [hslash, hformat, ↓reduceIte, forall_const]
      exact unsupported_iff hslash hformat
  · have hok : Checked.sendCustom send s url format args = _ :=
      sendCustom_ok (voscpackInto_no_slash hslash)
    rw [if_neg (by decide)] at hok
    constructor
    · intro _ hyes
      exact (hslash hyes).elim
    · intro _
      refine ⟨?_, fun _ => hok⟩
      simp [hok]

/-- The checked call is the call, as long as no write is out of range. -/
theorem sendCustom_eq {written : Bytes} {size : Int}
    (h : voscpack (cstr (s.baseAddress ++ url)) format args = some (written, size))
    (hlen : written.length < 2 ^ 31) :
    Checked.sendCustom send s url format args =
      if written.length ≤ MAX_MESSAGE_SIZE then
        .ok (if size > 0 then send (resize (resize written MAX_MESSAGE_SIZE) size.toNat) else s)
      else .error .outOfRange := by
  have hpack : voscpackInto MAX_MESSAGE_SIZE _ format args = _ := voscpackInto_eq h hlen
  by_cases hfits : written.length ≤ MAX_MESSAGE_SIZE
  · rw [Buffer.put_ok (by simpa [Buffer.empty] using hfits)] at hpack
    rw [if_pos hfits, sendCustom_ok hpack]
    rfl
  · rw [Buffer.put_error (by simpa [Buffer.empty] using hfits)] at hpack
    rw [if_neg hfits, sendCustom_error hpack]

end Custom

theorem checked_sendCustomTCP {s t : State} {url : Bytes} {format : CString} {args : List Arg}
    {written : Bytes} {size : Int} (h : s.sendCustomTCP url format args = some t)
    (hpack : voscpack (cstr (s.baseAddress ++ url)) format args = some (written, size))
    (hlen : written.length < 2 ^ 31) :
    Checked.sendCustomTCP s url format args =
      if written.length ≤ MAX_MESSAGE_SIZE then .ok t else .error .outOfRange := by
  rw [Checked.sendCustomTCP, sendCustom_eq hpack hlen]
  by_cases hfits : written.length ≤ MAX_MESSAGE_SIZE
  · rw [if_pos hfits, if_pos hfits]
    simp only [State.sendCustomTCP, pack, hpack, Option.map_some, Nat.not_lt.mpr hfits,
      decide_false, Bool.or_false] at h
    rw [← Option.some.inj h]
  · rw [if_neg hfits, if_neg hfits]

theorem checked_sendCustomUDP {s t : State} {url : Bytes} {format : CString} {args : List Arg}
    {written : Bytes} {size : Int} (h : s.sendCustomUDP url format args = some t)
    (hpack : voscpack (cstr (s.baseAddress ++ url)) format args = some (written, size))
    (hlen : written.length < 2 ^ 31) :
    Checked.sendCustomUDP s url format args =
      if written.length ≤ MAX_MESSAGE_SIZE then .ok t else .error .outOfRange := by
  rw [Checked.sendCustomUDP, sendCustom_eq hpack hlen]
  by_cases hfits : written.length ≤ MAX_MESSAGE_SIZE
  · rw [if_pos hfits, if_pos hfits]
    simp only [State.sendCustomUDP, pack, hpack, Option.map_some, Nat.not_lt.mpr hfits,
      decide_false, Bool.or_false] at h
    rw [← Option.some.inj h]
  · rw [if_neg hfits, if_neg hfits]

theorem appendBundle_ne (s : State) {m : Bytes} (hm : m ≠ []) : s.appendBundle m ≠ s := by
  intro heq
  have hwire := congrArg State.wire heq
  rw [appendBundle_wire s hm] at hwire
  split at hwire
  · have hlen := congrArg (fun w => w.udpBundle.length) hwire
    simp only [State.wire, List.length_append, length_frame] at hlen
    omega
  · have hlen := congrArg (fun w => w.udpSent.length) hwire
    simp only [State.wire, List.length_append, List.length_singleton] at hlen
    omega

theorem concat_ne {ds : List Bytes} {d : Bytes} : ds ++ [d] ≠ ds := by
  intro heq
  have hlen := congrArg List.length heq
  rw [List.length_append, List.length_singleton] at hlen
  omega

/-- A custom call keeps within its buffer, and rejects what does not fit, exactly when what
it writes has room in the buffer. -/
theorem no_overrun_iff (s : State) (url : Bytes) (format : CString) (args : List Arg)
    (hargs : Supported format.val → Matches format.val args) :
    (NoOverrun s (cstr (s.baseAddress ++ url)) format args
        (Checked.sendCustomTCP s url format args) ↔
      HasRoom (cstr (s.baseAddress ++ url)) format args) ∧
    (NoOverrun s (cstr (s.baseAddress ++ url)) format args
        (Checked.sendCustomUDP s url format args) ↔
      HasRoom (cstr (s.baseAddress ++ url)) format args) := by
  constructor
  · apply sendCustom_iff _ hargs
    intro m _ heq
    exact concat_ne (congrArg State.tcpSent heq)
  · apply sendCustom_iff _ hargs
    intro m hm
    split
    · exact appendBundle_ne s hm
    · intro heq
      exact concat_ne (congrArg State.udpSent heq)

theorem no_overrun_of_short_text :
    NoOverrun (init (ascii "/am")) (cstr (ascii "/am/x")) (cstr (ascii "s"))
      [.string (cstr (ascii "abc"))]
      (Checked.sendCustomTCP (init (ascii "/am")) (ascii "/x") (cstr (ascii "s"))
        [.string (cstr (ascii "abc"))]) := by
  apply (no_overrun_iff (init (ascii "/am")) (ascii "/x") (cstr (ascii "s"))
    [.string (cstr (ascii "abc"))] (by decide)).1.mpr
  intro _
  decide

/-- A text of 1500 characters goes behind the end of the buffer. -/
theorem long_text_overruns :
    Checked.sendCustomTCP (init (ascii "/am")) [] (cstr (ascii "s"))
        [.string (cstr (List.replicate 1500 97))] = .error .outOfRange ∧
      ¬ NoOverrun (init (ascii "/am")) (cstr (ascii "/am")) (cstr (ascii "s"))
        [.string (cstr (List.replicate 1500 97))]
        (Checked.sendCustomTCP (init (ascii "/am")) [] (cstr (ascii "s"))
          [.string (cstr (List.replicate 1500 97))]) := by
  have herror : Checked.sendCustomTCP (init (ascii "/am")) [] (cstr (ascii "s"))
      [.string (cstr (List.replicate 1500 97))] = .error .outOfRange := by
    decide +kernel
  exact ⟨herror, fun hsafe => hsafe.in_range herror⟩

end AmClient.Client
