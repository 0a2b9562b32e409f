import AmClient.Client.Routing
import AmClient.Osc.Appends

/-!
# The two encoders

Core messages are built by `tnyosc`, custom messages by `voscpack`. For the same address
and arguments the two agree unless there is a character other than NUL.
-/

namespace AmClient.Client
open Foundation Osc
set_option autoImplicit false

theorem cstr_eq {bytes : Bytes} (h : 0 ∉ bytes) : (cstr bytes).val = bytes := by
  apply List.takeWhile_eq_self_iff.mpr
  intro x hx
  have hne : x ≠ 0 := by
    rintro rfl
    exact h hx
  simpa using hne

section Custom
variable {baseAddress url : Bytes} {format : CString} {args : List Arg}

theorem customMessage_layout {data : Bytes}
    (hslash : (cstr (baseAddress ++ url)).val.head? = some slash) (hformat : Supported format.val)
    (hdata : packArgs format.val args = some data)
    (hsize : (layout (cstr (baseAddress ++ url)).val (ascii "," ++ format.val) data).length ≤
      MAX_MESSAGE_SIZE) :
    customMessage baseAddress url format args =
      some (layout (cstr (baseAddress ++ url)).val (ascii "," ++ format.val) data) := by
  have hpack : voscpack _ format args = _ := voscpack_layout hslash hformat
  rw [hdata, Option.map_some] at hpack
  generalize hm : layout (cstr (baseAddress ++ url)).val (ascii "," ++ format.val) data = m at *
  have hpos : (m.length : Int) > 0 := by
    rw [← hm, length_layout]
    unfold alignedLength
    omega
  have hcut : resize (resize m MAX_MESSAGE_SIZE) m.length = m := by
    rw [resize.eq_1 m, List.take_of_length_le hsize]
    exact resize_append _ _
  rw [customMessage, pack, hpack]
  simp only [Option.map_some, Option.bind_some, hpos, ↓reduceIte, Int.toNat_natCast, hcut]

theorem customMessage_rejected
    (h : ¬ ((cstr (baseAddress ++ url)).val.head? = some slash ∧ Supported format.val)) :
    customMessage baseAddress url format args = none := by
  have hpack : ∃ written,
      voscpack (cstr (baseAddress ++ url)) format args = some (written, -1) := by
    by_cases hslash : (cstr (baseAddress ++ url)).val.head? = some slash
    · exact ⟨_, voscpack_unsupported hslash fun hformat => h ⟨hslash, hformat⟩⟩
    · exact ⟨[], voscpack_no_slash hslash⟩
  obtain ⟨written, hpack⟩ := hpack
  rw [customMessage, pack, hpack]
  rfl

end Custom

theorem customTCP_exists {s : State} {url : Bytes} {format : CString} {args : List Arg} {m : Bytes}
    (h : customMessage s.baseAddress url format args = some m) :
    ∃ t, s.sendCustomTCP url format args = some t ∧ t.tcpSent = s.tcpSent ++ [m] := by
  obtain ⟨p, hp, _⟩ := Option.bind_eq_some_iff.mp h
  have hstep : s.sendCustomTCP url format args = _ := congrArg (Option.map _) hp
  obtain ⟨_, _, hsent⟩ := Control.mk.inj (customTCP_control hstep)
  rw [h] at hsent
  exact ⟨_, hstep, hsent⟩

/-- The call succeeds, and what it hands to `tcp_client_->Send` is the `byte_array` of the
message with the same address and arguments. -/
def EncodersAgree (s : State) (url : Bytes) (format : CString) (args : List Arg) : Prop :=
  ∃ t msg, s.sendCustomTCP url format args = some t ∧
    ({ address := s.baseAddress ++ url } : Message).appendArgs format.val args = some msg ∧
    t.tcpSent = s.tcpSent ++ [msg.byteArray]

/-- For every message that fits in the buffer the encoders agree exactly when each of its
characters is NUL. -/
theorem encoders_agree_iff {s : State} {url : Bytes} {format : CString} {args : List Arg}
    (hslash : (s.baseAddress ++ url).head? = some slash) (hnul : 0 ∉ s.baseAddress ++ url)
    (hformat : Supported format.val) (hargs : Matches format.val args)
    (hsize : packedSize (s.baseAddress ++ url) format.val args ≤ MAX_MESSAGE_SIZE) :
    EncodersAgree s url format args ↔ ∀ c, .char c ∈ args → c = 0 := by
  have hpacked : customMessage s.baseAddress url format args =
      some (layout (s.baseAddress ++ url) (ascii "," ++ format.val) (args.flatMap Arg.bytes)) := by
    have haddr := cstr_eq hnul
    have hmessage : customMessage s.baseAddress url format args = _ :=
      customMessage_layout (by rw [haddr]; exact hslash) hformat (packArgs_of_matches hargs)
        (by rw [length_packed, haddr]; exact hsize)
    rw [hmessage, haddr]
  have hne : s.baseAddress ++ url ≠ [] := by
    intro hnil
    rw [hnil] at hslash
    exact nomatch hslash
  have happends := Message.appendArgs_eq { address := s.baseAddress ++ url } hformat hargs
  have hbytes := Message.byteArray_layout (m := {
    address := s.baseAddress ++ url
    types := ascii "," ++ format.val
    data := [] ++ args.flatMap Arg.appended }) hne
  obtain ⟨t, hstep, hsent⟩ := customTCP_exists hpacked
  rw [← flatMap_appended_iff]
  constructor
  · rintro ⟨t', msg, hstep', hmsg, hsent'⟩
    obtain rfl := Option.some.inj (hstep.symm.trans hstep')
    obtain rfl := Option.some.inj (happends.symm.trans hmsg)
    rw [hsent, hbytes] at hsent'
    have hlayout := List.singleton_inj.mp (List.append_cancel_left hsent')
    exact (List.append_cancel_left hlayout).symm
  · intro hdata
    refine ⟨t, _, hstep, happends, ?_⟩
    rw [hsent, hbytes, ← hdata]
    rfl

theorem encoders_agree_without_char :
    EncodersAgree (init (ascii "/am")) (ascii "/x") (cstr (ascii "isT"))
      [.int32 7, .string (cstr (ascii "abc"))] := by
  refine (encoders_agree_iff rfl (by decide) (by decide) (by decide) (by decide)).mpr ?_
  intro c hc
  simp at hc

/-- `voscpack` writes the character before its padding, `append(char)` behind it. -/
theorem encoders_disagree_on_char :
    ((init (ascii "/am")).sendCustomTCP [] (cstr (ascii "c")) [.char 97]).map State.tcpSent =
        some [ascii "/am" ++ zeros 1 ++ ascii ",c" ++ zeros 2 ++ [97, 0, 0, 0]] ∧
      (({ address := ascii "/am" } : Message).appendArgs (ascii "c") [.char 97]).map
          Message.byteArray =
        some (ascii "/am" ++ zeros 1 ++ ascii ",c" ++ zeros 2 ++ [0, 0, 0, 97]) ∧
      ¬ EncodersAgree (init (ascii "/am")) [] (cstr (ascii "c")) [.char 97] := by
  have hsent : ((init (ascii "/am")).sendCustomTCP [] (cstr (ascii "c")) [.char 97]).map
      State.tcpSent = some [ascii "/am" ++ zeros 1 ++ ascii ",c" ++ zeros 2 ++ [97, 0, 0, 0]] := by
    decide +kernel
  have hbytes : (({ address := ascii "/am" } : Message).appendArgs (ascii "c") [.char 97]).map
      Message.byteArray =
        some (ascii "/am" ++ zeros 1 ++ ascii ",c" ++ zeros 2 ++ [0, 0, 0, 97]) := by
    decide
  refine ⟨hsent, hbytes, ?_⟩
  rintro ⟨t, msg, hstep, hmsg, hagree⟩
  have htcp := (congrArg (Option.map State.tcpSent) hstep).symm.trans hsent
  have hmsg := (congrArg (Option.map Message.byteArray) hmsg).symm.trans hbytes
  rw [Option.some.inj htcp, Option.some.inj hmsg] at hagree
  revert hagree
  decide

end AmClient.Client
