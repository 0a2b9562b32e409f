import AmClient.Osc.Layout

/-!
# Appending the arguments of a format

What `tnyosc` collects when the arguments of a format are appended in order. It is what
`voscpack` writes for all types but one: a character is the first of four bytes for
`voscpack`, and the last byte of a network-order integer for `tnyosc`.
-/

namespace AmClient.Osc
open Foundation
set_option autoImplicit false

namespace Message

/-- The append that a tag stands for, and the arguments left. -/
def appendArg (m : Message) : Tag → List Arg → Option (Message × List Arg)
  | .i, .int32 v :: args => some (m.appendInt32 v, args)
  | .h, .int64 v :: args => some (m.appendInt64 v, args)
  | .f, .float bits :: args => some (m.appendFloat bits, args)
  | .d, .double bits :: args => some (m.appendDouble bits, args)
  | .s, .string s :: args => some (m.appendString s.val, args)
  | .c, .char c :: args => some (m.appendChar c, args)
  | .T, args => some (m.appendTrue, args)
  | .F, args => some (m.appendFalse, args)
  | .N, args => some (m.appendNull, args)
  | .I, args => some (m.appendImpulse, args)
  | _, _ => none

/-- The arguments of a format appended in order. -/
def appendArgs (m : Message) : Bytes → List Arg → Option Message
  | [], _ => some m
  | c :: format, args => (Tag.ofByte c).bind fun t =>
    (m.appendArg t args).bind fun (m, args) => m.appendArgs format args

end Message

/-- What `tnyosc` adds to the data for an argument. -/
def Arg.appended : Arg → Bytes
  | .char c => leBytes 4 (hton 4 (c.toBitVec.signExtend 32).toNat)
  | a => a.bytes

theorem append_padded (data s : Bytes) :
    resize (data ++ s) ((data ++ s).length + 4 - s.length % 4) = data ++ padded s := by
  have hmod := Nat.mod_lt s.length (show 0 < 4 by decide)
  have hle : (data ++ s).length ≤ (data ++ s).length + 4 - s.length % 4 := by omega
  have hsub : (data ++ s).length + 4 - s.length % 4 - (data ++ s).length = 4 - s.length % 4 := by
    omega
  rw [resize, List.take_of_length_le hle, hsub, padded, List.append_assoc]
  rfl

namespace Message

theorem appendArg_takes (m : Message) (a : Arg) (args : List Arg) :
    m.appendArg a.tag (a :: args) = some (m.append a.tag a.appended, args) := by
  cases a with
  | string s =>
    have hpadded := append_padded m.data s.val
    simp only [Arg.tag, appendArg, appendString, hpadded]
    rfl
  | _ => rfl

theorem appendArg_bare (m : Message) {t : Tag} (h : t.takesArg = false) (args : List Arg) :
    m.appendArg t args = some (m.append t [], args) := by
  cases t with
  | T => rfl
  | F => rfl
  | N => rfl
  | I => rfl
  | _ => exact nomatch h

theorem appendArgs_eq (m : Message) {format : Bytes} {args : List Arg} (hformat : Supported format)
    (h : Matches format args) :
    m.appendArgs format args =
      some { m with types := m.types ++ format, data := m.data ++ args.flatMap Arg.appended } := by
  induction format generalizing m args with
  | nil =>
    have hnil : args = [] := by simpa [Matches] using h
    simp [appendArgs, hnil]
  | cons c format ih =>
    obtain ⟨hc, hformat⟩ := List.forall_mem_cons.mp hformat
    obtain ⟨t, hc⟩ := Option.isSome_iff_exists.mp hc
    have hbyte := Tag.byte_of_ofByte hc
    rw [appendArgs, hc]
    cases ht : t.takesArg with
    | false =>
      simp only [Option.bind_some, appendArg_bare m ht, ih _ hformat (h.bare hc ht), append,
        hbyte, List.append_assoc, List.singleton_append, List.append_nil]
    | true =>
      obtain ⟨a, rest, rfl, rfl, hrest⟩ := h.takes hc ht
      simp only [Option.bind_some, appendArg_takes, ih _ hformat hrest, append, hbyte,
        List.flatMap_cons, List.append_assoc, List.singleton_append]

end Message

theorem length_appended (a : Arg) : a.appended.length = a.bytes.length := by
  cases a with
  | char c => rfl
  | _ => rfl

theorem appended_aligned (args : List Arg) : (args.flatMap Arg.appended).length % 4 = 0 := by
  induction args with
  | nil => rfl
  | cons a args ih =>
    have ha := a.size_mod
    rw [List.flatMap_cons, List.length_append, length_appended, Arg.length_bytes]
    omega

/-- The low byte of a character is the last of the four bytes. -/
theorem appended_char (c : UInt8) :
    ∃ high, high.length = 3 ∧ (Arg.char c).appended = high ++ [c] := by
  have hlow : UInt8.ofNat (c.toBitVec.signExtend 32).toNat = c := by
    apply UInt8.toNat_inj.mp
    have hc := c.toNat_lt
    rw [UInt8.toNat_ofNat', BitVec.toNat_signExtend, BitVec.toNat_setWidth, UInt8.toNat_toBitVec]
    split
    · omega
    · omega
  refine ⟨beBytes 3 ((c.toBitVec.signExtend 32).toNat / 256), length_beBytes 3 _, ?_⟩
  rw [Arg.appended, leBytes_hton, beBytes, leBytes, List.reverse_cons, hlow]
  rfl

theorem char_bytes_iff (c : UInt8) : (Arg.char c).appended = (Arg.char c).bytes ↔ c = 0 := by
  constructor
  · intro heq
    obtain ⟨high, hlen, happended⟩ := appended_char c
    have hsplit : high ++ [c] = [c, 0, 0] ++ [0] := happended.symm.trans heq
    obtain ⟨_, hlast⟩ := List.append_inj hsplit hlen
    exact List.singleton_inj.mp hlast
  · rintro rfl
    decide

theorem appended_eq_iff (a : Arg) : a.appended = a.bytes ↔ ∀ c, a = .char c → c = 0 := by
  cases a with
  | char c => simp [char_bytes_iff]
  | _ => simp [Arg.appended]

theorem flatMap_appended_iff (args : List Arg) :
    args.flatMap Arg.appended = args.flatMap Arg.bytes ↔ ∀ c, .char c ∈ args → c = 0 := by
  induction args with
  | nil => simp
  | cons a args ih =>
    rw [List.flatMap_cons, List.flatMap_cons]
    constructor
    · intro heq
      obtain ⟨ha, hargs⟩ := List.append_inj heq (length_appended a)
      intro c hc
      rcases List.mem_cons.mp hc with rfl | hc
      · exact (char_bytes_iff c).mp ha
      · exact ih.mp hargs c hc
    · intro hzero
      have ha := (appended_eq_iff a).mpr fun c hc => hzero c (hc ▸ List.mem_cons_self)
      have hargs := ih.mpr fun c hc => hzero c (List.mem_cons_of_mem a hc)
      rw [ha, hargs]

end AmClient.Osc
