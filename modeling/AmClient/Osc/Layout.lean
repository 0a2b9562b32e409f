import AmClient.Osc.Message
import Mathlib.Data.List.TakeWhile

/-!
# The layout of a message

Both encoders put the padded address, the padded type tags and the data one after the
other. What `voscpack` writes for a supported format and its arguments is that layout.
-/

namespace AmClient.Osc
open Foundation
set_option autoImplicit false

def alignedLength (n : Nat) : Nat := n + (4 - n % 4)

def padded (bytes : Bytes) : Bytes := bytes ++ padding bytes.length

def layout (address types data : Bytes) : Bytes := padded address ++ padded types ++ data

theorem alignedLength_mod (n : Nat) : alignedLength n % 4 = 0 := by
  unfold alignedLength
  omega

@[simp] theorem length_padding (n : Nat) : (padding n).length = 4 - n % 4 := length_zeros _

@[simp] theorem length_padded (bytes : Bytes) :
    (padded bytes).length = alignedLength bytes.length := by
  simp [padded, alignedLength]

theorem length_layout (address types data : Bytes) :
    (layout address types data).length =
      alignedLength address.length + alignedLength types.length + data.length := by
  simp [layout, Nat.add_assoc]

def Tag.takesArg : Tag → Bool
  | .T => false
  | .F => false
  | .N => false
  | .I => false
  | _ => true

def Arg.tag : Arg → Tag
  | .int32 _ => .i
  | .int64 _ => .h
  | .float _ => .f
  | .double _ => .d
  | .string _ => .s
  | .char _ => .c

/-- What `voscpack` writes for an argument. -/
def Arg.bytes : Arg → Bytes
  | .int32 v => leBytes 4 (hton 4 v.toNat)
  | .int64 v => leBytes 8 (htonll v.toNat)
  | .float bits => leBytes 4 (hton 4 bits.toNat)
  | .double bits => leBytes 8 (htonll bits.toNat)
  | .string s => padded s.val
  | .char c => c :: zeros 3

def Arg.size : Arg → Nat
  | .int32 _ => 4
  | .int64 _ => 8
  | .float _ => 4
  | .double _ => 8
  | .string s => alignedLength s.val.length
  | .char _ => 4

def Supported (format : Bytes) : Prop := ∀ c ∈ format, (Tag.ofByte c).isSome = true

instance (format : Bytes) : Decidable (Supported format) :=
  List.decidableBAll (fun c => (Tag.ofByte c).isSome = true) format

/-- The arguments are those that the tags of the format ask for, in order. -/
def Matches (format : Bytes) (args : List Arg) : Prop :=
  args.map Arg.tag = (format.filterMap Tag.ofByte).filter Tag.takesArg

instance (format : Bytes) (args : List Arg) : Decidable (Matches format args) :=
  inferInstanceAs (Decidable (args.map Arg.tag = _))

def argsSize : List Arg → Nat
  | [] => 0
  | a :: args => a.size + argsSize args

def packedSize (addr format : Bytes) (args : List Arg) : Nat :=
  alignedLength addr.length + alignedLength (format.length + 1) + argsSize args

@[simp] theorem Tag.ofByte_byte (t : Tag) : Tag.ofByte t.byte = some t := by
  cases t with
  | _ => decide

theorem Tag.byte_of_ofByte {c : UInt8} {t : Tag} (h : Tag.ofByte c = some t) : t.byte = c := by
  simpa using List.find?_some h

@[simp] theorem Arg.length_bytes (a : Arg) : a.bytes.length = a.size := by
  cases a with
  | string s => exact length_padded s.val
  | char c => rfl
  | _ => exact length_leBytes _ _

theorem length_args (args : List Arg) : (args.flatMap Arg.bytes).length = argsSize args := by
  induction args with
  | nil => rfl
  | cons a args ih => rw [List.flatMap_cons, List.length_append, a.length_bytes, ih, argsSize]

theorem Matches.skip {c : UInt8} {format : Bytes} {args : List Arg}
    (h : Matches (c :: format) args) (hc : Tag.ofByte c = none) : Matches format args := by
  simpa [Matches, List.filterMap_cons_none hc] using h

theorem Matches.bare {c : UInt8} {t : Tag} {format : Bytes} {args : List Arg}
    (h : Matches (c :: format) args) (hc : Tag.ofByte c = some t) (ht : t.takesArg = false) :
    Matches format args := by
  simpa [Matches, List.filterMap_cons_some hc, ht] using h

theorem Matches.takes {c : UInt8} {t : Tag} {format : Bytes} {args : List Arg}
    (h : Matches (c :: format) args) (hc : Tag.ofByte c = some t) (ht : t.takesArg = true) :
    ∃ a rest, args = a :: rest ∧ a.tag = t ∧ Matches format rest := by
  have hmap : args.map Arg.tag = t :: (format.filterMap Tag.ofByte).filter Tag.takesArg := by
    simpa [Matches, List.filterMap_cons_some hc, ht] using h
  obtain ⟨a, rest, rfl, htag, hrest⟩ := List.map_eq_cons_iff.mp hmap
  exact ⟨a, rest, rfl, htag, hrest⟩

theorem packArg_bare {t : Tag} (h : t.takesArg = false) (args : List Arg) :
    packArg t args = some ([], args) := by
  cases t with
  | T => rfl
  | F => rfl
  | N => rfl
  | I => rfl
  | _ => exact nomatch h

theorem packArg_takes (a : Arg) (args : List Arg) :
    packArg a.tag (a :: args) = some (a.bytes, args) := by
  cases a with
  | _ => rfl

/-- A round of the second loop takes no argument, or the first one. -/
theorem packArg_cases {t : Tag} {args rest : List Arg} {bytes : Bytes}
    (h : packArg t args = some (bytes, rest)) :
    (t.takesArg = false ∧ bytes = [] ∧ rest = args) ∨
      ∃ a, args = a :: rest ∧ a.tag = t ∧ bytes = a.bytes := by
  cases ht : t.takesArg with
  | false =>
    rw [packArg_bare ht] at h
    obtain ⟨rfl, rfl⟩ := Prod.mk.inj (Option.some.inj h)
    exact Or.inl ⟨rfl, rfl, rfl⟩
  | true =>
    unfold packArg at h
    split at h
    all_goals try contradiction
    all_goals
      obtain ⟨rfl, rfl⟩ := Prod.mk.inj (Option.some.inj h)
      exact Or.inr ⟨_, rfl, rfl, rfl⟩

theorem packArgs_of_matches {format : Bytes} {args : List Arg} (h : Matches format args) :
    packArgs format args = some (args.flatMap Arg.bytes) := by
  induction format generalizing args with
  | nil =>
    have hnil : args = [] := by simpa [Matches] using h
    rw [hnil]
    rfl
  | cons c format ih =>
    rw [packArgs]
    cases hc : Tag.ofByte c with
    | none => exact ih (h.skip hc)
    | some t =>
      cases ht : t.takesArg with
      | false => simp [packArg_bare ht, ih (h.bare hc ht)]
      | true =>
        obtain ⟨a, rest, rfl, rfl, hrest⟩ := h.takes hc ht
        simp [packArg_takes, ih hrest]

theorem Arg.size_mod (a : Arg) : a.size % 4 = 0 := by
  cases a with
  | string s => exact alignedLength_mod _
  | int64 _ => exact (by decide : 8 % 4 = 0)
  | double _ => exact (by decide : 8 % 4 = 0)
  | _ => exact (by decide : 4 % 4 = 0)

theorem length_layout_mod {address types data : Bytes} (h : data.length % 4 = 0) :
    (layout address types data).length % 4 = 0 := by
  have haddress := alignedLength_mod address.length
  have htypes := alignedLength_mod types.length
  rw [length_layout]
  omega

theorem packArgs_aligned {format : Bytes} {args : List Arg} {data : Bytes}
    (h : packArgs format args = some data) : data.length % 4 = 0 := by
  induction format generalizing args data with
  | nil =>
    obtain rfl := Option.some.inj h
    rfl
  | cons c format ih =>
    rw [packArgs] at h
    cases hc : Tag.ofByte c with
    | none =>
      rw [hc] at h
      exact ih h
    | some t =>
      rw [hc] at h
      obtain ⟨⟨bytes, left⟩, harg, h⟩ := Option.bind_eq_some_iff.mp h
      obtain ⟨more, hmore, h⟩ := Option.bind_eq_some_iff.mp h
      obtain rfl := Option.some.inj h
      have hnext := ih hmore
      rw [List.length_append]
      rcases packArg_cases harg with ⟨_, rfl, _⟩ | ⟨a, _, _, rfl⟩
      · rw [List.length_nil]
        omega
      · have ha := Arg.size_mod a
        rw [Arg.length_bytes]
        omega

/-- The tags that the first loop writes. -/
def knownTags (format : Bytes) : Bytes := format.takeWhile fun c => (Tag.ofByte c).isSome

theorem packTags_eq (format : Bytes) :
    packTags format = (knownTags format, decide (Supported format)) := by
  induction format with
  | nil => rfl
  | cons c format ih =>
    rw [packTags]
    cases hc : Tag.ofByte c with
    | none => simp [hc, Supported, knownTags]
    | some t =>
      have hcons : Supported (c :: format) ↔ Supported format := by simp [Supported, hc]
      simp [hc, ih, hcons, knownTags]

theorem Supported.knownTags {format : Bytes} (h : Supported format) :
    Osc.knownTags format = format := by
  apply List.takeWhile_eq_self_iff.mpr
  exact h

theorem voscpack_layout {addr format : CString} {args : List Arg}
    (hslash : addr.val.head? = some (UInt8.ofNat '/'.toNat)) (h : Supported format.val) :
    voscpack addr format args = (packArgs format.val args).map fun data =>
      (layout addr.val (ascii "," ++ format.val) data,
        ((layout addr.val (ascii "," ++ format.val) data).length : Int)) := by
  have hcomma : (ascii "," ++ format.val).length = format.val.length + 1 := by
    simp [ascii]
  unfold voscpack
  simp only [hslash, ne_eq, not_true_eq_false, ↓reduceIte, packTags_eq, h, decide_true,
    Bool.not_true, Bool.false_eq_true, h.knownTags, layout, padded, hcomma, List.append_assoc]

theorem voscpack_unsupported {addr format : CString} {args : List Arg}
    (hslash : addr.val.head? = some (UInt8.ofNat '/'.toNat)) (h : ¬ Supported format.val) :
    voscpack addr format args =
      some (padded addr.val ++ ascii "," ++ knownTags format.val, -1) := by
  unfold voscpack
  simp only [hslash, ne_eq, not_true_eq_false, ↓reduceIte, packTags_eq, h, decide_false,
    Bool.not_false]
  rfl

theorem voscpack_no_slash {addr format : CString} {args : List Arg}
    (h : addr.val.head? ≠ some (UInt8.ofNat '/'.toNat)) :
    voscpack addr format args = some ([], -1) := if_pos h

theorem length_packed (addr format : Bytes) (args : List Arg) :
    (layout addr (ascii "," ++ format) (args.flatMap Arg.bytes)).length =
      packedSize addr format args := by
  rw [length_layout, length_args, packedSize, List.length_append, Nat.add_comm _ format.length]
  rfl

theorem resize_padded (bytes : Bytes) :
    resize bytes (alignedLength bytes.length) = padded bytes := by
  have hle : bytes.length ≤ alignedLength bytes.length := Nat.le_add_right _ _
  have hsub : alignedLength bytes.length - bytes.length = 4 - bytes.length % 4 :=
    Nat.add_sub_cancel_left _ _
  rw [resize, List.take_of_length_le hle, hsub]
  rfl

theorem Message.byteArray_layout {m : Message} (h : m.address ≠ []) :
    m.byteArray = layout m.address m.types m.data := by
  have hlen : m.address.length ≠ 0 := by simpa using h
  have hpadded : (padded m.address ++ m.types).length ≤
      alignedLength m.address.length + alignedLength m.types.length := by
    have hle : m.types.length ≤ alignedLength m.types.length := Nat.le_add_right _ _
    rw [List.length_append, length_padded]
    omega
  have hsub : alignedLength m.address.length + alignedLength m.types.length -
      (padded m.address ++ m.types).length = 4 - m.types.length % 4 := by
    rw [List.length_append, length_padded]
    unfold alignedLength
    omega
  have hfront : resize (padded m.address ++ m.types)
      (alignedLength m.address.length + alignedLength m.types.length) =
        padded m.address ++ padded m.types := by
    rw [resize, List.take_of_length_le hpadded, hsub, List.append_assoc]
    rfl
  have hcache : m.byteArray = resize (resize m.address (alignedLength m.address.length) ++ m.types)
      (alignedLength m.address.length + alignedLength m.types.length) ++ m.data := by
    simp only [byteArray, hlen, ↓reduceIte]
    rfl
  rw [hcache, resize_padded, hfront]
  rfl

end AmClient.Osc
