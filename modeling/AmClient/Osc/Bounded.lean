import AmClient.Osc.Layout

/-!
# voscpack and the size of its buffer

`voscpack` again, every write checked against the size of the buffer it was given. Lengths
are `int32_t` here: what `strlen` returns is cut to 32 bits, and a negative length is a
huge `size_t` for `memcpy`.
-/

namespace AmClient.Osc
open Foundation
set_option autoImplicit false

/-- Undefined behaviour: an argument is not of the type that `va_arg` asks for, or a write
goes behind the end of the buffer. -/
inductive Undefined where
  | mismatch
  | outOfRange
  deriving DecidableEq, Repr

/-- A buffer and what has been written to it, from its start. -/
structure Buffer (capacity : Nat) where
  bytes : Bytes
  fits : bytes.length ≤ capacity

variable {capacity : Nat}

namespace Buffer

def empty : Buffer capacity := ⟨[], Nat.zero_le _⟩

def put (buf : Buffer capacity) (bytes : Bytes) : Except Undefined (Buffer capacity) :=
  if h : (buf.bytes ++ bytes).length ≤ capacity then .ok ⟨buf.bytes ++ bytes, h⟩
  else .error .outOfRange

/-- `memcpy(buf, str, len)`. -/
def copy (buf : Buffer capacity) (str : Bytes) (len : Int) : Except Undefined (Buffer capacity) :=
  if len < 0 then .error .outOfRange else buf.put (str.take len.toNat)

/-- `memset` of the padding behind `len` bytes. -/
def pad (buf : Buffer capacity) (len : Int) : Except Undefined (Buffer capacity) :=
  buf.put (zeros (4 - len.tmod 4).toNat)

end Buffer

/-- The first loop, and whether it found no unknown tag. -/
def packTagsInto (buf : Buffer capacity) : Bytes → Except Undefined (Buffer capacity × Bool)
  | [] => .ok (buf, true)
  | c :: format => match Tag.ofByte c with
    | none => .ok (buf, false)
    | some _ => do
      let buf ← buf.put [c]
      packTagsInto buf format

/-- One round of the second loop. -/
def packArgInto (buf : Buffer capacity) :
    Tag → List Arg → Except Undefined (Buffer capacity × List Arg)
  | .i, .int32 v :: args => do
    let buf ← buf.put (leBytes 4 (hton 4 v.toNat))
    return (buf, args)
  | .h, .int64 v :: args => do
    let buf ← buf.put (leBytes 8 (htonll v.toNat))
    return (buf, args)
  | .f, .float bits :: args => do
    let buf ← buf.put (leBytes 4 (hton 4 bits.toNat))
    return (buf, args)
  | .d, .double bits :: args => do
    let buf ← buf.put (leBytes 8 (htonll bits.toNat))
    return (buf, args)
  | .s, .string s :: args => do
    let len := int32 s.val.length
    let buf ← buf.copy s.val len
    let buf ← buf.pad len
    return (buf, args)
  | .c, .char c :: args => do
    let buf ← buf.put [c]
    let buf ← buf.put (zeros 3)
    return (buf, args)
  | .T, args => return (buf, args)
  | .F, args => return (buf, args)
  | .N, args => return (buf, args)
  | .I, args => return (buf, args)
  | _, _ => throw .mismatch

def packArgsInto (buf : Buffer capacity) :
    Bytes → List Arg → Except Undefined (Buffer capacity)
  | [], _ => return buf
  | c :: format, args => match Tag.ofByte c with
    | none => packArgsInto buf format args
    | some t => do
      let (buf, args) ← packArgInto buf t args
      packArgsInto buf format args

def voscpackInto (capacity : Nat) (addr format : CString) (args : List Arg) :
    Except Undefined (Buffer capacity × Int) :=
  if addr.val.head? ≠ some (UInt8.ofNat '/'.toNat) then return (.empty, -1)
  else do
    let len := int32 addr.val.length
    let buf ← Buffer.empty.copy addr.val len
    let buf ← buf.pad len
    let len := int32 (format.val.length + 1)
    let buf ← buf.put (ascii ",")
    let (buf, ok) ← packTagsInto buf format.val
    if !ok then return (buf, -1)
    else
      let buf ← buf.pad len
      let buf ← packArgsInto buf format.val args
      return (buf, buf.bytes.length)

namespace Buffer

theorem put_put (buf : Buffer capacity) (bytes more : Bytes) :
    (buf.put bytes >>= fun b => b.put more) = buf.put (bytes ++ more) := by
  by_cases h : (buf.bytes ++ bytes).length ≤ capacity
  · rw [put, dif_pos h]
    simp only [put, bind, Except.bind, List.append_assoc]
  · have hmore : ¬ (buf.bytes ++ (bytes ++ more)).length ≤ capacity := by
      simp only [List.length_append] at h ⊢
      omega
    rw [put, dif_neg h, put, dif_neg hmore]
    rfl

theorem put_ok {buf : Buffer capacity} {bytes : Bytes}
    (h : (buf.bytes ++ bytes).length ≤ capacity) :
    buf.put bytes = .ok ⟨buf.bytes ++ bytes, h⟩ := dif_pos h

theorem put_nil (buf : Buffer capacity) : buf.put [] = .ok buf := by
  have hfits : (buf.bytes ++ []).length ≤ capacity := by
    rw [List.append_nil]
    exact buf.fits
  rw [put_ok hfits]
  simp only [List.append_nil]

theorem put_error {buf : Buffer capacity} {bytes : Bytes}
    (h : ¬ (buf.bytes ++ bytes).length ≤ capacity) : buf.put bytes = .error .outOfRange :=
  dif_neg h

theorem pad_eq (buf : Buffer capacity) {len : Int} (h : 0 ≤ len) :
    buf.pad len = buf.put (padding len.toNat) := by
  have hcount : (4 - len.tmod 4).toNat = 4 - len.toNat % 4 := by
    rw [Int.tmod_eq_emod_of_nonneg h]
    omega
  rw [pad, hcount]
  rfl

theorem copy_pad (buf : Buffer capacity) {str : Bytes} (h : 0 ≤ int32 str.length) :
    (buf.copy str (int32 str.length) >>= fun b => b.pad (int32 str.length)) =
      buf.put (padded (str.take (int32 str.length).toNat)) := by
  have hlen : (str.take (int32 str.length).toNat).length = (int32 str.length).toNat := by
    rw [List.length_take]
    exact Nat.min_eq_left (int32_toNat_le _)
  have hcopy : buf.copy str (int32 str.length) = buf.put (str.take (int32 str.length).toNat) :=
    if_neg (Int.not_lt.mpr h)
  simp only [hcopy, pad_eq _ h]
  rw [put_put, padded, hlen]

theorem copy_pad_of_lt (buf : Buffer capacity) {str : Bytes} (h : str.length < 2 ^ 31) :
    (buf.copy str (int32 str.length) >>= fun b => b.pad (int32 str.length)) =
      buf.put (padded str) := by
  have hlen := int32_of_lt h
  rw [copy_pad buf (by omega), hlen, Int.toNat_natCast, List.take_length]

end Buffer

theorem packTagsInto_eq (buf : Buffer capacity) (format : Bytes) :
    packTagsInto buf format =
      (fun b => (b, decide (Supported format))) <$> buf.put (knownTags format) := by
  induction format generalizing buf with
  | nil =>
    rw [knownTags, List.takeWhile_nil, Buffer.put_nil]
    rfl
  | cons c format ih =>
    rw [packTagsInto]
    cases hc : Tag.ofByte c with
    | none =>
      have hknown : knownTags (c :: format) = [] := by simp [knownTags, hc]
      have hnot : ¬ Supported (c :: format) := by simp [Supported, hc]
      simp only [hknown, hnot, decide_false, Buffer.put_nil]
      rfl
    | some t =>
      have hknown : knownTags (c :: format) = [c] ++ knownTags format := by simp [knownTags, hc]
      have hcons : Supported (c :: format) ↔ Supported format := by simp [Supported, hc]
      simp only [ih, hknown, hcons]
      rw [← Buffer.put_put, map_bind]

theorem packArgInto_bare (buf : Buffer capacity) {t : Tag} (h : t.takesArg = false)
    (args : List Arg) : packArgInto buf t args = .ok (buf, args) := by
  cases t with
  | T => rfl
  | F => rfl
  | N => rfl
  | I => rfl
  | _ => exact nomatch h

theorem packArgInto_takes (buf : Buffer capacity) {a : Arg} (args : List Arg)
    (h : a.size < 2 ^ 31) :
    packArgInto buf a.tag (a :: args) = (fun b => (b, args)) <$> buf.put a.bytes := by
  cases a with
  | string s =>
    have hs : s.val.length < 2 ^ 31 := Nat.lt_of_le_of_lt (Nat.le_add_right _ _) h
    rw [Arg.bytes, ← Buffer.copy_pad_of_lt buf hs, map_bind]
    simp only [← bind_pure_comp]
    rfl
  | char c =>
    have hput : buf.put (c :: zeros 3) = buf.put [c] >>= fun b => b.put (zeros 3) :=
      (Buffer.put_put buf [c] (zeros 3)).symm
    rw [Arg.bytes, hput, map_bind]
    simp only [← bind_pure_comp]
    rfl
  | _ => exact bind_pure_comp _ _

theorem packArgInto_eq (buf : Buffer capacity) {t : Tag} {args rest : List Arg} {bytes : Bytes}
    (h : packArg t args = some (bytes, rest)) (hlen : bytes.length < 2 ^ 31) :
    packArgInto buf t args = (fun b => (b, rest)) <$> buf.put bytes := by
  rcases packArg_cases h with ⟨ht, rfl, rfl⟩ | ⟨a, rfl, rfl, rfl⟩
  · rw [packArgInto_bare buf ht, Buffer.put_nil]
    rfl
  · rw [Arg.length_bytes] at hlen
    exact packArgInto_takes buf rest hlen

theorem packArgsInto_eq (buf : Buffer capacity) {format : Bytes} {args : List Arg} {data : Bytes}
    (h : packArgs format args = some data) (hlen : data.length < 2 ^ 31) :
    packArgsInto buf format args = buf.put data := by
  induction format generalizing buf args data with
  | nil =>
    obtain rfl := Option.some.inj h
    exact (Buffer.put_nil buf).symm
  | cons c format ih =>
    rw [packArgs] at h
    rw [packArgsInto]
    cases hc : Tag.ofByte c with
    | none =>
      rw [hc] at h
      exact ih buf h hlen
    | some t =>
      rw [hc] at h
      obtain ⟨⟨bytes, rest⟩, harg, h⟩ := Option.bind_eq_some_iff.mp h
      obtain ⟨more, hmore, h⟩ := Option.bind_eq_some_iff.mp h
      obtain rfl := Option.some.inj h
      rw [List.length_append] at hlen
      simp only [packArgInto_eq buf harg (by omega), bind_map_left]
      rw [← Buffer.put_put]
      congr
      funext b
      exact ih b hmore (by omega)

/-- The address as `memcpy` copies it, and the tags up to the first unknown one. -/
def leadingBytes (addr format : Bytes) : Bytes :=
  padded (addr.take (int32 addr.length).toNat) ++ ascii "," ++ knownTags format

theorem voscpackInto_leading {addr format : CString} {args : List Arg}
    (hslash : addr.val.head? = some (UInt8.ofNat '/'.toNat)) (h : 0 ≤ int32 addr.val.length) :
    voscpackInto capacity addr format args =
      (Buffer.empty.put (leadingBytes addr.val format.val) >>= fun buf =>
        if Supported format.val then do
          let buf ← buf.pad (int32 (format.val.length + 1))
          let buf ← packArgsInto buf format.val args
          return (buf, (buf.bytes.length : Int))
        else return (buf, -1)) := by
  unfold voscpackInto leadingBytes
  rw [← Buffer.put_put, ← Buffer.put_put, ← Buffer.copy_pad _ h]
  simp only [hslash, ne_eq, not_true_eq_false, ↓reduceIte, packTagsInto_eq, bind_map_left,
    bind_assoc]
  by_cases hformat : Supported format.val
  · simp only [hformat, decide_true, Bool.not_true, Bool.false_eq_true, ↓reduceIte]
  · simp only [hformat, decide_false, Bool.not_false, ↓reduceIte]

theorem voscpackInto_no_slash {addr format : CString} {args : List Arg}
    (h : addr.val.head? ≠ some (UInt8.ofNat '/'.toNat)) :
    voscpackInto capacity addr format args = .ok (.empty, -1) := if_pos h

theorem voscpackInto_negative {addr format : CString} {args : List Arg}
    (hslash : addr.val.head? = some (UInt8.ofNat '/'.toNat)) (h : int32 addr.val.length < 0) :
    voscpackInto capacity addr format args = .error .outOfRange := by
  unfold voscpackInto Buffer.copy
  simp only [hslash, ne_eq, not_true_eq_false, ↓reduceIte, h]
  rfl

theorem voscpackInto_unsupported {addr format : CString} {args : List Arg}
    (hslash : addr.val.head? = some (UInt8.ofNat '/'.toNat)) (h : 0 ≤ int32 addr.val.length)
    (hformat : ¬ Supported format.val) :
    voscpackInto capacity addr format args =
      (fun buf => (buf, -1)) <$> Buffer.empty.put (leadingBytes addr.val format.val) := by
  rw [voscpackInto_leading hslash h]
  simp only [hformat, ↓reduceIte]
  exact bind_pure_comp _ _

theorem voscpackInto_supported {addr format : CString} {args : List Arg} {data : Bytes}
    (hslash : addr.val.head? = some (UInt8.ofNat '/'.toNat)) (hformat : Supported format.val)
    (hdata : packArgs format.val args = some data)
    (hlen : (layout addr.val (ascii "," ++ format.val) data).length < 2 ^ 31) :
    voscpackInto capacity addr format args =
      (fun buf => (buf, (buf.bytes.length : Int))) <$>
        Buffer.empty.put (layout addr.val (ascii "," ++ format.val) data) := by
  have htypes : (ascii "," ++ format.val).length = format.val.length + 1 := by simp [ascii]
  rw [length_layout, htypes] at hlen
  unfold alignedLength at hlen
  have haddr : int32 addr.val.length = addr.val.length := int32_of_lt (by omega)
  have htags : int32 (format.val.length + 1) = (format.val.length + 1 : Nat) :=
    int32_of_lt (by omega)
  have hleading : leadingBytes addr.val format.val =
      padded addr.val ++ (ascii "," ++ format.val) := by
    rw [leadingBytes, hformat.knownTags, haddr, Int.toNat_natCast, List.take_length,
      List.append_assoc]
  have hlayout : layout addr.val (ascii "," ++ format.val) data =
      leadingBytes addr.val format.val ++ padding (format.val.length + 1) ++ data := by
    rw [hleading, layout, padded.eq_1 (ascii "," ++ format.val), htypes]
    simp only [List.append_assoc]
  rw [voscpackInto_leading hslash (by omega), hlayout, ← Buffer.put_put, ← Buffer.put_put]
  simp only [hformat, ↓reduceIte, map_bind, bind_assoc]
  congr
  funext buf
  rw [htags, Buffer.pad_eq _ (by omega), Int.toNat_natCast]
  congr
  funext buf
  rw [packArgsInto_eq buf hdata (by omega)]
  exact bind_pure_comp _ _

/-- As long as no write is out of range, the checks change nothing. -/
theorem voscpackInto_eq {addr format : CString} {args : List Arg} {written : Bytes} {size : Int}
    (h : voscpack addr format args = some (written, size)) (hlen : written.length < 2 ^ 31) :
    voscpackInto capacity addr format args =
      (fun buf => (buf, size)) <$> Buffer.empty.put written := by
  by_cases hslash : addr.val.head? = some (UInt8.ofNat '/'.toNat)
  · by_cases hformat : Supported format.val
    · rw [voscpack_layout hslash hformat] at h
      obtain ⟨data, hdata, heq⟩ := Option.map_eq_some_iff.mp h
      obtain ⟨rfl, rfl⟩ := Prod.mk.inj heq
      rw [voscpackInto_supported hslash hformat hdata hlen]
      unfold Buffer.put
      split
      · rfl
      · rfl
    · rw [voscpack_unsupported hslash hformat] at h
      obtain ⟨rfl, rfl⟩ := Prod.mk.inj (Option.some.inj h)
      simp only [List.length_append, length_padded] at hlen
      have haddr : addr.val.length ≤ alignedLength addr.val.length := Nat.le_add_right _ _
      have hint : int32 addr.val.length = addr.val.length := int32_of_lt (by omega)
      rw [voscpackInto_unsupported hslash (by omega) hformat, leadingBytes, hint,
        Int.toNat_natCast, List.take_length]
  · rw [voscpack_no_slash hslash] at h
    obtain ⟨rfl, rfl⟩ := Prod.mk.inj (Option.some.inj h)
    rw [voscpackInto_no_slash hslash, Buffer.put_nil]
    rfl

theorem bind_ok {α β : Type} {x : Except Undefined α} {f : α → Except Undefined β} {b : β}
    (h : x >>= f = .ok b) : ∃ a, x = .ok a ∧ f a = .ok b := by
  cases x with
  | error e => exact nomatch h
  | ok a => exact ⟨a, rfl, h⟩

theorem Buffer.put_bytes {buf b : Buffer capacity} {bytes : Bytes} (h : buf.put bytes = .ok b) :
    b.bytes = buf.bytes ++ bytes := by
  unfold put at h
  split at h
  · obtain rfl := Except.ok.inj h
    rfl
  · exact nomatch h

theorem Buffer.put_length {buf b : Buffer capacity} {bytes : Bytes} (h : buf.put bytes = .ok b) :
    buf.bytes.length ≤ b.bytes.length := by
  rw [put_bytes h, List.length_append]
  omega

theorem Buffer.copy_length {buf b : Buffer capacity} {str : Bytes} {len : Int}
    (h : buf.copy str len = .ok b) : buf.bytes.length ≤ b.bytes.length := by
  unfold copy at h
  split at h
  · exact nomatch h
  · exact put_length h

theorem packArgInto_length {buf b : Buffer capacity} {t : Tag} {args rest : List Arg}
    (h : packArgInto buf t args = .ok (b, rest)) : buf.bytes.length ≤ b.bytes.length := by
  unfold packArgInto at h
  split at h
  case h_1 | h_2 | h_3 | h_4 =>
    obtain ⟨m, hput, h⟩ := bind_ok h
    obtain ⟨rfl, _⟩ := Prod.mk.inj (Except.ok.inj h)
    exact Buffer.put_length hput
  case h_5 s args =>
    obtain ⟨m, hcopy, h⟩ := bind_ok h
    obtain ⟨n, hpad, h⟩ := bind_ok h
    obtain ⟨rfl, _⟩ := Prod.mk.inj (Except.ok.inj h)
    exact (Buffer.copy_length hcopy).trans (Buffer.put_length hpad)
  case h_6 c args =>
    obtain ⟨m, hchar, h⟩ := bind_ok h
    obtain ⟨n, hzeros, h⟩ := bind_ok h
    obtain ⟨rfl, _⟩ := Prod.mk.inj (Except.ok.inj h)
    exact (Buffer.put_length hchar).trans (Buffer.put_length hzeros)
  case h_7 | h_8 | h_9 | h_10 =>
    obtain ⟨rfl, _⟩ := Prod.mk.inj (Except.ok.inj h)
    exact Nat.le_refl _
  case h_11 => exact nomatch h

theorem packArgsInto_length {buf b : Buffer capacity} {format : Bytes} {args : List Arg}
    (h : packArgsInto buf format args = .ok b) : buf.bytes.length ≤ b.bytes.length := by
  induction format generalizing buf args with
  | nil =>
    obtain rfl := Except.ok.inj h
    exact Nat.le_refl _
  | cons c format ih =>
    rw [packArgsInto] at h
    cases hc : Tag.ofByte c with
    | none =>
      rw [hc] at h
      exact ih h
    | some t =>
      rw [hc] at h
      obtain ⟨⟨m, rest⟩, harg, h⟩ := bind_ok h
      exact (packArgInto_length harg).trans (ih h)

/-- What comes back for a supported format is never taken for a rejection. -/
theorem voscpackInto_size {addr format : CString} {args : List Arg} {buf : Buffer capacity}
    {size : Int} (hslash : addr.val.head? = some (UInt8.ofNat '/'.toNat))
    (hformat : Supported format.val)
    (h : voscpackInto capacity addr format args = .ok (buf, size)) : 0 < size := by
  by_cases hlen : int32 addr.val.length < 0
  · rw [voscpackInto_negative hslash hlen] at h
    exact nomatch h
  · rw [voscpackInto_leading hslash (by omega)] at h
    obtain ⟨m, hleading, h⟩ := bind_ok h
    rw [if_pos hformat] at h
    obtain ⟨n, hpad, h⟩ := bind_ok h
    obtain ⟨b, hargs, h⟩ := bind_ok h
    obtain ⟨rfl, rfl⟩ := Prod.mk.inj (Except.ok.inj h)
    have hbytes := congrArg List.length (Buffer.put_bytes hleading)
    have htags := Buffer.put_length hpad
    have hdata := packArgsInto_length hargs
    simp only [leadingBytes, List.length_append, length_padded, alignedLength] at hbytes
    omega

end AmClient.Osc
