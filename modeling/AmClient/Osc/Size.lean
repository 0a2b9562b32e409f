import AmClient.Osc.Layout

/-!
# oscsize

The size of a message before it is packed. For an argument of fixed size it counts five
bytes, whatever the size is, and it leaves out the padding of the type tags; so what it
returns is the size of the message only when the two mistakes cancel. The count is an
`int32_t`: where it overflows, and where an argument is not of the type `va_arg` asks for,
the behaviour is undefined and the model has no result.
-/

namespace AmClient.Osc
open Foundation
set_option autoImplicit false

/-- `size += n`, of an `int32_t`. -/
def addSize (size n : Int) : Option Int :=
  if -2147483648 ≤ size + n ∧ size + n ≤ 2147483647 then some (size + n) else none

/-- `len + (4 - len % 4)`. -/
def sizeString (len : Int) : Option Int := addSize len (4 - len.tmod 4)

/-- One round of the loop: the new `size`, and the arguments left. -/
def sizeArg (size : Int) : Tag → List Arg → Option (Int × List Arg)
  | .i, .int32 _ :: args => (addSize size (5 + 1)).map fun size => (size, args)
  | .h, .int64 _ :: args => (addSize size (5 + 1)).map fun size => (size, args)
  | .f, .float _ :: args => (addSize size (5 + 1)).map fun size => (size, args)
  | .d, .double _ :: args => (addSize size (5 + 1)).map fun size => (size, args)
  | .c, .char _ :: args => (addSize size (5 + 1)).map fun size => (size, args)
  | .s, .string str :: args => do
    let n ← sizeString (int32 str.val.length)
    let size ← addSize size n
    let size ← addSize size 1
    return (size, args)
  | .T, args => (addSize size 1).map fun size => (size, args)
  | .F, args => (addSize size 1).map fun size => (size, args)
  | .N, args => (addSize size 1).map fun size => (size, args)
  | .I, args => (addSize size 1).map fun size => (size, args)
  | _, _ => none

def sizeArgs : Int → Bytes → List Arg → Option Int
  | size, [], _ => some size
  | size, c :: format, args => match Tag.ofByte c with
    | none => some (-1)
    | some t => do
      let (size, args) ← sizeArg size t args
      sizeArgs size format args

def oscsize (addr format : CString) (args : List Arg) : Option Int :=
  if addr.val.head? ≠ some (UInt8.ofNat '/'.toNat) then some (-1)
  else do
    let size ← sizeString (int32 addr.val.length)
    let size ← addSize size 1
    sizeArgs size format.val args

/-- Arguments of four bytes, and of eight. -/
def Arg.narrow : Arg → Bool
  | .int32 _ | .float _ | .char _ => true
  | _ => false

def Arg.wide : Arg → Bool
  | .int64 _ | .double _ => true
  | _ => false

theorem addSize_of_lt {size n : Nat} (h : size + n < 2 ^ 31) :
    addSize size n = some ((size + n : Nat) : Int) := by
  rw [addSize, if_pos (by omega)]
  rfl

theorem addSize_one {size : Nat} (h : size + 1 < 2 ^ 31) :
    addSize size 1 = some ((size + 1 : Nat) : Int) := by
  have hone : (1 : Int) = (1 : Nat) := rfl
  rw [hone, addSize_of_lt h]

theorem addSize_six (size : Nat) (h : size + 6 < 2 ^ 31) :
    addSize size (5 + 1) = some ((size + 6 : Nat) : Int) := by
  have hsix : (5 + 1 : Int) = (6 : Nat) := rfl
  rw [hsix, addSize_of_lt h]

theorem sizeString_of_lt {n : Nat} (h : alignedLength n < 2 ^ 31) :
    sizeString (int32 n) = some (alignedLength n : Int) := by
  have hpad : alignedLength n = n + (4 - n % 4) := rfl
  have hcount : 4 - (n : Int).tmod 4 = (4 - n % 4 : Nat) := by
    rw [Int.tmod_eq_emod_of_nonneg (Int.natCast_nonneg n)]
    omega
  rw [sizeString, int32_of_lt (by omega), hcount, addSize_of_lt (by omega)]
  rfl

/-- What a round adds to `size` for an argument. -/
theorem sizeArg_takes (a : Arg) (args : List Arg) (size : Nat)
    (h : size + a.size + 1 + a.narrow.toNat < 2 ^ 31) :
    ∃ n : Nat, sizeArg size a.tag (a :: args) = some (((size + n : Nat) : Int), args) ∧
      n + 3 * a.wide.toNat = a.size + 1 + a.narrow.toNat := by
  cases a with
  | int32 | float | char =>
    simp only [Arg.size, Arg.narrow, Bool.toNat_true] at h
    refine ⟨6, ?_, by simp [Arg.wide, Arg.narrow, Arg.size]⟩
    simp only [Arg.tag, sizeArg, addSize_six size (by omega), Option.map_some]
  | int64 | double =>
    simp only [Arg.size, Arg.narrow, Bool.toNat_false] at h
    refine ⟨6, ?_, by simp [Arg.wide, Arg.narrow, Arg.size]⟩
    simp only [Arg.tag, sizeArg, addSize_six size (by omega), Option.map_some]
  | string str =>
    simp only [Arg.size, Arg.narrow, Bool.toNat_false] at h
    refine ⟨alignedLength str.val.length + 1, ?_, by simp [Arg.wide, Arg.narrow, Arg.size]⟩
    have hstring : sizeString (int32 str.val.length) = _ := sizeString_of_lt (by omega)
    have hadd : addSize size (alignedLength str.val.length : Int) = _ := addSize_of_lt (by omega)
    have hone : addSize ((size + alignedLength str.val.length : Nat) : Int) 1 = _ :=
      addSize_one (by omega)
    rw [Arg.tag, sizeArg, hstring, Option.bind_eq_bind, Option.bind_some, hadd,
      Option.bind_some, hone, Option.bind_some, Option.pure_def, Nat.add_assoc]

theorem sizeArg_bare {t : Tag} (h : t.takesArg = false) (args : List Arg) (size : Nat)
    (hsmall : size + 1 < 2 ^ 31) : sizeArg size t args = some (((size + 1 : Nat) : Int), args) := by
  cases t with
  | T | F | N | I => rw [sizeArg, addSize_one hsmall, Option.map_some]
  | _ => cases h

/-- The size so far, and the most that the rest adds to it. -/
def sizeBound (size : Nat) (format : Bytes) (args : List Arg) : Nat :=
  size + format.length + argsSize args + args.countP Arg.narrow

theorem countP_cons_toNat (p : Arg → Bool) (a : Arg) (args : List Arg) :
    (a :: args).countP p = args.countP p + (p a).toNat := by
  rw [List.countP_cons]
  cases p a <;> rfl

theorem sizeArgs_supported {format : Bytes} (hformat : Supported format) {args : List Arg}
    (h : Matches format args) {size : Nat} (hsmall : sizeBound size format args < 2 ^ 31) :
    ∃ m : Nat, sizeArgs size format args = some (m : Int) ∧
      m + 3 * args.countP Arg.wide = sizeBound size format args := by
  induction format generalizing args size with
  | nil =>
    have hnil : args = [] := by simpa [Matches] using h
    rw [hnil]
    exact ⟨size, rfl, rfl⟩
  | cons c format ih =>
    obtain ⟨hc, hformat⟩ := List.forall_mem_cons.mp hformat
    obtain ⟨t, hc⟩ := Option.isSome_iff_exists.mp hc
    rw [sizeBound, List.length_cons] at hsmall ⊢
    cases ht : t.takesArg with
    | false =>
      have hnext : sizeBound (size + 1) format args < 2 ^ 31 := by
        rw [sizeBound]
        omega
      obtain ⟨m, hm, hcount⟩ := ih hformat (h.bare hc ht) hnext
      refine ⟨m, ?_, ?_⟩
      · rw [sizeArgs, hc]
        simp only [sizeArg_bare ht args size (by omega), Option.bind_eq_bind,
          Option.bind_some, hm]
      · rw [hcount, sizeBound]
        omega
    | true =>
      obtain ⟨a, rest, rfl, rfl, hrest⟩ := h.takes hc ht
      rw [argsSize, countP_cons_toNat] at hsmall ⊢
      obtain ⟨n, hn, hsize⟩ := sizeArg_takes a rest size (by omega)
      have hnext : sizeBound (size + n) format rest < 2 ^ 31 := by
        rw [sizeBound]
        omega
      obtain ⟨m, hm, hcount⟩ := ih hformat hrest hnext
      refine ⟨m, ?_, ?_⟩
      · rw [sizeArgs, hc]
        simp only [hn, Option.bind_eq_bind, Option.bind_some, hm]
      · rw [countP_cons_toNat]
        rw [sizeBound] at hcount
        omega

theorem sizeArgs_unsupported {format : Bytes} (hformat : ¬ Supported format) {args : List Arg}
    (h : Matches format args) {size : Nat} (hsmall : sizeBound size format args < 2 ^ 31) :
    sizeArgs size format args = some (-1) := by
  induction format generalizing args size with
  | nil => exact (hformat (by simp [Supported])).elim
  | cons c format ih =>
    rw [sizeBound, List.length_cons] at hsmall
    cases hc : Tag.ofByte c with
    | none => rw [sizeArgs, hc]
    | some t =>
      have hrest : ¬ Supported format := by
        intro hall
        apply hformat
        exact List.forall_mem_cons.mpr ⟨by rw [hc]; rfl, hall⟩
      cases ht : t.takesArg with
      | false =>
        rw [sizeArgs, hc]
        simp only [sizeArg_bare ht args size (by omega), Option.bind_eq_bind,
          Option.bind_some]
        apply ih hrest (h.bare hc ht)
        rw [sizeBound]
        omega
      | true =>
        obtain ⟨a, rest, rfl, rfl, hmatch⟩ := h.takes hc ht
        rw [argsSize, countP_cons_toNat] at hsmall
        obtain ⟨n, hn, hadds⟩ := sizeArg_takes a rest size (by omega)
        rw [sizeArgs, hc]
        simp only [hn, Option.bind_eq_bind, Option.bind_some]
        apply ih hrest hmatch
        rw [sizeBound]
        omega

/-- The zeros behind the type tags. -/
def tagPadding (format : Bytes) : Nat := 4 - (format.length + 1) % 4

section
variable {addr format : CString} {args : List Arg}

theorem packedSize_bound : packedSize addr.val format.val args + args.countP Arg.narrow =
    sizeBound (alignedLength addr.val.length + 1) format.val args + tagPadding format.val := by
  have htags : alignedLength (format.val.length + 1) =
      format.val.length + 1 + tagPadding format.val := rfl
  rw [packedSize, htags, sizeBound]
  omega

theorem oscsize_loop (hslash : addr.val.head? = some (UInt8.ofNat '/'.toNat))
    (hsmall : alignedLength addr.val.length + 1 < 2 ^ 31) : oscsize addr format args =
      sizeArgs ((alignedLength addr.val.length + 1 : Nat) : Int) format.val args := by
  rw [oscsize, if_neg (by simp [hslash]), sizeString_of_lt (by omega), Option.bind_eq_bind,
    Option.bind_some, addSize_one hsmall, Option.bind_some]

/-- `oscsize` against the message that `voscpack` writes, as long as the message, and one
byte for each argument of four bytes, are below 2^31 bytes: -1 for the same calls, and else
too small, exact or too large as the arguments of four bytes are fewer than, as many as, or
more than the padding of the type tags and three for each argument of eight bytes. -/
theorem oscsize_exact_iff (h : Matches format.val args)
    (hsmall : packedSize addr.val format.val args + args.countP Arg.narrow < 2 ^ 31) :
    ∃ buf n m, voscpack addr format args = some (buf, n) ∧ oscsize addr format args = some m ∧
      (m = -1 ↔ n = -1) ∧ (n ≠ -1 → n = buf.length ∧
        (m = n ↔ args.countP Arg.narrow = tagPadding format.val + 3 * args.countP Arg.wide) ∧
        (m < n ↔ args.countP Arg.narrow < tagPadding format.val + 3 * args.countP Arg.wide)) := by
  have hbound := @packedSize_bound addr format args
  have hcount : sizeBound (alignedLength addr.val.length + 1) format.val args < 2 ^ 31 := by omega
  have hloop (hslash : addr.val.head? = some (UInt8.ofNat '/'.toNat)) :
      oscsize addr format args = _ := oscsize_loop hslash (by
    rw [sizeBound] at hcount
    omega)
  by_cases hslash : addr.val.head? = some (UInt8.ofNat '/'.toNat)
  · by_cases hformat : Supported format.val
    · obtain ⟨m, hm, hadds⟩ := sizeArgs_supported hformat h hcount
      have hpack := @voscpack_layout addr format args hslash hformat
      rw [packArgs_of_matches h, Option.map_some] at hpack
      refine ⟨_, _, m, hpack, (hloop hslash).trans hm, ?_, ?_⟩
      · omega
      · intro _
        have hlen := length_packed addr.val format.val args
        rw [hlen]
        refine ⟨rfl, ?_, ?_⟩
        · omega
        · omega
    · have hpack := @voscpack_unsupported addr format args hslash hformat
      have hsize := sizeArgs_unsupported hformat h hcount
      exact ⟨_, _, -1, hpack, (hloop hslash).trans hsize, Iff.rfl, fun hn => (hn rfl).elim⟩
  · refine ⟨[], -1, -1, voscpack_no_slash hslash, ?_, Iff.rfl, fun hn => (hn rfl).elim⟩
    rw [oscsize, if_pos hslash]

end

/-- The usage example of the header needs two bytes more than `oscsize` returns. -/
theorem oscsize_exact_iff_of_usage :
    ∃ buf n m,
      voscpack (cstr (ascii "/osc/address")) (cstr (ascii "ifs"))
          [.int32 123, .float 0x3F9D70A4, .string (cstr (ascii "osc message"))] = some (buf, n) ∧
      oscsize (cstr (ascii "/osc/address")) (cstr (ascii "ifs"))
          [.int32 123, .float 0x3F9D70A4, .string (cstr (ascii "osc message"))] = some m ∧
      m < n := by
  have hmatches : Matches (cstr (ascii "ifs")).val
      [.int32 123, .float 0x3F9D70A4, .string (cstr (ascii "osc message"))] := by decide
  have hsmall : packedSize (cstr (ascii "/osc/address")).val (cstr (ascii "ifs")).val
      [.int32 123, .float 0x3F9D70A4, .string (cstr (ascii "osc message"))] +
        List.countP Arg.narrow
          [.int32 123, .float 0x3F9D70A4, .string (cstr (ascii "osc message"))] < 2 ^ 31 := by
    decide
  obtain ⟨buf, n, m, hpack, hsize, _, hn⟩ := oscsize_exact_iff hmatches hsmall
  have hvalue : (voscpack (cstr (ascii "/osc/address")) (cstr (ascii "ifs"))
      [.int32 123, .float 0x3F9D70A4, .string (cstr (ascii "osc message"))]).map Prod.snd =
        some 44 := by decide +kernel
  rw [hpack] at hvalue
  obtain rfl : n = 44 := Option.some.inj hvalue
  obtain ⟨_, _, hless⟩ := hn (by decide)
  exact ⟨buf, 44, m, hpack, hsize, hless.mpr (by decide)⟩

end AmClient.Osc
