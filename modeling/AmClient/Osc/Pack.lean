import AmClient.Foundation.Framing
import AmClient.Buffers

/-!
# oscpack.c

`voscpack` writes a message to a buffer whose size it does not know. `buf` and `size`
advance together, so the model returns the bytes written, in order from the start of the
buffer, and the result. An argument that is not of the type `va_arg` asks for is undefined
behaviour; there the model has no result. Sizes are numbers without bound here, and those
of the code as long as the message is below 2^31 bytes.
-/

namespace AmClient.Osc
open Foundation
set_option autoImplicit false

inductive Tag where
  | i | h | f | d | s | c | T | F | N | I
  deriving DecidableEq, Repr

def Tag.char : Tag → Char
  | .i => 'i'
  | .h => 'h'
  | .f => 'f'
  | .d => 'd'
  | .s => 's'
  | .c => 'c'
  | .T => 'T'
  | .F => 'F'
  | .N => 'N'
  | .I => 'I'

def Tag.byte (t : Tag) : UInt8 := UInt8.ofNat t.char.toNat

/-- The case of the two `switch` statements, none for their `default`. -/
def Tag.ofByte (c : UInt8) : Option Tag :=
  [Tag.i, .h, .f, .d, .s, .c, .T, .F, .N, .I].find? fun t => t.byte = c

/-- A variadic argument, a floating point number as its bit pattern. -/
inductive Arg where
  | int32 (v : BitVec 32)
  | int64 (v : BitVec 64)
  | float (bits : BitVec 32)
  | double (bits : BitVec 64)
  | string (s : CString)
  | char (c : UInt8)
  deriving DecidableEq

/-- `htonll`, on a little-endian host: each half converted and the halves exchanged. -/
def htonll (x : Nat) : Nat := hton 4 (x % 2 ^ 32) * 2 ^ 32 + hton 4 (x / 2 ^ 32)

/-- The padding behind `len` bytes: at least one zero, up to the next multiple of four. -/
def padding (len : Nat) : Bytes := zeros (4 - len % 4)

/-- The first loop: the tags up to the first unknown one, and whether there is none. -/
def packTags : Bytes → Bytes × Bool
  | [] => ([], true)
  | c :: format => match Tag.ofByte c with
    | none => ([], false)
    | some _ =>
      let (tags, ok) := packTags format
      (c :: tags, ok)

/-- One round of the second loop: the bytes written and the arguments left. -/
def packArg : Tag → List Arg → Option (Bytes × List Arg)
  | .i, .int32 v :: args => some (leBytes 4 (hton 4 v.toNat), args)
  | .h, .int64 v :: args => some (leBytes 8 (htonll v.toNat), args)
  | .f, .float bits :: args => some (leBytes 4 (hton 4 bits.toNat), args)
  | .d, .double bits :: args => some (leBytes 8 (htonll bits.toNat), args)
  | .s, .string s :: args => some (s.val ++ padding s.val.length, args)
  | .c, .char c :: args => some (c :: zeros 3, args)
  | .T, args => some ([], args)
  | .F, args => some ([], args)
  | .N, args => some ([], args)
  | .I, args => some ([], args)
  | _, _ => none

def packArgs : Bytes → List Arg → Option Bytes
  | [], _ => some []
  | c :: format, args => match Tag.ofByte c with
    | none => packArgs format args
    | some t => do
      let (bytes, args) ← packArg t args
      let rest ← packArgs format args
      return bytes ++ rest

def voscpack (addr format : CString) (args : List Arg) : Option (Bytes × Int) :=
  if addr.val.head? ≠ some (UInt8.ofNat '/'.toNat) then some ([], -1)
  else
    let buf := addr.val ++ padding addr.val.length ++ ascii ","
    let (tags, ok) := packTags format.val
    if !ok then some (buf ++ tags, -1)
    else
      (packArgs format.val args).map fun data =>
        let buf := buf ++ tags ++ padding (format.val.length + 1) ++ data
        (buf, buf.length)

/-- A packed message starts with the slash of its address, and the result is its size. -/
theorem voscpack_accepted {addr format : CString} {args : List Arg} {buf : Bytes} {size : Int}
    (h : voscpack addr format args = some (buf, size)) (hpos : 0 < size) :
    size = buf.length ∧ buf.head? = some (UInt8.ofNat '/'.toNat) := by
  unfold voscpack at h
  split at h
  · simp only [Option.some.injEq, Prod.mk.injEq] at h
    omega
  · rename_i hslash
    have hhead : addr.val.head? = some (UInt8.ofNat '/'.toNat) := by simpa using hslash
    obtain ⟨tail, htail⟩ := List.head?_eq_some_iff.mp hhead
    simp only at h
    split at h
    · simp only [Option.some.injEq, Prod.mk.injEq] at h
      omega
    · obtain ⟨data, _, heq⟩ := Option.map_eq_some_iff.mp h
      simp only [Prod.mk.injEq] at heq
      obtain ⟨rfl, rfl⟩ := heq
      exact ⟨rfl, by simp [htail]⟩

end AmClient.Osc
