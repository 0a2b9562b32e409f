import Mathlib.Data.List.Basic

/-!
# Byte vectors and C strings
-/

namespace AmClient
set_option autoImplicit false

/-- `std::vector<char>`, and `std::string`. -/
abbrev Bytes := List UInt8

/-- An element of `write_msgs_`, with the number of the `Send` call it comes from. The
number is not data of the program: it tells apart two messages with the same bytes. -/
structure Msg where
  origin : Nat
  bytes : Bytes
  deriving DecidableEq, Repr

def ascii (s : String) : Bytes := s.toList.map fun c => UInt8.ofNat c.toNat

def zeros (n : Nat) : Bytes := List.replicate n 0

/-- `std::vector::resize`: the tail is cut off, or filled with zeros. -/
def resize (bytes : Bytes) (n : Nat) : Bytes := bytes.take n ++ zeros (n - bytes.length)

@[simp] theorem length_zeros (n : Nat) : (zeros n).length = n := List.length_replicate

@[simp] theorem length_resize (bytes : Bytes) (n : Nat) : (resize bytes n).length = n := by
  simp only [resize, List.length_append, List.length_take, length_zeros]
  omega

theorem resize_append (bytes more : Bytes) : resize (bytes ++ more) bytes.length = bytes := by
  simp [resize, zeros]

theorem head_resize {bytes : Bytes} {c : UInt8} (h : bytes.head? = some c) {n : Nat}
    (hn : 0 < n) : (resize bytes n).head? = some c := by
  obtain ⟨tail, rfl⟩ := List.head?_eq_some_iff.mp h
  obtain ⟨k, rfl⟩ : ∃ k, n = k + 1 := ⟨n - 1, by omega⟩
  rfl

/-- A `const char*`: the bytes before the terminating NUL. -/
abbrev CString := { bytes : Bytes // 0 ∉ bytes }

def cstr (s : Bytes) : CString :=
  ⟨s.takeWhile (· ≠ 0), fun h => by simpa using List.all_eq_true.mp List.all_takeWhile _ h⟩

/-- A read at an index; the error is an index that is out of range. -/
def readAt {α : Type} (items : List α) (i : Nat) : Except Nat α :=
  match items[i]? with
  | some item => .ok item
  | none => .error i

section Reads
variable {α : Type} {front rest : List α}

@[simp] theorem readAt_append (item : α) :
    readAt (front ++ item :: rest) front.length = .ok item := by
  simp [readAt]

@[simp] theorem readAt_append_succ (item next : α) :
    readAt (front ++ item :: next :: rest) (front.length + 1) = .ok next := by
  simp [readAt]

theorem readAt_behind (item : α) :
    readAt (front ++ [item]) (front.length + 1) = .error (front.length + 1) := by
  have hend : (front ++ [item])[front.length + 1]? = none := by
    apply List.getElem?_eq_none
    simp
  rw [readAt, hend]

end Reads

end AmClient
