import AmClient.Osc.Pack

/-!
# tnyosc::Message

A message collects its type tags and its data apart and puts them together in
`byte_array`. The cache it keeps is left out here, where every message is read once; with
the cache a message is `Cached`.
-/

namespace AmClient.Osc
open Foundation
set_option autoImplicit false

/-- `tnyosc::Message`; `types_` starts with the comma. -/
structure Message where
  address : Bytes
  types : Bytes := ascii ","
  data : Bytes := []

namespace Message

def append (m : Message) (tag : Tag) (bytes : Bytes) : Message :=
  { m with types := m.types ++ [tag.byte], data := m.data ++ bytes }

/-- `append(int32_t)`. -/
def appendInt32 (m : Message) (v : BitVec 32) : Message :=
  m.append .i (leBytes 4 (hton 4 v.toNat))

/-- `append(float)`. -/
def appendFloat (m : Message) (bits : BitVec 32) : Message :=
  m.append .f (leBytes 4 (hton 4 bits.toNat))

/-- `append(double)`. -/
def appendDouble (m : Message) (bits : BitVec 64) : Message :=
  m.append .d (leBytes 8 (htonll bits.toNat))

/-- `append(const std::string&)`. -/
def appendString (m : Message) (v : Bytes) : Message :=
  let data := m.data ++ v
  { m with types := m.types ++ [Tag.s.byte], data := resize data (data.length + 4 - v.length % 4) }

/-- `append(int64_t)`. -/
def appendInt64 (m : Message) (v : BitVec 64) : Message :=
  m.append .h (leBytes 8 (htonll v.toNat))

/-- `append(char)`. The character is promoted to `int32_t`; `char` is signed. -/
def appendChar (m : Message) (v : UInt8) : Message :=
  m.append .c (leBytes 4 (hton 4 (v.toBitVec.signExtend 32).toNat))

def appendTrue (m : Message) : Message := m.append .T []

def appendFalse (m : Message) : Message := m.append .F []

def appendNull (m : Message) : Message := m.append .N []

def appendImpulse (m : Message) : Message := m.append .I []

@[simp] theorem appendInt32_address (m : Message) (v : BitVec 32) :
    (m.appendInt32 v).address = m.address := rfl

@[simp] theorem appendFloat_address (m : Message) (bits : BitVec 32) :
    (m.appendFloat bits).address = m.address := rfl

@[simp] theorem appendDouble_address (m : Message) (bits : BitVec 64) :
    (m.appendDouble bits).address = m.address := rfl

@[simp] theorem appendString_address (m : Message) (v : Bytes) :
    (m.appendString v).address = m.address := rfl

/-- `byte_array`, by `create_cache` on an empty cache. -/
def byteArray (m : Message) : Bytes :=
  let address := if m.address.length = 0 then ascii "/tnyosc" else m.address
  let addrLen := address.length + (4 - address.length % 4)
  let typesLen := m.types.length + (4 - m.types.length % 4)
  resize (resize m.address addrLen ++ m.types) (addrLen + typesLen) ++ m.data

/-- The bytes of a message begin with its address. -/
theorem byteArray_head {m : Message} {c : UInt8} (h : m.address.head? = some c) :
    m.byteArray.head? = some c := by
  have hne : m.address ≠ [] := by
    intro hnil
    simp [hnil] at h
  have hlen := List.length_pos_of_ne_nil hne
  simp only [byteArray, if_neg (Nat.ne_of_gt hlen)]
  rw [List.head?_append, head_resize]
  · rfl
  · rw [List.head?_append, head_resize h (by omega)]
    rfl
  · omega

end Message
end AmClient.Osc
