import AmClient.Osc.Appends
import Mathlib.Data.List.Forall2

/-!
# Reading packets

A packet is a message or a bundle of messages. A string ends at its first NUL and is padded
with NULs to a multiple of four; the arguments are those that the type tags announce, and
no byte is left over. The size of a bundle element is an `int32_t`.
-/

namespace AmClient.Osc
open Foundation
set_option autoImplicit false

/-- What a message is addressed to, and its type tags without the comma. -/
structure Signature where
  address : Bytes
  tags : Bytes
  deriving DecidableEq, Repr

def readString (bs : Bytes) : Option (Bytes × Bytes) :=
  let s := bs.takeWhile (· ≠ 0)
  let rest := bs.drop s.length
  if padding s.length <+: rest then some (s, rest.drop (4 - s.length % 4)) else none

def skip (n : Nat) (bs : Bytes) : Option Bytes := if n ≤ bs.length then some (bs.drop n) else none

/-- An argument of this type, and what follows it. -/
def Tag.read : Tag → Bytes → Option Bytes
  | .i, bs => skip 4 bs
  | .h, bs => skip 8 bs
  | .f, bs => skip 4 bs
  | .d, bs => skip 8 bs
  | .s, bs => (readString bs).map Prod.snd
  | .c, bs => skip 4 bs
  | .T, bs => some bs
  | .F, bs => some bs
  | .N, bs => some bs
  | .I, bs => some bs

def readArgs : Bytes → Bytes → Option Bytes
  | [], bs => some bs
  | c :: tags, bs => do
    let t ← Tag.ofByte c
    let rest ← t.read bs
    readArgs tags rest

def readMessage (bs : Bytes) : Option Signature := do
  let (address, rest) ← readString bs
  let (types, rest) ← readString rest
  let left ← readArgs types.tail rest
  if address.head? = some (UInt8.ofNat '/'.toNat) ∧ types.head? = some (UInt8.ofNat ','.toNat) ∧
      left = [] then
    some { address := address, tags := types.tail }
  else none

/-- A bundle element, and what follows it. -/
def readElement (bs : Bytes) : Option (Bytes × Bytes) :=
  let size := int32 (ofBe (bs.take 4))
  if bs.length < 4 ∨ size < 0 ∨ size % 4 ≠ 0 ∨ bs.length < 4 + size.toNat then none
  else some ((bs.drop 4).take size.toNat, bs.drop (4 + size.toNat))

def readElements : Nat → Bytes → Option (List Signature)
  | _, [] => some []
  | 0, _ => none
  | fuel + 1, bs => do
    let (element, rest) ← readElement bs
    let signature ← readMessage element
    let signatures ← readElements fuel rest
    return signature :: signatures

/-- The messages of a packet: eight bytes of time tag follow the name of a bundle, and an
element takes at least four bytes. -/
def readPacket (bs : Bytes) : Option (List Signature) :=
  if ascii "#bundle" ++ zeros 1 <+: bs then
    (skip 16 bs).bind fun rest => readElements rest.length rest
  else (readMessage bs).map fun signature => [signature]

theorem padding_cons (n : Nat) : padding n = 0 :: zeros (3 - n % 4) := by
  have hcount : 4 - n % 4 = 3 - n % 4 + 1 := by omega
  rw [padding, hcount]
  rfl

theorem readString_padded {s : Bytes} (h : 0 ∉ s) (rest : Bytes) :
    readString (padded s ++ rest) = some (s, rest) := by
  have hne : ∀ x ∈ s, decide (x ≠ 0) = true := by
    intro x hx
    have hx0 : x ≠ 0 := by
      rintro rfl
      exact h hx
    simpa using hx0
  have htake : (padded s ++ rest).takeWhile (· ≠ 0) = s := by
    rw [padded, padding_cons, List.append_assoc, List.takeWhile_append_of_pos hne]
    simp
  have hdrop : (padded s ++ rest).drop s.length = padding s.length ++ rest := by
    rw [padded, List.append_assoc, List.drop_left]
  simp only [readString, htake, hdrop]
  rw [if_pos (List.prefix_append _ _), List.drop_left' (length_padding _)]

theorem skip_append {bytes : Bytes} {n : Nat} (h : bytes.length = n) (rest : Bytes) :
    skip n (bytes ++ rest) = some rest := by
  rw [skip, if_pos (by rw [List.length_append]; omega), List.drop_left' h]

theorem Arg.read_bytes (a : Arg) (rest : Bytes) : a.tag.read (a.bytes ++ rest) = some rest := by
  cases a with
  | string s =>
    rw [Arg.bytes, Arg.tag, Tag.read, readString_padded s.property]
    rfl
  | char c => exact skip_append (Arg.length_bytes (.char c)) rest
  | _ => exact skip_append (length_leBytes _ _) rest

theorem Arg.read_appended (a : Arg) (rest : Bytes) :
    a.tag.read (a.appended ++ rest) = some rest := by
  cases a with
  | char c => exact skip_append (length_leBytes _ _) rest
  | _ => exact Arg.read_bytes _ rest

theorem Tag.read_bare {t : Tag} (h : t.takesArg = false) (bs : Bytes) : t.read bs = some bs := by
  cases t with
  | T => rfl
  | F => rfl
  | N => rfl
  | I => rfl
  | _ => exact nomatch h

theorem readArgs_packed {format : Bytes} (hformat : Supported format) {args : List Arg}
    {data : Bytes} (h : packArgs format args = some data) (rest : Bytes) :
    readArgs format (data ++ rest) = some rest := by
  induction format generalizing args data with
  | nil =>
    obtain rfl := Option.some.inj h
    rfl
  | cons c format ih =>
    obtain ⟨hc, hformat⟩ := List.forall_mem_cons.mp hformat
    obtain ⟨t, hc⟩ := Option.isSome_iff_exists.mp hc
    rw [packArgs, hc] at h
    obtain ⟨⟨bytes, left⟩, harg, h⟩ := Option.bind_eq_some_iff.mp h
    obtain ⟨more, hmore, h⟩ := Option.bind_eq_some_iff.mp h
    obtain rfl := Option.some.inj h
    have hnext := ih hformat hmore
    rw [readArgs, hc, List.append_assoc]
    rcases packArg_cases harg with ⟨ht, rfl, rfl⟩ | ⟨a, rfl, rfl, rfl⟩
    · simp [Tag.read_bare ht, hnext]
    · simp [Arg.read_bytes, hnext]

theorem readArgs_appended {format : Bytes} (hformat : Supported format) {args : List Arg}
    (h : Matches format args) (rest : Bytes) :
    readArgs format (args.flatMap Arg.appended ++ rest) = some rest := by
  induction format generalizing args with
  | nil =>
    have hnil : args = [] := by simpa [Matches] using h
    rw [hnil]
    rfl
  | cons c format ih =>
    obtain ⟨hc, hformat⟩ := List.forall_mem_cons.mp hformat
    obtain ⟨t, hc⟩ := Option.isSome_iff_exists.mp hc
    rw [readArgs, hc]
    cases ht : t.takesArg with
    | false => simp [Tag.read_bare ht, ih hformat (h.bare hc ht)]
    | true =>
      obtain ⟨a, left, rfl, rfl, hleft⟩ := h.takes hc ht
      simp [Arg.read_appended, ih hformat hleft]

theorem readMessage_layout {address tags data : Bytes} (haddress : 0 ∉ address)
    (hslash : address.head? = some (UInt8.ofNat '/'.toNat)) (htags : 0 ∉ tags)
    (hdata : readArgs tags data = some []) :
    readMessage (layout address (ascii "," ++ tags) data) = some ⟨address, tags⟩ := by
  have htypes : 0 ∉ ascii "," ++ tags := by
    intro hmem
    rcases List.mem_append.mp hmem with hmem | hmem
    · revert hmem
      decide
    · exact htags hmem
  have haddr := readString_padded haddress (padded (ascii "," ++ tags) ++ data)
  have htypes := readString_padded htypes data
  have htail : (ascii "," ++ tags).tail = tags := rfl
  simp only [readMessage, layout, List.append_assoc, haddr, Option.bind_eq_bind, Option.bind_some,
    htypes, htail, hdata, hslash, true_and, and_true]
  rfl

theorem readElement_frame {m : Bytes} (h : m.length < 2 ^ 31) (hm : m.length % 4 = 0)
    (rest : Bytes) : readElement (frame m ++ rest) = some (m, rest) := by
  have hsize : int32 (ofBe ((frame m ++ rest).take 4)) = m.length := by
    rw [frame, List.append_assoc, List.take_left' (length_beBytes 4 _),
      ofBe_beBytes 4 m.length (by omega)]
    exact int32_of_lt h
  have hdrop : (frame m ++ rest).drop 4 = m ++ rest := by
    rw [frame, List.append_assoc, List.drop_left' (length_beBytes 4 _)]
  have hfits : ¬ ((frame m ++ rest).length < 4 ∨ (m.length : Int) < 0 ∨ (m.length : Int) % 4 ≠ 0 ∨
      (frame m ++ rest).length < 4 + m.length) := by
    rw [List.length_append, length_frame]
    omega
  simp only [readElement, hsize, Int.toNat_natCast, if_neg hfits]
  rw [hdrop, List.take_left, Nat.add_comm 4, List.drop_left' (length_frame m)]

theorem readElements_cons {m : Bytes} (h : m.length < 2 ^ 31) (hm : m.length % 4 = 0)
    (fuel : Nat) (rest : Bytes) :
    readElements (fuel + 1) (frame m ++ rest) = (readMessage m).bind fun signature =>
      (readElements fuel rest).bind fun signatures => some (signature :: signatures) := by
  have hne : frame m ++ rest ≠ [] := by
    intro hnil
    have hlen := congrArg List.length hnil
    rw [List.length_append, length_frame, List.length_nil] at hlen
    omega
  have hread := readElement_frame h hm rest
  generalize frame m ++ rest = bs at hne hread
  cases bs with
  | nil => exact (hne rfl).elim
  | cons b bs =>
    simp only [readElements, hread, Option.bind_eq_bind, Option.bind_some]
    rfl

/-- A message with this signature, of an aligned length. -/
structure Reads (m : Bytes) (signature : Signature) : Prop where
  read : readMessage m = some signature
  aligned : m.length % 4 = 0

theorem readElements_frames {ms : List Bytes} {signatures : List Signature}
    (h : List.Forall₂ Reads ms signatures) (hsmall : ∀ m ∈ ms, m.length < 2 ^ 31) {fuel : Nat}
    (hfuel : ms.length ≤ fuel) : readElements fuel (frames ms) = some signatures := by
  induction h generalizing fuel with
  | nil =>
    cases fuel with
    | zero => rfl
    | succ fuel => rfl
  | @cons m signature ms signatures hm _ ih =>
    obtain ⟨hlen, hsmall⟩ := List.forall_mem_cons.mp hsmall
    rw [List.length_cons] at hfuel
    obtain ⟨fuel, rfl⟩ : ∃ n, fuel = n + 1 := ⟨fuel - 1, by omega⟩
    have hrest := ih hsmall (Nat.le_of_succ_le_succ hfuel)
    rw [frames_cons, readElements_cons hlen hm.aligned, hm.read, hrest]
    rfl

theorem frames_aligned {ms : List Bytes} {signatures : List Signature}
    (h : List.Forall₂ Reads ms signatures) :
    (frames ms).length % 4 = 0 ∧ ms.length ≤ (frames ms).length := by
  induction h with
  | nil => exact ⟨rfl, Nat.le_refl _⟩
  | cons hm _ ih =>
    have haligned := hm.aligned
    rw [frames_cons, List.length_append, length_frame, List.length_cons]
    omega

theorem readPacket_message {m : Bytes} {signature : Signature}
    (hslash : m.head? = some (UInt8.ofNat '/'.toNat)) (h : readMessage m = some signature) :
    readPacket m = some [signature] := by
  have hnot : ¬ ascii "#bundle" ++ zeros 1 <+: m := by
    rintro ⟨rest, rfl⟩
    have hhead : ((ascii "#bundle" ++ zeros 1) ++ rest).head? = some 35 := rfl
    rw [hhead] at hslash
    revert hslash
    decide
  rw [readPacket, if_neg hnot, h]
  rfl

end AmClient.Osc
