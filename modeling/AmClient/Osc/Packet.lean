import AmClient.Foundation.Codec
import AmClient.Osc.Grammar

/-!
# The contents of packets

What a packet says, values included: a message and its arguments, or a bundle with its
time tag and any packets in it. `Packet.decode` accepts what `Packet.write` writes and
nothing else, at every depth.
-/

namespace AmClient.Osc
open Foundation
set_option autoImplicit false

/-- The types of arguments: those of `voscpack`, and the blobs, time tags and MIDI messages
of `tnyosc`. -/
inductive Kind where
  | basic (tag : Tag)
  | b | t | m
  deriving DecidableEq, Repr

def Kind.byte : Kind → UInt8
  | .basic tag => tag.byte
  | .b => UInt8.ofNat 'b'.toNat
  | .t => UInt8.ofNat 't'.toNat
  | .m => UInt8.ofNat 'm'.toNat

def Kind.ofByte (c : UInt8) : Option Kind :=
  match Tag.ofByte c with
  | some tag => some (.basic tag)
  | none => [Kind.b, .t, .m].find? fun k => k.byte = c

/-- An argument as it is read; `c` is a network-order integer of four bytes. -/
inductive Value where
  | int32 (v : BitVec 32)
  | int64 (v : BitVec 64)
  | float (bits : BitVec 32)
  | double (bits : BitVec 64)
  | string (s : Bytes)
  | char (word : BitVec 32)
  | blob (bytes : Bytes)
  | time (v : BitVec 64)
  | midi (bytes : Bytes)
  | T | F | N | I
  deriving DecidableEq, Repr

namespace Value

def kind : Value → Kind
  | int32 _ => .basic .i
  | int64 _ => .basic .h
  | float _ => .basic .f
  | double _ => .basic .d
  | string _ => .basic .s
  | char _ => .basic .c
  | blob _ => .b
  | time _ => .t
  | midi _ => .m
  | T => .basic .T
  | F => .basic .F
  | N => .basic .N
  | I => .basic .I

/-- The length of a blob is an `int32_t`. -/
def Ok : Value → Prop
  | string s => 0 ∉ s
  | blob bytes => bytes.length < 2 ^ 31
  | midi bytes => bytes.length = 4
  | _ => True

end Value

/-- The zeros behind a blob of `n` bytes. -/
def fill (n : Nat) : Bytes := zeros ((4 - n % 4) % 4)

def Value.write : Value → Bytes
  | .int32 v => beBytes 4 v.toNat
  | .int64 v => beBytes 8 v.toNat
  | .float bits => beBytes 4 bits.toNat
  | .double bits => beBytes 8 bits.toNat
  | .string s => padded s
  | .char word => beBytes 4 word.toNat
  | .blob bytes => beBytes 4 bytes.length ++ (bytes ++ fill bytes.length)
  | .time v => beBytes 8 v.toNat
  | .midi bytes => bytes
  | .T | .F | .N | .I => []

def readBits (k : Nat) : Reader UInt8 (BitVec (8 * k)) :=
  (Reader.taken k).map fun bs => BitVec.ofNat (8 * k) (ofBe bs)

def readBlob : Reader UInt8 Bytes :=
  ((Reader.taken 4).pair fun size =>
    (Reader.taken (ofBe size)).pair fun _ => Reader.literal (fill (ofBe size))).decode
      fun p => if p.2.1.length < 2 ^ 31 then some p.2.1 else none

def Value.read : Kind → Reader UInt8 Value
  | .basic .i => (readBits 4).map .int32
  | .basic .h => (readBits 8).map .int64
  | .basic .f => (readBits 4).map .float
  | .basic .d => (readBits 8).map .double
  | .basic .s => Reader.map readString .string
  | .basic .c => (readBits 4).map .char
  | .basic .T => Reader.nothing .T
  | .basic .F => Reader.nothing .F
  | .basic .N => Reader.nothing .N
  | .basic .I => Reader.nothing .I
  | .b => readBlob.map .blob
  | .t => (readBits 8).map .time
  | .m => (Reader.taken 4).map .midi

theorem pow_bytes (k : Nat) : 2 ^ (8 * k) = 256 ^ k := Nat.pow_mul 2 8 k

theorem delimits_bits (k : Nat) :
    Delimits (fun _ => True) (fun v : BitVec (8 * k) => beBytes k v.toNat) (readBits k) := by
  apply (delimits_taken k).map
  · intro v
    refine ⟨fun _ => ⟨beBytes k v.toNat, length_beBytes k _, ?_⟩, fun _ => trivial⟩
    have hv := v.isLt
    rw [pow_bytes] at hv
    rw [ofBe_beBytes k _ hv, BitVec.ofNat_toNat, BitVec.setWidth_eq]
  · rintro bs rfl
    have hlt := ofBe_lt bs
    rw [← pow_bytes] at hlt
    rw [BitVec.toNat_ofNat, Nat.mod_eq_of_lt hlt, beBytes_ofBe]

theorem delimits_string : Delimits (fun s => 0 ∉ s) padded readString := by
  refine ⟨fun bs s rest => ?_⟩
  constructor
  · intro h
    simp only [readString] at h
    split at h
    · rename_i hpre
      obtain ⟨rfl, rfl⟩ := Prod.mk.inj (Option.some.inj h)
      obtain ⟨tail, htail⟩ := hpre
      refine ⟨fun hmem => by simpa using List.all_eq_true.mp List.all_takeWhile _ hmem, ?_⟩
      have hsplit : bs = bs.takeWhile (· ≠ 0) ++ bs.drop (bs.takeWhile (· ≠ 0)).length := by
        exact (append_eq_iff.mpr ⟨List.takeWhile_prefix _, rfl⟩)
      rw [← htail, List.drop_left' (length_padding _)]
      rw [← htail] at hsplit
      rw [padded, List.append_assoc]
      exact hsplit
    · cases h
  · rintro ⟨hs, rfl⟩
    exact readString_padded hs rest

theorem delimits_blob :
    Delimits (fun b => b.length < 2 ^ 31)
      (fun b => beBytes 4 b.length ++ (b ++ fill b.length)) readBlob := by
  have hparts := (delimits_taken (σ := UInt8) 4).pair fun size _ =>
    (delimits_taken (ofBe size)).pair fun _ _ => delimits_literal (fill (ofBe size))
  have hblob := hparts.decode (f := fun p => if p.2.1.length < 2 ^ 31 then some p.2.1 else none)
    (g := fun b => (beBytes 4 b.length, b, ())) (p := fun b => b.length < 2 ^ 31) ?_
  · refine hblob.congr (fun b => ⟨fun hb => ?_, And.left⟩) ?_
    · have hsize := ofBe_beBytes 4 b.length (by omega)
      exact ⟨hb, length_beBytes 4 _, hsize.symm, trivial⟩
    · rintro b ⟨hb, _⟩
      have hsize := ofBe_beBytes 4 b.length (by omega)
      simp only [hsize]
  · rintro ⟨size, b, _⟩ ⟨hsize, hb, _⟩ b'
    simp only at hsize hb
    have hsize' : size = beBytes 4 b.length := by
      rw [hb, ← hsize, beBytes_ofBe]
    constructor
    · intro h
      split at h
      · rename_i hlt
        obtain rfl := Option.some.inj h
        exact ⟨hlt, by rw [hsize']⟩
      · cases h
    · rintro ⟨hlt, heq⟩
      obtain ⟨_, heq⟩ := Prod.mk.inj heq
      obtain ⟨rfl, _⟩ := Prod.mk.inj heq
      exact if_pos hlt

section
variable {α : Type} {okA : α → Prop} {writeA : α → Bytes} {readA : Reader UInt8 α} {k : Kind}

/-- A type whose values are one constructor of `Value`. -/
theorem delimits_kind (h : Delimits okA writeA readA) (mk : α → Value)
    (hkind : ∀ v : Value, v.kind = k → ∃ a, mk a = v) (hmk : ∀ a, (mk a).kind = k)
    (hok : ∀ a, (mk a).Ok ↔ okA a) (hwrite : ∀ a, (mk a).write = writeA a) :
    Delimits (fun v => v.kind = k ∧ v.Ok) Value.write (readA.map mk) := by
  apply h.map
  · intro v
    constructor
    · rintro ⟨hv, hvok⟩
      obtain ⟨a, rfl⟩ := hkind v hv
      exact ⟨a, (hok a).mp hvok, rfl⟩
    · rintro ⟨a, ha, rfl⟩
      exact ⟨hmk a, (hok a).mpr ha⟩
  · intro a _
    exact hwrite a

theorem delimits_bare (v : Value) (hkind : ∀ w : Value, w.kind = k ↔ w = v) (hok : v.Ok)
    (hwrite : v.write = []) :
    Delimits (fun w => w.kind = k ∧ w.Ok) Value.write (Reader.nothing v) := by
  apply (delimits_nothing v).congr
  · intro w
    rw [hkind]
    constructor
    · exact And.left
    · rintro rfl
      exact ⟨rfl, hok⟩
  · rintro w rfl
    exact hwrite

end

theorem delimits_value (k : Kind) :
    Delimits (fun v => v.kind = k ∧ v.Ok) Value.write (Value.read k) := by
  cases k with
  | basic tag =>
    cases tag with
    | i =>
      refine delimits_kind (delimits_bits 4) .int32 ?_
        (fun _ => rfl) (fun _ => Iff.rfl) (fun _ => rfl)
      intro v hv
      cases v with
      | int32 a => exact ⟨a, rfl⟩
      | _ => cases hv
    | h =>
      refine delimits_kind (delimits_bits 8) .int64 ?_
        (fun _ => rfl) (fun _ => Iff.rfl) (fun _ => rfl)
      intro v hv
      cases v with
      | int64 a => exact ⟨a, rfl⟩
      | _ => cases hv
    | f =>
      refine delimits_kind (delimits_bits 4) .float ?_
        (fun _ => rfl) (fun _ => Iff.rfl) (fun _ => rfl)
      intro v hv
      cases v with
      | float a => exact ⟨a, rfl⟩
      | _ => cases hv
    | d =>
      refine delimits_kind (delimits_bits 8) .double ?_
        (fun _ => rfl) (fun _ => Iff.rfl) (fun _ => rfl)
      intro v hv
      cases v with
      | double a => exact ⟨a, rfl⟩
      | _ => cases hv
    | s =>
      refine delimits_kind delimits_string .string ?_
        (fun _ => rfl) (fun _ => Iff.rfl) (fun _ => rfl)
      intro v hv
      cases v with
      | string a => exact ⟨a, rfl⟩
      | _ => cases hv
    | c =>
      refine delimits_kind (delimits_bits 4) .char ?_
        (fun _ => rfl) (fun _ => Iff.rfl) (fun _ => rfl)
      intro v hv
      cases v with
      | char a => exact ⟨a, rfl⟩
      | _ => cases hv
    | T =>
      refine delimits_bare .T (fun w => ?_) trivial rfl
      cases w with
      | _ => simp [Value.kind]
    | F =>
      refine delimits_bare .F (fun w => ?_) trivial rfl
      cases w with
      | _ => simp [Value.kind]
    | N =>
      refine delimits_bare .N (fun w => ?_) trivial rfl
      cases w with
      | _ => simp [Value.kind]
    | I =>
      refine delimits_bare .I (fun w => ?_) trivial rfl
      cases w with
      | _ => simp [Value.kind]
  | b =>
    refine delimits_kind delimits_blob .blob ?_ (fun _ => rfl) (fun _ => Iff.rfl) (fun _ => rfl)
    intro v hv
    cases v with
    | blob a => exact ⟨a, rfl⟩
    | _ => cases hv
  | t =>
    refine delimits_kind (delimits_bits 8) .time ?_ (fun _ => rfl) (fun _ => Iff.rfl) (fun _ => rfl)
    intro v hv
    cases v with
    | time a => exact ⟨a, rfl⟩
    | _ => cases hv
  | m =>
    refine delimits_kind (delimits_taken 4) .midi ?_
      (fun _ => rfl) (fun _ => Iff.rfl) (fun _ => rfl)
    intro v hv
    cases v with
    | midi a => exact ⟨a, rfl⟩
    | _ => cases hv

theorem Kind.ofByte_iff {c : UInt8} {k : Kind} : Kind.ofByte c = some k ↔ c = k.byte := by
  constructor
  · intro h
    unfold Kind.ofByte at h
    split at h
    · rename_i tag htag
      obtain rfl := Option.some.inj h
      exact (Tag.byte_of_ofByte htag).symm
    · have hbyte : k.byte = c := by simpa using List.find?_some h
      exact hbyte.symm
  · rintro rfl
    cases k with
    | basic tag => simp [Kind.byte, Kind.ofByte]
    | _ => decide

theorem Kind.byte_ne_zero (k : Kind) : k.byte ≠ 0 := by
  cases k with
  | basic tag =>
    cases tag with
    | _ => decide
  | _ => decide

theorem kinds_iff {tags : Bytes} {kinds : List Kind} :
    tags.mapM Kind.ofByte = some kinds ↔ tags = kinds.map Kind.byte := by
  induction tags generalizing kinds with
  | nil =>
    cases kinds with
    | nil => simp
    | cons k kinds => simp
  | cons c tags ih =>
    rw [List.mapM_cons]
    constructor
    · intro h
      obtain ⟨k, hk, h⟩ := Option.bind_eq_some_iff.mp h
      obtain ⟨rest, hrest, h⟩ := Option.bind_eq_some_iff.mp h
      obtain rfl := Option.some.inj h
      rw [List.map_cons, ← ih.mp hrest, Kind.ofByte_iff.mp hk]
    · intro h
      cases kinds with
      | nil => cases h
      | cons k kinds =>
        obtain ⟨hc, htags⟩ := List.cons.inj h
        rw [Kind.ofByte_iff.mpr hc, ih.mpr htags]
        rfl

def comma : UInt8 := UInt8.ofNat ','.toNat

def readAddress : Reader UInt8 Bytes :=
  Reader.decode readString fun s => if s.head? = some (UInt8.ofNat '/'.toNat) then some s else none

def readKinds : Reader UInt8 (List Kind) :=
  Reader.decode readString fun types =>
    if types.head? = some comma then types.tail.mapM Kind.ofByte else none

def readValues : Reader UInt8 (List Value) :=
  (readKinds.pair fun kinds => Reader.each Value.read kinds).decode fun p => some p.2

def AddressOk (address : Bytes) : Prop :=
  0 ∉ address ∧ address.head? = some (UInt8.ofNat '/'.toNat)

instance (address : Bytes) : Decidable (AddressOk address) :=
  inferInstanceAs (Decidable (0 ∉ address ∧ address.head? = some (UInt8.ofNat '/'.toNat)))

def tagBytes (args : List Value) : Bytes := args.map fun v => v.kind.byte

theorem delimits_address : Delimits AddressOk padded readAddress := by
  refine (delimits_string.decode (g := fun s => s)
    (p := fun s => s.head? = some (UInt8.ofNat '/'.toNat)) ?_).congr ?_ (fun _ _ => rfl)
  · intro s _ s'
    split
    · rename_i hslash
      constructor
      · rintro ⟨⟩
        exact ⟨hslash, rfl⟩
      · rintro ⟨_, rfl⟩
        rfl
    · rename_i hslash
      constructor
      · rintro ⟨⟩
      · rintro ⟨hslash', rfl⟩
        exact (hslash hslash').elim
  · intro s
    exact and_comm

theorem delimits_kinds :
    Delimits (fun _ => True) (fun kinds => padded (comma :: kinds.map Kind.byte)) readKinds := by
  refine (delimits_string.decode (g := fun kinds => comma :: kinds.map Kind.byte)
    (p := fun _ => True) ?_).congr ?_ (fun _ _ => rfl)
  · intro types _ kinds
    rw [true_and]
    split
    · rename_i hcomma
      obtain ⟨tags, rfl⟩ := List.head?_eq_some_iff.mp hcomma
      rw [List.tail_cons, kinds_iff, List.cons_inj_right]
    · rename_i hcomma
      constructor
      · rintro ⟨⟩
      · rintro rfl
        exact (hcomma rfl).elim
  · intro kinds
    rw [true_iff, true_and, List.mem_cons, not_or]
    refine ⟨by decide, fun hmem => ?_⟩
    obtain ⟨k, _, hk⟩ := List.mem_map.mp hmem
    exact k.byte_ne_zero hk

theorem delimits_values :
    Delimits (fun args => ∀ v ∈ args, v.Ok)
      (fun args => padded (comma :: tagBytes args) ++ args.flatMap Value.write) readValues := by
  have hpair := delimits_kinds.pair fun kinds _ => Delimits.each delimits_value kinds
  refine (hpair.decode (f := fun p => some p.2) (g := fun args => (args.map Value.kind, args))
    (p := fun _ => True) ?_).congr ?_ ?_
  · rintro ⟨kinds, args⟩ ⟨_, hkinds, _⟩ args'
    simp only at hkinds
    rw [true_and, ← hkinds]
    constructor
    · rintro ⟨⟩
      rfl
    · intro heq
      rw [(Prod.mk.inj heq).2]
  · intro args
    simp
  · intro args _
    simp only [List.map_map]
    rfl

def decodeMessage : Bytes → Option (Bytes × List Value) :=
  (readAddress.pair fun _ => readValues).whole

theorem decodes_message :
    Decodes (fun p => AddressOk p.1 ∧ ∀ v ∈ p.2, v.Ok)
      (fun p => layout p.1 (comma :: tagBytes p.2) (p.2.flatMap Value.write)) decodeMessage := by
  have hpair := (delimits_address.pair fun _ _ => delimits_values).whole
  refine ⟨fun bs p => ?_⟩
  have hlayout : layout p.1 (comma :: tagBytes p.2) (p.2.flatMap Value.write) =
      padded p.1 ++ (padded (comma :: tagBytes p.2) ++ p.2.flatMap Value.write) := by
    rw [layout, List.append_assoc]
  rw [hlayout]
  exact hpair.exact bs p

/-- A message, or a bundle of packets. -/
inductive Packet where
  | message (address : Bytes) (args : List Value)
  | bundle (timetag : BitVec 64) (elements : List Packet)

def bundleName : Bytes := ascii "#bundle" ++ zeros 1

namespace Packet

mutual

def write : Packet → Bytes
  | message address args =>
    layout address (comma :: tagBytes args) (args.flatMap Value.write)
  | bundle timetag elements => bundleName ++ (beBytes 8 timetag.toNat ++ writeAll elements)

def writeAll : List Packet → Bytes
  | [] => []
  | p :: ps => frame (write p) ++ writeAll ps

end

/-- The size of an element is an `int32_t`. -/
inductive Ok : Packet → Prop where
  | message {address : Bytes} {args : List Value} :
    AddressOk address → (∀ v ∈ args, v.Ok) → Ok (message address args)
  | bundle {timetag : BitVec 64} {elements : List Packet} :
    (∀ e ∈ elements, Ok e) → (∀ e ∈ elements, e.write.length < 2 ^ 31) →
      Ok (bundle timetag elements)

/-- Bundles are nested less than `n` deep. -/
inductive Within : Nat → Packet → Prop where
  | message {n : Nat} {address : Bytes} {args : List Value} :
    Within (n + 1) (message address args)
  | bundle {n : Nat} {timetag : BitVec 64} {elements : List Packet} :
    (∀ e ∈ elements, Within n e) → Within (n + 1) (bundle timetag elements)

def decodeWithin : Nat → Bytes → Option Packet
  | 0, _ => none
  | depth + 1, bs =>
    if bundleName <+: bs then
      ((readBits 8).before fun rest =>
        (Reader.decode readElement (decodeWithin depth)).many rest.length rest)
          (bs.drop bundleName.length) |>.map fun p => bundle p.1 p.2
    else (decodeMessage bs).map fun p => message p.1 p.2

/-- A bundle takes more bytes than what is in it, so the length bounds the depth. -/
def decode (bs : Bytes) : Option Packet := decodeWithin bs.length bs

theorem writeAll_eq (ps : List Packet) : writeAll ps = ps.flatMap fun p => frame p.write := by
  induction ps with
  | nil => rfl
  | cons p ps ih => rw [writeAll, ih, List.flatMap_cons]

end Packet

theorem Value.write_aligned {v : Value} (h : v.Ok) : v.write.length % 4 = 0 := by
  cases v with
  | string s =>
    rw [write, length_padded]
    exact alignedLength_mod _
  | blob bytes =>
    simp only [write, fill, List.length_append, length_beBytes, length_zeros]
    omega
  | midi bytes =>
    have hlen : bytes.length = 4 := h
    rw [write, hlen]
  | int64 v | double v | time v => rw [write, length_beBytes]
  | int32 v | float v | char v => rw [write, length_beBytes]
  | T | F | N | I => rfl

theorem values_aligned {args : List Value} (h : ∀ v ∈ args, v.Ok) :
    (args.flatMap Value.write).length % 4 = 0 := by
  induction args with
  | nil => rfl
  | cons v args ih =>
    obtain ⟨hv, hargs⟩ := List.forall_mem_cons.mp h
    have haligned := Value.write_aligned hv
    have hrest := ih hargs
    rw [List.flatMap_cons, List.length_append]
    omega

theorem int32_of_nonneg {n : Nat} (hn : n < 2 ^ 32) (h : 0 ≤ int32 n) :
    n < 2 ^ 31 ∧ int32 n = n := by
  unfold int32 at h ⊢
  rw [BitVec.toInt_eq_toNat_cond, BitVec.toNat_ofNat, Nat.mod_eq_of_lt hn] at h ⊢
  split
  · omega
  · omega

theorem delimits_element :
    Delimits (fun m => m.length < 2 ^ 31 ∧ m.length % 4 = 0) frame readElement := by
  refine ⟨fun bs m rest => ?_⟩
  constructor
  · intro h
    simp only [readElement] at h
    split at h
    · cases h
    · rename_i hfits
      have hfour : 4 ≤ bs.length := by omega
      have hpos : 0 ≤ int32 (ofBe (bs.take 4)) := by omega
      have htake : (bs.take 4).length = 4 := List.length_take_of_le hfour
      have hlt := ofBe_lt (bs.take 4)
      rw [htake] at hlt
      obtain ⟨hsmall, hsize⟩ := int32_of_nonneg hlt hpos
      rw [hsize, Int.toNat_natCast] at hfits h
      obtain ⟨rfl, rfl⟩ := Prod.mk.inj (Option.some.inj h)
      have hlen : ((bs.drop 4).take (ofBe (bs.take 4))).length = ofBe (bs.take 4) := by
        apply List.length_take_of_le
        rw [List.length_drop]
        omega
      have hhead := beBytes_ofBe (bs.take 4)
      rw [htake] at hhead
      refine ⟨by rw [hlen]; omega, ?_⟩
      rw [frame, hlen, hhead, ← List.drop_drop, List.append_assoc, List.take_append_drop,
        List.take_append_drop]
  · rintro ⟨⟨hlen, hmod⟩, rfl⟩
    exact readElement_frame hlen hmod rest

namespace Packet

theorem writeAll_aligned {ps : List Packet} (h : ∀ p ∈ ps, p.write.length % 4 = 0) :
    (writeAll ps).length % 4 = 0 := by
  induction ps with
  | nil => rfl
  | cons p ps ih =>
    obtain ⟨hp, hps⟩ := List.forall_mem_cons.mp h
    have hrest := ih hps
    rw [writeAll, List.length_append, length_frame]
    omega

theorem Ok.aligned {p : Packet} (h : p.Ok) : p.write.length % 4 = 0 := by
  induction h with
  | message _ hargs =>
    rw [write]
    exact length_layout_mod (values_aligned hargs)
  | @bundle timetag elements _ _ ih =>
    have hall := writeAll_aligned ih
    have hname : bundleName.length = 8 := rfl
    rw [write, List.length_append, List.length_append, length_beBytes]
    omega

theorem message_not_bundle {address : Bytes} (h : AddressOk address) (args : List Value) :
    ¬ bundleName <+: (message address args).write := by
  obtain ⟨tail, rfl⟩ := List.head?_eq_some_iff.mp h.2
  rintro ⟨rest, hrest⟩
  rw [write, layout, padded] at hrest
  have hhead := congrArg List.head? hrest
  revert hhead
  simp [bundleName, ascii, zeros]

theorem decodes_within (n : Nat) :
    Decodes (fun p => p.Ok ∧ p.Within n) write (decodeWithin n) := by
  induction n with
  | zero =>
    refine ⟨fun bs p => ?_⟩
    constructor
    · rintro ⟨⟩
    · rintro ⟨⟨_, hwithin⟩, _⟩
      cases hwithin
  | succ n ih =>
    have helement := delimits_element.decode (f := decodeWithin n) (g := write)
      (p := fun p => p.Ok ∧ p.Within n) fun bs _ p => ih.exact bs p
    have helements := helement.many fun p _ => by simp [frame, beBytes, leBytes]
    have hbundle := (delimits_bits 8).before helements
    refine ⟨fun bs p => ?_⟩
    unfold decodeWithin
    split
    · rename_i hname
      rw [Option.map_eq_some_iff]
      constructor
      · rintro ⟨⟨timetag, elements⟩, hread, rfl⟩
        obtain ⟨⟨_, hall⟩, hbs⟩ := (hbundle.exact _ _).mp hread
        refine ⟨⟨.bundle (fun e he => (hall e he).1.1) (fun e he => (hall e he).2.1),
          .bundle fun e he => (hall e he).1.2⟩, ?_⟩
        obtain ⟨tail, rfl⟩ := hname
        rw [List.drop_left] at hbs
        rw [hbs, write, writeAll_eq]
      · rintro ⟨⟨hok, hwithin⟩, rfl⟩
        cases hok with
        | message haddress hargs => exact (message_not_bundle haddress _ hname).elim
        | @bundle timetag elements hall hsmall =>
          cases hwithin with
          | bundle hdepth =>
            refine ⟨(timetag, elements), ?_, rfl⟩
            rw [write, List.drop_left, writeAll_eq]
            exact hbundle.decode_write (a := (timetag, elements)) ⟨trivial, fun e he =>
              ⟨⟨hall e he, hdepth e he⟩, hsmall e he, (hall e he).aligned⟩⟩
    · rename_i hname
      rw [Option.map_eq_some_iff]
      constructor
      · rintro ⟨⟨address, args⟩, hread, rfl⟩
        obtain ⟨⟨haddress, hargs⟩, rfl⟩ := (decodes_message.exact _ _).mp hread
        exact ⟨⟨.message haddress hargs, .message⟩, rfl⟩
      · rintro ⟨⟨hok, hwithin⟩, rfl⟩
        cases hok with
        | @message address args haddress hargs =>
          refine ⟨(address, args), ?_, rfl⟩
          rw [write]
          exact decodes_message.decode_write (a := (address, args)) ⟨haddress, hargs⟩
        | bundle hall hsmall =>
          rw [write] at hname
          exact (hname (List.prefix_append _ _)).elim

theorem length_le_writeAll {p : Packet} {ps : List Packet} (h : p ∈ ps) :
    p.write.length ≤ (writeAll ps).length := by
  induction ps with
  | nil => cases h
  | cons q ps ih =>
    rw [writeAll, List.length_append, length_frame]
    rcases List.mem_cons.mp h with rfl | hmem
    · omega
    · have hle := ih hmem
      omega

theorem Ok.within {p : Packet} (h : p.Ok) {n : Nat} (hn : p.write.length ≤ n) : p.Within n := by
  induction h generalizing n with
  | message _ _ =>
    rw [write, length_layout] at hn
    obtain ⟨n, rfl⟩ : ∃ k, n = k + 1 := ⟨n - 1, by unfold alignedLength at hn; omega⟩
    exact .message
  | @bundle timetag elements _ _ ih =>
    rw [write, List.length_append, List.length_append, length_beBytes] at hn
    obtain ⟨n, rfl⟩ : ∃ k, n = k + 1 := ⟨n - 1, by omega⟩
    apply Within.bundle
    intro e he
    have hle := length_le_writeAll he
    exact ih e he (by omega)

/-- What is accepted is what is written for a packet: of one packet only, and with every
size, terminator and padding byte in its place. -/
theorem decodes : Decodes Ok write decode := by
  refine ⟨fun bs p => ?_⟩
  unfold decode
  rw [(decodes_within bs.length).exact]
  constructor
  · rintro ⟨⟨hok, _⟩, hbs⟩
    exact ⟨hok, hbs⟩
  · rintro ⟨hok, rfl⟩
    exact ⟨⟨hok, hok.within (Nat.le_refl _)⟩, rfl⟩

end Packet
end AmClient.Osc
