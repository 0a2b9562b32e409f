import Mathlib.Algebra.Group.Nat.Defs
import Mathlib.Data.List.Basic

/-!
# Network byte order and length-prefixed streams

Integers in memory are little-endian byte lists, network order is their reverse. A frame
is a four-byte network-order length followed by that many bytes; `deframe` reads as many
complete frames as a stream holds and returns what is left.
-/

namespace Foundation
set_option autoImplicit false

/-- The memory image of `n` in `k` bytes on a little-endian host. -/
def leBytes : Nat → Nat → List UInt8
  | 0, _ => []
  | k + 1, n => UInt8.ofNat n :: leBytes k (n / 256)

def ofLe : List UInt8 → Nat
  | [] => 0
  | b :: bs => b.toNat + 256 * ofLe bs

def beBytes (k n : Nat) : List UInt8 := (leBytes k n).reverse

def ofBe (bs : List UInt8) : Nat := ofLe bs.reverse

@[simp] theorem length_leBytes (k n : Nat) : (leBytes k n).length = k := by
  induction k generalizing n with
  | zero => rfl
  | succ k ih => simp [leBytes, ih]

@[simp] theorem length_beBytes (k n : Nat) : (beBytes k n).length = k := by
  simp [beBytes]

theorem ofLe_leBytes (k n : Nat) (h : n < 256 ^ k) : ofLe (leBytes k n) = n := by
  induction k generalizing n with
  | zero =>
    rw [Nat.pow_zero] at h
    have hn : n = 0 := by omega
    rw [hn]
    rfl
  | succ k ih =>
    rw [Nat.pow_succ] at h
    have hdiv : n / 256 < 256 ^ k := by omega
    rw [leBytes, ofLe, ih _ hdiv, UInt8.toNat_ofNat']
    omega

theorem ofBe_beBytes (k n : Nat) (h : n < 256 ^ k) : ofBe (beBytes k n) = n := by
  rw [ofBe, beBytes, List.reverse_reverse]
  exact ofLe_leBytes k n h

theorem leBytes_ofLe (bs : List UInt8) : leBytes bs.length (ofLe bs) = bs := by
  induction bs with
  | nil => rfl
  | cons b bs ih =>
    have hb := b.toNat_lt
    have hdiv : (b.toNat + 256 * ofLe bs) / 256 = ofLe bs := by omega
    have hbyte : UInt8.ofNat (b.toNat + 256 * ofLe bs) = b := by
      apply UInt8.toNat_inj.mp
      rw [UInt8.toNat_ofNat']
      omega
    rw [List.length_cons, leBytes, ofLe, hdiv, ih, hbyte]

theorem leBytes_add (k j n : Nat) : leBytes (k + j) n = leBytes k n ++ leBytes j (n / 256 ^ k) := by
  induction k generalizing n with
  | zero => rw [Nat.zero_add, Nat.pow_zero, Nat.div_one, leBytes, List.nil_append]
  | succ k ih =>
    rw [Nat.add_right_comm, leBytes, leBytes, ih, Nat.div_div_eq_div_mul, Nat.pow_succ',
      List.cons_append]

theorem leBytes_mod (k n : Nat) : leBytes k (n % 256 ^ k) = leBytes k n := by
  induction k generalizing n with
  | zero => rfl
  | succ k ih =>
    have hlow : n % 256 ^ (k + 1) % 256 = n % 256 :=
      Nat.mod_mod_of_dvd n ⟨256 ^ k, Nat.pow_succ'⟩
    have hbyte : UInt8.ofNat (n % 256 ^ (k + 1)) = UInt8.ofNat n := by
      apply UInt8.toNat_inj.mp
      rw [UInt8.toNat_ofNat', UInt8.toNat_ofNat']
      exact hlow
    have hhigh : n % 256 ^ (k + 1) / 256 = n / 256 % 256 ^ k := by
      rw [Nat.pow_succ', Nat.mod_mul_right_div_self]
    rw [leBytes, leBytes, hbyte, hhigh, ih]

theorem beBytes_add (k j n : Nat) : beBytes (k + j) n = beBytes j (n / 256 ^ k) ++ beBytes k n := by
  rw [beBytes, leBytes_add, List.reverse_append]
  rfl

theorem ofLe_lt (bs : List UInt8) : ofLe bs < 256 ^ bs.length := by
  induction bs with
  | nil => exact Nat.one_pos
  | cons b bs ih =>
    have hb := b.toNat_lt
    rw [ofLe, List.length_cons, Nat.pow_succ]
    omega

theorem ofBe_lt (bs : List UInt8) : ofBe bs < 256 ^ bs.length := by
  rw [ofBe, ← List.length_reverse]
  exact ofLe_lt bs.reverse

theorem beBytes_ofBe (bs : List UInt8) : beBytes bs.length (ofBe bs) = bs := by
  rw [beBytes, ofBe, ← List.length_reverse, leBytes_ofLe, List.reverse_reverse]

/-- Host to network order: the number whose memory image is `n` in network order. -/
def hton (k n : Nat) : Nat := ofLe (beBytes k n)

theorem leBytes_hton (k n : Nat) : leBytes k (hton k n) = beBytes k n := by
  have h := leBytes_ofLe (beBytes k n)
  rwa [length_beBytes] at h

/-- A number cut to an `int32_t`. -/
def int32 (n : Nat) : Int := (BitVec.ofNat 32 n).toInt

theorem int32_of_lt {n : Nat} (h : n < 2 ^ 31) : int32 n = n := by
  unfold int32
  rw [BitVec.toInt_eq_toNat_cond, BitVec.toNat_ofNat]
  split
  · omega
  · omega

theorem int32_toNat_le (n : Nat) : (int32 n).toNat ≤ n := by
  unfold int32
  rw [BitVec.toInt_eq_toNat_cond, BitVec.toNat_ofNat]
  split
  · have hmod := Nat.mod_le n (2 ^ 32)
    omega
  · omega

/-- The length, as four network-order bytes, and the payload. -/
def frame (m : List UInt8) : List UInt8 := beBytes 4 m.length ++ m

def frames (ms : List (List UInt8)) : List UInt8 := ms.flatMap frame

@[simp] theorem length_frame (m : List UInt8) : (frame m).length = m.length + 4 := by
  simp [frame, Nat.add_comm]

@[simp] theorem frames_nil : frames [] = [] := rfl

@[simp] theorem frames_cons (m : List UInt8) (ms : List (List UInt8)) :
    frames (m :: ms) = frame m ++ frames ms := rfl

theorem frames_append (ms ns : List (List UInt8)) : frames (ms ++ ns) = frames ms ++ frames ns :=
  List.flatMap_append

def unframe (bs : List UInt8) : Option (List UInt8 × List UInt8) :=
  let size := ofBe (bs.take 4)
  if bs.length < 4 + size then none else some ((bs.drop 4).take size, bs.drop (4 + size))

def deframeWithin : Nat → List UInt8 → List (List UInt8) × List UInt8
  | 0, bs => ([], bs)
  | fuel + 1, bs =>
    match unframe bs with
    | none => ([], bs)
    | some (m, rest) =>
      let (ms, left) := deframeWithin fuel rest
      (m :: ms, left)

/-- The complete frames of a stream and the incomplete rest. A frame takes at least four
bytes, so the length of the stream bounds their number. -/
def deframe (bs : List UInt8) : List (List UInt8) × List UInt8 := deframeWithin bs.length bs

theorem unframe_frame_append (m rest : List UInt8) (h : m.length < 256 ^ 4) :
    unframe (frame m ++ rest) = some (m, rest) := by
  have hsize : ofBe ((frame m ++ rest).take 4) = m.length := by
    rw [frame, List.append_assoc, List.take_left' (length_beBytes 4 _)]
    exact ofBe_beBytes 4 m.length h
  have hdrop : (frame m ++ rest).drop 4 = m ++ rest := by
    rw [frame, List.append_assoc, List.drop_left' (length_beBytes 4 _)]
  have hlen : ¬(frame m ++ rest).length < 4 + m.length := by
    rw [List.length_append, length_frame]
    omega
  simp only [unframe, hsize, if_neg hlen]
  rw [hdrop, List.take_left, Nat.add_comm 4, List.drop_left' (length_frame m)]

theorem unframe_partial {m part : List UInt8} (h : m.length < 256 ^ 4)
    (hpart : part <+: frame m) (hne : part ≠ frame m) : unframe part = none := by
  obtain ⟨missing, hmissing⟩ := hpart
  have hlen := congrArg List.length hmissing
  rw [List.length_append, length_frame] at hlen
  have hpos : 0 < missing.length := by
    apply List.length_pos_iff.mpr
    rintro rfl
    exact hne (by simpa using hmissing)
  simp only [unframe]
  rw [if_pos]
  by_cases hshort : part.length < 4
  · omega
  · have hstart : part.take 4 = beBytes 4 m.length := by
      have htake := congrArg (List.take 4) hmissing
      rw [frame, List.take_left' (length_beBytes 4 _),
        List.take_append_of_le_length (by omega)] at htake
      exact htake
    rw [hstart, ofBe_beBytes 4 m.length h]
    omega

theorem deframeWithin_frames (ms : List (List UInt8)) (part : List UInt8) (fuel : Nat)
    (h : ∀ m ∈ ms, m.length < 256 ^ 4) (hpart : unframe part = none)
    (hfuel : (frames ms ++ part).length ≤ fuel) :
    deframeWithin fuel (frames ms ++ part) = (ms, part) := by
  induction ms generalizing fuel with
  | nil =>
    rw [frames_nil, List.nil_append]
    cases fuel with
    | zero => rfl
    | succ fuel => simp only [deframeWithin, hpart]
  | cons m ms ih =>
    rw [frames_cons, List.append_assoc, List.length_append, length_frame] at hfuel
    obtain ⟨fuel, rfl⟩ : ∃ n, fuel = n + 1 := ⟨fuel - 1, by omega⟩
    have hm := h m List.mem_cons_self
    have htail := ih fuel (fun x hx => h x (List.mem_cons_of_mem m hx)) (by omega)
    rw [frames_cons, List.append_assoc]
    simp only [deframeWithin, unframe_frame_append m _ hm, htail]

theorem unframe_nil : unframe [] = none := rfl

theorem deframe_frames (ms : List (List UInt8)) (part : List UInt8)
    (h : ∀ m ∈ ms, m.length < 256 ^ 4) (hpart : unframe part = none) :
    deframe (frames ms ++ part) = (ms, part) :=
  deframeWithin_frames ms part _ h hpart (Nat.le_refl _)

theorem prefix_of_frames {ms : List (List UInt8)} {bs : List UInt8} (h : bs <+: frames ms) :
    ∃ done rest part, ms = done ++ rest ∧ bs = frames done ++ part ∧
      (part = [] ∨ ∃ m later, rest = m :: later ∧ part <+: frame m ∧ part ≠ frame m) := by
  induction ms generalizing bs with
  | nil =>
    have hnil : bs = [] := List.prefix_nil.mp h
    exact ⟨[], [], [], rfl, hnil, .inl rfl⟩
  | cons m ms ih =>
    rw [frames_cons] at h
    by_cases hlen : (frame m).length ≤ bs.length
    · obtain ⟨tail, rfl⟩ := List.prefix_of_prefix_length_le (List.prefix_append _ _) h hlen
      obtain ⟨done, rest, part, rfl, rfl, hpart⟩ := ih ((List.prefix_append_right_inj _).mp h)
      exact ⟨m :: done, rest, part, rfl, by rw [frames_cons, List.append_assoc], hpart⟩
    · have hcut := List.prefix_of_prefix_length_le h (List.prefix_append _ _) (by omega)
      refine ⟨[], m :: ms, bs, rfl, rfl, .inr ⟨m, ms, rfl, hcut, ?_⟩⟩
      rintro rfl
      exact hlen (Nat.le_refl _)

/-- A receiver of any prefix of a framed stream reads a prefix of the messages, and what
it has left over is the beginning of the next frame. -/
theorem deframe_prefix {ms : List (List UInt8)} {bs : List UInt8}
    (h : ∀ m ∈ ms, m.length < 256 ^ 4) (hbs : bs <+: frames ms) :
    ∃ rest, ms = (deframe bs).1 ++ rest ∧ (deframe bs).2 <+: frames rest := by
  obtain ⟨done, rest, part, rfl, rfl, hpart⟩ := prefix_of_frames hbs
  have hdone : ∀ m ∈ done, m.length < 256 ^ 4 := fun m hm => h m (List.mem_append_left _ hm)
  have hcut : unframe part = none := by
    rcases hpart with rfl | ⟨m, later, rfl, hpre, hne⟩
    · exact unframe_nil
    · exact unframe_partial (h m (List.mem_append_right _ List.mem_cons_self)) hpre hne
  rw [deframe_frames done part hdone hcut]
  refine ⟨rest, rfl, ?_⟩
  rcases hpart with rfl | ⟨m, later, rfl, hpre, _⟩
  · exact List.nil_prefix
  · exact hpre.trans (List.prefix_append _ _)

/-- Writes that each took only the beginning of their buffer. As long as no write but the
last one fell short, the stream is a beginning of what was to be written. -/
theorem short_write_prefix {α : Type} (bytes : α → List UInt8) (writes : List (α × Nat))
    (h : ∀ p ∈ writes.dropLast, p.2 = (bytes p.1).length) :
    writes.flatMap (fun p => (bytes p.1).take p.2) <+: (writes.map Prod.fst).flatMap bytes := by
  induction writes with
  | nil => exact List.nil_prefix
  | cons p ps ih =>
    simp only [List.flatMap_cons, List.map_cons]
    cases ps with
    | nil =>
      rw [List.flatMap_nil, List.append_nil]
      exact (List.take_prefix _ _).trans (List.prefix_append _ _)
    | cons q qs =>
      have hp : p.2 = (bytes p.1).length := h p (by simp)
      rw [hp, List.take_length]
      apply (List.prefix_append_right_inj _).mpr
      apply ih
      intro r hr
      exact h r (by simpa using Or.inr hr)

end Foundation
