import AmClient.Foundation.Runs
import AmClient.Osc.Builder

/-!
# The cache of a message

`create_cache` resizes the old cache and copies the three fields into it. It does not write
the padding: the zeros there are those of `resize`, or what an earlier message left.
-/

namespace AmClient.Osc
open Foundation
set_option autoImplicit false

/-- `std::copy` to a position, the target being long enough. -/
def copyTo (target : Bytes) (pos : Nat) (src : Bytes) : Bytes :=
  target.take pos ++ src ++ target.drop (pos + src.length)

/-- `tnyosc::Message` with its cache. -/
structure Cached where
  message : Message
  isCached : Bool
  cache : Bytes

namespace Cached

def init (address : Bytes) : Cached := ⟨{ address := address }, false, []⟩

def addrLen (m : Message) : Nat :=
  let address := if m.address.length = 0 then ascii "/tnyosc" else m.address
  address.length + (4 - address.length % 4)

def typesLen (m : Message) : Nat := m.types.length + (4 - m.types.length % 4)

/-- `create_cache`. -/
def create (c : Cached) : Cached :=
  let m := c.message
  let cache := resize c.cache (addrLen m + typesLen m + m.data.length)
  let cache := copyTo cache 0 m.address
  let cache := copyTo cache (addrLen m) m.types
  let cache := copyTo cache (addrLen m + typesLen m) m.data
  { c with isCached := true, cache := cache }

/-- `byte_array`, and `data` and `size` with it. -/
def read (c : Cached) : Cached := if c.isCached then c else c.create

/-- The calls of a message; a null or an empty C string is not appended and leaves the
cache as it is. -/
inductive Call where
  | append (a : Append)
  | setAddress (address : Bytes)
  | clear
  | byteArray
  deriving DecidableEq

def step (c : Cached) : Call → Option Cached
  | .append a =>
    if a.value = none then some c
    else some { c with message := a.apply c.message, isCached := false }
  | .setAddress address =>
    some { c with message := { c.message with address := address }, isCached := false }
  | .clear =>
    some { c with message := { address := [], types := [], data := [] }, isCached := false }
  | .byteArray => some c.read

/-- What `byte_array` returns. -/
def returned (c : Cached) : Bytes := c.read.cache

/-- No byte but zero where the padding of the new message comes to stand. -/
def Clean (c : Cached) : Prop :=
  ∀ i < addrLen c.message + typesLen c.message,
    (c.message.address.length ≤ i ∧ i < addrLen c.message) ∨
      addrLen c.message + c.message.types.length ≤ i → c.cache.getD i 0 = 0

instance (c : Cached) : Decidable c.Clean :=
  inferInstanceAs (Decidable (∀ i < addrLen c.message + typesLen c.message, _ → _))

theorem getD_resize (bytes : Bytes) {n i : Nat} (hi : i < n) :
    (resize bytes n).getD i 0 = bytes.getD i 0 := by
  rw [resize, List.getD_eq_getElem?_getD, List.getD_eq_getElem?_getD]
  by_cases hlen : i < bytes.length
  · have htake : i < (bytes.take n).length := by
      rw [List.length_take]
      omega
    rw [List.getElem?_append_left htake, List.getElem?_take_of_lt hi]
  · have htake : (bytes.take n).length ≤ i := by
      rw [List.length_take]
      omega
    rw [List.getElem?_append_right htake, List.getElem?_eq_none (Nat.le_of_not_lt hlen), zeros,
      List.getElem?_replicate]
    split
    · rfl
    · rfl

theorem getD_gap {front gap back : Bytes} {j : Nat} (hj : j < gap.length) :
    (front ++ (gap ++ back)).getD (front.length + j) 0 = gap[j] := by
  rw [List.getD_eq_getElem?_getD, List.getElem?_append_right (Nat.le_add_right _ _),
    Nat.add_sub_cancel_left, List.getElem?_append_left hj, List.getElem?_eq_getElem hj]
  rfl

theorem gap_iff (front gap back : Bytes) :
    gap = zeros gap.length ↔ ∀ i, front.length ≤ i → i < front.length + gap.length →
      (front ++ (gap ++ back)).getD i 0 = 0 := by
  have hzeros : gap = zeros gap.length ↔ ∀ b ∈ gap, b = 0 := by
    rw [zeros, List.eq_replicate_iff, and_iff_right rfl]
  rw [hzeros]
  constructor
  · intro hall i hle hlt
    obtain ⟨j, rfl⟩ := Nat.exists_eq_add_of_le hle
    have hj : j < gap.length := by omega
    rw [getD_gap hj]
    exact hall _ (List.getElem_mem hj)
  · intro hall b hb
    obtain ⟨j, hj, rfl⟩ := List.getElem_of_mem hb
    rw [← getD_gap hj]
    exact hall (front.length + j) (Nat.le_add_right _ _) (by omega)

theorem copyTo_middle (front back : Bytes) {middle src : Bytes} {pos : Nat}
    (hpos : front.length = pos) (h : middle.length = src.length) :
    copyTo (front ++ (middle ++ back)) pos src = front ++ (src ++ back) := by
  rw [← hpos, copyTo, List.take_left, ← h, ← List.drop_drop, List.drop_left, List.drop_left,
    List.append_assoc]

theorem exists_split (bytes : Bytes) (n : Nat) (h : n ≤ bytes.length) :
    ∃ front back, bytes = front ++ back ∧ front.length = n :=
  ⟨bytes.take n, bytes.drop n, (List.take_append_drop n bytes).symm, List.length_take_of_le h⟩

theorem address_le (m : Message) : m.address.length ≤ addrLen m := by
  unfold addrLen
  simp only
  split
  · omega
  · omega

theorem types_le (m : Message) : m.types.length ≤ typesLen m := Nat.le_add_right _ _

theorem byteArray_eq (m : Message) :
    m.byteArray = m.address ++ (zeros (addrLen m - m.address.length) ++ (m.types ++
      (zeros (typesLen m - m.types.length) ++ m.data))) := by
  have haddress := address_le m
  have htypes := types_le m
  have hfront : resize m.address (addrLen m) =
      m.address ++ zeros (addrLen m - m.address.length) := by
    rw [resize, List.take_of_length_le haddress]
  have hlen : (resize m.address (addrLen m) ++ m.types).length ≤ addrLen m + typesLen m := by
    rw [List.length_append, length_resize]
    omega
  have hsub : addrLen m + typesLen m - (resize m.address (addrLen m) ++ m.types).length =
      typesLen m - m.types.length := by
    rw [List.length_append, length_resize]
    omega
  have hbytes : m.byteArray =
      resize (resize m.address (addrLen m) ++ m.types) (addrLen m + typesLen m) ++ m.data := rfl
  rw [hbytes, resize.eq_1 (_ ++ _), List.take_of_length_le hlen, hsub, hfront]
  simp only [List.append_assoc]

/-- `create_cache` keeps what stands in the two gaps. -/
theorem create_eq (c : Cached) :
    ∃ gap gap', gap.length = addrLen c.message - c.message.address.length ∧
      gap'.length = typesLen c.message - c.message.types.length ∧
      c.create.cache = c.message.address ++ (gap ++ (c.message.types ++ (gap' ++ c.message.data))) ∧
      (c.Clean ↔ gap = zeros gap.length ∧ gap' = zeros gap'.length) := by
  obtain ⟨m, isCached, cache⟩ := c
  have haddress := address_le m
  have htypes := types_le m
  have hold : (resize cache (addrLen m + typesLen m + m.data.length)).length =
      addrLen m + typesLen m + m.data.length := length_resize _ _
  have hgetD : ∀ i < addrLen m + typesLen m,
      (resize cache (addrLen m + typesLen m + m.data.length)).getD i 0 = cache.getD i 0 :=
    fun i hi => getD_resize cache (by omega)
  have hcreate : (create ⟨m, isCached, cache⟩).cache = copyTo (copyTo (copyTo
      (resize cache (addrLen m + typesLen m + m.data.length)) 0 m.address) (addrLen m) m.types)
        (addrLen m + typesLen m) m.data := rfl
  have hclean : Clean ⟨m, isCached, cache⟩ ↔ ∀ i < addrLen m + typesLen m,
      (m.address.length ≤ i ∧ i < addrLen m) ∨ addrLen m + m.types.length ≤ i →
        cache.getD i 0 = 0 := Iff.rfl
  rw [hcreate, hclean]
  generalize resize cache (addrLen m + typesLen m + m.data.length) = old at hold hgetD ⊢
  obtain ⟨a, old, rfl, ha⟩ := exists_split old (m.address.length) (by omega)
  rw [List.length_append] at hold
  obtain ⟨gap, old, rfl, hgap⟩ :=
    exists_split old (addrLen m - m.address.length) (by omega)
  rw [List.length_append] at hold
  obtain ⟨t, old, rfl, ht⟩ := exists_split old (m.types.length) (by omega)
  rw [List.length_append] at hold
  obtain ⟨gap', d, rfl, hgap'⟩ :=
    exists_split old (typesLen m - m.types.length) (by omega)
  rw [List.length_append] at hold
  refine ⟨gap, gap', hgap, hgap', ?_, ?_⟩
  · have hstart : ([] : Bytes).length = 0 := rfl
    have htypesAt : (m.address ++ gap).length = addrLen m := by
      rw [List.length_append]
      omega
    have hdataAt : (m.address ++ gap ++ m.types ++ gap').length = addrLen m + typesLen m := by
      simp only [List.length_append]
      omega
    have hd : d.length = m.data.length := by omega
    have hfirst := copyTo_middle [] (gap ++ (t ++ (gap' ++ d))) hstart ha
    have hsecond := copyTo_middle (m.address ++ gap) (gap' ++ d) htypesAt ht
    have hthird := copyTo_middle (m.address ++ gap ++ m.types ++ gap') [] hdataAt hd
    simp only [List.nil_append, List.append_assoc, List.append_nil] at hfirst hsecond hthird
    rw [hfirst, hsecond, hthird]
  · have hgap₁ := gap_iff a gap (t ++ (gap' ++ d))
    have hgap₂ := gap_iff (a ++ gap ++ t) gap' d
    simp only [List.length_append, List.append_assoc] at hgap₂
    rw [hgap₁, hgap₂]
    constructor
    · intro hall
      refine ⟨fun i hle hlt => ?_, fun i hle hlt => ?_⟩
      · rw [hgetD i (by omega)]
        exact hall i (by omega) (.inl ⟨by omega, by omega⟩)
      · rw [hgetD i (by omega)]
        exact hall i (by omega) (.inr (by omega))
    · rintro ⟨hfirst, hsecond⟩ i hi hpos
      rw [← hgetD i hi]
      rcases hpos with ⟨hle, hlt⟩ | hle
      · exact hfirst i (by omega) (by omega)
      · exact hsecond i (by omega) (by omega)

/-- A new cache is what an empty one would give, exactly when the old one is clean. -/
theorem create_iff (c : Cached) : c.create.cache = c.message.byteArray ↔ c.Clean := by
  obtain ⟨gap, gap', hgap, hgap', hcache, hclean⟩ := c.create_eq
  rw [hcache, hclean, byteArray_eq, ← hgap, ← hgap', List.append_cancel_left_eq]
  constructor
  · intro heq
    obtain ⟨hfirst, hrest⟩ := List.append_inj heq (by rw [length_zeros])
    rw [List.append_cancel_left_eq] at hrest
    exact ⟨hfirst, (List.append_inj hrest (by rw [length_zeros])).1⟩
  · rintro ⟨hfirst, hsecond⟩
    rw [← hfirst, ← hsecond]

theorem clean_of_empty {c : Cached} (h : c.cache = []) : c.Clean := by
  intro i _ _
  rw [h]
  rfl

/-- A read puts the bytes of the message together anew. -/
def Creates (c : Cached) (e : Call) : Prop := e = .byteArray ∧ c.isCached = false

instance (c : Cached) (e : Call) : Decidable (Creates c e) :=
  inferInstanceAs (Decidable (e = .byteArray ∧ c.isCached = false))

/-- What was cached is what the message says now. -/
def Current (c : Cached) : Prop := c.isCached = true → c.cache = c.message.byteArray

theorem returned_iff {c : Cached} (h : c.Current) :
    c.returned = c.message.byteArray ↔ (c.isCached = false → c.Clean) := by
  unfold returned read
  cases hcached : c.isCached with
  | true => simpa using h hcached
  | false => simpa using c.create_iff

theorem current_step {c c' : Cached} {e : Call} (h : c.Current)
    (hclean : Creates c e → c.Clean) (hstep : step c e = some c') : c'.Current := by
  cases e with
  | append a =>
    simp only [step] at hstep
    split at hstep
    · obtain rfl := Option.some.inj hstep
      exact h
    · obtain rfl := Option.some.inj hstep
      intro hcached
      cases hcached
  | setAddress address =>
    obtain rfl := Option.some.inj hstep
    intro hcached
    cases hcached
  | clear =>
    obtain rfl := Option.some.inj hstep
    intro hcached
    cases hcached
  | byteArray =>
    obtain rfl := Option.some.inj hstep
    unfold read
    split
    · exact h
    · rename_i hcached
      intro _
      exact c.create_iff.mpr (hclean ⟨rfl, by simpa using hcached⟩)

section
variable {address : Bytes} {trace : List (Cached × Call)} {c : Cached}

/-- Every call of `byte_array` returns the bytes of the message it is called on, exactly
when each one that creates the cache finds zeros where the padding comes to stand. -/
theorem reads_current_iff (h : Run step (init address) trace c) :
    (∀ p ∈ trace, p.2 = .byteArray → p.1.returned = p.1.message.byteArray) ↔
      ∀ p ∈ trace, Creates p.1 p.2 → p.1.Clean := by
  refine h.exact_steps (I := Current) (H := fun _ _ => True)
    (P := fun c e => e = Call.byteArray → c.returned = c.message.byteArray)
    (C := fun c e => Creates c e → c.Clean) (fun _ _ => trivial) ?_ ?_ ?_ ?_
  · intro hcached
    cases hcached
  · intro c e c' hI hC hstep
    exact current_step hI hC hstep
  · intro c e c' hI hC _ hread
    exact (returned_iff hI).mpr fun hcached => hC ⟨hread, hcached⟩
  · intro c e c' hI _ hC _ hP
    apply hC
    rintro ⟨hread, hcached⟩
    exact (returned_iff hI).mp (hP hread) hcached

end

/-- The tags of four arguments need another word of padding, and the cache has the first
argument there. -/
theorem reads_current_iff_of_stale :
    ∃ trace c, Run step (init (ascii "/a")) trace c ∧
      ¬ ∀ p ∈ trace, p.2 = .byteArray → p.1.returned = p.1.message.byteArray := by
  obtain ⟨trace, c, h, hstale⟩ := run_of_record step (init (ascii "/a"))
    [.append (.int32 1), .append (.int32 2), .byteArray, .append (.int32 3), .append (.int32 4),
      .byteArray]
    (fun trace _ => ¬ ∀ p ∈ trace, Creates p.1 p.2 → p.1.Clean) (by decide +kernel)
  exact ⟨trace, c, h, fun hall => hstale ((reads_current_iff h).mp hall)⟩

theorem current_of_built_first {address : Bytes} {trace : List (Cached × Call)} {c : Cached}
    (h : Run step (init address) trace c)
    (hbuilt : ∀ p ∈ trace, p.2 ≠ .byteArray → p.1.cache = []) :
    c.Current ∧ (c.cache = [] ∨ c.isCached = true) := by
  refine h.invariant_of (C := fun c e => e ≠ Call.byteArray → c.cache = [])
    (I := fun c => c.Current ∧ (c.cache = [] ∨ c.isCached = true)) ⟨?_, .inl rfl⟩ ?_ hbuilt
  · intro hcached
    cases hcached
  · intro c e c' hI hC hstep
    obtain ⟨hcurrent, hstate⟩ := hI
    refine ⟨current_step hcurrent ?_ hstep, ?_⟩
    · rintro ⟨_, hcached⟩
      rcases hstate with hempty | hcached'
      · exact clean_of_empty hempty
      · rw [hcached] at hcached'
        cases hcached'
    · cases e with
      | byteArray =>
        obtain rfl := Option.some.inj hstep
        right
        unfold read
        split
        · assumption
        · rfl
      | append a =>
        have hempty := hC (by simp)
        simp only [step] at hstep
        split at hstep
        · obtain rfl := Option.some.inj hstep
          exact hstate
        · obtain rfl := Option.some.inj hstep
          exact .inl hempty
      | setAddress address =>
        obtain rfl := Option.some.inj hstep
        exact .inl (hC (by simp))
      | clear =>
        obtain rfl := Option.some.inj hstep
        exact .inl (hC (by simp))

/-- A message that is built first and then read is read as it is, however often. -/
theorem reads_of_built_first {address : Bytes} {trace : List (Cached × Call)} {c : Cached}
    (h : Run step (init address) trace c)
    (hbuilt : ∀ p ∈ trace, p.2 ≠ .byteArray → p.1.cache = []) :
    ∀ p ∈ trace, p.2 = .byteArray → p.1.returned = p.1.message.byteArray := by
  intro p hp _
  obtain ⟨early, hsuf, hearly⟩ := h.of_mem hp
  obtain ⟨hcurrent, hstate⟩ :=
    current_of_built_first hearly fun q hq => hbuilt q (hsuf.subset hq)
  apply (returned_iff hcurrent).mpr
  intro hcached
  rcases hstate with hempty | hcached'
  · exact clean_of_empty hempty
  · rw [hcached] at hcached'
    cases hcached'

end Cached
end AmClient.Osc
