import Mathlib.Data.List.Basic

/-!
# Writers and their readers

A reader takes a value off the front of a string and returns what follows; a decoder reads
a whole string. Either is exact for a writer when it accepts what the writer writes for an
admissible value, and nothing else: what is accepted is well formed, and writing it again
gives the same string. Exactness is kept by the ways to combine readers below.
-/

namespace Foundation
set_option autoImplicit false

variable {σ α β τ : Type}

abbrev Reader (σ α : Type) := List σ → Option (α × List σ)

/-- `read` takes off exactly what `write` puts in front of any string. -/
structure Delimits (ok : α → Prop) (write : α → List σ) (read : Reader σ α) : Prop where
  exact : ∀ bs a rest, read bs = some (a, rest) ↔ ok a ∧ bs = write a ++ rest

/-- `decode` accepts exactly what `write` writes. -/
structure Decodes (ok : α → Prop) (write : α → List σ) (decode : List σ → Option α) : Prop where
  exact : ∀ bs a, decode bs = some a ↔ ok a ∧ bs = write a

section
variable {ok : α → Prop} {write : α → List σ}

theorem Delimits.read_write {read : Reader σ α} (h : Delimits ok write read) {a : α} (ha : ok a)
    (rest : List σ) : read (write a ++ rest) = some (a, rest) :=
  (h.exact _ a rest).mpr ⟨ha, rfl⟩

/-- No admissible value is written as the beginning of another. -/
theorem Delimits.unique {read : Reader σ α} (h : Delimits ok write read) {a b : α} (ha : ok a)
    (hb : ok b) {rest left : List σ} (heq : write a ++ rest = write b ++ left) :
    a = b ∧ rest = left := by
  have hread := h.read_write ha rest
  rw [heq, h.read_write hb left] at hread
  obtain ⟨rfl, rfl⟩ := Prod.mk.inj (Option.some.inj hread)
  exact ⟨rfl, rfl⟩

theorem Delimits.congr {read : Reader σ α} (h : Delimits ok write read) {ok' : α → Prop}
    {write' : α → List σ} (hok : ∀ a, ok' a ↔ ok a) (hwrite : ∀ a, ok a → write' a = write a) :
    Delimits ok' write' read := by
  refine ⟨fun bs a rest => ?_⟩
  rw [h.exact, hok]
  constructor
  · rintro ⟨ha, rfl⟩
    exact ⟨ha, by rw [hwrite a ha]⟩
  · rintro ⟨ha, rfl⟩
    exact ⟨ha, by rw [hwrite a ha]⟩

theorem Decodes.decode_write {decode : List σ → Option α} (h : Decodes ok write decode) {a : α}
    (ha : ok a) : decode (write a) = some a :=
  (h.exact _ a).mpr ⟨ha, rfl⟩

theorem Decodes.rejects {decode : List σ → Option α} (h : Decodes ok write decode) {bs : List σ} :
    decode bs = none ↔ ∀ a, ok a → bs ≠ write a := by
  rw [Option.eq_none_iff_forall_ne_some]
  constructor
  · intro hnone a ha hbs
    exact hnone a ((h.exact bs a).mpr ⟨ha, hbs⟩)
  · intro hall a hsome
    obtain ⟨ha, hbs⟩ := (h.exact bs a).mp hsome
    exact hall a ha hbs

end

namespace Reader

/-- The next `n` symbols. -/
def taken (n : Nat) : Reader σ (List σ) := fun bs =>
  if n ≤ bs.length then some (bs.take n, bs.drop n) else none

/-- A fixed string. -/
def literal [DecidableEq σ] (s : List σ) : Reader σ Unit := fun bs =>
  if s <+: bs then some ((), bs.drop s.length) else none

/-- No symbol at all. -/
def nothing (a : α) : Reader σ α := fun bs => some (a, bs)

def map (read : Reader σ α) (f : α → β) : Reader σ β := fun bs =>
  (read bs).map fun p => (f p.1, p.2)

/-- A second look at the value read. -/
def decode (read : Reader σ α) (f : α → Option β) : Reader σ β := fun bs =>
  (read bs).bind fun p => (f p.1).map fun b => (b, p.2)

/-- One value and then another, read as the first one says. -/
def pair (read : Reader σ α) (next : α → Reader σ β) : Reader σ (α × β) := fun bs =>
  (read bs).bind fun p => (next p.1 p.2).map fun q => ((p.1, q.1), q.2)

/-- A value for each of the tags. -/
def each (read : τ → Reader σ α) : List τ → Reader σ (List α)
  | [] => nothing []
  | t :: ts => ((read t).pair fun _ => each read ts).map fun p => p.1 :: p.2

/-- A value and then the rest of the string. -/
def before (read : Reader σ α) (decode : List σ → Option β) : List σ → Option (α × β) := fun bs =>
  (read bs).bind fun p => (decode p.2).map fun b => (p.1, b)

/-- The value that the whole string is. -/
def whole (read : Reader σ α) : List σ → Option α := fun bs =>
  (read bs).bind fun p => if p.2.isEmpty then some p.1 else none

/-- At most `fuel` values, up to the end of the string. -/
def many (read : Reader σ α) : Nat → List σ → Option (List α)
  | _, [] => some []
  | 0, _ :: _ => none
  | fuel + 1, b :: bs =>
    (read (b :: bs)).bind fun p => (many read fuel p.2).map fun as => p.1 :: as

end Reader

theorem append_eq_iff {s bs rest : List σ} :
    bs = s ++ rest ↔ s <+: bs ∧ rest = bs.drop s.length := by
  constructor
  · rintro rfl
    exact ⟨List.prefix_append _ _, (List.drop_left).symm⟩
  · rintro ⟨⟨tail, rfl⟩, rfl⟩
    rw [List.drop_left]

theorem length_rest_le {s bs rest : List σ} {n : Nat} (hs : s ≠ []) (h : bs = s ++ rest)
    (hn : bs.length ≤ n + 1) : rest.length ≤ n := by
  have hpos := List.length_pos_of_ne_nil hs
  rw [h, List.length_append] at hn
  omega

theorem delimits_taken (n : Nat) :
    Delimits (fun a => a.length = n) (fun a => a) (Reader.taken n : Reader σ (List σ)) := by
  refine ⟨fun bs a rest => ?_⟩
  unfold Reader.taken
  constructor
  · intro h
    split at h
    · rename_i hle
      obtain ⟨rfl, rfl⟩ := Prod.mk.inj (Option.some.inj h)
      exact ⟨List.length_take_of_le hle, (List.take_append_drop n bs).symm⟩
    · cases h
  · rintro ⟨rfl, rfl⟩
    have hle : a.length ≤ (a ++ rest).length := by
      rw [List.length_append]
      omega
    rw [if_pos hle, List.take_left, List.drop_left]

theorem delimits_literal [DecidableEq σ] (s : List σ) :
    Delimits (fun _ => True) (fun _ => s) (Reader.literal s) := by
  refine ⟨fun bs a rest => ?_⟩
  unfold Reader.literal
  rw [append_eq_iff]
  split
  · rename_i hpre
    simp [hpre, eq_comm]
  · rename_i hpre
    simp [hpre]

theorem delimits_nothing (a : α) :
    Delimits (fun b => b = a) (fun _ => []) (Reader.nothing a : Reader σ α) := by
  refine ⟨fun bs b rest => ?_⟩
  simp [Reader.nothing, eq_comm]

namespace Delimits
variable {okA : α → Prop} {writeA : α → List σ} {readA : Reader σ α}

theorem map (h : Delimits okA writeA readA) {f : α → β} {ok : β → Prop} {write : β → List σ}
    (hok : ∀ b, ok b ↔ ∃ a, okA a ∧ f a = b) (hwrite : ∀ a, okA a → write (f a) = writeA a) :
    Delimits ok write (readA.map f) := by
  refine ⟨fun bs b rest => ?_⟩
  unfold Reader.map
  rw [Option.map_eq_some_iff, hok]
  constructor
  · rintro ⟨⟨a, left⟩, hread, heq⟩
    obtain ⟨rfl, rfl⟩ := Prod.mk.inj heq
    obtain ⟨ha, rfl⟩ := (h.exact _ _ _).mp hread
    exact ⟨⟨a, ha, rfl⟩, by rw [hwrite a ha]⟩
  · rintro ⟨⟨a, ha, rfl⟩, rfl⟩
    exact ⟨(a, rest), (h.exact _ _ _).mpr ⟨ha, by rw [hwrite a ha]⟩, rfl⟩

theorem decode (h : Delimits okA writeA readA) {f : α → Option β} {g : β → α} {p : β → Prop}
    (hf : ∀ a, okA a → ∀ b, f a = some b ↔ p b ∧ a = g b) :
    Delimits (fun b => p b ∧ okA (g b)) (fun b => writeA (g b)) (readA.decode f) := by
  refine ⟨fun bs b rest => ?_⟩
  unfold Reader.decode
  rw [Option.bind_eq_some_iff]
  constructor
  · rintro ⟨⟨a, left⟩, hread, hmap⟩
    obtain ⟨b', hlook, heq⟩ := Option.map_eq_some_iff.mp hmap
    obtain ⟨rfl, rfl⟩ := Prod.mk.inj heq
    obtain ⟨ha, rfl⟩ := (h.exact _ _ _).mp hread
    obtain ⟨hb, rfl⟩ := (hf a ha b').mp hlook
    exact ⟨⟨hb, ha⟩, rfl⟩
  · rintro ⟨⟨hb, ha⟩, rfl⟩
    refine ⟨(g b, rest), h.read_write ha rest, ?_⟩
    rw [(hf (g b) ha b).mpr ⟨hb, rfl⟩]
    rfl

theorem pair (h : Delimits okA writeA readA) {okB : α → β → Prop} {writeB : α → β → List σ}
    {next : α → Reader σ β} (hnext : ∀ a, okA a → Delimits (okB a) (writeB a) (next a)) :
    Delimits (fun p => okA p.1 ∧ okB p.1 p.2) (fun p => writeA p.1 ++ writeB p.1 p.2)
      (readA.pair next) := by
  refine ⟨fun bs p rest => ?_⟩
  unfold Reader.pair
  rw [Option.bind_eq_some_iff]
  constructor
  · rintro ⟨⟨a, left⟩, hread, hmap⟩
    obtain ⟨⟨b, left'⟩, hread', heq⟩ := Option.map_eq_some_iff.mp hmap
    obtain ⟨rfl, rfl⟩ := Prod.mk.inj heq
    obtain ⟨ha, rfl⟩ := (h.exact _ _ _).mp hread
    obtain ⟨hb, rfl⟩ := ((hnext a ha).exact _ _ _).mp hread'
    exact ⟨⟨ha, hb⟩, (List.append_assoc _ _ _).symm⟩
  · obtain ⟨a, b⟩ := p
    rintro ⟨⟨ha, hb⟩, rfl⟩
    refine ⟨(a, writeB a b ++ rest), ?_, ?_⟩
    · rw [List.append_assoc]
      exact h.read_write ha _
    · rw [(hnext a ha).read_write hb rest]
      rfl

theorem before (h : Delimits okA writeA readA) {ok : β → Prop} {write : β → List σ}
    {decode : List σ → Option β} (hdecode : Decodes ok write decode) :
    Decodes (fun p : α × β => okA p.1 ∧ ok p.2) (fun p => writeA p.1 ++ write p.2)
      (readA.before decode) := by
  refine ⟨fun bs p => ?_⟩
  unfold Reader.before
  rw [Option.bind_eq_some_iff]
  constructor
  · rintro ⟨⟨a, left⟩, hread, hmap⟩
    obtain ⟨b, hrest, rfl⟩ := Option.map_eq_some_iff.mp hmap
    obtain ⟨ha, rfl⟩ := (h.exact _ _ _).mp hread
    obtain ⟨hb, rfl⟩ := (hdecode.exact _ _).mp hrest
    exact ⟨⟨ha, hb⟩, rfl⟩
  · obtain ⟨a, b⟩ := p
    rintro ⟨⟨ha, hb⟩, rfl⟩
    refine ⟨(a, write b), h.read_write ha _, ?_⟩
    rw [hdecode.decode_write hb]
    rfl

theorem whole (h : Delimits okA writeA readA) : Decodes okA writeA readA.whole := by
  refine ⟨fun bs a => ?_⟩
  unfold Reader.whole
  rw [Option.bind_eq_some_iff]
  constructor
  · rintro ⟨⟨a', rest⟩, hread, hif⟩
    obtain ⟨ha, rfl⟩ := (h.exact _ _ _).mp hread
    simp only [List.isEmpty_iff] at hif
    split at hif
    · rename_i hempty
      obtain rfl := Option.some.inj hif
      exact ⟨ha, by rw [hempty, List.append_nil]⟩
    · cases hif
  · rintro ⟨ha, rfl⟩
    have hread := h.read_write ha []
    rw [List.append_nil] at hread
    exact ⟨(a, []), hread, rfl⟩

theorem many_nil_iff (hpos : ∀ a, okA a → writeA a ≠ []) (fuel : Nat) (as : List α) :
    readA.many fuel [] = some as ↔ (∀ a ∈ as, okA a) ∧ [] = as.flatMap writeA := by
  unfold Reader.many
  constructor
  · intro h
    obtain rfl := Option.some.inj h
    exact ⟨by simp, rfl⟩
  · rintro ⟨hall, hnil⟩
    cases as with
    | nil => rfl
    | cons a more =>
      obtain ⟨ha, _⟩ := List.forall_mem_cons.mp hall
      rw [List.flatMap_cons] at hnil
      exact (hpos a ha (List.append_eq_nil_iff.mp hnil.symm).1).elim

theorem each {tag : α → τ} {read : τ → Reader σ α}
    (h : ∀ t, Delimits (fun a => tag a = t ∧ okA a) writeA (read t)) (ts : List τ) :
    Delimits (fun as => as.map tag = ts ∧ ∀ a ∈ as, okA a) (List.flatMap writeA)
      (Reader.each read ts) := by
  induction ts with
  | nil =>
    refine (delimits_nothing ([] : List α)).congr (fun as => ?_) ?_
    · rw [List.map_eq_nil_iff]
      constructor
      · exact And.left
      · rintro rfl
        exact ⟨rfl, by simp⟩
    · rintro as rfl
      rfl
  | cons t ts ih =>
    have hpair := (h t).pair fun _ _ => ih
    apply hpair.map
    · intro as
      constructor
      · rintro ⟨hmap, hall⟩
        obtain ⟨a, as, rfl, ha, has⟩ := List.map_eq_cons_iff.mp hmap
        obtain ⟨hok, hall⟩ := List.forall_mem_cons.mp hall
        exact ⟨(a, as), ⟨⟨ha, hok⟩, has, hall⟩, rfl⟩
      · rintro ⟨⟨a, as⟩, ⟨⟨ha, hok⟩, has, hall⟩, rfl⟩
        exact ⟨by rw [List.map_cons, ha, has], List.forall_mem_cons.mpr ⟨hok, hall⟩⟩
    · intro p _
      rfl

/-- Each value takes a symbol at least, so the length of the string bounds their number. -/
theorem many_iff (h : Delimits okA writeA readA) (hpos : ∀ a, okA a → writeA a ≠ []) {fuel : Nat}
    {bs : List σ} (hfuel : bs.length ≤ fuel) (as : List α) :
    readA.many fuel bs = some as ↔ (∀ a ∈ as, okA a) ∧ bs = as.flatMap writeA := by
  induction fuel generalizing bs as with
  | zero =>
    obtain rfl : bs = [] := List.length_eq_zero_iff.mp (by omega)
    exact many_nil_iff hpos _ as
  | succ fuel ih =>
    cases bs with
    | nil => exact many_nil_iff hpos _ as
    | cons b bs =>
      unfold Reader.many
      rw [Option.bind_eq_some_iff]
      constructor
      · rintro ⟨⟨a, rest⟩, hread, hmap⟩
        obtain ⟨more, hmore, rfl⟩ := Option.map_eq_some_iff.mp hmap
        obtain ⟨ha, hbs⟩ := (h.exact _ _ _).mp hread
        have hle := length_rest_le (hpos a ha) hbs hfuel
        obtain ⟨hall, hrest⟩ := (ih hle more).mp hmore
        exact ⟨List.forall_mem_cons.mpr ⟨ha, hall⟩, by rw [hbs, hrest, List.flatMap_cons]⟩
      · rintro ⟨hall, hbs⟩
        cases as with
        | nil => cases hbs
        | cons a more =>
          obtain ⟨ha, hall⟩ := List.forall_mem_cons.mp hall
          rw [List.flatMap_cons] at hbs
          have hle := length_rest_le (hpos a ha) hbs hfuel
          refine ⟨(a, more.flatMap writeA), (h.exact _ _ _).mpr ⟨ha, hbs⟩, ?_⟩
          rw [(ih hle more).mpr ⟨hall, rfl⟩]
          rfl

theorem many (h : Delimits okA writeA readA) (hpos : ∀ a, okA a → writeA a ≠ []) :
    Decodes (fun as => ∀ a ∈ as, okA a) (List.flatMap writeA)
      (fun bs => readA.many bs.length bs) := by
  refine ⟨fun bs as => ?_⟩
  exact h.many_iff hpos (Nat.le_refl _) as

end Delimits
end Foundation
