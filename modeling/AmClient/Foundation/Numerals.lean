import Mathlib.Data.List.TakeWhile
import AmClient.Foundation.Binary32
import AmClient.Foundation.Longest

/-!
# Decimal numerals

A sign, digits around an optional point, and an optional exponent, in ASCII. `readNumeral`
takes from a text as much as a numeral can begin with, which must then be one, and
`Numeral.toFloat` is the nearest number of the binary32 format.
-/

namespace Foundation
set_option autoImplicit false

/-- The number `± mantissa * 10 ^ exponent`. -/
structure Numeral where
  negative : Bool
  mantissa : Nat
  exponent : Int
  deriving DecidableEq, Repr

def isDigit (c : UInt8) : Bool := 48 ≤ c && c ≤ 57

def ofDigits (digits : List UInt8) : Nat :=
  digits.foldl (fun value c => 10 * value + (c.toNat - 48)) 0

def Digits (text : List UInt8) : Prop := ∀ c ∈ text, isDigit c = true

def signed (negative : Bool) (n : Nat) : Int := if negative then -n else n

inductive Sign : Bool → List UInt8 → Prop where
  | none : Sign false []
  | plus : Sign false [43]
  | minus : Sign true [45]

/-- Whether there is a point, the digits in front of it and those behind it. -/
inductive Mantissa : Bool → List UInt8 → List UInt8 → List UInt8 → Prop where
  | whole {int : List UInt8} : Digits int → int ≠ [] → Mantissa false int [] int
  | point {int frac : List UInt8} : Digits int → Digits frac → int ++ frac ≠ [] →
      Mantissa true int frac (int ++ 46 :: frac)

def isMark (c : UInt8) : Bool := c = 101 || c = 69

inductive Exponent : Int → List UInt8 → Prop where
  | none : Exponent 0 []
  | some {mark : UInt8} {negative : Bool} {sign digits : List UInt8} : isMark mark = true →
      Sign negative sign → Digits digits → digits ≠ [] →
      Exponent (signed negative (ofDigits digits)) (mark :: (sign ++ digits))

def numeral (negative : Bool) (int frac : List UInt8) (exponent : Int) : Numeral where
  negative := negative
  mantissa := ofDigits (int ++ frac)
  exponent := exponent - frac.length

inductive Spells : Numeral → List UInt8 → Prop where
  | parts {negative pointed : Bool} {e : Int} {sign int frac mantissa exponent : List UInt8} :
      Sign negative sign → Mantissa pointed int frac mantissa → Exponent e exponent →
      Spells (numeral negative int frac e) (sign ++ (mantissa ++ exponent))

def Numeric (text : List UInt8) : Prop := ∃ n, Spells n text

/-- A numeral can begin so. -/
def Begins (text : List UInt8) : Prop := ∃ more, Numeric (text ++ more)

def readSign : List UInt8 → Bool × List UInt8
  | [] => (false, [])
  | c :: rest =>
    if c = 43 then (false, rest) else if c = 45 then (true, rest) else (false, c :: rest)

def readMantissa (text : List UInt8) : Option (List UInt8 × List UInt8 × List UInt8) :=
  let int := text.takeWhile isDigit
  match text.dropWhile isDigit with
  | [] => if int = [] then none else some (int, [], [])
  | c :: rest =>
    if c = 46 then
      let frac := rest.takeWhile isDigit
      if int ++ frac = [] then none else some (int, frac, rest.dropWhile isDigit)
    else if int = [] then none else some (int, [], c :: rest)

/-- A mark is taken, and there must be digits behind it. -/
def readExponent : List UInt8 → Option (Int × List UInt8)
  | [] => some (0, [])
  | c :: rest =>
    if isMark c = true then
      let digits := (readSign rest).2.takeWhile isDigit
      if digits = [] then none
      else some (signed (readSign rest).1 (ofDigits digits), (readSign rest).2.dropWhile isDigit)
    else some (0, c :: rest)

def readNumeral (text : List UInt8) : Option (Numeral × List UInt8) := do
  let (int, frac, behind) ← readMantissa (readSign text).2
  let (e, rest) ← readExponent behind
  return (numeral (readSign text).1 int frac e, rest)

section Digits
variable {pointed : Bool} {e : Int} {digits exponent text more : List UInt8}

theorem digits_takeWhile (text : List UInt8) : Digits (text.takeWhile isDigit) :=
  fun _ hc => List.mem_takeWhile_imp hc

theorem takeWhile_digits (h : Digits digits) :
    (digits ++ more).takeWhile isDigit = digits ++ more.takeWhile isDigit :=
  List.takeWhile_append_of_pos h

theorem dropWhile_digits (h : Digits digits) :
    (digits ++ more).dropWhile isDigit = more.dropWhile isDigit :=
  List.dropWhile_append_of_pos h

theorem digits_snoc {c : UInt8} (h : Digits digits) (hc : isDigit c = true) :
    Digits (digits ++ [c]) :=
  List.forall_mem_append.mpr ⟨h, List.forall_mem_singleton.mpr hc⟩

/-- No digit comes next. -/
def Undigit (text : List UInt8) : Prop := ∀ c ∈ text.head?, isDigit c = false

theorem undigit_dropWhile (text : List UInt8) : Undigit (text.dropWhile isDigit) := by
  intro c hc
  have hnot := List.head?_dropWhile_not isDigit text
  rw [Option.mem_def.mp hc] at hnot
  exact hnot

theorem takeWhile_undigit (h : Undigit text) : text.takeWhile isDigit = [] := by
  cases text with
  | nil => rfl
  | cons c rest =>
    rw [List.takeWhile_cons, h c rfl]
    rfl

theorem dropWhile_undigit (h : Undigit text) : text.dropWhile isDigit = text := by
  cases text with
  | nil => rfl
  | cons c rest =>
    rw [List.dropWhile_cons, h c rfl]
    rfl

/-- Nothing comes next that a mantissa goes on with. -/
structure Ended (pointed : Bool) (text : List UInt8) : Prop where
  undigit : Undigit text
  unpoint : pointed = false → ∀ c ∈ text.head?, c ≠ 46

/-- Nothing comes next that an exponent goes on with. -/
def Closed (exponent text : List UInt8) : Prop :=
  if exponent = [] then ∀ c ∈ text.head?, isMark c = false else Undigit text

theorem ended_nil (pointed : Bool) : Ended pointed [] where
  undigit _ hc := nomatch hc
  unpoint _ _ hc := nomatch hc

theorem closed_nil (exponent : List UInt8) : Closed exponent [] := by
  rw [Closed]
  split
  · exact fun _ hc => nomatch hc
  · exact fun _ hc => nomatch hc

theorem ended_mark {mark : UInt8} (h : isMark mark = true) : Ended pointed (mark :: text) := by
  simp only [isMark, Bool.or_eq_true, decide_eq_true_eq] at h
  constructor
  · intro c hc
    cases Option.mem_some.mp hc
    rcases h with rfl | rfl <;> decide
  · intro _ c hc
    cases Option.mem_some.mp hc
    rcases h with rfl | rfl <;> decide

/-- Only the first character behind a numeral counts. -/
theorem Ended.of_head {rest : List UInt8} (h : Ended pointed (exponent ++ text))
    (heq : text.head? = rest.head?) : Ended pointed (exponent ++ rest) := by
  have hhead : (exponent ++ rest).head? = (exponent ++ text).head? := by
    rw [List.head?_append, List.head?_append, heq]
  refine ⟨?_, ?_⟩
  · rw [Undigit, hhead]
    exact h.undigit
  · rw [hhead]
    exact h.unpoint

theorem Closed.of_head {rest : List UInt8} (h : Closed exponent text)
    (heq : text.head? = rest.head?) : Closed exponent rest := by
  rw [Closed, Undigit] at h ⊢
  rwa [← heq]

end Digits

section Signs
variable {negative : Bool} {sign digits more : List UInt8}

def Unsigned (text : List UInt8) : Prop := ∀ c ∈ text.head?, c ≠ 43 ∧ c ≠ 45

theorem unsigned_digits (h : Digits digits) (hne : digits ≠ []) : Unsigned (digits ++ more) := by
  obtain ⟨c, rest, rfl⟩ := List.exists_cons_of_ne_nil hne
  intro d hd
  cases Option.mem_some.mp hd
  have hdigit := h c List.mem_cons_self
  constructor <;> rintro rfl <;> exact absurd hdigit (by decide)

theorem mantissa_head {pointed : Bool} {int frac mantissa : List UInt8}
    (h : Mantissa pointed int frac mantissa) :
    ∃ c rest, mantissa = c :: rest ∧ (isDigit c = true ∨ c = 46) := by
  cases h with
  | whole hint hne =>
    obtain ⟨c, rest, rfl⟩ := List.exists_cons_of_ne_nil hne
    exact ⟨c, rest, rfl, Or.inl (hint c List.mem_cons_self)⟩
  | point hint hfrac _ =>
    cases int with
    | nil => exact ⟨46, frac, rfl, Or.inr rfl⟩
    | cons c rest => exact ⟨c, _, rfl, Or.inl (hint c List.mem_cons_self)⟩

theorem unsigned_mantissa {pointed : Bool} {int frac mantissa : List UInt8}
    (h : Mantissa pointed int frac mantissa) (more : List UInt8) : Unsigned (mantissa ++ more) := by
  obtain ⟨c, rest, rfl, hc⟩ := mantissa_head h
  intro d hd
  cases Option.mem_some.mp hd
  rcases hc with hdigit | rfl
  · constructor <;> rintro rfl <;> exact absurd hdigit (by decide)
  · decide

theorem readSign_exact (h : Sign negative sign) (hmore : Unsigned more) :
    readSign (sign ++ more) = (negative, more) := by
  cases h with
  | none =>
    cases more with
    | nil => rfl
    | cons c rest =>
      obtain ⟨hplus, hminus⟩ := hmore c rfl
      rw [List.nil_append, readSign, if_neg hplus, if_neg hminus]
  | plus => rfl
  | minus => rfl

theorem readSign_sound (text : List UInt8) :
    ∃ sign, Sign (readSign text).1 sign ∧ text = sign ++ (readSign text).2 := by
  cases text with
  | nil => exact ⟨[], .none, rfl⟩
  | cons c rest =>
    rw [readSign]
    split
    · rename_i hplus
      exact ⟨[43], .plus, by rw [hplus]; rfl⟩
    · split
      · rename_i hminus
        exact ⟨[45], .minus, by rw [hminus]; rfl⟩
      · exact ⟨[], .none, rfl⟩

end Signs

section Mantissas
variable {pointed : Bool} {int frac mantissa more text rest : List UInt8}

theorem readMantissa_exact (h : Mantissa pointed int frac mantissa) (hmore : Ended pointed more) :
    readMantissa (mantissa ++ more) = some (int, frac, more) := by
  have htakeMore := takeWhile_undigit hmore.undigit
  have hdropMore := dropWhile_undigit hmore.undigit
  cases h with
  | whole hint hne =>
    rw [readMantissa, takeWhile_digits hint, dropWhile_digits hint, htakeMore, hdropMore,
      List.append_nil]
    cases more with
    | nil => exact if_neg hne
    | cons c rest =>
      have hc : c ≠ 46 := hmore.unpoint rfl c rfl
      simp only [if_neg hc, if_neg hne]
  | point hint hfrac hne =>
    rw [List.append_assoc, List.cons_append, readMantissa, takeWhile_digits hint,
      dropWhile_digits hint]
    have htake : List.takeWhile isDigit (46 :: (frac ++ more)) = [] := rfl
    have hdrop : List.dropWhile isDigit (46 :: (frac ++ more)) = 46 :: (frac ++ more) := rfl
    rw [htake, hdrop, List.append_nil]
    simp only [takeWhile_digits hfrac, dropWhile_digits hfrac, htakeMore, hdropMore,
      List.append_nil, if_neg hne, if_true]

theorem readMantissa_sound (h : readMantissa text = some (int, frac, rest)) :
    ∃ pointed mantissa, Mantissa pointed int frac mantissa ∧ Ended pointed rest ∧
      text = mantissa ++ rest := by
  have hint := digits_takeWhile text
  have hstop := undigit_dropWhile text
  have htext := List.takeWhile_append_dropWhile (p := isDigit) (l := text)
  rw [readMantissa] at h
  generalize text.takeWhile isDigit = ints at h hint htext
  generalize text.dropWhile isDigit = behind at h hstop htext
  rw [← htext]
  cases behind with
  | nil =>
    obtain ⟨hne, h⟩ := Option.ite_none_left_eq_some.mp h
    cases h
    exact ⟨false, int, .whole hint hne, ended_nil false, rfl⟩
  | cons c behind =>
    by_cases hc : c = 46
    · simp only [if_pos hc] at h
      obtain ⟨hne, h⟩ := Option.ite_none_left_eq_some.mp h
      cases h
      refine ⟨true, int ++ 46 :: behind.takeWhile isDigit,
        .point hint (digits_takeWhile behind) hne,
        ⟨undigit_dropWhile behind, fun h => nomatch h⟩, ?_⟩
      rw [hc, List.append_assoc, List.cons_append, List.takeWhile_append_dropWhile]
    · simp only [if_neg hc] at h
      obtain ⟨hne, h⟩ := Option.ite_none_left_eq_some.mp h
      cases h
      refine ⟨false, int, .whole hint hne, ⟨hstop, fun _ d hd => ?_⟩, rfl⟩
      cases Option.mem_some.mp hd
      exact hc

theorem mantissa_digit {c : UInt8} (h : Mantissa pointed int frac mantissa)
    (hc : isDigit c = true) : ∃ ints fracs, Mantissa pointed ints fracs (mantissa ++ [c]) := by
  cases h with
  | whole hint hne => exact ⟨int ++ [c], [], .whole (digits_snoc hint hc) (by simp)⟩
  | point hint hfrac hne =>
    refine ⟨int, frac ++ [c], ?_⟩
    rw [List.append_assoc, List.cons_append]
    exact .point hint (digits_snoc hfrac hc) (by simp)

theorem mantissa_point (h : Mantissa false int frac mantissa) :
    Mantissa true mantissa [] (mantissa ++ [46]) := by
  cases h with
  | whole hint hne => exact .point hint (fun _ hc => nomatch hc) (by rwa [List.append_nil])

end Mantissas

section Exponents
variable {e : Int} {exponent text rest : List UInt8}

theorem readExponent_exact (h : Exponent e exponent) (hrest : Closed exponent rest) :
    readExponent (exponent ++ rest) = some (e, rest) := by
  cases h with
  | none =>
    cases rest with
    | nil => rfl
    | cons c rest =>
      have hc : isMark c = false := hrest c rfl
      rw [List.nil_append, readExponent, if_neg (by rw [hc]; decide)]
  | @some mark negative sign digits hmark hsign hdigits hne =>
    have hread : readSign (sign ++ (digits ++ rest)) = (negative, digits ++ rest) :=
      readSign_exact hsign (unsigned_digits hdigits hne)
    rw [Closed, if_neg (List.cons_ne_nil _ _)] at hrest
    rw [List.cons_append, List.append_assoc, readExponent, hread, if_pos hmark]
    simp only [takeWhile_digits hdigits, dropWhile_digits hdigits, takeWhile_undigit hrest,
      dropWhile_undigit hrest, List.append_nil, if_neg hne]

theorem readExponent_sound (h : readExponent text = some (e, rest)) :
    ∃ exponent, Exponent e exponent ∧ Closed exponent rest ∧ text = exponent ++ rest := by
  cases text with
  | nil =>
    cases h
    exact ⟨[], .none, closed_nil [], rfl⟩
  | cons c behind =>
    obtain ⟨sign, hsign, hbehind⟩ := readSign_sound behind
    rw [readExponent] at h
    by_cases hmark : isMark c = true
    · rw [if_pos hmark] at h
      obtain ⟨hne, h⟩ := Option.ite_none_left_eq_some.mp h
      cases h
      refine ⟨_, .some hmark hsign (digits_takeWhile _) hne, ?_, ?_⟩
      · rw [Closed, if_neg (List.cons_ne_nil _ _)]
        exact undigit_dropWhile _
      · rw [List.cons_append, List.append_assoc, List.takeWhile_append_dropWhile, ← hbehind]
    · rw [if_neg hmark] at h
      cases h
      refine ⟨[], .none, ?_, rfl⟩
      intro d hd
      cases Option.mem_some.mp hd
      exact Bool.eq_false_iff.mpr hmark

theorem exponent_digit {c : UInt8} (h : Exponent e exponent) (hne : exponent ≠ [])
    (hc : isDigit c = true) : ∃ e, Exponent e (exponent ++ [c]) := by
  cases h with
  | none => exact absurd rfl hne
  | some hmark hsign hdigits _ =>
    have hlonger := Exponent.some hmark hsign (digits_snoc hdigits hc) (by simp)
    rw [← List.append_assoc, ← List.cons_append] at hlonger
    exact ⟨_, hlonger⟩

end Exponents

section Numerals
variable {n m : Numeral} {text part rest more : List UInt8}

/-- A numeral, and nothing behind it that a numeral can go on with. -/
inductive Reads : Numeral → List UInt8 → List UInt8 → Prop where
  | parts {negative pointed : Bool} {e : Int} {sign int frac mantissa exponent rest : List UInt8} :
      Sign negative sign → Mantissa pointed int frac mantissa →
      Ended pointed (exponent ++ rest) → Exponent e exponent → Closed exponent rest →
      Reads (numeral negative int frac e) (sign ++ (mantissa ++ exponent)) rest

theorem Reads.spells (h : Reads n part rest) : Spells n part := by
  cases h with
  | parts hsign hmantissa _ hexponent _ => exact .parts hsign hmantissa hexponent

theorem Reads.of_head (h : Reads n part rest) (heq : rest.head? = more.head?) :
    Reads n part more := by
  cases h with
  | parts hsign hmantissa hended hexponent hclosed =>
    exact .parts hsign hmantissa (hended.of_head heq) hexponent (hclosed.of_head heq)

theorem Spells.reads (h : Spells n text) : Reads n text [] := by
  cases h with
  | parts hsign hmantissa hexponent =>
    refine .parts hsign hmantissa ?_ hexponent (closed_nil _)
    rw [List.append_nil]
    cases hexponent with
    | none => exact ended_nil _
    | some hmark => exact ended_mark hmark

theorem readNumeral_reads :
    readNumeral text = some (n, rest) ↔ ∃ part, Reads n part rest ∧ text = part ++ rest := by
  constructor
  · intro h
    obtain ⟨⟨int, frac, behind⟩, hmantissa, h⟩ := Option.bind_eq_some_iff.mp h
    obtain ⟨⟨e, rest⟩, hexponent, h⟩ := Option.bind_eq_some_iff.mp h
    cases h
    obtain ⟨sign, hsign, htext⟩ := readSign_sound text
    obtain ⟨pointed, mantissa, hm, hended, hmantissa⟩ := readMantissa_sound hmantissa
    obtain ⟨exponent, he, hclosed, rfl⟩ := readExponent_sound hexponent
    refine ⟨_, .parts hsign hm hended he hclosed, ?_⟩
    rw [List.append_assoc, List.append_assoc, ← hmantissa, ← htext]
  · rintro ⟨part, h, rfl⟩
    cases h with
    | @parts _ _ _ _ _ _ mantissa exponent _ hsign hmantissa hended hexponent hclosed =>
      have hunsigned := unsigned_mantissa hmantissa (exponent ++ rest)
      rw [List.append_assoc, List.append_assoc, readNumeral, readSign_exact hsign hunsigned,
        readMantissa_exact hmantissa hended]
      simp only [Option.bind_eq_bind, Option.bind_some, readExponent_exact hexponent hclosed]
      rfl

theorem readNumeral_exact (h : Spells n text) : readNumeral text = some (n, []) :=
  readNumeral_reads.mpr ⟨text, h.reads, (List.append_nil text).symm⟩

theorem readNumeral_whole : readNumeral text = some (n, []) ↔ Spells n text := by
  constructor
  · intro h
    obtain ⟨part, hpart, htext⟩ := readNumeral_reads.mp h
    rw [htext, List.append_nil]
    exact hpart.spells
  · exact readNumeral_exact

theorem Spells.unique (h : Spells n text) (hother : Spells m text) : n = m := by
  have hsame := (readNumeral_exact h).symm.trans (readNumeral_exact hother)
  cases hsame
  rfl

theorem Spells.begins (h : Spells n text) : Begins text :=
  ⟨[], n, by rwa [List.append_nil]⟩

/-- What is read is all that a numeral can begin with. -/
theorem Reads.longest (h : Reads n part rest) : Longest Begins (part ++ rest) part := by
  refine longest_of_length (List.prefix_append part rest) h.spells.begins ?_
  rintro other hother ⟨more, k, hk⟩
  by_contra hlong
  obtain ⟨behind, rfl⟩ := List.prefix_of_prefix_length_le (List.prefix_append part rest) hother
    (Nat.le_of_not_le hlong)
  rw [List.prefix_append_right_inj] at hother
  obtain ⟨last, rfl⟩ := hother
  cases behind with
  | nil => simp at hlong
  | cons c behind =>
    rw [List.append_assoc] at hk
    have hreads : Reads n part (c :: behind ++ more) := h.of_head rfl
    have hpart := readNumeral_reads.mpr ⟨part, hreads, rfl⟩
    cases hpart.symm.trans (readNumeral_exact hk)

theorem Spells.reads_of (h : Spells n part) (hlonger : ∀ c ∈ rest.head?, ¬ Numeric (part ++ [c]))
    (hmarked : ∀ c ∈ rest.head?, isMark c = true → ¬ Begins (part ++ [c])) : Reads n part rest := by
  cases rest with
  | nil => exact h.reads
  | cons c rest =>
    have hstop := hlonger c rfl
    have hunmarked := hmarked c rfl
    cases h with
    | @parts _ _ e sign int frac mantissa exponent hsign hmantissa hexponent =>
      refine .parts hsign hmantissa ?_ hexponent ?_
      · cases hexponent with
        | some hmark => exact ended_mark hmark
        | none =>
          constructor
          · intro d hd
            cases Option.mem_some.mp hd
            by_contra hdigit
            obtain ⟨ints, fracs, hm⟩ := mantissa_digit hmantissa (by simpa using hdigit)
            exact hstop ⟨_, by simpa using Spells.parts hsign hm .none⟩
          · rintro rfl d hd rfl
            cases Option.mem_some.mp hd
            exact hstop ⟨_, by simpa using Spells.parts hsign (mantissa_point hmantissa) .none⟩
      · rw [Closed]
        split
        · rename_i hnone
          intro d hd
          cases Option.mem_some.mp hd
          by_contra hmark
          have hzero : Digits [48] := by simp [Digits, isDigit]
          have he := Exponent.some (by simpa using hmark) .none hzero (List.cons_ne_nil _ _)
          exact hunmarked (by simpa using hmark)
            ⟨[48], _, by simpa [hnone] using Spells.parts hsign hmantissa he⟩
        · rename_i hsome
          intro d hd
          cases Option.mem_some.mp hd
          by_contra hdigit
          obtain ⟨_, he⟩ := exponent_digit hexponent hsome (by simpa using hdigit)
          exact hstop ⟨_, by simpa using Spells.parts hsign hmantissa he⟩

theorem Spells.reads_longest (h : Spells n part) (hlongest : Longest Begins (part ++ rest) part) :
    Reads n part rest :=
  h.reads_of (fun _ hc hnumeric => hlongest.stops hc hnumeric.choose_spec.begins)
    fun _ hc _ => hlongest.stops hc

/-- Where no mark stands behind it, the longest numeral is read. -/
theorem readNumeral_longest (h : Spells n part) (hlongest : Longest Numeric (part ++ rest) part)
    (hmark : ∀ c ∈ rest.head?, isMark c = false) : readNumeral (part ++ rest) = some (n, rest) := by
  refine readNumeral_reads.mpr ⟨part, h.reads_of (fun _ hc => hlongest.stops hc) ?_, rfl⟩
  intro c hc htrue
  rw [hmark c hc] at htrue
  cases htrue

/-- The longest beginning of a numeral is read, if it is a numeral. -/
theorem readNumeral_iff : readNumeral text = some (n, rest) ↔
    ∃ part, text = part ++ rest ∧ Spells n part ∧ Longest Begins text part := by
  rw [readNumeral_reads]
  constructor
  · rintro ⟨part, h, rfl⟩
    exact ⟨part, rfl, h.spells, h.longest⟩
  · rintro ⟨part, rfl, hpart, hlongest⟩
    exact ⟨part, hpart.reads_longest hlongest, rfl⟩

theorem spells_head (h : Spells n text) :
    ∃ c rest, text = c :: rest ∧ (isDigit c = true ∨ c = 43 ∨ c = 45 ∨ c = 46) := by
  cases h with
  | parts hsign hmantissa _ =>
    cases hsign with
    | none =>
      obtain ⟨c, rest, rfl, hc⟩ := mantissa_head hmantissa
      exact ⟨c, _, rfl, hc.imp_right fun hpoint => Or.inr (Or.inr hpoint)⟩
    | plus => exact ⟨43, _, rfl, Or.inr (Or.inl rfl)⟩
    | minus => exact ⟨45, _, rfl, Or.inr (Or.inr (Or.inl rfl))⟩

end Numerals

namespace Numeral
variable (n : Numeral)

def magnitude : ℚ := n.mantissa * 10 ^ n.exponent

/-- The sign bit and the nearest number's pattern behind it. -/
def toFloat : BitVec 32 :=
  let bits := Binary32.round n.magnitude
  BitVec.ofNat 32 (if n.negative then 2 ^ 31 + bits else bits)

/-- There is no number as large. -/
def overflows : Bool := Binary32.round n.magnitude = Binary32.infinity

structure NearestFloat (n : Numeral) (float : BitVec 32) : Prop where
  sign : float.msb = n.negative
  nearest : Binary32.Nearest n.magnitude (float.toNat % 2 ^ 31)

theorem magnitude_nonneg : 0 ≤ n.magnitude := by
  rw [magnitude]
  positivity

theorem overflows_iff : n.overflows = true ↔ 2 ^ 128 - 2 ^ 103 ≤ n.magnitude := by
  rw [overflows, decide_eq_true_eq]
  exact Binary32.round_eq_infinity n.magnitude_nonneg

theorem nearestFloat_iff {float : BitVec 32} : n.NearestFloat float ↔ float = n.toFloat := by
  have hnearest := Binary32.nearest_round n.magnitude_nonneg
  have hle : Binary32.round n.magnitude < 2 ^ 31 := hnearest.le_infinity.trans_lt (by decide)
  constructor
  · rintro ⟨hsign, hbits⟩
    have hround := hbits.unique hnearest
    rw [BitVec.msb_eq_decide] at hsign
    have hlt := float.isLt
    apply BitVec.eq_of_toNat_eq
    rw [toFloat, BitVec.toNat_ofNat, ← hround, ← hsign]
    simp only [decide_eq_true_eq]
    split <;> omega
  · rintro rfl
    have hmod : n.toFloat.toNat % 2 ^ 31 = Binary32.round n.magnitude := by
      rw [toFloat, BitVec.toNat_ofNat]
      split <;> omega
    refine ⟨?_, by rwa [hmod]⟩
    rw [BitVec.msb_eq_decide, toFloat, BitVec.toNat_ofNat]
    cases n.negative with
    | false =>
      rw [decide_eq_false_iff_not, if_neg Bool.false_ne_true]
      omega
    | true =>
      rw [decide_eq_true_eq, if_pos rfl]
      omega

end Numeral

/-- One tenth. -/
example : (numeral false [48] [49] 0).toFloat = 0x3DCCCCCD#32 := by decide +kernel

end Foundation
