import Mathlib.Data.List.Induction
import AmClient.Client.Calls
import AmClient.Foundation.Numerals

/-!
# The input of am_client

`ProcessInput` on one line. The calls on `am` and the texts on `std::cout` and `std::cerr`
are actions, in their order. An iterator is an index into the tokens of the line, and the
error of `loop` is an iterator that was dereferenced at or behind the end.
-/

namespace AmClient.CommandLine.Input
open Foundation
set_option autoImplicit false

inductive Action where
  | call (call : Client.Call)
  | out (text : Bytes)
  | err (text : Bytes)
  deriving DecidableEq

/-- `boost::char_separator<char> sep(" ")`: empty tokens are dropped. -/
def tokens (input : Bytes) : List Bytes := (input.splitOn 32).filter fun token => token ≠ []

def isSpace (c : UInt8) : Bool := c = 32 || (9 ≤ c && c ≤ 13)

/-- `from_string<float>`: `>>` skips white space and takes as much as a number can begin
with. It fails if that is not a number, or if no float is as large. What is behind the
number is not looked at. -/
def fromString (s : Bytes) : Option (BitVec 32) :=
  match readNumeral (s.dropWhile isSpace) with
  | none => none
  | some (n, _) => if n.overflows then none else some n.toFloat

def flag (s : Bytes) : Option Bool :=
  if s = ascii "true" ∨ s = ascii "1" then some true
  else if s = ascii "false" ∨ s = ascii "0" then some false
  else none

def helpText : Bytes :=
  ascii "load\n" ++
  ascii "unload\n" ++
  ascii "system_mute    true|1|false|0\n" ++
  ascii "system_volume  0-1\n" ++
  ascii "mute           true|1|false|0\n" ++
  ascii "volume         0-1\n"

/-- What a branch of the loop does: an action, or a call that is made of the next token. -/
inductive Command where
  | bare (action : Action)
  | taking (call : Bytes → Option Client.Call)
  | unknown

/-- The `compare` tests of the loop, in their order. -/
def command (token : Bytes) : Command :=
  if token = ascii "load" then .bare (.call .load)
  else if token = ascii "unload" then .bare (.call .unload)
  else if token = ascii "system_mute" then .taking fun arg => (flag arg).map .setSystemMute
  else if token = ascii "system_volume" then
    .taking fun arg => (fromString arg).map .setSystemVolume
  else if token = ascii "mute" then .taking fun arg => (flag arg).map .setMute
  else if token = ascii "volume" then .taking fun arg => (fromString arg).map .setVolume
  else if token = ascii "help" then .bare (.out helpText)
  else .unknown

def unknownCommand (token : Bytes) : Action :=
  .err (ascii "Unknown command: " ++ token ++ ascii "\n")

def badArgument (token : Bytes) : Action :=
  .err (ascii "Bad argument: " ++ token ++ ascii "\n")

def missingArgument : Action := .err (ascii "Missing argument \n")

/-- The loop from an iterator, after what is done. -/
def loop (tok : List Bytes) (it : Nat) (done : List Action) : Except Nat (List Action) :=
  if it = tok.length then .ok done
  else if h : it < tok.length then
    match command tok[it] with
    | .bare action => loop tok (it + 1) (done ++ [action])
    | .taking call =>
      if it + 1 = tok.length then .ok (done ++ [missingArgument])
      else do
        let arg ← readAt tok (it + 1)
        match call arg with
        | some made => loop tok (it + 2) (done ++ [.call made])
        | none => .ok (done ++ [badArgument arg])
    | .unknown => .ok (done ++ [unknownCommand tok[it]])
  else .error it
termination_by tok.length - it

def processInput (input : Bytes) : Except Nat (List Action) := loop (tokens input) 0 []

def Action.performed : Action → Option Client.Call
  | .call made => some made
  | .out _ => none
  | .err _ => none

/-- The calls on `am`. -/
def performed (actions : List Action) : List Client.Call := actions.filterMap Action.performed

inductive Flag : Bytes → Bool → Prop where
  | word_true : Flag (ascii "true") true
  | one : Flag (ascii "1") true
  | word_false : Flag (ascii "false") false
  | zero : Flag (ascii "0") false

/-- A well-formed command and its calls. -/
inductive WellFormed : List Bytes → List Client.Call → Prop where
  | load : WellFormed [ascii "load"] [.load]
  | unload : WellFormed [ascii "unload"] [.unload]
  | help : WellFormed [ascii "help"] []
  | systemMute {arg : Bytes} {mute : Bool} : Flag arg mute →
      WellFormed [ascii "system_mute", arg] [.setSystemMute mute]
  | mute {arg : Bytes} {mute : Bool} : Flag arg mute →
      WellFormed [ascii "mute", arg] [.setMute mute]
  | systemVolume {arg : Bytes} {n : Numeral} {level : BitVec 32} : Spells n arg →
      n.NearestFloat level → WellFormed [ascii "system_volume", arg] [.setSystemVolume level]
  | volume {arg : Bytes} {n : Numeral} {level : BitVec 32} : Spells n arg →
      n.NearestFloat level → WellFormed [ascii "volume", arg] [.setVolume level]

/-- What is done on a line is what its longest front of well-formed commands asks for. -/
def PerformsLongest (input : Bytes) : Prop :=
  ∃ front calls actions, Longest (fun part => ∃ calls, Sequence WellFormed part calls)
      (tokens input) front ∧ Sequence WellFormed front calls ∧
    processInput input = .ok actions ∧ performed actions = calls

/-- Not a number as a whole; but behind white space, as much of it as a number can begin
with is one, and of a size that a float has. -/
def PartlyNumeric (arg : Bytes) : Prop :=
  ¬ Numeric arg ∧ ∃ blank part more n, arg = blank ++ (part ++ more) ∧
    (∀ c ∈ blank, isSpace c = true) ∧ Longest Begins (part ++ more) part ∧ Spells n part ∧
    n.magnitude < 2 ^ 128 - 2 ^ 103

/-- A number as a whole, and half a last bit beyond the largest float or more. -/
def TooLarge (arg : Bytes) : Prop := ∃ n, Spells n arg ∧ 2 ^ 128 - 2 ^ 103 ≤ n.magnitude

def Misread (name arg : Bytes) : Prop :=
  (name = ascii "system_volume" ∨ name = ascii "volume") ∧ (PartlyNumeric arg ∨ TooLarge arg)

/-- Well-formed commands, and behind them a volume that is a number only in part, or a
number that is too large. -/
def MisreadVolume (tok : List Bytes) : Prop :=
  ∃ front calls name arg rest, Sequence WellFormed front calls ∧ Misread name arg ∧
    tok = front ++ name :: arg :: rest

/-- The tokens and the actions of a round that is followed by another. -/
inductive Accepts : List Bytes → List Action → Prop where
  | bare {token : Bytes} {action : Action} : command token = .bare action →
      Accepts [token] [action]
  | taking {token arg : Bytes} {call : Bytes → Option Client.Call} {made : Client.Call} :
      command token = .taking call → call arg = some made → Accepts [token, arg] [.call made]

/-- Tokens at whose first the loop is left, and what is printed then. -/
inductive Stop : List Bytes → List Action → Prop where
  | done : Stop [] []
  | unknown {token : Bytes} {rest : List Bytes} : command token = .unknown →
      Stop (token :: rest) [unknownCommand token]
  | missing {token : Bytes} {call : Bytes → Option Client.Call} :
      command token = .taking call → Stop [token] [missingArgument]
  | bad {token arg : Bytes} {call : Bytes → Option Client.Call} {rest : List Bytes} :
      command token = .taking call → call arg = none →
      Stop (token :: arg :: rest) [badArgument arg]

section Rounds
variable {front part rest tok : List Bytes} {done actions ending : List Action}

theorem loop_at (token : Bytes) : loop (front ++ token :: rest) front.length done =
    match command token with
    | .bare action => loop (front ++ token :: rest) (front.length + 1) (done ++ [action])
    | .taking call =>
      match rest with
      | [] => .ok (done ++ [missingArgument])
      | arg :: _ =>
        match call arg with
        | some made => loop (front ++ token :: rest) (front.length + 2) (done ++ [.call made])
        | none => .ok (done ++ [badArgument arg])
    | .unknown => .ok (done ++ [unknownCommand token]) := by
  have hlength : (front ++ token :: rest).length = front.length + (rest.length + 1) := by
    rw [List.length_append, List.length_cons]
  have hne : ¬ front.length = (front ++ token :: rest).length := by omega
  have hlt : front.length < (front ++ token :: rest).length := by omega
  have htoken : (front ++ token :: rest)[front.length] = token := by simp
  rw [loop, if_neg hne, dif_pos hlt, htoken]
  cases command token with
  | bare action => rfl
  | unknown => rfl
  | taking call =>
    cases rest with
    | nil => exact if_pos (by rw [hlength]; rfl)
    | cons arg rest =>
      have hnext : ¬ front.length + 1 = (front ++ token :: arg :: rest).length := by
        rw [hlength, List.length_cons]
        omega
      simp only [if_neg hnext, readAt_append_succ]
      rfl

theorem loop_end : loop tok tok.length done = .ok done := by
  rw [loop, if_pos rfl]

theorem loop_accepts (h : Accepts part actions) :
    loop (front ++ (part ++ rest)) front.length done =
      loop (front ++ part ++ rest) (front ++ part).length (done ++ actions) := by
  rw [List.append_assoc, List.length_append]
  cases h with
  | bare hcommand =>
    rw [List.singleton_append, loop_at, hcommand]
    rfl
  | taking hcommand hcall =>
    rw [List.cons_append, List.singleton_append, loop_at, hcommand]
    simp only [hcall]
    rfl

theorem loop_sequence (h : Sequence Accepts part actions) :
    loop (front ++ (part ++ rest)) front.length done =
      loop (front ++ part ++ rest) (front ++ part).length (done ++ actions) := by
  induction h generalizing front done with
  | nil => rw [List.nil_append, List.append_nil, List.append_nil]
  | cons hround _ ih =>
    rw [List.append_assoc, loop_accepts hround, ih]
    simp only [List.append_assoc]

theorem loop_stop (h : Stop rest ending) :
    loop (front ++ rest) front.length done = .ok (done ++ ending) := by
  cases h with
  | done => rw [List.append_nil, loop_end, List.append_nil]
  | unknown hcommand => rw [loop_at, hcommand]
  | missing hcommand => rw [loop_at, hcommand]
  | bad hcommand hcall =>
    rw [loop_at, hcommand]
    simp only [hcall]

theorem loop_exact (hseq : Sequence Accepts part actions) (hstop : Stop rest ending) :
    loop (part ++ rest) 0 [] = .ok (actions ++ ending) := by
  have hrounds := @loop_sequence [] part rest [] actions hseq
  exact hrounds.trans (loop_stop hstop)

/-- Every list of tokens is rounds up to where the loop is left. -/
theorem rounds_stop (tok : List Bytes) : ∃ front actions rest ending,
    tok = front ++ rest ∧ Sequence Accepts front actions ∧ Stop rest ending := by
  induction tok using List.twoStepInduction with
  | nil => exact ⟨[], [], [], [], rfl, .nil, .done⟩
  | singleton token =>
    cases hcommand : command token with
    | bare action =>
      exact ⟨[token], [action], [], [], rfl, .single (.bare hcommand), .done⟩
    | taking call => exact ⟨[], [], [token], _, rfl, .nil, .missing hcommand⟩
    | unknown => exact ⟨[], [], [token], _, rfl, .nil, .unknown hcommand⟩
  | cons_cons token arg tok ih ih_arg =>
    cases hcommand : command token with
    | bare action =>
      obtain ⟨front, actions, rest, ending, htok, hseq, hstop⟩ := ih_arg arg
      exact ⟨token :: front, action :: actions, rest, ending, congrArg (token :: ·) htok,
        .cons (.bare hcommand) hseq, hstop⟩
    | taking call =>
      cases hcall : call arg with
      | none => exact ⟨[], [], token :: arg :: tok, _, rfl, .nil, .bad hcommand hcall⟩
      | some made =>
        obtain ⟨front, actions, rest, ending, rfl, hseq, hstop⟩ := ih
        exact ⟨token :: arg :: front, .call made :: actions, rest, ending, rfl,
          .cons (.taking hcommand hcall) hseq, hstop⟩
    | unknown => exact ⟨[], [], token :: arg :: tok, _, rfl, .nil, .unknown hcommand⟩

end Rounds

/-- What is done on a line. No token is left out or used twice, and no iterator is
dereferenced at the end. -/
theorem processInput_exact (input : Bytes) : ∃ front actions rest ending,
    tokens input = front ++ rest ∧ Sequence Accepts front actions ∧ Stop rest ending ∧
      processInput input = .ok (actions ++ ending) := by
  obtain ⟨front, actions, rest, ending, htok, hseq, hstop⟩ := rounds_stop (tokens input)
  refine ⟨front, actions, rest, ending, htok, hseq, hstop, ?_⟩
  rw [processInput, htok]
  exact loop_exact hseq hstop

theorem flag_iff {s : Bytes} {value : Bool} : flag s = some value ↔ Flag s value := by
  constructor
  · intro h
    rw [flag] at h
    split at h
    · rename_i htrue
      cases h
      rcases htrue with rfl | rfl
      · exact .word_true
      · exact .one
    · obtain ⟨hfalse, h⟩ := Option.ite_none_right_eq_some.mp h
      cases h
      rcases hfalse with rfl | rfl
      · exact .word_false
      · exact .zero
  · intro h
    cases h <;> rfl

theorem flag_unique {s : Bytes} {value other : Bool} (h : Flag s value) (hother : Flag s other) :
    value = other :=
  Option.some.inj ((flag_iff.mpr h).symm.trans (flag_iff.mpr hother))

theorem isSpace_digit {c : UInt8} (h : isDigit c = true) : isSpace c = false := by
  simp only [isDigit, Bool.and_eq_true, decide_eq_true_eq, UInt8.le_iff_toNat_le] at h
  have hc : 48 ≤ c.toNat := h.1
  simp only [isSpace, Bool.or_eq_false_iff, Bool.and_eq_false_iff, decide_eq_false_iff_not,
    UInt8.le_iff_toNat_le]
  constructor
  · rintro rfl
    exact absurd hc (by decide)
  · right
    have hbound : (13 : UInt8).toNat = 13 := rfl
    omega

section Arguments
variable {arg : Bytes} {n : Numeral}

theorem dropWhile_blank {blank part : Bytes} (hblank : ∀ c ∈ blank, isSpace c = true)
    (hpart : Spells n part) (more : Bytes) :
    (blank ++ (part ++ more)).dropWhile isSpace = part ++ more := by
  obtain ⟨c, rest, rfl, hc⟩ := spells_head hpart
  have hspace : isSpace c = false := by
    rcases hc with hdigit | rfl | rfl | rfl
    · exact isSpace_digit hdigit
    · decide
    · decide
    · decide
  rw [List.dropWhile_append_of_pos hblank, List.cons_append, List.dropWhile_cons, hspace]
  rfl

/-- Behind white space, all that a number can begin with is read. -/
theorem fromString_iff {level : BitVec 32} : fromString arg = some level ↔
    ∃ blank part more n, arg = blank ++ (part ++ more) ∧ (∀ c ∈ blank, isSpace c = true) ∧
      Longest Begins (part ++ more) part ∧ Spells n part ∧ n.overflows = false ∧
      level = n.toFloat := by
  constructor
  · intro h
    rw [fromString] at h
    split at h
    · cases h
    · rename_i n more hread
      obtain ⟨hsmall, hlevel⟩ := Option.ite_none_left_eq_some.mp h
      obtain ⟨part, hdrop, hpart, hlongest⟩ := readNumeral_iff.mp hread
      rw [hdrop] at hlongest
      refine ⟨arg.takeWhile isSpace, part, more, n, ?_, ?_, hlongest, hpart,
        Bool.eq_false_iff.mpr hsmall, (Option.some.inj hlevel).symm⟩
      · rw [← hdrop, List.takeWhile_append_dropWhile]
      · intro c hc
        exact List.mem_takeWhile_imp hc
  · rintro ⟨blank, part, more, n, rfl, hblank, hlongest, hpart, hsmall, rfl⟩
    have hread := readNumeral_iff.mpr ⟨part, rfl, hpart, hlongest⟩
    rw [fromString, dropWhile_blank hblank hpart, hread]
    simp only [hsmall, Bool.false_eq_true, if_false]

theorem fromString_spells (h : Spells n arg) :
    fromString arg = if n.overflows then none else some n.toFloat := by
  have hdrop := @dropWhile_blank n [] arg (fun _ hc => nomatch hc) h []
  rw [List.nil_append, List.append_nil] at hdrop
  rw [fromString, hdrop, readNumeral_exact h]

theorem overflows_false : n.overflows = false ↔ n.magnitude < 2 ^ 128 - 2 ^ 103 := by
  rw [Bool.eq_false_iff, ne_eq, Numeral.overflows_iff, not_le]

/-- The longest number at the front is read, whatever is behind it but an exponent mark. -/
theorem fromString_longest {blank part more : Bytes} (hblank : ∀ c ∈ blank, isSpace c = true)
    (hpart : Spells n part) (hlongest : Longest Numeric (part ++ more) part)
    (hmark : ∀ c ∈ more.head?, isMark c = false) (hsmall : n.overflows = false) :
    fromString (blank ++ (part ++ more)) = some n.toFloat := by
  rw [fromString, dropWhile_blank hblank hpart, readNumeral_longest hpart hlongest hmark]
  simp only [hsmall, Bool.false_eq_true, if_false]

theorem level_unique {m : Numeral} {level other : BitVec 32} (hn : Spells n arg)
    (hlevel : n.NearestFloat level) (hm : Spells m arg) (hother : m.NearestFloat other) :
    level = other := by
  rw [hm.unique hn, n.nearestFloat_iff] at hother
  exact (n.nearestFloat_iff.mp hlevel).trans hother.symm

theorem fromString_large (h : TooLarge arg) : fromString arg = none := by
  obtain ⟨n, hn, hlarge⟩ := h
  rw [fromString_spells hn, if_pos (n.overflows_iff.mpr hlarge)]

theorem fromString_partly (h : PartlyNumeric arg) : ∃ level, fromString arg = some level := by
  obtain ⟨_, blank, part, more, n, harg, hblank, hlongest, hpart, hsmall⟩ := h
  exact ⟨n.toFloat, fromString_iff.mpr
    ⟨blank, part, more, n, harg, hblank, hlongest, hpart, overflows_false.mpr hsmall, rfl⟩⟩

theorem fromString_cases {level : BitVec 32} (h : fromString arg = some level) :
    (∃ n, Spells n arg ∧ n.NearestFloat level) ∨ PartlyNumeric arg := by
  by_cases harg : Numeric arg
  · obtain ⟨n, hn⟩ := harg
    rw [fromString_spells hn] at h
    obtain ⟨_, hlevel⟩ := Option.ite_none_left_eq_some.mp h
    exact Or.inl ⟨n, hn, n.nearestFloat_iff.mpr (Option.some.inj hlevel).symm⟩
  · obtain ⟨blank, part, more, n, hsplit, hblank, hlongest, hpart, hsmall, _⟩ :=
      fromString_iff.mp h
    exact Or.inr ⟨harg, blank, part, more, n, hsplit, hblank, hlongest, hpart,
      overflows_false.mp hsmall⟩

/-- A number as a whole is read to the nearest float, or refused where there is none. -/
theorem fromString_numeric {level : BitVec 32} (h : Spells n arg) (hlevel : n.NearestFloat level) :
    fromString arg = some level ∨ TooLarge arg := by
  rw [fromString_spells h, n.nearestFloat_iff.mp hlevel]
  cases hlarge : n.overflows with
  | false => exact Or.inl rfl
  | true => exact Or.inr ⟨n, h, n.overflows_iff.mp hlarge⟩

end Arguments

/-- What the tests of the loop come to. -/
inductive Meaning : Bytes → Command → Prop where
  | load : Meaning (ascii "load") (.bare (.call .load))
  | unload : Meaning (ascii "unload") (.bare (.call .unload))
  | systemMute : Meaning (ascii "system_mute") (.taking fun arg => (flag arg).map .setSystemMute)
  | systemVolume : Meaning (ascii "system_volume")
      (.taking fun arg => (fromString arg).map .setSystemVolume)
  | mute : Meaning (ascii "mute") (.taking fun arg => (flag arg).map .setMute)
  | volume : Meaning (ascii "volume") (.taking fun arg => (fromString arg).map .setVolume)
  | help : Meaning (ascii "help") (.bare (.out helpText))
  | unknown {token : Bytes} : Meaning token .unknown

theorem command_meaning (token : Bytes) : Meaning token (command token) := by
  rw [command]
  split
  · rename_i h
    exact h ▸ .load
  split
  · rename_i h
    exact h ▸ .unload
  split
  · rename_i h
    exact h ▸ .systemMute
  split
  · rename_i h
    exact h ▸ .systemVolume
  split
  · rename_i h
    exact h ▸ .mute
  split
  · rename_i h
    exact h ▸ .volume
  split
  · rename_i h
    exact h ▸ .help
  · exact .unknown

/-- A well-formed command is a round, but for a volume that is too large. -/
theorem wellFormed_accepts {part : List Bytes} {calls : List Client.Call}
    (h : WellFormed part calls) : (∃ actions, Accepts part actions ∧ performed actions = calls) ∨
      ∃ name arg, part = [name, arg] ∧ (name = ascii "system_volume" ∨ name = ascii "volume") ∧
        TooLarge arg := by
  cases h with
  | load => exact Or.inl ⟨[.call .load], .bare rfl, rfl⟩
  | unload => exact Or.inl ⟨[.call .unload], .bare rfl, rfl⟩
  | help => exact Or.inl ⟨[.out helpText], .bare rfl, rfl⟩
  | systemMute harg =>
    exact Or.inl ⟨[.call _], .taking rfl (by rw [flag_iff.mpr harg]; rfl), rfl⟩
  | mute harg => exact Or.inl ⟨[.call _], .taking rfl (by rw [flag_iff.mpr harg]; rfl), rfl⟩
  | systemVolume hn hlevel =>
    rcases fromString_numeric hn hlevel with hread | hlarge
    · exact Or.inl ⟨[.call _], .taking rfl (by rw [hread]; rfl), rfl⟩
    · exact Or.inr ⟨_, _, rfl, Or.inl rfl, hlarge⟩
  | volume hn hlevel =>
    rcases fromString_numeric hn hlevel with hread | hlarge
    · exact Or.inl ⟨[.call _], .taking rfl (by rw [hread]; rfl), rfl⟩
    · exact Or.inr ⟨_, _, rfl, Or.inr rfl, hlarge⟩

/-- A round that is no well-formed command takes a volume that is a number only in part. -/
theorem accepts_cases {part : List Bytes} {actions : List Action} (h : Accepts part actions) :
    WellFormed part (performed actions) ∨ ∃ name arg, part = [name, arg] ∧
      (name = ascii "system_volume" ∨ name = ascii "volume") ∧ PartlyNumeric arg := by
  cases h with
  | @bare token action hcommand =>
    have hmeaning := command_meaning token
    rw [hcommand] at hmeaning
    cases hmeaning with
    | load => exact Or.inl .load
    | unload => exact Or.inl .unload
    | help => exact Or.inl .help
  | @taking token arg call made hcommand hcall =>
    have hmeaning := command_meaning token
    rw [hcommand] at hmeaning
    cases hmeaning with
    | systemMute =>
      obtain ⟨mute, hflag, rfl⟩ := Option.map_eq_some_iff.mp hcall
      exact Or.inl (.systemMute (flag_iff.mp hflag))
    | mute =>
      obtain ⟨mute, hflag, rfl⟩ := Option.map_eq_some_iff.mp hcall
      exact Or.inl (.mute (flag_iff.mp hflag))
    | systemVolume =>
      obtain ⟨value, hvalue, rfl⟩ := Option.map_eq_some_iff.mp hcall
      rcases fromString_cases hvalue with ⟨n, hn, hlevel⟩ | hpartly
      · exact Or.inl (.systemVolume hn hlevel)
      · exact Or.inr ⟨_, arg, rfl, Or.inl rfl, hpartly⟩
    | volume =>
      obtain ⟨value, hvalue, rfl⟩ := Option.map_eq_some_iff.mp hcall
      rcases fromString_cases hvalue with ⟨n, hn, hlevel⟩ | hpartly
      · exact Or.inl (.volume hn hlevel)
      · exact Or.inr ⟨_, arg, rfl, Or.inr rfl, hpartly⟩

section Fronts
variable {part other rest tok : List Bytes} {actions ending : List Action}
  {calls : List Client.Call}

/-- The round that begins with the first token. -/
def firstRound : List Bytes → Option (List Bytes × List Action)
  | [] => none
  | token :: rest =>
    match command token with
    | .bare action => some ([token], [action])
    | .taking call =>
      match rest with
      | [] => none
      | arg :: _ => (call arg).map fun made => ([token, arg], [.call made])
    | .unknown => none

theorem accepts_first (h : Accepts part actions) (hfront : part <+: tok) :
    firstRound tok = some (part, actions) := by
  obtain ⟨more, rfl⟩ := hfront
  cases h with
  | bare hcommand =>
    rw [List.singleton_append, firstRound, hcommand]
  | taking hcommand hcall =>
    rw [List.cons_append, List.singleton_append, firstRound, hcommand]
    simp only [hcall, Option.map_some]

theorem stop_first (h : Stop rest ending) : firstRound rest = none := by
  cases h with
  | done => rfl
  | unknown hcommand => rw [firstRound, hcommand]
  | missing hcommand => rw [firstRound, hcommand]
  | bad hcommand hcall =>
    rw [firstRound, hcommand]
    simp only [hcall, Option.map_none]

theorem accepts_unambiguous : Unambiguous Accepts where
  ne_nil := by
    intro part actions h
    cases h <;> exact List.cons_ne_nil _ _
  unique := by
    intro tok part other actions others hpart hother h h'
    have hfirst := (accepts_first h hpart).symm.trans (accepts_first h' hother)
    rw [Option.some.injEq, Prod.mk.injEq] at hfirst
    exact hfirst

theorem wellFormed_head (h : WellFormed part calls) (hfront : part <+: tok) :
    part.head? = tok.head? := by
  obtain ⟨more, rfl⟩ := hfront
  cases h <;> rfl

/-- The first token tells which command it is, and the next one which call is made. -/
theorem wellFormed_unique {others : List Client.Call} (hfront : part <+: tok)
    (hfront' : other <+: tok) (h : WellFormed part calls) (hother : WellFormed other others) :
    part = other ∧ calls = others := by
  have hhead := (wellFormed_head h hfront).trans (wellFormed_head hother hfront').symm
  have hpair (heq : part.length = other.length) : part = other :=
    (List.prefix_of_prefix_length_le hfront hfront' heq.le).eq_of_length heq
  cases h with
  | load =>
    cases hother with
    | load => exact ⟨rfl, rfl⟩
    | _ => exact absurd (Option.some.inj hhead) (by decide)
  | unload =>
    cases hother with
    | unload => exact ⟨rfl, rfl⟩
    | _ => exact absurd (Option.some.inj hhead) (by decide)
  | help =>
    cases hother with
    | help => exact ⟨rfl, rfl⟩
    | _ => exact absurd (Option.some.inj hhead) (by decide)
  | systemMute harg =>
    cases hother with
    | systemMute harg' =>
      cases hpair rfl
      exact ⟨rfl, by rw [flag_unique harg harg']⟩
    | _ => exact absurd (Option.some.inj hhead) (by decide)
  | mute harg =>
    cases hother with
    | mute harg' =>
      cases hpair rfl
      exact ⟨rfl, by rw [flag_unique harg harg']⟩
    | _ => exact absurd (Option.some.inj hhead) (by decide)
  | systemVolume hn hlevel =>
    cases hother with
    | systemVolume hn' hlevel' =>
      cases hpair rfl
      exact ⟨rfl, by rw [level_unique hn hlevel hn' hlevel']⟩
    | _ => exact absurd (Option.some.inj hhead) (by decide)
  | volume hn hlevel =>
    cases hother with
    | volume hn' hlevel' =>
      cases hpair rfl
      exact ⟨rfl, by rw [level_unique hn hlevel hn' hlevel']⟩
    | _ => exact absurd (Option.some.inj hhead) (by decide)

theorem wellFormed_unambiguous : Unambiguous WellFormed where
  ne_nil := by
    intro part calls h
    cases h <;> exact List.cons_ne_nil _ _
  unique := wellFormed_unique

theorem performed_append (actions others : List Action) :
    performed (actions ++ others) = performed actions ++ performed others :=
  List.filterMap_append

theorem performed_ending (h : Stop rest ending) : performed ending = [] := by
  cases h <;> rfl

/-- No round begins where the loop is left. -/
theorem stop_refuses (h : Stop rest ending) (haccepts : Accepts part actions) :
    ¬ part <+: rest := by
  intro hfront
  have hfirst := accepts_first haccepts hfront
  rw [stop_first h] at hfirst
  cases hfirst

/-- The volume that is misread, behind rounds that are the commands they should be. -/
def FirstMisread (tok : List Bytes) : Prop :=
  ∃ front actions name arg rest, Sequence Accepts front actions ∧
    Sequence WellFormed front (performed actions) ∧ Misread name arg ∧
    tok = front ++ name :: arg :: rest

theorem FirstMisread.cons (haccepts : Accepts part actions)
    (hpart : WellFormed part (performed actions)) (h : FirstMisread tok) :
    FirstMisread (part ++ tok) := by
  obtain ⟨front, others, name, arg, rest, hothers, hfront, hmisread, rfl⟩ := h
  refine ⟨part ++ front, actions ++ others, name, arg, rest, .cons haccepts hothers, ?_, hmisread,
    (List.append_assoc ..).symm⟩
  rw [performed_append]
  exact .cons hpart hfront

theorem sequence_accepts (h : Sequence WellFormed part calls) :
    (∃ actions, Sequence Accepts part actions ∧ performed actions = calls) ∨
      ∀ rest, FirstMisread (part ++ rest) := by
  induction h with
  | nil => exact Or.inl ⟨[], .nil, rfl⟩
  | @cons part behind calls others hpart _ ih =>
    rcases wellFormed_accepts hpart with ⟨actions, haccepts, rfl⟩ | ⟨name, arg, rfl, hname, hlarge⟩
    · rcases ih with ⟨done, hdone, rfl⟩ | hmisread
      · exact Or.inl ⟨actions ++ done, .cons haccepts hdone, performed_append actions done⟩
      · right
        intro rest
        rw [List.append_assoc]
        exact (hmisread rest).cons haccepts hpart
    · exact Or.inr fun rest => ⟨[], [], name, arg, behind ++ rest, .nil, .nil,
        ⟨hname, Or.inr hlarge⟩, rfl⟩

theorem misread_first (h : MisreadVolume tok) : FirstMisread tok := by
  obtain ⟨front, calls, name, arg, rest, hfront, hmisread, rfl⟩ := h
  rcases sequence_accepts hfront with ⟨actions, hactions, rfl⟩ | hfirst
  · exact ⟨front, actions, name, arg, rest, hactions, hfront, hmisread, rfl⟩
  · exact hfirst _

theorem sequence_cases (h : Sequence Accepts part actions) :
    Sequence WellFormed part (performed actions) ∨ ∀ rest, MisreadVolume (part ++ rest) := by
  induction h with
  | nil => exact Or.inl .nil
  | @cons part behind actions others haccepts _ ih =>
    rcases accepts_cases haccepts with hpart | ⟨name, arg, rfl, hname, hpartly⟩
    · rcases ih with hbehind | hvolume
      · left
        rw [performed_append]
        exact .cons hpart hbehind
      · right
        intro rest
        obtain ⟨front, calls, name, arg, more, hfront, hmisread, htok⟩ := hvolume rest
        refine ⟨part ++ front, _, name, arg, more, .cons hpart hfront, hmisread, ?_⟩
        rw [List.append_assoc, htok, List.append_assoc]
    · right
      intro rest
      exact ⟨[], [], name, arg, behind ++ rest, .nil, ⟨hname, Or.inl hpartly⟩, rfl⟩

section Volume
variable {front : List Bytes} {name arg : Bytes}
  (hname : name = ascii "system_volume" ∨ name = ascii "volume")
include hname

theorem volume_command : ∃ made : BitVec 32 → Client.Call,
    command name = .taking fun arg => (fromString arg).map made := by
  rcases hname with rfl | rfl
  · exact ⟨.setSystemVolume, rfl⟩
  · exact ⟨.setVolume, rfl⟩

/-- A call is made of a volume that is a number only in part. -/
theorem partly_performed (hfront : Sequence Accepts front actions) (harg : PartlyNumeric arg)
    {done : List Action} (hrun : loop (front ++ name :: arg :: rest) 0 [] = .ok done) :
    (performed actions).length < (performed done).length := by
  obtain ⟨level, hlevel⟩ := fromString_partly harg
  obtain ⟨made, hcommand⟩ := volume_command hname
  have hround : Accepts [name, arg] [.call (made level)] :=
    .taking hcommand (by rw [hlevel]; rfl)
  obtain ⟨last, others, behind, ending, rfl, hothers, hstop⟩ := rounds_stop rest
  have hseq := hfront.append (.cons hround hothers)
  have hloop := loop_exact hseq hstop
  rw [List.append_assoc, List.append_assoc] at hloop
  have hdone := Except.ok.inj (hloop.symm.trans hrun)
  rw [← hdone, performed_append, performed_append, performed_append,
    List.length_append, List.length_append, List.length_append]
  have hone : (performed [.call (made level)]).length = 1 := rfl
  omega

/-- No call is made of a volume that is too large, nor of anything behind it. -/
theorem large_refused (hfront : Sequence Accepts front actions) (harg : TooLarge arg)
    {done : List Action} (hrun : loop (front ++ name :: arg :: rest) 0 [] = .ok done) :
    performed done = performed actions := by
  obtain ⟨made, hcommand⟩ := volume_command hname
  have hbad : Stop (name :: arg :: rest) [badArgument arg] :=
    .bad hcommand (by rw [fromString_large harg]; rfl)
  rw [← Except.ok.inj ((loop_exact hfront hbad).symm.trans hrun), performed_append,
    performed_ending hbad, List.append_nil]

/-- As a command it is well formed. -/
theorem large_wellFormed (harg : TooLarge arg) : ∃ made, WellFormed [name, arg] [made] := by
  obtain ⟨n, hn, _⟩ := harg
  have hlevel : n.NearestFloat n.toFloat := n.nearestFloat_iff.mpr rfl
  rcases hname with rfl | rfl
  · exact ⟨_, .systemVolume hn hlevel⟩
  · exact ⟨_, .volume hn hlevel⟩

theorem volume_refused (harg : ¬ Numeric arg) (h : WellFormed part calls) :
    ¬ part <+: name :: arg :: rest := by
  intro hfront
  cases h with
  | load | unload | help | systemMute | mute =>
    obtain ⟨rfl, -⟩ := List.cons_prefix_cons.mp hfront
    exact absurd hname (by decide)
  | systemVolume hn | volume hn =>
    obtain ⟨-, htail⟩ := List.cons_prefix_cons.mp hfront
    obtain ⟨rfl, -⟩ := List.cons_prefix_cons.mp htail
    exact harg ⟨_, hn⟩

end Volume

end Fronts

theorem misread_performed {input : Bytes} (h : MisreadVolume (tokens input)) :
    ¬ PerformsLongest input := by
  rintro ⟨longest, calls, done, hlongest, hcalls, hrun, hperformed⟩
  obtain ⟨front, actions, name, arg, rest, hactions, hfront, ⟨hname, hmisread⟩, htok⟩ :=
    misread_first h
  rw [processInput, htok] at hrun
  rw [htok] at hlongest
  rcases hmisread with hpartly | hlarge
  · -- the longest front ends at the volume, of which one more call is made
    have hrefused : ∀ part xs, WellFormed part xs → ¬ part <+: name :: arg :: rest :=
      fun part xs h => volume_refused hname hpartly.1 h
    have hsame := hlongest.unique (sequence_longest wellFormed_unambiguous hfront hrefused)
    subst hsame
    have hmade := sequence_values wellFormed_unambiguous hcalls hfront
    have hlt := partly_performed hname hactions hpartly hrun
    rw [hperformed, hmade] at hlt
    exact Nat.lt_irrefl _ hlt
  · -- the longest front goes on behind the volume, where the loop is left
    obtain ⟨made, hvolume⟩ := large_wellFormed hname hlarge
    have hnext := hfront.append (.single hvolume)
    have hlonger := hlongest.longest (front ++ [name, arg]) ⟨rest, by simp⟩ ⟨_, hnext⟩
    obtain ⟨more, hcalls⟩ := sequence_prefix wellFormed_unambiguous hcalls hnext hlonger
    rw [large_refused hname hactions hlarge hrun] at hperformed
    have hlength := congrArg List.length (hperformed.trans hcalls)
    simp at hlength

theorem longest_performed {input : Bytes} (h : ¬ MisreadVolume (tokens input)) :
    PerformsLongest input := by
  obtain ⟨front, actions, rest, ending, htok, hseq, hstop, hrun⟩ := processInput_exact input
  rw [htok] at h
  rcases sequence_cases hseq with hfront | hvolume
  · refine ⟨front, performed actions, actions ++ ending, ?_, hfront, hrun, ?_⟩
    · rw [htok]
      apply sequence_longest wellFormed_unambiguous hfront
      rintro part calls hpart hnext
      rcases wellFormed_accepts hpart with ⟨others, haccepts, _⟩ | ⟨name, arg, rfl, hname, hlarge⟩
      · exact stop_refuses hstop haccepts hnext
      · obtain ⟨more, rfl⟩ := hnext
        exact h ⟨front, _, name, arg, more, hfront, ⟨hname, Or.inr hlarge⟩, rfl⟩
    · rw [performed_append, performed_ending hstop, List.append_nil]
  · exact absurd (hvolume rest) h

/-- `volume 0.5%` sets the volume to 0.5. -/
theorem percent_performed : ¬ ∀ input : Bytes, PerformsLongest input := by
  intro h
  have hread : readNumeral (ascii "0.5%") = some (⟨false, 5, -1⟩, [37]) := by decide
  obtain ⟨part, hsplit, hpart, hlongest⟩ := readNumeral_iff.mp hread
  have hpartly : PartlyNumeric (ascii "0.5%") := by
    refine ⟨?_, [], part, [37], _, hsplit, (fun c hc => nomatch hc), hsplit ▸ hlongest, hpart, ?_⟩
    · rintro ⟨n, hn⟩
      cases hread.symm.trans (readNumeral_exact hn)
    · norm_num [Numeral.magnitude]
  have htok : tokens (ascii "volume 0.5%") = [ascii "volume", ascii "0.5%"] := by decide
  exact misread_performed ⟨[], [], ascii "volume", ascii "0.5%", [], .nil,
    ⟨Or.inr rfl, Or.inl hpartly⟩, htok⟩ (h _)

/-- A volume that is a number only in part is set to that part, one that is too large for a
float is refused, and everything else is as it should be: `from_string` asks whether the
extraction failed, and not whether the whole token was read. -/
theorem performs_longest_iff (input : Bytes) :
    PerformsLongest input ↔ ¬ MisreadVolume (tokens input) := by
  constructor
  · intro h hmisread
    exact misread_performed hmisread h
  · exact longest_performed

end AmClient.CommandLine.Input
