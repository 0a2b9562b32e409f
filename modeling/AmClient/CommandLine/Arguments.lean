import Mathlib.Data.List.Induction
import AmClient.Buffers

/-!
# The arguments of am_client

`ProcessArguments` on an argument vector. A read of `argv` is an `Except`: the error is an
index that was read and is not below `argc`.
-/

namespace AmClient.CommandLine.Arguments
set_option autoImplicit false

/-- `g_base_address`, `g_use_udp` and `g_host_address`. -/
structure Globals where
  baseAddress : Bytes := []
  useUdp : Bool := false
  hostAddress : Bytes := ascii "127.0.0.1"
  deriving DecidableEq

/-- `ProcessArguments` returns, or it exits after it has printed. -/
inductive Outcome where
  | returned (g : Globals)
  | exited (printed : Bytes)
  deriving DecidableEq

inductive Kind where
  | help
  | protocol
  | ip
  | operand
  deriving DecidableEq

/-- The `strcmp` tests of the loop, in their order. -/
def kind (arg : CString) : Kind :=
  if arg.val = ascii "-h" ∨ arg.val = ascii "--help" then .help
  else if arg.val = ascii "-p" ∨ arg.val = ascii "--protocol" then .protocol
  else if arg.val = ascii "-i" ∨ arg.val = ascii "--ip" then .ip
  else .operand

/-- What a protocol sets `g_use_udp` to. -/
def protocol (value : CString) : Option Bool :=
  if value.val = ascii "tcp" ∨ value.val = ascii "TCP" then some false
  else if value.val = ascii "udp" ∨ value.val = ascii "UDP" then some true
  else none

def usage : Bytes :=
  ascii "Usage: am_client [ -i ip ] [ -p port ] base_address" ++
  ascii "\nOptions:" ++
  ascii "\n  -h,--help                Display this information." ++
  ascii "\n  -p,--protocol <tcp|udp>  Use TCP or UDP protocol. Default = tcp." ++
  ascii "\n  -i,--ip <ip>             Set Asset Manager's host address. Default = 127.0.0.1" ++
  ascii "\n"

def unrecognized (value : CString) : Bytes :=
  ascii "Unrecognized protocol: " ++ value.val ++ ascii "\n"

def notEnough : Bytes := ascii "Not enough argument.\n"

/-- The label `print_usage`: `argv[0]` is an argument of the first `printf`. -/
def printUsage (argv : List CString) (printed : Bytes) : Except Nat Outcome := do
  let _ ← readAt argv 0
  return .exited (printed ++ usage)

/-- The loop from index `i`, and what is behind it. -/
def loop (argv : List CString) (i : Nat) (g : Globals) : Except Nat Outcome :=
  if i < argv.length then do
    let arg ← readAt argv i
    match kind arg with
    | .help => printUsage argv []
    | .protocol =>
      -- The test compares the index before it is advanced.
      if i < argv.length then do
        let value ← readAt argv (i + 1)
        match protocol value with
        | some udp => loop argv (i + 2) { g with useUdp := udp }
        | none => printUsage argv (unrecognized value)
      else printUsage argv notEnough
    | .ip =>
      if i < argv.length then do
        let value ← readAt argv (i + 1)
        loop argv (i + 2) { g with hostAddress := value.val }
      else printUsage argv notEnough
    | .operand =>
      loop argv (i + 1) (if i = argv.length - 1 then { g with baseAddress := arg.val } else g)
  else if g.baseAddress = [] then printUsage argv []
  else .ok (.returned g)
termination_by argv.length - i

def processArguments (g : Globals) (argv : List CString) : Except Nat Outcome := loop argv 1 g

/-- An option with its value. -/
inductive Given where
  | protocol (option value : CString) (udp : Bool) :
      kind option = .protocol → Arguments.protocol value = some udp → Given
  | ip (option value : CString) : kind option = .ip → Given

def Given.args : Given → List CString
  | .protocol option value _ _ _ => [option, value]
  | .ip option value _ => [option, value]

def Given.useUdp : Given → Option Bool
  | .protocol _ _ udp _ _ => some udp
  | .ip _ _ _ => none

def Given.hostAddress : Given → Option Bytes
  | .protocol _ _ _ _ _ => none
  | .ip _ value _ => some value.val

/-- What one round of the loop takes when it comes to the next. -/
inductive Item where
  | option (given : Given)
  | operand (arg : CString) : kind arg = .operand → Item

def Item.args : Item → List CString
  | .option given => given.args
  | .operand arg _ => [arg]

/-- The rest of the arguments when the loop is not continued behind its first. -/
inductive Stop : List CString → Prop where
  | done : Stop []
  | help (arg : CString) (rest : List CString) : kind arg = .help → Stop (arg :: rest)
  | unrecognized (option value : CString) (rest : List CString) : kind option = .protocol →
      protocol value = none → Stop (option :: value :: rest)
  | missing (option : CString) : kind option = .protocol ∨ kind option = .ip → Stop [option]

/-- An option that takes a value, and is read as an option, is the last argument. -/
def OptionLast (argv : List CString) : Prop :=
  ∃ items option, (kind option = .protocol ∨ kind option = .ip) ∧
    argv.tail = List.flatMap Item.args items ++ [option]

/-- The values of the last options that set them. -/
def chosen (g : Globals) (options : List Given) (base : CString) : Globals where
  baseAddress := base.val
  useUdp := (options.filterMap Given.useUdp).getLastD g.useUdp
  hostAddress := (options.filterMap Given.hostAddress).getLastD g.hostAddress

/-- The arguments are read in range, an option without its value is refused, and options
in front of a base address are followed. -/
structure HandlesArguments (g : Globals) (argv : List CString) : Prop where
  in_range : ∀ i, processArguments g argv ≠ .error i
  not_enough : OptionLast argv → processArguments g argv = .ok (.exited (notEnough ++ usage))
  followed : ∀ (options : List Given) (base : CString), base.val ≠ [] →
    kind base = .operand → argv.tail = options.flatMap Given.args ++ [base] →
    processArguments g argv = .ok (.returned (chosen g options base))

section Rounds
variable {front rest : List CString} {g : Globals}

theorem printUsage_of_ne_nil {argv : List CString} (h : argv ≠ []) (printed : Bytes) :
    printUsage argv printed = .ok (.exited (printed ++ usage)) := by
  cases argv with
  | nil => exact absurd rfl h
  | cons name rest => rfl

theorem front_lt (arg : CString) : front.length < (front ++ arg :: rest).length := by
  simp

theorem loop_at (arg : CString) : loop (front ++ arg :: rest) front.length g =
    match kind arg with
    | .help => printUsage (front ++ arg :: rest) []
    | .protocol => do
      let value ← readAt (front ++ arg :: rest) (front.length + 1)
      match protocol value with
      | some udp => loop (front ++ arg :: rest) (front.length + 2) { g with useUdp := udp }
      | none => printUsage (front ++ arg :: rest) (unrecognized value)
    | .ip => do
      let value ← readAt (front ++ arg :: rest) (front.length + 1)
      loop (front ++ arg :: rest) (front.length + 2) { g with hostAddress := value.val }
    | .operand => loop (front ++ arg :: rest) (front.length + 1)
        (if rest = [] then { g with baseAddress := arg.val } else g) := by
  have hlast : front.length = (front ++ arg :: rest).length - 1 ↔ rest = [] := by
    rw [← List.length_eq_zero_iff, List.length_append, List.length_cons]
    omega
  rw [loop, if_pos (front_lt arg), readAt_append]
  simp only [if_pos (front_lt arg), hlast]
  rfl

theorem loop_end : loop front front.length g =
    if g.baseAddress = [] then printUsage front [] else .ok (.returned g) := by
  rw [loop, if_neg (Nat.lt_irrefl _)]

def Given.apply (g : Globals) : Given → Globals
  | .protocol _ _ udp _ _ => { g with useUdp := udp }
  | .ip _ value _ => { g with hostAddress := value.val }

def Item.apply (g : Globals) (rest : List CString) : Item → Globals
  | .option given => given.apply g
  | .operand arg _ => if rest = [] then { g with baseAddress := arg.val } else g

theorem loop_item (item : Item) : loop (front ++ (item.args ++ rest)) front.length g =
    loop (front ++ item.args ++ rest) (front ++ item.args).length (item.apply g rest) := by
  rw [List.append_assoc, List.length_append]
  cases item with
  | option given =>
    cases given with
    | protocol option value udp hkind hvalue =>
      simp only [Item.args, Given.args, List.cons_append, List.nil_append, loop_at, hkind,
        readAt_append_succ, bind, Except.bind, hvalue]
      rfl
    | ip option value hkind =>
      simp only [Item.args, Given.args, List.cons_append, List.nil_append, loop_at, hkind,
        readAt_append_succ]
      rfl
  | operand arg hkind =>
    simp only [Item.args, List.cons_append, List.nil_append, loop_at, hkind]
    rfl

/-- The globals after the rounds that take `items`, with `rest` behind them. -/
def follow (g : Globals) (rest : List CString) : List Item → Globals
  | [] => g
  | item :: items => follow (item.apply g (items.flatMap Item.args ++ rest)) rest items

theorem loop_items (items : List Item) : loop (front ++ (items.flatMap Item.args ++ rest))
    front.length g = loop (front ++ items.flatMap Item.args ++ rest)
      (front ++ items.flatMap Item.args).length (follow g rest items) := by
  induction items generalizing front g with
  | nil => rw [List.flatMap_nil, List.append_nil, List.nil_append, follow]
  | cons item items ih =>
    rw [List.flatMap_cons, List.append_assoc, loop_item, ih, follow]
    simp only [List.append_assoc]

end Rounds

/-- Every list of arguments is items up to where the loop is left. -/
theorem items_stop (args : List CString) :
    ∃ items rest, args = List.flatMap Item.args items ++ rest ∧ Stop rest := by
  induction args using List.twoStepInduction with
  | nil => exact ⟨[], [], rfl, .done⟩
  | singleton arg =>
    cases hkind : kind arg with
    | help => exact ⟨[], [arg], rfl, .help arg [] hkind⟩
    | protocol => exact ⟨[], [arg], rfl, .missing arg (Or.inl hkind)⟩
    | ip => exact ⟨[], [arg], rfl, .missing arg (Or.inr hkind)⟩
    | operand => exact ⟨[.operand arg hkind], [], rfl, .done⟩
  | cons_cons arg value args ih ih_value =>
    cases hkind : kind arg with
    | help => exact ⟨[], arg :: value :: args, rfl, .help arg _ hkind⟩
    | protocol =>
      cases hvalue : protocol value with
      | none => exact ⟨[], arg :: value :: args, rfl, .unrecognized arg value args hkind hvalue⟩
      | some udp =>
        obtain ⟨items, rest, rfl, hstop⟩ := ih
        exact ⟨.option (.protocol arg value udp hkind hvalue) :: items, rest, rfl, hstop⟩
    | ip =>
      obtain ⟨items, rest, rfl, hstop⟩ := ih
      exact ⟨.option (.ip arg value hkind) :: items, rest, rfl, hstop⟩
    | operand =>
      obtain ⟨items, rest, hargs, hstop⟩ := ih_value value
      exact ⟨.operand arg hkind :: items, rest, congrArg (arg :: ·) hargs, hstop⟩

/-- How `ProcessArguments` ends when it reads in range. -/
def Ends : Outcome → Prop
  | .returned g => g.baseAddress ≠ []
  | .exited printed => ∃ reason, printed = reason ++ usage ∧
      (reason = [] ∨ ∃ value, protocol value = none ∧ reason = unrecognized value)

theorem usage_first : usage.head? = some 85 := by
  rw [usage]
  simp only [List.append_assoc]
  exact List.head?_append_of_ne_nil _
    (by decide : ascii "Usage: am_client [ -i ip ] [ -p port ] base_address" ≠ [])

theorem ends_first {printed : Bytes} (h : Ends (.exited printed)) :
    printed.head? = some 85 := by
  obtain ⟨reason, hprinted, hreason⟩ := h
  rw [hprinted]
  rcases hreason with rfl | ⟨value, _, rfl⟩
  · rw [List.nil_append]
    exact usage_first
  · rw [unrecognized, List.append_assoc, List.append_assoc]
    exact List.head?_append_of_ne_nil _ (by decide : ascii "Unrecognized protocol: " ≠ [])

theorem loop_missing {front : List CString} {option : CString} {g : Globals}
    (h : kind option = .protocol ∨ kind option = .ip) :
    loop (front ++ [option]) front.length g = .error (front ++ [option]).length := by
  rw [List.length_append, loop_at, readAt_behind]
  rcases h with h | h <;> rw [h] <;> rfl

theorem loop_stop {front rest : List CString} {g : Globals} (hfront : front ≠ [])
    (h : Stop rest) : (∃ option, (kind option = .protocol ∨ kind option = .ip) ∧
      rest = [option]) ∨ ∃ outcome, Ends outcome ∧
        loop (front ++ rest) front.length g = .ok outcome := by
  have hargv (rest : List CString) : front ++ rest ≠ [] := fun h =>
    hfront (List.append_eq_nil_iff.mp h).1
  cases h with
  | done =>
    right
    rw [List.append_nil, loop_end]
    by_cases hbase : g.baseAddress = []
    · rw [if_pos hbase]
      exact ⟨.exited ([] ++ usage), ⟨[], rfl, Or.inl rfl⟩, printUsage_of_ne_nil hfront []⟩
    · rw [if_neg hbase]
      exact ⟨.returned g, hbase, rfl⟩
  | help arg rest hkind =>
    right
    rw [loop_at, hkind]
    exact ⟨.exited ([] ++ usage), ⟨[], rfl, Or.inl rfl⟩, printUsage_of_ne_nil (hargv _) []⟩
  | unrecognized option value rest hkind hvalue =>
    right
    refine ⟨.exited (unrecognized value ++ usage),
      ⟨unrecognized value, rfl, Or.inr ⟨value, hvalue, rfl⟩⟩, ?_⟩
    simp only [loop_at, hkind, readAt_append_succ, bind, Except.bind, hvalue]
    exact printUsage_of_ne_nil (hargv _) _
  | missing option hkind => exact Or.inl ⟨option, hkind, rfl⟩

section Vectors
variable {g : Globals} {name : CString} {args : List CString}

theorem processArguments_items (items : List Item) (rest : List CString) :
    processArguments g (name :: (items.flatMap Item.args ++ rest)) =
      loop (name :: items.flatMap Item.args ++ rest) (name :: items.flatMap Item.args).length
        (follow g rest items) :=
  @loop_items [name] rest g items

/-- With an option last, `argv[argc]` is read. -/
theorem reads_behind {argv : List CString} (hargv : argv ≠ []) (h : OptionLast argv) :
    processArguments g argv = .error argv.length := by
  obtain ⟨name, args, rfl⟩ := List.exists_cons_of_ne_nil hargv
  obtain ⟨items, option, hkind, hargs⟩ := h
  rw [List.tail_cons] at hargs
  subst hargs
  rw [processArguments_items, loop_missing hkind]
  rfl

theorem reads_in_range {argv : List CString} (hargv : argv ≠ []) (h : ¬ OptionLast argv) :
    ∃ outcome, Ends outcome ∧ processArguments g argv = .ok outcome := by
  obtain ⟨name, args, rfl⟩ := List.exists_cons_of_ne_nil hargv
  obtain ⟨items, rest, hargs, hstop⟩ := items_stop args
  subst hargs
  rw [processArguments_items]
  rcases loop_stop (List.cons_ne_nil name _) hstop with ⟨option, hkind, hrest⟩ | hends
  · exact absurd ⟨items, option, hkind, by rw [List.tail_cons, hrest]⟩ h
  · exact hends

/-- The branches that print "Not enough argument." are never taken. -/
theorem never_not_enough {argv : List CString} (hargv : argv ≠ []) (printed : Bytes) :
    processArguments g argv ≠ .ok (.exited (notEnough ++ printed)) := by
  intro h
  by_cases hlast : OptionLast argv
  · rw [reads_behind hargv hlast] at h
    cases h
  · obtain ⟨outcome, hends, hok⟩ := reads_in_range (g := g) hargv hlast
    have houtcome := Except.ok.inj (hok.symm.trans h)
    rw [houtcome] at hends
    have hfirst := ends_first hends
    rw [List.head?_append_of_ne_nil _ (by decide : notEnough ≠ [])] at hfirst
    exact absurd hfirst (by decide)

/-- Options in front of an operand: each sets what it sets, and the operand is the base. -/
theorem follow_chosen (options : List Given) (base : CString) (hkind : kind base = .operand) :
    follow g [] (options.map .option ++ [.operand base hkind]) = chosen g options base := by
  induction options generalizing g with
  | nil => rfl
  | cons given options ih =>
    rw [List.map_cons, List.cons_append, follow, ih]
    cases given <;>
      simp only [chosen, Item.apply, Given.apply, List.filterMap_cons, Given.useUdp,
        Given.hostAddress, List.getLastD_cons]

theorem processArguments_chosen {argv : List CString} (hargv : argv ≠ [])
    {options : List Given} {base : CString} (hbase : base.val ≠ [])
    (hkind : kind base = .operand) (hargs : argv.tail = options.flatMap Given.args ++ [base]) :
    processArguments g argv = .ok (.returned (chosen g options base)) := by
  obtain ⟨name, args, rfl⟩ := List.exists_cons_of_ne_nil hargv
  have hitems : args =
      (options.map Item.option ++ [Item.operand base hkind]).flatMap Item.args ++ [] := by
    rw [List.append_nil, List.flatMap_append, List.flatMap_map]
    exact hargs
  rw [hitems, processArguments_items, follow_chosen, List.append_nil, loop_end]
  exact if_neg hbase

end Vectors

theorem not_optionLast {argv : List CString} (base : CString)
    (hlast : argv.tail.getLast? = some base) (hkind : kind base = .operand) :
    ¬ OptionLast argv := by
  rintro ⟨items, option, hoption, hargs⟩
  rw [hargs, List.getLast?_concat] at hlast
  cases hlast
  rcases hoption with hoption | hoption <;> exact absurd (hkind.symm.trans hoption) (by decide)

/-- `am_client -p`: the loop compares `argv[2]`. -/
theorem missing_protocol_read : ¬ ∀ (g : Globals) (argv : List CString), argv ≠ [] →
    HandlesArguments g argv := by
  intro h
  have hargv : [cstr (ascii "am_client"), cstr (ascii "-p")] ≠ [] := List.cons_ne_nil _ _
  have hlast : OptionLast [cstr (ascii "am_client"), cstr (ascii "-p")] :=
    ⟨[], cstr (ascii "-p"), Or.inl (by decide), rfl⟩
  exact (h {} _ hargv).in_range 2 (reads_behind hargv hlast)

/-- A missing value is never noticed, and everything else is as it should be: the test in
front of a value is made before the index is advanced. -/
theorem arguments_handled_iff (g : Globals) (argv : List CString) (hargv : argv ≠ []) :
    HandlesArguments g argv ↔ ¬ OptionLast argv := by
  constructor
  · intro h hlast
    exact h.in_range argv.length (reads_behind hargv hlast)
  · intro hlast
    obtain ⟨outcome, _, hok⟩ := reads_in_range (g := g) hargv hlast
    refine ⟨?_, ?_, ?_⟩
    · intro i herror
      rw [hok] at herror
      cases herror
    · intro h
      exact absurd h hlast
    · intro options base hbase hkind hargs
      exact processArguments_chosen hargv hbase hkind hargs

theorem udp_arguments_handled : HandlesArguments {} [cstr (ascii "am_client"),
    cstr (ascii "-p"), cstr (ascii "udp"), cstr (ascii "-i"), cstr (ascii "10.0.0.1"),
    cstr (ascii "/base")] :=
  (arguments_handled_iff {} _ (List.cons_ne_nil _ _)).mpr
    (not_optionLast (cstr (ascii "/base")) rfl (by decide))

end AmClient.CommandLine.Arguments
