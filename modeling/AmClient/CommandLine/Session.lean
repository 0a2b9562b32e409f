import AmClient.CommandLine.Arguments
import AmClient.CommandLine.Input
import AmClient.Client.Routing

/-!
# A session of am_client

`main` follows its arguments and then one line of the standard input after the other, up to
the end of the input. Nothing comes back from a call on `am`, so what `main` does is a list
of actions that the arguments and the input determine.
-/

namespace AmClient.CommandLine.Session
open Foundation Input
set_option autoImplicit false

/-- `std::getline` and the test of `eof` and `fail`: a line that ends with the input, and
not with a newline, is not taken. -/
def getline (stdin : Bytes) : Option (Bytes × Bytes) :=
  let input := stdin.takeWhile (· ≠ 10)
  match stdin.drop input.length with
  | [] => none
  | _ :: rest => some (input, rest)

theorem getline_shorter {stdin input rest : Bytes} (h : getline stdin = some (input, rest)) :
    rest.length < stdin.length := by
  simp only [getline] at h
  split at h
  · cases h
  · rename_i c tail htail
    obtain ⟨_, rfl⟩ := Prod.mk.inj (Option.some.inj h)
    have hlen := congrArg List.length htail
    rw [List.length_drop, List.length_cons] at hlen
    omega

def prompt : Action := .out (ascii "-> ")

/-- The `while` loop and what is behind it, after what is done. -/
def loop (stdin : Bytes) (done : List Action) : Except Nat (List Action) :=
  match h : getline stdin with
  | none => .ok (done ++ [prompt, .out (ascii "\n")])
  | some (input, rest) =>
    have : rest.length < stdin.length := getline_shorter h
    match processInput input with
    | .error it => .error it
    | .ok actions => loop rest (done ++ prompt :: actions)
termination_by stdin.length

/-- `main` exits with the arguments, or constructs `am` with the two addresses and acts. -/
inductive Program where
  | exited (printed : Bytes)
  | talks (baseAddress hostAddress : Bytes) (actions : List Action)
  deriving DecidableEq

def greeting (baseAddress : Bytes) : List Action :=
  [.out (ascii "Using base address: " ++ baseAddress ++ ascii "\n"),
    .out (ascii "Type \"help\" to list commands\n")]

def setOptions (useUdp : Bool) : List Action :=
  if useUdp then [.call (.setOption .CORE_USE_UDP)] else []

def main (argv : List CString) (stdin : Bytes) : Except Nat Program :=
  match Arguments.processArguments {} argv with
  | .error i => .error i
  | .ok (.exited printed) => .ok (.exited printed)
  | .ok (.returned g) =>
    match loop stdin (greeting g.baseAddress ++ setOptions g.useUdp) with
    | .error it => .error it
    | .ok actions => .ok (.talks g.baseAddress g.hostAddress actions)

/-- The lines that a newline ends. -/
def lines (stdin : Bytes) : List Bytes := (stdin.splitOn 10).dropLast

theorem takeWhile_line {input : Bytes} (h : 10 ∉ input) (more : Bytes) :
    (input ++ more).takeWhile (· ≠ 10) = input ++ more.takeWhile (· ≠ 10) := by
  apply List.takeWhile_append_of_pos
  intro c hc
  have hne : c ≠ 10 := by
    rintro rfl
    exact h hc
  simpa using hne

theorem getline_last {input : Bytes} (h : 10 ∉ input) :
    getline input = none ∧ lines input = [] := by
  have htake := takeWhile_line h []
  rw [List.append_nil, List.takeWhile_nil, List.append_nil] at htake
  refine ⟨?_, ?_⟩
  · simp only [getline, htake, List.drop_length]
  · rw [lines, List.splitOn_eq_singleton h]
    rfl

theorem getline_line {input : Bytes} (h : 10 ∉ input) (rest : Bytes) :
    getline (input ++ 10 :: rest) = some (input, rest) ∧
      lines (input ++ 10 :: rest) = input :: lines rest := by
  have htake := takeWhile_line h (10 :: rest)
  have hstop : List.takeWhile (· ≠ 10) (10 :: rest) = ([] : Bytes) := rfl
  rw [hstop, List.append_nil] at htake
  refine ⟨?_, ?_⟩
  · simp only [getline, htake, List.drop_left]
  · rw [lines, List.splitOn_append_cons_self_of_not_mem h,
      List.dropLast_cons_of_ne_nil (List.splitOn_ne_nil 10 rest)]
    rfl

/-- What is done on a line. -/
def lineActions (input : Bytes) : List Action :=
  match processInput input with
  | .ok actions => actions
  | .error _ => []

theorem processInput_eq (input : Bytes) : processInput input = .ok (lineActions input) := by
  obtain ⟨front, actions, rest, ending, _, _, _, hexact⟩ := processInput_exact input
  rw [lineActions, hexact]

theorem loop_last {stdin : Bytes} (h : getline stdin = none) (done : List Action) :
    loop stdin done = .ok (done ++ [prompt, .out (ascii "\n")]) := by
  rw [loop]
  split
  · rfl
  · rename_i input rest hsome
    rw [h] at hsome
    cases hsome

theorem loop_line {stdin input rest : Bytes} (h : getline stdin = some (input, rest))
    (done : List Action) : loop stdin done = loop rest (done ++ prompt :: lineActions input) := by
  rw [loop]
  split
  · rename_i hnone
    rw [h] at hnone
    cases hnone
  · rename_i input' rest' hsome
    rw [h] at hsome
    obtain ⟨rfl, rfl⟩ := Prod.mk.inj (Option.some.inj hsome)
    rw [processInput_eq]

/-- Each line that a newline ends is done, in order. -/
theorem loop_exact (stdin : Bytes) (done : List Action) :
    loop stdin done =
      .ok (done ++ ((lines stdin).flatMap (fun input => prompt :: lineActions input) ++
        [prompt, .out (ascii "\n")])) := by
  induction hn : stdin.length using Nat.strongRecOn generalizing stdin done with
  | ind n ih =>
    by_cases hmem : 10 ∈ stdin
    · obtain ⟨input, rest, rfl, hinput⟩ := List.eq_append_cons_of_mem hmem
      obtain ⟨hgetline, hlines⟩ := getline_line hinput rest
      have hshorter := getline_shorter hgetline
      have hrest := ih rest.length (by omega) rest (done ++ prompt :: lineActions input) rfl
      rw [loop_line hgetline, hrest, hlines, List.flatMap_cons]
      simp only [List.append_assoc, List.cons_append]
    · obtain ⟨hgetline, hlines⟩ := getline_last hmem
      rw [loop_last hgetline, hlines]
      rfl

/-- The calls on `am` of the lines of the input. -/
def lineCalls (stdin : Bytes) : List Client.Call :=
  (lines stdin).flatMap fun input => performed (lineActions input)

theorem performed_lines (inputs : List Bytes) :
    performed (inputs.flatMap fun input => prompt :: lineActions input) =
      inputs.flatMap fun input => performed (lineActions input) := by
  induction inputs with
  | nil => rfl
  | cons input inputs ih =>
    rw [List.flatMap_cons, performed_append, ih]
    rfl

def optionCalls (useUdp : Bool) : List Client.Call :=
  if useUdp then [.setOption .CORE_USE_UDP] else []

/-- When `main` does not exit with its arguments: a call for the option, and then those of
the input. -/
theorem main_talks {argv : List CString} {stdin baseAddress hostAddress : Bytes}
    {actions : List Action} (h : main argv stdin = .ok (.talks baseAddress hostAddress actions)) :
    ∃ g : Arguments.Globals, Arguments.processArguments {} argv = .ok (.returned g) ∧
      g.baseAddress = baseAddress ∧ g.hostAddress = hostAddress ∧
      performed actions = optionCalls g.useUdp ++ lineCalls stdin := by
  unfold main at h
  split at h
  · cases h
  · cases h
  · rename_i g hargs
    rw [loop_exact] at h
    obtain ⟨rfl, rfl, rfl⟩ := Program.talks.inj (Except.ok.inj h)
    have hgreeting : performed (greeting g.baseAddress) = [] := rfl
    have hoption : performed (setOptions g.useUdp) = optionCalls g.useUdp := by
      cases g.useUdp with
      | _ => rfl
    have hend : performed [prompt, .out (ascii "\n")] = [] := rfl
    refine ⟨g, hargs, rfl, rfl, ?_⟩
    rw [performed_append, performed_append, performed_append, performed_lines, hgreeting, hoption,
      hend, List.append_nil, List.nil_append]
    rfl

theorem follow_free {g : Arguments.Globals} (h : 0 ∉ g.baseAddress) (rest : List CString)
    (items : List Arguments.Item) : 0 ∉ (Arguments.follow g rest items).baseAddress := by
  induction items generalizing g with
  | nil => exact h
  | cons item items ih =>
    rw [Arguments.follow]
    apply ih
    cases item with
    | option given =>
      cases given with
      | protocol | ip => exact h
    | operand arg _ =>
      rw [Arguments.Item.apply]
      split
      · exact arg.property
      · exact h

theorem loop_returned {front rest : List CString} {g g' : Arguments.Globals} (hfront : front ≠ [])
    (hstop : Arguments.Stop rest)
    (h : Arguments.loop (front ++ rest) front.length g = .ok (.returned g')) : g' = g := by
  have hargv (more : List CString) : front ++ more ≠ [] := fun hnil =>
    hfront (List.append_eq_nil_iff.mp hnil).1
  cases hstop with
  | done =>
    rw [List.append_nil, Arguments.loop_end] at h
    split at h
    · rw [Arguments.printUsage_of_ne_nil hfront] at h
      cases h
    · cases h
      rfl
  | help arg more hkind =>
    rw [Arguments.loop_at, hkind] at h
    have husage := h.symm.trans (Arguments.printUsage_of_ne_nil (hargv _) [])
    cases husage
  | unrecognized option value more hkind hvalue =>
    simp only [Arguments.loop_at, hkind, readAt_append_succ, bind, Except.bind, hvalue] at h
    rw [Arguments.printUsage_of_ne_nil (hargv _)] at h
    cases h
  | missing option hkind =>
    rw [Arguments.loop_missing hkind] at h
    cases h

/-- The base address is an argument, so there is no NUL in it. -/
theorem baseAddress_free {argv : List CString} {g : Arguments.Globals}
    (h : Arguments.processArguments {} argv = .ok (.returned g)) : 0 ∉ g.baseAddress := by
  cases argv with
  | nil =>
    rw [Arguments.processArguments, Arguments.loop] at h
    cases h
  | cons name args =>
    obtain ⟨items, rest, rfl, hstop⟩ := Arguments.items_stop args
    rw [Arguments.processArguments_items] at h
    rw [loop_returned (List.cons_ne_nil name _) hstop h]
    exact follow_free (by simp) rest items

theorem command_core (c : Client.Call) (h : c.isCore = true) :
    ∀ d ∈ performed [.call c], d.isCore = true := by
  intro d hd
  obtain rfl := List.mem_singleton.mp hd
  exact h

theorem accepts_core {part : List Bytes} {actions : List Action} (h : Accepts part actions) :
    ∀ c ∈ performed actions, c.isCore = true := by
  cases h with
  | @bare token action hcommand =>
    have hmeaning := command_meaning token
    rw [hcommand] at hmeaning
    cases hmeaning with
    | load => exact command_core .load rfl
    | unload => exact command_core .unload rfl
    | help => exact List.forall_mem_nil _
  | @taking token arg call made hcommand hcall =>
    have hmeaning := command_meaning token
    rw [hcommand] at hmeaning
    apply command_core made
    cases hmeaning with
    | systemMute | systemVolume | mute | volume =>
      obtain ⟨value, _, rfl⟩ := Option.map_eq_some_iff.mp hcall
      rfl

theorem sequence_core {part : List Bytes} {actions : List Action}
    (h : Sequence Accepts part actions) :
    ∀ c ∈ performed actions, c.isCore = true := by
  induction h with
  | nil => simp [performed]
  | cons haccepts _ ih =>
    rw [performed_append]
    intro c hc
    rcases List.mem_append.mp hc with hc | hc
    · exact accepts_core haccepts c hc
    · exact ih c hc

theorem lineCalls_core (stdin : Bytes) : ∀ c ∈ lineCalls stdin, c.isCore = true := by
  intro c hc
  obtain ⟨input, _, hc⟩ := List.mem_flatMap.mp hc
  obtain ⟨front, actions, rest, ending, _, hseq, hstop, hexact⟩ := processInput_exact input
  have hactions : lineActions input = actions ++ ending := by
    rw [lineActions, hexact]
  rw [hactions, performed_append, performed_ending hstop, List.append_nil] at hc
  exact sequence_core hseq c hc

end AmClient.CommandLine.Session
