import ByteLexer.OrdSet

/-! # Arguments of the command line

    An invocation is a command and how much of the log to show.

    - **Commands.** `tokens FILE` prints the tokens of a file; `table` draws the
      compiled lexer, or with `--nfa` the merged automaton.
    - **Flags.** `-v` (`--verbose`) may be repeated and stand before or after the
      command; those after it count if there are any, otherwise those before it.
      `-h`, `--help`, `-V`, `--version` and the command `help` ask for information.
      Short flags may be run together, and what follows `=` in a long one is
      ignored.
    - **Values.** A lone dash is a value; after `--` everything is.

    Arguments are taken from left to right; the first one that asks for information
    or is wrong decides.
-/

namespace ByteLexer.Cli

/-! ## Invocations -/

/-- What to do. -/
inductive Command where
  | tokens (file : String)
  | drawing (merged : Bool)
deriving DecidableEq, Repr

/-- A command, and how much of the log to show. -/
structure Invocation where
  command : Command
  verbosity : Nat
deriving DecidableEq, Repr

/-- Why arguments are no invocation: they ask for information only, or they are wrong. -/
inductive Refusal where
  | information
  | misuse
deriving DecidableEq, Repr

/-- The exit code that goes with it. -/
def Refusal.exitCode : Refusal → Nat
  | .information => 0
  | .misuse => 1

/-! ## Flags -/

/-- What a flag stands for. -/
inductive Flag where
  | verbose
  | nfa
  | help
  | version
deriving DecidableEq, Repr

/-- The flag of a letter. -/
def Flag.ofLetter? : Char → Option Flag
  | 'v' => some .verbose
  | 'h' => some .help
  | 'V' => some .version
  | _ => none

/-- The flag of a name. -/
def Flag.ofName? : String → Option Flag
  | "verbose" => some .verbose
  | "nfa" => some .nfa
  | "help" => some .help
  | "version" => some .version
  | _ => none

/-- What has been given so far: how often each flag, and the values. -/
structure Given where
  verbose : Nat := 0
  nfa : Nat := 0
  values : List String := []
deriving DecidableEq, Repr

/-- What may be given at some place: the flag for the merged automaton or not, and how many
    values. -/
structure Room where
  nfa : Bool
  values : Nat
deriving DecidableEq, Repr

/-- Takes a flag. -/
def Given.flag (room : Room) (g : Given) : Option Flag → Except Refusal Given
  | some .verbose => .ok { g with verbose := g.verbose + 1 }
  | some .nfa => if room.nfa then .ok { g with nfa := g.nfa + 1 } else .error .misuse
  | some .help | some .version => .error .information
  | none => .error .misuse

/-- Takes a value. -/
def Given.value (room : Room) (g : Given) (a : String) : Except Refusal Given :=
  if g.values.length < room.values then .ok { g with values := g.values ++ [a] }
  else .error .misuse

/-- Whether an argument is a value by its form. -/
def isValue (a : String) : Bool :=
  a == "-" || a.toList.head? != some '-'

/-- Whether an argument is a long flag by its form. -/
def isLong (a : String) : Bool :=
  a.toList.take 2 == ['-', '-']

/-- The name in a long flag: without dashes in front, and up to `=`. -/
def longName (a : String) : String :=
  String.ofList ((a.toList.dropWhile (· == '-')).takeWhile (· != '='))

/-- Takes the flags of an argument: a long one, or one for every letter. -/
def Given.flags (room : Room) (g : Given) (a : String) : Except Refusal Given :=
  if isLong a then g.flag room (Flag.ofName? (longName a))
  else (a.toList.drop 1).foldlM (fun g c => g.flag room (Flag.ofLetter? c)) g

/-- Takes the arguments of a command. -/
def Given.arguments (room : Room) (g : Given) : List String → Except Refusal Given
  | [] => .ok g
  | a :: rest =>
    if a = "--" then rest.foldlM (Given.value room) g
    else do
      let g ← if isValue a then g.value room a else g.flags room a
      g.arguments room rest

/-! ## Commands -/

/-- The commands, and what may be given after each. -/
def rooms : List (String × Room) :=
  [("tokens", ⟨false, 1⟩), ("table", ⟨true, 0⟩)]

/-- What to answer to `help` and what follows it. -/
def help : List String → Refusal
  | [] => .information
  | [topic] =>
    if topic = "help" ∨ topic ∈ rooms.map Prod.fst then .information else .misuse
  | _ => .misuse

/-- The command of a name, with what was given after it. -/
def Command.ofGiven? (name : String) (g : Given) : Option Command :=
  match name, g.values with
  | "tokens", [file] => some (.tokens file)
  | "table", [] => if g.nfa ≤ 1 then some (.drawing (g.nfa == 1)) else none
  | _, _ => none

/-- How much of the log to show, given what stands before and after the command: the inner
    flags replace the outer ones. -/
def verbosity (before after : Given) : Nat :=
  if after.verbose = 0 then before.verbose else after.verbose

/-- Takes a command and its arguments, after some flags. -/
def invocation (before : Given) (name : String) (rest : List String) :
    Except Refusal Invocation :=
  if name = "help" then .error (help rest)
  else match rooms.lookup name with
    | none => .error .misuse
    | some room => do
      let g ← Given.arguments room {} rest
      match Command.ofGiven? name g with
      | some command => return ⟨command, verbosity before g⟩
      | none => throw .misuse

/-- Takes all arguments. -/
def parse (before : Given) : List String → Except Refusal Invocation
  | [] => .error .misuse
  | a :: rest =>
    if a = "--" then .error .misuse
    else if isValue a then invocation before a rest
    else do
      let before ← before.flags ⟨false, 0⟩ a
      parse before rest

end ByteLexer.Cli
