import ByteLexer.Cli.Arguments
import ByteLexer.Diagnostic.Basic
import ByteLexer.SExpression.Tokens
import ByteLexer.Session.Basic

/-! # Running an invocation

    An invocation is run on the contents of its file and gives an `Outcome`: what is
    written to each stream, and the exit code. The records of the log that are to be
    shown come first on the error stream, then what went wrong.
-/

namespace ByteLexer.Cli

/-! ## Outcomes -/

/-- What an invocation writes, and its exit code. -/
structure Outcome where
  exitCode : Nat
  output : String
  errors : String
deriving DecidableEq, Repr

/-- Why a file cannot be read. -/
inductive FileError where
  | notFound
  | permissionDenied
  | notDirectory
  | isDirectory
  | nameTooLong
  | other (description : String)
deriving DecidableEq, Repr

/-- The text of the error. -/
def FileError.message : FileError → String
  | .notFound => "No such file or directory (os error 2)"
  | .permissionDenied => "Permission denied (os error 13)"
  | .notDirectory => "Not a directory (os error 20)"
  | .isDirectory => "Is a directory (os error 21)"
  | .nameTooLong => "File name too long (os error 36)"
  | .other description => description

/-- How positions are measured. -/
def metrics : Metrics := ⟨4⟩

/-- The records that are shown, as lines. -/
def logText (verbosity : Nat) (records : List Record) : String :=
  String.join ((records.filter fun r => r.level.rank ≤ verbosity).map fun r =>
    r.level.name ++ " - " ++ r.text ++ "\n")

/-- The record with which every run begins. -/
def firstRecord : Record :=
  ⟨.info, "building lexer..."⟩

/-! ## Tokens of a file -/

/-- The line of a token: its kind, its text, and where it starts, counted from one. -/
def tokenLine (t : Token) : String :=
  t.kind ++ " " ++ t.text ++ s!" {t.span.start.line + 1}:{t.span.start.column + 1}\n"

/-- What is said about a failure in a file. -/
def failureText (file : String) (content : List UInt8) : Failure → String
  | .located e =>
    { Diagnostic.ofLocated e with source := some file }.render metrics (latin1 content)
  | .unmeasurable => "the file cannot be measured"

/-- Prints the tokens of a file up to the first failure. -/
def tokens (l : Lexer) (file : String) (content : List UInt8) : Outcome × List Record :=
  let reply := (Session.ofInput l metrics content).drain
  let output := String.join (reply.answer.tokens.map tokenLine)
  let outcome := match reply.answer.failure with
    | none => ⟨0, output, ""⟩
    | some e => ⟨1, output, failureText file content e ++ "\n"⟩
  (outcome, reply.reported.map l.tokenRecord)

/-! ## Commands -/

/-- Runs a command with a lexer. -/
def runCommand (l : Lexer) (readFile : String → Except FileError (List UInt8)) :
    Command → Outcome × List Record
  | .tokens file =>
    match readFile file with
    | .ok content => tokens l file content
    | .error e => (⟨1, "", e.message ++ "\n"⟩, [])
  | .drawing merged => (⟨0, if merged then l.nfa.drawing id else l.drawing, ""⟩, [])

/-- Runs an invocation. -/
def run (readFile : String → Except FileError (List UInt8)) (i : Invocation) : Outcome :=
  match SExpression.lexer? with
  | .error e => ⟨1, "", logText i.verbosity [firstRecord] ++ e.message ++ "\n"⟩
  | .ok l =>
    let (outcome, records) := runCommand l readFile i.command
    let log := logText i.verbosity (firstRecord :: l.compilationLog ++ records)
    { outcome with errors := log ++ outcome.errors }

end ByteLexer.Cli
