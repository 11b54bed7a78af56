import ByteLexer.Diagnostic.Excerpt
import ByteLexer.Session.Token

/-! # Diagnostics

    A diagnostic is a message for people: a title, the name of the source, an excerpt
    of it with a highlighted span, and notes.

    - **`ofLocated`** makes a diagnostic of a session's error, with the notes that
      help with it.
    - **`render?`** is its text, unless it takes measuring what cannot be measured.
-/

namespace ByteLexer

/-- How serious a diagnostic is. -/
inductive Severity where
  | warning
  | error
deriving DecidableEq, Repr

/-- The name of a severity, painted. -/
def Severity.text : Severity → String
  | .warning => paint .yellow "warning"
  | .error => paint .red "error"

/-- What a note is for. -/
inductive NoteKind where
  | note
  | help
deriving DecidableEq, Repr

/-- The name of a kind of note, painted. -/
def NoteKind.text : NoteKind → String
  | .note => paint .plain "note"
  | .help => paint .green "help"

/-- A remark under an excerpt. -/
structure Note where
  kind : NoteKind
  content : String
deriving DecidableEq, Repr

/-- A message about a source. -/
structure Diagnostic where
  severity : Severity
  title : String
  source : Option String := none
  highlight : Option Highlight := none
  notes : List Note := []
deriving DecidableEq, Repr

/-! ## Diagnostics of errors -/

/-- The notes that help with an error. -/
def SessionError.notes : SessionError → List Note
  | .lexical lexeme found =>
    (if lexeme.isEmpty then []
      else [⟨.note, "`" ++ paint .plain (Byte.spellAll lexeme)
        ++ "` is the beginning of some token, but no token at all"⟩])
      ++ if found.isNone then [⟨.note, "the input ends in the middle of a token"⟩] else []
  | .unexpected expected _ => [⟨.help, "expected some " ++ paint .plain expected⟩]
  | .automaton _ => [⟨.help, "only realized automata can be used to tokenize"⟩]

namespace Diagnostic

/-- The diagnostic of an error, with its place highlighted. -/
def ofLocated (e : Located) : Diagnostic where
  severity := .error
  title := e.error.title
  highlight := some ⟨e.span, some e.error.message, .error⟩
  notes := e.error.notes

/-! ## Text -/

/-- The lines of a text; a carriage return before a line feed belongs to the line end, and
    no empty line follows the last line end. -/
def lines : List Char → List (List Char)
  | [] => []
  | '\r' :: '\n' :: rest => [] :: lines rest
  | '\n' :: rest => [] :: lines rest
  | c :: rest =>
    match lines rest with
    | [] => [[c]]
    | line :: more => (c :: line) :: more

/-- The width of the margin before everything but the title. -/
def marginWidth (d : Diagnostic) : Nat :=
  match d.highlight with
  | some h => h.marginWidth - 2
  | none => 0

/-- The text of a note, after a margin; its lines after the first one are indented. -/
def noteText (margin : String) (n : Note) : String :=
  match lines n.content.toList with
  | [] => ""
  | first :: rest =>
    margin ++ "= " ++ n.kind.text ++ ": " ++ String.ofList first ++ "\n"
      ++ String.join (rest.map fun line => margin ++ "  " ++ String.ofList line ++ "\n")

/-- The text of a diagnostic over a source. -/
def render (d : Diagnostic) (m : Metrics) (source : List Char) : String :=
  let margin := String.ofList (List.replicate d.marginWidth ' ')
  let bar := margin ++ paint .blue "|"
  d.severity.text ++ paint .plain ":" ++ " " ++ paint .plain d.title ++ "\n"
    ++ (match d.source with
      | some name => margin ++ paint .blue "-->" ++ " " ++ name ++ "\n"
      | none => "")
    ++ bar ++ Excerpt.text m source d.highlight
    ++ bar ++ "\n"
    ++ String.join (d.notes.map (noteText margin))

/-- The text of a diagnostic over a source, if all of it can be measured. -/
def render? (d : Diagnostic) (m : Metrics) (source : List Char) : Option String :=
  if Excerpt.Measurable m source d.highlight then some (d.render m source) else none

end Diagnostic
end ByteLexer
