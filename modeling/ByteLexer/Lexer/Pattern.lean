import ByteLexer.Regex.Basic

/-! # Patterns

    A table of patterns says which words are tokens of which kind. The kinds of a
    table have to be told apart by their names, also where these stand in front of
    the labels of states, so they are not empty, hold no separator and are declared
    once.
-/

namespace ByteLexer

open Std (TransOrd LawfulEqOrd)

/-- The words that an automaton accepts are tokens of a kind. -/
structure Pattern where
  kind : String
  automaton : Regex

/-- The kind of the tokens that are matched but never returned. -/
def skipKind : String := "SKIP"

/-- Stands between a kind and the label of a state. -/
def separator : Char := '.'

/-- The part of a label before the first separator. -/
def kindOf (label : String) : String :=
  String.ofList (label.toList.takeWhile (· != separator))

/-- What can be wrong with a table. -/
inductive TableError where
  | noPatterns
  | invalidKind (kind : String)
  | duplicateKind (kind : String)
deriving DecidableEq, Repr

namespace TableError

/-- The text of the error. -/
def message : TableError → String
  | .noPatterns => "empty pattern table"
  | .invalidKind kind =>
    "invalid token kind `" ++ kind ++ "` (must be non empty and without `"
      ++ separator.toString ++ "`)"
  | .duplicateKind kind => "token kind `" ++ kind ++ "` is declared twice"

/-- The kind that is wrong, if there is one. -/
def kind? : TableError → Option String
  | .noPatterns => none
  | .invalidKind kind | .duplicateKind kind => some kind

end TableError

/-- A kind is valid if it is not empty and holds no separator. -/
def isValidKind (kind : String) : Bool :=
  !kind.isEmpty && !kind.toList.contains separator

/-- Checks kinds one by one, given those declared before. -/
def checkKinds (declared : OrdSet String) : List String → Except TableError Unit
  | [] => .ok ()
  | kind :: rest =>
    if !isValidKind kind then .error (.invalidKind kind)
    else if kind ∈ declared then .error (.duplicateKind kind)
    else checkKinds (declared.insert kind) rest

/-- Checks a table: it is not empty and all its kinds are valid and distinct. -/
def checkTable (patterns : List Pattern) : Except TableError Unit :=
  if patterns.isEmpty then .error .noPatterns
  else checkKinds ∅ (patterns.map Pattern.kind)

end ByteLexer
