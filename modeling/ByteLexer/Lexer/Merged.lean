import ByteLexer.Lexer.Pattern

/-! # The merged automaton

    All patterns of a table in one automaton: each is copied under the namespace of
    its kind, and a new initial state leads to the initial state of every copy
    without consuming anything. The label of a state tells the kind it belongs to.
-/

namespace ByteLexer

open Automaton

/-- The label of the initial state. No label in a namespace is without a separator. -/
def mergedInitial : String := "0"

/-- A pattern's automaton under the namespace of its kind. -/
def Pattern.qualified (p : Pattern) : Regex :=
  p.automaton.qualify (p.kind ++ separator.toString)

/-- Adds a pattern to a merged automaton. -/
def addPattern (A : Regex) (p : Pattern) : Regex :=
  let B := p.qualified
  (A.overlay B).extend [] [Regex.joint mergedInitial B.initial] B.accepting.toList

/-- The merged automaton of a table. -/
def merged (patterns : List Pattern) : Regex :=
  patterns.foldl addPattern (ofInitial mergedInitial)

end ByteLexer
