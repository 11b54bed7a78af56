import ByteLexer.Automaton.Dump
import ByteLexer.Lexer.Interning
import ByteLexer.Log

/-! # Lexers

    A `Lexer` is a table of patterns, compiled once into a deterministic automaton
    whose states say which kind of token may end in them. It is never changed;
    sessions share it.

    - **`compile`** checks a table and compiles it.
    - **Kinds** have an index, their place in the table.
    - **`compilationLog`** reports on the compilation: sizes, ambiguities, and
      kinds that no state of the automaton produces.
-/

namespace ByteLexer

open Std (TransOrd LawfulEqOrd)

/-- A compiled table of patterns: the kinds in declaration order, the index of the kind to
    skip, the merged automaton, the deterministic one, and the ambiguities. -/
structure Lexer where
  kinds : List String
  skip : Option Nat
  nfa : Regex
  automaton : Automaton LexerState
  ambiguities : List Ambiguity

namespace Lexer

/-! ## Compilation -/

/-- Compiles a table whose kinds are known to be valid. -/
def ofPatterns (patterns : List Pattern) : Lexer :=
  let kinds := patterns.map Pattern.kind
  let nfa := merged patterns
  let sets := nfa.subsetConstruction
  { kinds
    skip := kinds.idxOf? skipKind
    nfa
    automaton := interned nfa kinds sets
    ambiguities := ambiguitiesOf nfa kinds sets }

/-- Compiles a table. -/
def compile (patterns : List Pattern) : Except TableError Lexer := do
  checkTable patterns
  return ofPatterns patterns

/-! ## Kinds -/

/-- The kind with an index. -/
def kind? (l : Lexer) (index : Nat) : Option String :=
  l.kinds[index]?

/-- The index of a kind. -/
def kindIndex? (l : Lexer) (kind : String) : Option Nat :=
  l.kinds.idxOf? kind

/-- Whether tokens with an index are skipped. -/
def isSkip (l : Lexer) (index : Nat) : Bool :=
  l.skip == some index

/-- The kinds that no state of the automaton produces, in declaration order. -/
def deadKinds (l : Lexer) : List String :=
  let produced := OrdSet.ofMembers (l.automaton.accepting.toList.filterMap LexerState.kind?)
  (l.kinds.zipIdx.filter fun (_, i) => !produced.contains i).map Prod.fst

/-! ## Names and drawings -/

/-- The name of a state: its kind and number, or `q` and its number. -/
def stateName (l : Lexer) : LexerState → String
  | .intermediate n => s!"q{n}"
  | .final kind n => (l.kind? kind).getD s!"#{kind}" ++ s!"({n})"

/-- The drawing of the deterministic automaton. -/
def drawing (l : Lexer) : String :=
  l.automaton.drawing l.stateName

/-! ## Log -/

/-- The report on an ambiguity. -/
def ambiguityRecord (l : Lexer) (a : Ambiguity) : Record :=
  ⟨.debug, "`" ++ Byte.spellAll a.sample ++ s!"` is matched by {a.shadowed.length + 1} kinds, `"
    ++ (l.kind? a.winner).getD "" ++ "` wins"⟩

/-- The report on a kind that is never produced. -/
def deadKindRecord (kind : String) : Record :=
  ⟨.warn, "token kind `" ++ kind ++ "` can never be produced"⟩

/-- The reports on the compilation. -/
def compilationLog (l : Lexer) : List Record :=
  [⟨.debug, s!"merged {l.kinds.length} patterns into {l.nfa.size} states"⟩,
    ⟨.debug, s!"realized automaton has {l.automaton.size} states"⟩]
    ++ l.ambiguities.map l.ambiguityRecord
    ++ l.deadKinds.map deadKindRecord

end Lexer
end ByteLexer
