import ByteLexer.Automaton.Powerset
import ByteLexer.Automaton.ShortestWord
import ByteLexer.Lexer.Merged
import ByteLexer.Lexer.State

/-! # Interning

    The subset construction of a merged automaton has sets of labels for states.
    Interning gives each of them a `LexerState`, in visit order: the kinds whose
    accepting states are among the members are matched in a set, and the one
    declared first wins. Numbers are given without gaps, from zero, separately for
    every kind and for the sets in which nothing is matched.

    A set in which several kinds are matched is an ambiguity of the table.
-/

namespace ByteLexer

open Std (TransOrd LawfulEqOrd)

/-! ## Matched kinds -/

/-- The indexes of the kinds that are matched in a set of states of a merged automaton. -/
def matchedKinds (nfa : Regex) (kinds : List String) (states : StateSet String) : List Nat :=
  (OrdSet.ofMembers ((states.toList.filter nfa.isAccepting).filterMap fun q =>
    kinds.idxOf? (kindOf q))).toList

/-! ## Numbers -/

/-- The next numbers to be given. -/
structure Numbering where
  intermediate : Nat := 0
  final : OrdMap Nat Nat := ∅

/-- The next state of a sort, and the numbers that are left. -/
def Numbering.take (n : Numbering) : Option Nat → LexerState × Numbering
  | none => (.intermediate n.intermediate, { n with intermediate := n.intermediate + 1 })
  | some kind =>
    let count := n.final[kind]?.getD 0
    (.final kind count, { n with final := n.final.insert kind (count + 1) })

/-- Gives a set the next state for the kind that wins in it. -/
def intern (nfa : Regex) (kinds : List String) (states : StateSet String) :
    StateM Numbering LexerState :=
  fun n => n.take (matchedKinds nfa kinds states).head?

/-- The subset construction with its states interned. -/
def interned (nfa : Regex) (kinds : List String) (sets : Automaton (StateSet String)) :
    Automaton LexerState :=
  ((sets.relabel (intern nfa kinds)).run {}).1

/-! ## Ambiguities -/

/-- Some words are matched by several kinds: by `winner`, which was declared first, and by
    `shadowed`. The shortest of them is `sample`. -/
structure Ambiguity where
  winner : Nat
  shadowed : List Nat
  sample : List UInt8
deriving DecidableEq, Repr

/-- The ambiguity of a set in which some kinds are matched. -/
def Ambiguity.ofMatched? (sample : List UInt8) : List Nat → Option Ambiguity
  | winner :: second :: rest => some ⟨winner, second :: rest, sample⟩
  | _ => none

/-- The ambiguities of a table, in visit order. -/
def ambiguitiesOf (nfa : Regex) (kinds : List String) (sets : Automaton (StateSet String)) :
    List Ambiguity :=
  let words := sets.shortestWords
  sets.visitOrder.filterMap fun states =>
    Ambiguity.ofMatched? (words[states]?.getD []) (matchedKinds nfa kinds states)

end ByteLexer
