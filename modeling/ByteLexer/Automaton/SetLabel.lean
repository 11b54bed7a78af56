import ByteLexer.Automaton.Powerset
import ByteLexer.Automaton.Relabel

/-! # Sets of labels as labels

    A set of text labels is written `{a,b,c}`, its members in order. `flatten` builds
    the automaton of the sets that an automaton can be in and labels each set by its
    text, so that the result has text labels again.
-/

namespace ByteLexer

/-- A set of text labels as one text. -/
def StateSet.text (states : StateSet String) : String :=
  "\x7b" ++ ",".intercalate states.toList ++ "\x7d"

/-- The automaton of the sets that an automaton can be in, each labelled by its text. -/
def Automaton.flatten (A : Automaton String) : Automaton String :=
  A.subsetConstruction.image StateSet.text

end ByteLexer
