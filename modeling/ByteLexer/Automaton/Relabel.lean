import ByteLexer.Automaton.Basic

/-! # Relabelling

    The image of an automaton under a function on labels has the images of its
    states, edges and accepting states. States with the same image become one.

    - **Visit order.** The states are visited in a fixed order: the initial
      state, then each state in order followed by its targets by symbol, each
      state where it turns up first.
    - **`relabel`** asks a procedure that may keep state for a new label of every
      state, once each and in visit order, and takes the image under its answers.
    - **`qualify`** puts a text in front of every label.
-/

namespace ByteLexer

open Std (TransOrd LawfulEqOrd)

/-- The edge between the images of the ends of an edge. -/
def Edge.image {Q P : Type} (f : Q → P) (e : Edge Q) : Edge P :=
  ⟨f e.source, e.symbol, f e.target⟩

namespace Automaton

variable {Q P : Type} [Ord Q] [TransOrd Q] [Ord P] [TransOrd P]

/-! ## Images -/

/-- The image of an automaton under a function on labels. -/
def image (f : Q → P) (A : Automaton Q) : Automaton P :=
  ofParts (f A.initial) (A.states.map f) (A.edges.map (Edge.image f))
    (A.accepting.toList.map f)

/-- The automaton with a text put in front of every label. -/
def qualify (name : String) (A : Automaton String) : Automaton String :=
  A.image fun q => name ++ q

/-! ## Visit order -/

/-- Each state in order, followed by its targets by symbol; states recur. -/
def mentions (A : Automaton Q) : List Q :=
  A.rows.toList.flatMap fun (q, row) => q :: (Row.edges q row).map Edge.target

/-- The states other than the initial one, in visit order. -/
def laterVisits (A : Automaton Q) : List Q :=
  firsts id {A.initial} A.mentions

/-- The states in visit order. -/
def visitOrder (A : Automaton Q) : List Q :=
  A.initial :: A.laterVisits

/-! ## Relabelling with state -/

/-- The label given to a state by a list of answers, or a given one if there is none. -/
def answer (answers : OrdMap Q P) (otherwise : P) (q : Q) : P :=
  answers[q]?.getD otherwise

/-- The image of an automaton under the answers of a procedure, which is asked once for
    every state, in visit order. -/
def relabel {m : Type → Type} [Monad m] (f : Q → m P) (A : Automaton Q) : m (Automaton P) := do
  let initial ← f A.initial
  let later ← A.laterVisits.mapM fun q => do return (q, ← f q)
  return A.image (answer (Std.ExtTreeMap.ofList later compare) initial)

end Automaton
end ByteLexer
