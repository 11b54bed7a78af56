import ByteLexer.Automaton.Reach

/-! # Shortest words

    The words along which a breadth-first search over the edges that consume a byte
    finds the states, from the initial state on. The bytes of a state are tried in
    increasing order, and the targets of a byte in order. Edges that consume
    nothing are not followed.
-/

namespace ByteLexer.Automaton

open Std (TransOrd LawfulEqOrd)

variable {Q : Type} [Ord Q] [TransOrd Q] [LawfulEqOrd Q]

/-- The edges of a row that consume a byte, in order. -/
def byteSuccessors (A : Automaton Q) (q : Q) : List (UInt8 × Q) :=
  (Row.edges q (A.row q)).filterMap fun e => e.symbol.map fun b => (b, e.target)

theorem bounded_byteSuccessors (A : Automaton Q) (starts : List Q) :
    Graph.Bounded A.byteSuccessors starts := by
  refine ⟨starts ++ A.edges.map Edge.target, fun v hv => List.mem_append_left _ hv, ?_⟩
  intro v _ e he
  obtain ⟨d, hd, hb⟩ := List.mem_filterMap.mp he
  obtain ⟨b, _, rfl⟩ := Option.map_eq_some_iff.mp hb
  obtain ⟨rfl, hr⟩ := mem_rowEdges.mp hd
  exact List.mem_append_right _ (target_mem_edges hr)

/-- The states that can be reached over bytes, each with the word along which it is found. -/
def shortestWords (A : Automaton Q) : OrdMap Q (List UInt8) :=
  Std.ExtTreeMap.ofList ((Graph.traverse A.byteSuccessors [A.initial]
    (A.bounded_byteSuccessors _)).map fun v => (v.vertex, v.trail.reverse)) compare

/-- A shortest word that leads from the initial state to a state. -/
def shortestWord? (A : Automaton Q) (q : Q) : Option (List UInt8) :=
  A.shortestWords[q]?

end ByteLexer.Automaton
