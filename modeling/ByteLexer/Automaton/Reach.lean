import ByteLexer.Automaton.Basic
import ByteLexer.Graph.Traversal

/-! # Sets of states

    An automaton with several ways to go is followed along all of them at once, by
    keeping the set of the states it can be in.

    - **`closure`** adds what can be reached without consuming anything.
    - **`move`** consumes one byte.
    - **`inputs`** lists the bytes on which some member can move.
    - **`recognizes`** moves along a whole word.
-/

namespace ByteLexer.Automaton

open Std (TransOrd LawfulEqOrd)

variable {Q : Type} [Ord Q] [TransOrd Q] [LawfulEqOrd Q]

/-! ## Closure -/

/-- The states that follow without consuming anything. -/
def silentSuccessors (A : Automaton Q) (q : Q) : List (Unit × Q) :=
  (A.targets q Symbol.epsilon).toList.map fun r => ((), r)

/-- Whatever an edge leads to is one of finitely many labels. -/
theorem target_mem_edges {A : Automaton Q} {q r : Q} {s : Symbol} (h : r ∈ A.targets q s) :
    r ∈ A.edges.map Edge.target :=
  List.mem_map.mpr ⟨⟨q, s, r⟩, mem_edges.mpr h, rfl⟩

theorem bounded_silentSuccessors (A : Automaton Q) (starts : List Q) :
    Graph.Bounded A.silentSuccessors starts := by
  refine ⟨starts ++ A.edges.map Edge.target, fun v hv => List.mem_append_left _ hv, ?_⟩
  intro v _ e he
  obtain ⟨r, hr, rfl⟩ := List.mem_map.mp he
  exact List.mem_append_right _ (target_mem_edges (Std.ExtTreeSet.mem_toList.mp hr))

/-- The given states and all that can be reached from them without consuming anything. -/
def closure (A : Automaton Q) (states : StateSet Q) : StateSet Q :=
  OrdSet.ofMembers ((Graph.traverse A.silentSuccessors states.toList
    (A.bounded_silentSuccessors _)).map Graph.Visit.vertex)

/-- A closure holds nothing but the given states and targets of edges. -/
theorem mem_closure_elim {A : Automaton Q} {states : StateSet Q} {q : Q}
    (h : q ∈ A.closure states) : q ∈ states ∨ q ∈ A.edges.map Edge.target := by
  obtain ⟨x, hx, rfl⟩ := List.mem_map.mp (OrdSet.mem_ofMembers.mp h)
  refine Graph.forall_mem_traverse (P := fun q => q ∈ states ∨ q ∈ A.edges.map Edge.target)
    (fun v hv => Or.inl (Std.ExtTreeSet.mem_toList.mp hv)) (fun v _ e he => ?_) x hx
  obtain ⟨r, hr, rfl⟩ := List.mem_map.mp he
  exact Or.inr (target_mem_edges (Std.ExtTreeSet.mem_toList.mp hr))

/-! ## Moves -/

/-- The targets of the edges on a byte that leave one of the given states. -/
def targetsFrom (A : Automaton Q) (states : StateSet Q) (b : UInt8) : StateSet Q :=
  OrdSet.ofMembers (states.toList.flatMap fun q => (A.targets q (some b)).toList)

/-- The states reached from the given ones by consuming a byte, closed. -/
def move (A : Automaton Q) (states : StateSet Q) (b : UInt8) : StateSet Q :=
  A.closure (A.targetsFrom states b)

/-- A move leads to targets of edges only. -/
theorem mem_move_elim {A : Automaton Q} {states : StateSet Q} {b : UInt8} {q : Q}
    (h : q ∈ A.move states b) : q ∈ A.edges.map Edge.target := by
  rcases mem_closure_elim h with h | h
  · obtain ⟨p, _, hp⟩ := List.mem_flatMap.mp (OrdSet.mem_ofMembers.mp h)
    exact target_mem_edges (Std.ExtTreeSet.mem_toList.mp hp)
  · exact h

/-- The bytes on which one of the given states has an edge. -/
def inputs (A : Automaton Q) (states : StateSet Q) : OrdSet UInt8 :=
  OrdSet.ofMembers (states.toList.flatMap fun q => (A.row q).keys.filterMap id)

/-- The states an automaton can be in before it has consumed anything. -/
def start (A : Automaton Q) : StateSet Q :=
  A.closure {A.initial}

/-- The states an automaton can be in after a word. -/
def reached (A : Automaton Q) (w : List UInt8) : StateSet Q :=
  w.foldl A.move A.start

/-- Whether one of the given states is accepting. -/
def meetsAccepting (A : Automaton Q) (states : StateSet Q) : Bool :=
  states.any A.isAccepting

/-- Whether an automaton accepts a word, found by following all paths at once. -/
def recognizes (A : Automaton Q) (w : List UInt8) : Bool :=
  A.meetsAccepting (A.reached w)

end ByteLexer.Automaton
