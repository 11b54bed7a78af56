import ByteLexer.Automaton.Reach

/-! # The subset construction

    `subsetConstruction` builds the automaton whose states are the sets of states
    that the given one can be in after some word. It starts from the set before
    any byte and goes on, breadth first, on the bytes on which some member of a
    set can move. It ends because every set it meets is made of labels that edges
    lead to, or is the first one.
-/

namespace ByteLexer.Automaton

open Std (TransOrd LawfulEqOrd)

variable {Q : Type} [Ord Q] [TransOrd Q] [LawfulEqOrd Q]

/-- The sets that follow a set, with the bytes that lead there, in increasing order. -/
def moves (A : Automaton Q) (states : StateSet Q) : List (UInt8 × StateSet Q) :=
  (A.inputs states).toList.map fun b => (b, A.move states b)

/-! ## The sets that can be met are finitely many -/

/-- All sublists of a list. -/
def sublists : List Q → List (List Q)
  | [] => [[]]
  | x :: xs => sublists xs ++ (sublists xs).map (x :: ·)

omit [Ord Q] [TransOrd Q] [LawfulEqOrd Q] in
theorem filter_mem_sublists (p : Q → Bool) (xs : List Q) : xs.filter p ∈ sublists xs := by
  induction xs with
  | nil => simp [sublists]
  | cons x xs ih =>
    by_cases h : p x
    · simpa [sublists, h] using Or.inr ih
    · simpa [sublists, h] using Or.inl ih

/-- A set of entries of a list is the set of the members of some sublist. -/
theorem mem_sublists_of_subset {s : StateSet Q} {xs : List Q} (h : ∀ q ∈ s, q ∈ xs) :
    s ∈ (sublists xs).map OrdSet.ofMembers := by
  refine List.mem_map.mpr ⟨_, filter_mem_sublists (fun q => decide (q ∈ s)) xs, ?_⟩
  refine Std.ExtTreeSet.ext_mem fun q => ?_
  simp only [OrdSet.mem_ofMembers, List.mem_filter, decide_eq_true_eq]
  exact ⟨And.right, fun hq => ⟨h q hq, hq⟩⟩

theorem bounded_moves (A : Automaton Q) (starts : List (StateSet Q)) :
    Graph.Bounded A.moves starts := by
  refine ⟨starts ++ (sublists (A.edges.map Edge.target)).map OrdSet.ofMembers,
    fun v hv => List.mem_append_left _ hv, fun v _ e he => ?_⟩
  obtain ⟨b, _, rfl⟩ := List.mem_map.mp he
  exact List.mem_append_right _ (mem_sublists_of_subset fun q hq => mem_move_elim hq)

/-! ## The construction -/

/-- The sets that an automaton can be in, breadth first, with their moves. -/
def reachableSets (A : Automaton Q) : List (Graph.Visit (StateSet Q) UInt8) :=
  Graph.traverse A.moves [A.start] (A.bounded_moves _)

/-- The deterministic automaton of the sets that an automaton can be in. A set is accepting
    if it has an accepting member. -/
def subsetConstruction (A : Automaton Q) : Automaton (StateSet Q) :=
  let visits := A.reachableSets
  ofParts A.start (visits.map Graph.Visit.vertex)
    (visits.flatMap fun v => v.edges.map fun e => ⟨v.vertex, some e.1, e.2⟩)
    ((visits.map Graph.Visit.vertex).filter A.meetsAccepting)

end ByteLexer.Automaton
