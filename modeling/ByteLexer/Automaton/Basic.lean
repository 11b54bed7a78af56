import ByteLexer.Byte.Escape
import ByteLexer.OrdSet

/-! # Finite automata over bytes

    An automaton has one initial state, edges that consume a byte or nothing, and
    accepting states. States are labels of any ordered type. The edges are kept by
    source and symbol: each known state has a row, which may be empty.

    - **Looking.** `states`, `edges`, `targets` and `accepting` say what an
      automaton is made of.
    - **Building.** `ofInitial`, `addState`, `addEdge`, `addAccepting` add one
      thing; `ofParts` and `overlay` add many. Whatever an edge or an accepting
      mark names becomes a known state.
    - **Stepping.** `step` moves from state to state on a byte as long as there
      is one way to go, and otherwise says how many there are.
-/

namespace ByteLexer

open Std (TransOrd LawfulEqOrd)

/-! ## Types -/

/-- What an edge consumes: a byte, or nothing. -/
abbrev Symbol := Option UInt8

/-- The symbol of the edges that consume nothing. -/
def Symbol.epsilon : Symbol := none

/-- A set of states. -/
abbrev StateSet (Q : Type) [Ord Q] := OrdSet Q

/-- The edges that leave one state: the targets for each symbol. -/
abbrev Row (Q : Type) [Ord Q] := OrdMap Symbol (StateSet Q)

/-- An edge from one state to another. -/
structure Edge (Q : Type) where
  source : Q
  symbol : Symbol
  target : Q
deriving DecidableEq, Repr

/-- A finite automaton over bytes whose states are labelled by `Q`. -/
structure Automaton (Q : Type) [Ord Q] where
  initial : Q
  rows : OrdMap Q (Row Q)
  accepting : StateSet Q

/-- There are several ways to go from a state on a symbol, or some that consume nothing. -/
structure Nondeterminism where
  symbol : Symbol
  targets : Nat
deriving DecidableEq, Repr

/-- The text of the error. -/
def Nondeterminism.message (e : Nondeterminism) : String :=
  match e.symbol with
  | some b => s!"nondeterministic automaton: {e.targets} transitions on `"
      ++ Byte.spell b ++ "` (realize it first)"
  | none => s!"nondeterministic automaton: {e.targets} epsilon transitions (realize it first)"

namespace Automaton

variable {Q : Type} [Ord Q] [TransOrd Q]

/-! ## Looking -/

/-- The known states, in order. -/
def states (A : Automaton Q) : List Q :=
  A.rows.keys

/-- How many states are known. -/
def size (A : Automaton Q) : Nat :=
  A.rows.size

instance : Membership Q (Automaton Q) where
  mem A q := q ∈ A.rows

instance (A : Automaton Q) (q : Q) : Decidable (q ∈ A) :=
  inferInstanceAs (Decidable (q ∈ A.rows))

/-- The row of a state; a label that is not known has an empty one. -/
def row (A : Automaton Q) (q : Q) : Row Q :=
  A.rows[q]?.getD ∅

/-- The targets of the edges from a state on a symbol, if there are such edges. -/
def targets? (A : Automaton Q) (q : Q) (s : Symbol) : Option (StateSet Q) :=
  (A.row q)[s]?

/-- The targets of the edges from a state on a symbol. -/
def targets (A : Automaton Q) (q : Q) (s : Symbol) : StateSet Q :=
  (A.targets? q s).getD ∅

/-- Whether a state is accepting. -/
def isAccepting (A : Automaton Q) (q : Q) : Bool :=
  A.accepting.contains q

/-- The edges of a row that leaves a given state: by symbol, then by target. -/
def Row.edges (q : Q) (row : Row Q) : List (Edge Q) :=
  row.toList.flatMap fun (s, ts) => ts.toList.map fun r => ⟨q, s, r⟩

/-- All edges: by source, then by symbol (those without a byte first), then by target. -/
def edges (A : Automaton Q) : List (Edge Q) :=
  A.rows.toList.flatMap fun (q, row) => Row.edges q row

/-- No state has two ways to go on one byte, or an edge that consumes nothing. -/
def isDeterministic (A : Automaton Q) : Bool :=
  A.rows.all fun _ row => row.all fun s ts => s.isSome && ts.size ≤ 1

/-! ## Building -/

/-- The automaton of one state, which is initial and not accepting. -/
def ofInitial (q : Q) : Automaton Q :=
  ⟨q, (∅ : OrdMap Q (Row Q)).insert q ∅, ∅⟩

/-- Makes a state known. -/
def addState (A : Automaton Q) (q : Q) : Automaton Q :=
  { A with rows := A.rows.insertIfNew q ∅ }

/-- Adds a target for a symbol to a row. -/
def Row.addTarget (row : Row Q) (s : Symbol) (r : Q) : Row Q :=
  row.insert s ((row[s]?.getD ∅).insert r)

/-- Adds an edge; both its ends become known. -/
def addEdge (A : Automaton Q) (e : Edge Q) : Automaton Q :=
  let B := A.addState e.target
  { B with rows := B.rows.insert e.source (Row.addTarget (B.row e.source) e.symbol e.target) }

/-- Makes a state accepting, and known. -/
def addAccepting (A : Automaton Q) (q : Q) : Automaton Q :=
  { A.addState q with accepting := A.accepting.insert q }

/-- Adds some states, some edges and some accepting marks. -/
def extend (A : Automaton Q) (states : List Q) (edges : List (Edge Q)) (accepting : List Q) :
    Automaton Q :=
  accepting.foldl addAccepting (edges.foldl addEdge (states.foldl addState A))

/-- The automaton with a given initial state and given states, edges and accepting states. -/
def ofParts (initial : Q) (states : List Q) (edges : List (Edge Q)) (accepting : List Q) :
    Automaton Q :=
  (ofInitial initial).extend states edges accepting

/-- Adds the states and the edges of another automaton, which keep no other role. -/
def overlay (A B : Automaton Q) : Automaton Q :=
  A.extend B.states B.edges []

/-! ## Stepping -/

/-- The state that follows on a byte, if there is one. It is an error if there is an edge
    that consumes nothing, or else several edges on the byte. -/
def step (A : Automaton Q) (q : Q) (b : UInt8) : Except Nondeterminism (Option Q) :=
  let silent := A.targets q Symbol.epsilon
  let next := A.targets q (some b)
  if silent.isEmpty then
    if next.size ≤ 1 then .ok next.toList.head? else .error ⟨some b, next.size⟩
  else .error ⟨Symbol.epsilon, silent.size⟩

/-! ## Views -/

section Views

variable [LawfulEqOrd Q]

omit [LawfulEqOrd Q] in
theorem mem_def {A : Automaton Q} {q : Q} : q ∈ A ↔ q ∈ A.rows :=
  Iff.rfl

@[simp] theorem mem_states {A : Automaton Q} {q : Q} : q ∈ A.states ↔ q ∈ A := by
  simp [states, mem_def]

theorem mem_rowEdges {q : Q} {row : Row Q} {e : Edge Q} :
    e ∈ Row.edges q row ↔ e.source = q ∧ e.target ∈ (row[e.symbol]?).getD ∅ := by
  simp only [Row.edges, List.mem_flatMap, List.mem_map]
  constructor
  · rintro ⟨⟨s, ts⟩, hrow, r, hr, rfl⟩
    rw [Std.ExtTreeMap.mem_toList_iff_getElem?_eq_some] at hrow
    exact ⟨rfl, by simpa [hrow] using hr⟩
  · rintro ⟨rfl, hr⟩
    obtain ⟨source, s, r⟩ := e
    rcases h : row[s]? with _ | ts
    · simp [h] at hr
    · exact ⟨(s, ts), Std.ExtTreeMap.mem_toList_iff_getElem?_eq_some.mpr h, r,
        by simpa [h] using hr, rfl⟩

/-- An edge is listed exactly if its target is among the targets of its source. -/
theorem mem_edges {A : Automaton Q} {e : Edge Q} :
    e ∈ A.edges ↔ e.target ∈ A.targets e.source e.symbol := by
  simp only [edges, List.mem_flatMap, mem_rowEdges, targets, targets?, row]
  constructor
  · rintro ⟨⟨q, row⟩, hrow, rfl, hr⟩
    rw [Std.ExtTreeMap.mem_toList_iff_getElem?_eq_some] at hrow
    simpa [hrow] using hr
  · intro hr
    rcases h : A.rows[e.source]? with _ | row
    · simp [h] at hr
    · exact ⟨(e.source, row), Std.ExtTreeMap.mem_toList_iff_getElem?_eq_some.mpr h, rfl,
        by simpa [h] using hr⟩

end Views

end Automaton
end ByteLexer
