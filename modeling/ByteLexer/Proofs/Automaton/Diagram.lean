import ByteLexer.Proofs.Automaton.Subset
import ByteLexer.Proofs.Automaton.Visits
import Mathlib.Data.List.Perm.Basic
import Mathlib.Data.Set.Card

/-! # What an automaton shows

    The known states of an automaton are those that have a row, so every operation has to make the
    rows that are missing. Seen from outside, an automaton is no more than an initial state, a set
    of states, a set of edges and a set of accepting states, and an operation does to these what it
    is meant to do.

    - **Diagrams**, and what the operations mean for them.
    - **Well-formed automata.** Whatever is named is known, and no set of targets is empty.
    - **The diagram of an automaton.** What each operation does to it.
    - **Showing.** What can be looked up in a tidy automaton is what its diagram says, and its
      diagram is all that there is to it.
-/

namespace ByteLexer

open Std (TransOrd LawfulEqOrd)

/-! ## Diagrams -/

/-- An initial state, some states, some edges between states, and some accepting states. -/
@[ext]
structure Diagram (Q : Type) where
  initial : Q
  states : Set Q
  edges : Set (Edge Q)
  accepting : Set Q

namespace Diagram

variable {Q P : Type}

/-- One state, which is initial. -/
def ofInitial (q : Q) : Diagram Q :=
  ⟨q, {q}, ∅, ∅⟩

/-- A state more. -/
def addState (D : Diagram Q) (q : Q) : Diagram Q :=
  { D with states := insert q D.states }

/-- An edge more, with both its ends. -/
def addEdge (D : Diagram Q) (e : Edge Q) : Diagram Q :=
  { D with states := insert e.source (insert e.target D.states), edges := insert e D.edges }

/-- An accepting state more. -/
def addAccepting (D : Diagram Q) (q : Q) : Diagram Q :=
  { D with states := insert q D.states, accepting := insert q D.accepting }

/-- The states and the edges of another diagram more. -/
def overlay (D E : Diagram Q) : Diagram Q :=
  { D with states := D.states ∪ E.states, edges := D.edges ∪ E.edges }

/-- The images of everything. -/
def image (f : Q → P) (D : Diagram Q) : Diagram P :=
  ⟨f D.initial, f '' D.states, Edge.image f '' D.edges, f '' D.accepting⟩

/-- It does not matter which of two diagrams is added first. -/
theorem overlay_right_comm (D E F : Diagram Q) :
    (D.overlay E).overlay F = (D.overlay F).overlay E := by
  unfold overlay
  simp only [Set.union_right_comm]

/-- To add a diagram twice is to add it once. -/
theorem overlay_overlay_self (D E : Diagram Q) : (D.overlay E).overlay E = D.overlay E := by
  unfold overlay
  simp only [Set.union_assoc, Set.union_self]

/-- Several diagrams may be added in any order. -/
theorem foldl_overlay_perm {Es Fs : List (Diagram Q)} (h : Es.Perm Fs) (D : Diagram Q) :
    Es.foldl overlay D = Fs.foldl overlay D := by
  have hcomm : RightCommutative (overlay (Q := Q)) := ⟨overlay_right_comm⟩
  exact h.foldl_eq D

/-- What may be stored for a state and a symbol: nothing where no edge leaves, and otherwise the
    set of the targets. -/
def Stores [Ord Q] [TransOrd Q] (D : Diagram Q) (q : Q) (s : Symbol) :
    Option (StateSet Q) → Prop
  | none => ∀ r, ⟨q, s, r⟩ ∉ D.edges
  | some ts => (∃ r, ⟨q, s, r⟩ ∈ D.edges) ∧ ∀ r, r ∈ ts ↔ ⟨q, s, r⟩ ∈ D.edges

/-- There is one way to store it. -/
theorem Stores.unique [Ord Q] [TransOrd Q] [LawfulEqOrd Q] {D : Diagram Q} {q : Q} {s : Symbol}
    {x y : Option (StateSet Q)} (hx : D.Stores q s x) (hy : D.Stores q s y) : x = y := by
  cases x with
  | none =>
    cases y with
    | none => rfl
    | some ts =>
      -- one of the two says that an edge leaves, the other one that none does
      obtain ⟨r, hr⟩ := hy.1
      exact absurd hr (hx r)
  | some ts =>
    cases y with
    | none =>
      obtain ⟨r, hr⟩ := hx.1
      exact absurd hr (hy r)
    | some us =>
      have hsame : ts = us := Std.ExtTreeSet.ext_mem fun r => (hx.2 r).trans (hy.2 r).symm
      rw [hsame]

end Diagram

namespace Automaton

variable {Q P : Type} [Ord Q] [TransOrd Q] [LawfulEqOrd Q] [Ord P] [TransOrd P] [LawfulEqOrd P]
  {A B : Automaton Q}

/-! ## Well-formed automata -/

/-- The initial state, the accepting states and the ends of the edges are known, and no set of
    targets that is stored is empty. -/
structure WellFormed (A : Automaton Q) : Prop where
  initial : A.initial ∈ A
  accepting : ∀ q ∈ A.accepting, q ∈ A
  ends : ∀ q s r, r ∈ A.targets q s → q ∈ A ∧ r ∈ A
  tidy : A.Tidy

theorem wellFormed_ofInitial (q : Q) : (ofInitial q).WellFormed where
  initial := mem_ofInitial.mpr rfl
  accepting _ hp := absurd hp not_mem_accepting_ofInitial
  ends _ _ _ hr := absurd hr not_mem_targets_ofInitial
  tidy := tidy_ofInitial q

/-- Whatever is added, with whatever ends, an automaton stays well-formed. -/
theorem WellFormed.extend (h : A.WellFormed) (states : List Q) (edges : List (Edge Q))
    (accepting : List Q) : (A.extend states edges accepting).WellFormed where
  initial := by
    rw [initial_extend, mem_extend]
    exact .inl h.initial
  accepting q hq := by
    rw [mem_extend]
    rcases mem_accepting_extend.mp hq with hq | hq
    · exact .inl (h.accepting q hq)
    · exact .inr (.inr (.inr hq))
  ends q s r hr := by
    rw [mem_extend, mem_extend]
    rcases mem_targets_extend.mp hr with hr | he
    · obtain ⟨hq, hr⟩ := h.ends q s r hr
      exact ⟨.inl hq, .inl hr⟩
    · -- an added edge makes its ends known
      exact ⟨.inr (.inr (.inl ⟨_, he, .inl rfl⟩)), .inr (.inr (.inl ⟨_, he, .inr rfl⟩))⟩
  tidy := h.tidy.extend states edges accepting

theorem wellFormed_ofParts (q : Q) (states : List Q) (edges : List (Edge Q)) (accepting : List Q) :
    (ofParts q states edges accepting).WellFormed :=
  (wellFormed_ofInitial q).extend states edges accepting

/-- The visited states of a well-formed automaton are its known ones. -/
theorem WellFormed.mem_visitOrder_iff (h : A.WellFormed) {q : Q} :
    q ∈ A.visitOrder ↔ q ∈ A := by
  refine ⟨fun hq => ?_, mem_visitOrder_of_mem⟩
  rcases Automaton.mem_visitOrder_iff.mp hq with rfl | hq | ⟨p, s, hq⟩
  · exact h.initial
  · exact hq
  · exact (h.ends p s q hq).2

/-! ## The diagram of an automaton -/

/-- The diagram that an automaton shows. -/
def diagram (A : Automaton Q) : Diagram Q where
  initial := A.initial
  states := {q | q ∈ A}
  edges := {e | e.target ∈ A.targets e.source e.symbol}
  accepting := {q | q ∈ A.accepting}

theorem diagram_ofInitial (q : Q) : (ofInitial q).diagram = Diagram.ofInitial q := by
  ext x
  · rfl
  · exact mem_ofInitial
  · exact iff_of_false not_mem_targets_ofInitial (Set.notMem_empty x)
  · exact iff_of_false not_mem_accepting_ofInitial (Set.notMem_empty x)

theorem diagram_addState (A : Automaton Q) (q : Q) :
    (A.addState q).diagram = A.diagram.addState q := by
  ext x
  · rfl
  · exact mem_addState
  · show x.target ∈ (A.addState q).targets x.source x.symbol ↔ _
    rw [targets_addState]
    rfl
  · rfl

theorem diagram_addEdge (A : Automaton Q) (e : Edge Q) :
    (A.addEdge e).diagram = A.diagram.addEdge e := by
  ext x
  · rfl
  · exact mem_addEdge
  · exact mem_targets_addEdge
  · rfl

theorem diagram_addAccepting (A : Automaton Q) (q : Q) :
    (A.addAccepting q).diagram = A.diagram.addAccepting q := by
  ext x
  · rfl
  · exact mem_addAccepting
  · show x.target ∈ (A.addAccepting q).targets x.source x.symbol ↔ _
    rw [targets_addAccepting]
    rfl
  · exact mem_accepting_addAccepting

/-- The other automaton gives its states and its edges, whose ends are among its states. -/
theorem diagram_overlay (A : Automaton Q) (hB : B.WellFormed) :
    (A.overlay B).diagram = A.diagram.overlay B.diagram := by
  ext x
  · exact initial_overlay
  · show x ∈ A.overlay B ↔ x ∈ A ∨ x ∈ B
    unfold overlay
    rw [mem_extend, mem_states]
    refine or_congr_right ⟨fun h => ?_, fun h => .inl h⟩
    rcases h with h | ⟨e, he, h⟩ | h
    · exact h
    · -- the ends of its edges were its states before
      obtain ⟨hsource, htarget⟩ := hB.ends _ _ _ (mem_edges.mp he)
      rcases h with h | h
      · rw [h]
        exact hsource
      · rw [h]
        exact htarget
    · cases h
  · exact mem_targets_overlay
  · exact mem_accepting_overlay

/-- Whatever is named by a well-formed automaton is a state of it, so an image has no other states
    than the images of these. -/
theorem diagram_image (hA : A.WellFormed) (f : Q → P) :
    (A.image f).diagram = A.diagram.image f := by
  ext x
  · exact initial_image
  · show x ∈ A.image f ↔ ∃ q, q ∈ A ∧ f q = x
    rw [mem_image_iff hA.accepting]
    simp only [hA.mem_visitOrder_iff]
  · show x.target ∈ (A.image f).targets x.source x.symbol ↔
      ∃ e : Edge Q, e.target ∈ A.targets e.source e.symbol ∧ e.image f = x
    rw [mem_targets_image]
    constructor
    · intro hex
      obtain ⟨q, t, ht, hq, hx⟩ := hex
      refine ⟨⟨q, x.symbol, t⟩, ht, ?_⟩
      unfold Edge.image
      rw [hq, hx]
    · intro hex
      obtain ⟨e, he, rfl⟩ := hex
      exact ⟨e.source, e.target, he, rfl, rfl⟩
  · exact mem_accepting_image

/-! ## Showing -/

omit [LawfulEqOrd Q] in
/-- What is stored in a tidy automaton is what its diagram says. -/
theorem Tidy.stores (h : A.Tidy) (q : Q) (s : Symbol) : A.diagram.Stores q s (A.targets? q s) := by
  have hedge : ∀ r, ⟨q, s, r⟩ ∈ A.diagram.edges ↔ r ∈ (A.targets? q s).getD ∅ := fun r => Iff.rfl
  rcases hts : A.targets? q s with _ | ts
  · intro r hr
    rw [hedge, hts] at hr
    exact Std.ExtTreeSet.not_mem_empty hr
  · have hmem : ∀ r, r ∈ ts ↔ ⟨q, s, r⟩ ∈ A.diagram.edges := by
      intro r
      rw [hedge, hts, Option.getD_some]
    obtain ⟨r, hr⟩ := h q s ts hts
    exact ⟨⟨r, (hmem r).mp hr⟩, hmem⟩

omit [LawfulEqOrd Q] in
/-- A known state has the row that is looked up for it. -/
theorem getElem?_rows (A : Automaton Q) (q : Q) :
    A.rows[q]? = if q ∈ A then some (A.row q) else none := by
  unfold row
  split
  · rename_i hq
    obtain ⟨x, hx⟩ := OrdMap.mem_iff_exists.mp (mem_def.mp hq)
    rw [hx]
    rfl
  · rename_i hq
    rw [mem_def] at hq
    exact Std.ExtTreeMap.getElem?_eq_none hq

/-- Tidy automata that show the same are the same. -/
theorem eq_of_diagram_eq (hA : A.Tidy) (hB : B.Tidy) (h : A.diagram = B.diagram) : A = B := by
  have hrow : ∀ q, A.row q = B.row q := by
    intro q
    apply Std.ExtTreeMap.ext_getElem?
    intro s
    -- both rows store what the one diagram says
    have hstores := hB.stores q s
    rw [← h] at hstores
    exact (hA.stores q s).unique hstores
  have hrows : A.rows = B.rows := by
    apply Std.ExtTreeMap.ext_getElem?
    intro q
    have hq : q ∈ A ↔ q ∈ B := Set.ext_iff.mp (congrArg Diagram.states h) q
    rw [getElem?_rows, getElem?_rows, hrow]
    simp only [hq]
  have haccepting : A.accepting = B.accepting := by
    apply Std.ExtTreeSet.ext_mem
    intro q
    exact Set.ext_iff.mp (congrArg Diagram.accepting h) q
  have hinitial : A.initial = B.initial := congrArg Diagram.initial h
  cases A
  cases B
  simp only at hinitial hrows haccepting
  rw [hinitial, hrows, haccepting]

/-- An automaton shows a diagram to whoever looks at it. Its known states are listed in order, and
    counted. What is looked up for a state and a symbol is right, as is each row that is listed for
    a state, and the list of all edges. -/
structure Shows (A : Automaton Q) (D : Diagram Q) : Prop where
  initial : A.initial = D.initial
  states : ∀ q, q ∈ A.states ↔ q ∈ D.states
  ordered : A.states.Pairwise fun p q => compare p q = .lt
  size : A.size = D.states.ncard
  targets : ∀ q s, D.Stores q s (A.targets? q s)
  accepting : ∀ q, q ∈ A.accepting ↔ q ∈ D.accepting
  rows : A.rows.toList.map Prod.fst = A.states
  row : ∀ q row, (q, row) ∈ A.rows.toList → ∀ s, D.Stores q s row[s]?
  edges : ∀ e, e ∈ A.edges ↔ e ∈ D.edges

omit [Ord Q] [TransOrd Q] [LawfulEqOrd Q] in
/-- A list without repetitions is as long as its entries are many. -/
theorem ncard_setOf_mem {l : List Q} (h : l.Nodup) : {q | q ∈ l}.ncard = l.length := by
  classical
  have hset : {q | q ∈ l} = (l.toFinset : Set Q) := by
    ext q
    exact List.mem_toFinset.symm
  rw [hset, Set.ncard_coe_finset, List.toFinset_card_of_nodup h]

/-- Each state is listed once. -/
theorem ncard_states (A : Automaton Q) : A.diagram.states.ncard = A.size := by
  have hnodup : A.states.Nodup := Std.ExtTreeMap.nodup_keys
  have hcount := ncard_setOf_mem hnodup
  simp only [mem_states] at hcount
  exact hcount.trans Std.ExtTreeMap.length_keys

/-- A tidy automaton shows its diagram. -/
theorem Tidy.shows (h : A.Tidy) : A.Shows A.diagram where
  initial := rfl
  states q := mem_states
  ordered := Std.ExtTreeMap.ordered_keys
  size := A.ncard_states.symm
  targets := h.stores
  accepting q := Iff.rfl
  rows := Std.ExtTreeMap.map_fst_toList_eq_keys
  row q row hrow s := by
    have hlookup : A.row q = row := by
      unfold Automaton.row
      rw [Std.ExtTreeMap.mem_toList_iff_getElem?_eq_some.mp hrow]
      rfl
    rw [← hlookup]
    exact h.stores q s
  edges e := mem_edges

end Automaton

end ByteLexer
