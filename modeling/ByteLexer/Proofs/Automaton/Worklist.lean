import ByteLexer.Proofs.Automaton.Diagram

/-! # Making a subset construction

    A subset construction can be made set by set. The automaton that is being made says which sets
    have been met: they are its states, with empty rows at first. A list says which of them are
    still to look at. It does not matter which of these is looked at first.

    - **Drafts.** The automaton so far and the sets to look at, and what one step does to them.
    - **Bytes.** What is known after some bytes of a set have been tried, and after all of them.
    - **Halfway.** What holds after any number of steps. So the subset construction has been made
      when there is no set left to look at.
    - **Termination.** A step meets a new set, or it shortens the list.
-/

namespace ByteLexer.Automaton

open Std (TransOrd LawfulEqOrd)
open Relation (ReflTransGen)

variable {Q : Type} [Ord Q] [TransOrd Q] [LawfulEqOrd Q]

/-! ## Drafts -/

/-- A subset construction that is being made: the automaton so far, and those of its states that
    are still to look at. -/
structure Draft (Q : Type) [Ord Q] [TransOrd Q] where
  table : Automaton (StateSet Q)
  pending : List (StateSet Q)

/-- At first there is the initial set only. -/
def Draft.ofStart (A : Automaton Q) : Draft Q :=
  ⟨ofInitial A.start, [A.start]⟩

/-- Tries a byte of a set. The set that it leads to is to look at, unless it has a row already. -/
def Draft.tryByte (A : Automaton Q) (S : StateSet Q) (x : Draft Q) (b : UInt8) : Draft Q :=
  let T := A.move S b
  ⟨(x.table.addState T).addEdge ⟨S, some b, T⟩,
    if T ∈ x.table then x.pending else x.pending ++ [T]⟩

/-- Tries some bytes of a set, one after the other. -/
def Draft.tryBytes (A : Automaton Q) (S : StateSet Q) (x : Draft Q) (bytes : List UInt8) :
    Draft Q :=
  bytes.foldl (tryByte A S) x

/-- Looks at a set: tries the bytes on which its members have edges, in order, and then marks the
    set if it has an accepting member. -/
def Draft.lookAt (A : Automaton Q) (S : StateSet Q) (x : Draft Q) : Draft Q :=
  let tried := x.tryBytes A S (A.inputs S).toList
  if A.meetsAccepting S then { tried with table := tried.table.addAccepting S } else tried

/-- One of the sets to look at is taken off the list, whichever it is, and looked at. -/
inductive Draft.Step (A : Automaton Q) : Draft Q → Draft Q → Prop
  | lookAt {table : Automaton (StateSet Q)} {before after : List (StateSet Q)} {S : StateSet Q} :
      Step A ⟨table, before ++ S :: after⟩ (Draft.lookAt A S ⟨table, before ++ after⟩)

namespace Draft

variable {A : Automaton Q} {R S T : StateSet Q} {s : Symbol} {x y : Draft Q}
  {bytes : List UInt8}

/-! ## Bytes -/

theorem mem_table_tryByte (hS : S ∈ x.table) (b : UInt8) :
    T ∈ (x.tryByte A S b).table ↔ T ∈ x.table ∨ T = A.move S b := by
  show T ∈ (x.table.addState _).addEdge _ ↔ _
  rw [mem_addEdge, mem_addState]
  constructor
  · intro h
    rcases h with rfl | hT | hT | hT
    · exact .inl hS
    · exact .inr hT
    · exact .inr hT
    · exact .inl hT
  · intro h
    rcases h with hT | hT
    · exact .inr (.inr (.inr hT))
    · exact .inr (.inl hT)

/-- The sets that bytes lead to are known once these have been tried. -/
theorem mem_table_tryBytes (hS : S ∈ x.table) :
    T ∈ (x.tryBytes A S bytes).table ↔ T ∈ x.table ∨ ∃ b ∈ bytes, T = A.move S b := by
  unfold tryBytes
  induction bytes generalizing x with
  | nil => simp
  | cons b bytes ih =>
    rw [List.foldl_cons, ih ((mem_table_tryByte hS b).mpr (.inl hS)), mem_table_tryByte hS]
    simp only [List.mem_cons, exists_eq_or_imp, or_assoc]

/-- There is an edge on each of them. -/
theorem mem_targets_tryBytes : T ∈ (x.tryBytes A S bytes).table.targets R s ↔
    T ∈ x.table.targets R s ∨ R = S ∧ ∃ b ∈ bytes, s = some b ∧ T = A.move S b := by
  unfold tryBytes
  induction bytes generalizing x with
  | nil => simp
  | cons b bytes ih =>
    have htry : T ∈ (x.tryByte A S b).table.targets R s ↔
        T ∈ x.table.targets R s ∨ R = S ∧ s = some b ∧ T = A.move S b := by
      show T ∈ ((x.table.addState _).addEdge _).targets R s ↔ _
      rw [mem_targets_addEdge, targets_addState, Edge.mk.injEq, or_comm]
    rw [List.foldl_cons, ih, htry]
    simp only [List.mem_cons, exists_eq_or_imp, or_assoc, and_or_left]

theorem accepting_tryBytes :
    (x.tryBytes A S bytes).table.accepting = x.table.accepting := by
  unfold tryBytes
  induction bytes generalizing x with
  | nil => rfl
  | cons b bytes ih => exact ih

theorem initial_tryBytes : (x.tryBytes A S bytes).table.initial = x.table.initial := by
  unfold tryBytes
  induction bytes generalizing x with
  | nil => rfl
  | cons b bytes ih => exact ih

theorem wellFormed_tryBytes (h : x.table.WellFormed) :
    (x.tryBytes A S bytes).table.WellFormed := by
  unfold tryBytes
  induction bytes generalizing x with
  | nil => exact h
  | cons b bytes ih =>
    have hstate : (x.table.addState (A.move S b)).WellFormed := h.extend [_] [] []
    exact ih (hstate.extend [] [_] [])

/-- The sets that were not known before are put on the list. -/
theorem exists_pending_tryBytes (hS : S ∈ x.table) : ∃ fresh : List (StateSet Q),
    (x.tryBytes A S bytes).pending = x.pending ++ fresh ∧
    ∀ T, T ∈ fresh ↔ T ∉ x.table ∧ ∃ b ∈ bytes, T = A.move S b := by
  unfold tryBytes
  induction bytes generalizing x with
  | nil => exact ⟨[], (List.append_nil _).symm, by simp⟩
  | cons b bytes ih =>
    obtain ⟨fresh, hpending, hfresh⟩ := ih ((mem_table_tryByte (A := A) hS b).mpr (.inl hS))
    have hknown : ∀ T, T ∉ (x.tryByte A S b).table ↔ T ∉ x.table ∧ T ≠ A.move S b := by
      intro T
      rw [mem_table_tryByte hS, not_or]
    simp only [hknown] at hfresh
    rw [List.foldl_cons, hpending]
    by_cases hb : A.move S b ∈ x.table
    · refine ⟨fresh, ?_, fun T => ?_⟩
      · show (if _ then x.pending else _) ++ fresh = _
        rw [if_pos hb]
      · rw [hfresh]
        simp only [List.mem_cons, exists_eq_or_imp]
        constructor
        · intro h
          exact ⟨h.1.1, .inr h.2⟩
        · intro h
          have hne : T ≠ A.move S b := fun heq => h.1 (heq ▸ hb)
          exact ⟨⟨h.1, hne⟩, h.2.resolve_left hne⟩
    · refine ⟨A.move S b :: fresh, ?_, fun T => ?_⟩
      · show (if _ then x.pending else x.pending ++ [A.move S b]) ++ fresh = _
        rw [if_neg hb, List.append_assoc, List.singleton_append]
      · rw [List.mem_cons, hfresh]
        simp only [List.mem_cons, exists_eq_or_imp]
        by_cases hT : T = A.move S b
        · subst hT
          simp [hb]
        · simp [hT]

/-! ## Looking at a set -/

theorem pending_lookAt (A : Automaton Q) (S : StateSet Q) (x : Draft Q) :
    (x.lookAt A S).pending = (x.tryBytes A S (A.inputs S).toList).pending := by
  unfold lookAt
  split <;> rfl

theorem mem_table_lookAt (hS : S ∈ x.table) :
    T ∈ (x.lookAt A S).table ↔ T ∈ x.table ∨ ∃ b ∈ A.inputs S, T = A.move S b := by
  have htried : T ∈ (x.lookAt A S).table ↔
      T ∈ (x.tryBytes A S (A.inputs S).toList).table := by
    unfold lookAt
    split
    · -- the set that is marked is known already
      show T ∈ addAccepting _ S ↔ _
      rw [mem_addAccepting]
      refine or_iff_right_of_imp fun hT => ?_
      rw [hT, mem_table_tryBytes hS]
      exact .inl hS
    · rfl
  rw [htried, mem_table_tryBytes hS]
  simp only [Std.ExtTreeSet.mem_toList]

theorem mem_targets_lookAt : T ∈ (x.lookAt A S).table.targets R s ↔
    T ∈ x.table.targets R s ∨ R = S ∧ ∃ b ∈ A.inputs S, s = some b ∧ T = A.move S b := by
  have htried : (x.lookAt A S).table.targets R s =
      (x.tryBytes A S (A.inputs S).toList).table.targets R s := by
    unfold lookAt
    split
    · exact targets_addAccepting
    · rfl
  rw [htried, mem_targets_tryBytes]
  simp only [Std.ExtTreeSet.mem_toList]

theorem mem_accepting_lookAt : T ∈ (x.lookAt A S).table.accepting ↔
    T ∈ x.table.accepting ∨ T = S ∧ A.meetsAccepting S = true := by
  unfold lookAt
  split
  · rename_i hS
    rw [mem_accepting_addAccepting, accepting_tryBytes, or_comm]
    simp only [hS, and_true]
  · rename_i hS
    rw [accepting_tryBytes]
    exact (or_iff_left fun h => hS h.2).symm

theorem initial_lookAt : (x.lookAt A S).table.initial = x.table.initial := by
  unfold lookAt
  split
  · exact initial_tryBytes
  · exact initial_tryBytes

theorem wellFormed_lookAt (h : x.table.WellFormed) : (x.lookAt A S).table.WellFormed := by
  have htried : (x.tryBytes A S (A.inputs S).toList).table.WellFormed := wellFormed_tryBytes h
  unfold lookAt
  split
  · exact htried.extend [] [] [S]
  · exact htried

/-- What is to look at then: the sets from before, and those that were not known. -/
theorem exists_pending_lookAt (hS : S ∈ x.table) : ∃ fresh : List (StateSet Q),
    (x.lookAt A S).pending = x.pending ++ fresh ∧
    ∀ T, T ∈ fresh ↔ T ∉ x.table ∧ ∃ b ∈ A.inputs S, T = A.move S b := by
  rw [pending_lookAt]
  simp only [← Std.ExtTreeSet.mem_toList (t := A.inputs S)]
  exact exists_pending_tryBytes hS

/-! ## Halfway -/

/-- A subset construction is somewhere on the way.

    - `wellFormed`, `initial`: the automaton so far has the right initial state, and whatever it
      names is a state of it.
    - `pending`: only states are to look at.
    - `met`, `edges`, `marks`: all that there is so far belongs to the construction.
    - `looked`: of a state that is not to look at, nothing is missing. -/
structure Halfway (A : Automaton Q) (x : Draft Q) : Prop where
  wellFormed : x.table.WellFormed
  initial : x.table.initial = A.start
  pending : ∀ S ∈ x.pending, S ∈ x.table
  met : ∀ S, S ∈ x.table → A.Met S
  edges : ∀ S s T, T ∈ x.table.targets S s → ∃ b ∈ A.inputs S, s = some b ∧ T = A.move S b
  marks : ∀ S ∈ x.table.accepting, A.meetsAccepting S = true
  looked : ∀ S, S ∈ x.table → S ∉ x.pending →
    (∀ b ∈ A.inputs S, A.move S b ∈ x.table.targets S (some b)) ∧
    (A.meetsAccepting S = true → S ∈ x.table.accepting)

theorem halfway_ofStart (A : Automaton Q) : Halfway A (ofStart A) where
  wellFormed := wellFormed_ofInitial A.start
  initial := rfl
  pending S hS := by
    rw [List.mem_singleton.mp hS]
    exact mem_ofInitial.mpr rfl
  met S hS := by
    rw [mem_ofInitial.mp hS]
    exact A.met_start
  edges S s T hT := absurd hT not_mem_targets_ofInitial
  marks S hS := absurd hS not_mem_accepting_ofInitial
  looked S hS hnot := absurd (List.mem_singleton.mpr (mem_ofInitial.mp hS)) hnot

/-- Every step stays on the way. -/
theorem Halfway.step (hx : Halfway A x) (h : Step A x y) : Halfway A y := by
  cases h with
  | @lookAt table before after S =>
    have hS : S ∈ table := hx.pending S (List.mem_append_right before List.mem_cons_self)
    have hrest : ∀ T, T ∈ before ++ S :: after ↔ T = S ∨ T ∈ before ++ after := by
      intro T
      simp only [List.mem_append, List.mem_cons, or_left_comm]
    obtain ⟨fresh, hpending, hfresh⟩ :=
      exists_pending_lookAt (A := A) (x := ⟨table, before ++ after⟩) hS
    constructor
    case wellFormed => exact wellFormed_lookAt hx.wellFormed
    case initial => exact initial_lookAt.trans hx.initial
    case pending =>
      intro T hT
      rw [hpending, List.mem_append] at hT
      rw [mem_table_lookAt hS]
      rcases hT with hT | hT
      · exact .inl (hx.pending T ((hrest T).mpr (.inr hT)))
      · exact .inr ((hfresh T).mp hT).2
    case met =>
      intro T hT
      rcases (mem_table_lookAt hS).mp hT with hT | ⟨b, hb, rfl⟩
      · exact hx.met T hT
      · exact (hx.met S hS).move hb
    case edges =>
      intro R s T hT
      rcases mem_targets_lookAt.mp hT with hT | ⟨rfl, hT⟩
      · exact hx.edges R s T hT
      · exact hT
    case marks =>
      intro T hT
      rcases mem_accepting_lookAt.mp hT with hT | ⟨rfl, hT⟩
      · exact hx.marks T hT
      · exact hT
    case looked =>
      intro T hT hnot
      rw [hpending, List.mem_append, not_or] at hnot
      simp only [mem_targets_lookAt, mem_accepting_lookAt]
      by_cases hTS : T = S
      · -- the set that has been looked at just now
        subst hTS
        exact ⟨fun b hb => .inr ⟨rfl, b, hb, rfl, rfl⟩, fun hacc => .inr ⟨rfl, hacc⟩⟩
      · -- a set that was known before, as it would be to look at otherwise
        have hknown : T ∈ table := by
          rcases (mem_table_lookAt hS).mp hT with hT | hT
          · exact hT
          · by_contra hnew
            exact hnot.2 ((hfresh T).mpr ⟨hnew, hT⟩)
        have hlooked : T ∉ before ++ S :: after := by
          rw [hrest, not_or]
          exact ⟨hTS, hnot.1⟩
        obtain ⟨hedges, hmark⟩ := hx.looked T hknown hlooked
        exact ⟨fun b hb => .inl (hedges b hb), fun hacc => .inl (hmark hacc)⟩

/-- So does any number of steps. -/
theorem Halfway.steps (hx : Halfway A x) (h : ReflTransGen (Step A) x y) : Halfway A y := by
  induction h with
  | refl => exact hx
  | tail _ hstep ih => exact ih.step hstep

/-- Where nothing is left to look at, all sets that can be met are known. -/
theorem Halfway.mem_table_of_met (hx : Halfway A x) (h : x.pending = []) (hS : A.Met S) :
    S ∈ x.table := by
  unfold Met at hS
  induction hS with
  | start hv =>
    rw [List.mem_singleton.mp hv, ← hx.initial]
    exact hx.wellFormed.initial
  | @step S e _ he ih =>
    have hmove : e.1 ∈ A.inputs S ∧ e.2 = A.move S e.1 := mem_moves.mp he
    have hlooked : S ∉ x.pending := by
      rw [h]
      exact List.not_mem_nil
    rw [hmove.2]
    exact (hx.wellFormed.ends S _ _ ((hx.looked S ih hlooked).1 e.1 hmove.1)).2

/-- The subset construction has been made then. -/
theorem Halfway.table_eq (hx : Halfway A x) (h : x.pending = []) :
    x.table = A.subsetConstruction := by
  have hlooked : ∀ S, A.Met S → (∀ b ∈ A.inputs S, A.move S b ∈ x.table.targets S (some b)) ∧
      (A.meetsAccepting S = true → S ∈ x.table.accepting) := by
    intro S hS
    refine hx.looked S (hx.mem_table_of_met h hS) ?_
    rw [h]
    exact List.not_mem_nil
  apply eq_of_diagram_eq hx.wellFormed.tidy A.tidy_subsetConstruction
  ext S
  · show S ∈ x.table.initial ↔ S ∈ A.subsetConstruction.initial
    rw [hx.initial, initial_subsetConstruction]
  · show S ∈ x.table ↔ S ∈ A.subsetConstruction
    rw [mem_subsetConstruction]
    exact ⟨hx.met S, hx.mem_table_of_met h⟩
  · show S.target ∈ x.table.targets S.source S.symbol ↔
      S.target ∈ A.subsetConstruction.targets S.source S.symbol
    rw [mem_targets_subsetConstruction]
    constructor
    · intro hT
      obtain ⟨b, hb, hs, hT'⟩ := hx.edges _ _ _ hT
      exact ⟨hx.met _ (hx.wellFormed.ends _ _ _ hT).1, b, hs, hb, hT'⟩
    · intro hand
      obtain ⟨hmet, b, hs, hb, hT⟩ := hand
      rw [hs, hT]
      exact (hlooked _ hmet).1 b hb
  · show S ∈ x.table.accepting ↔ S ∈ A.subsetConstruction.accepting
    rw [mem_accepting_subsetConstruction, ← meetsAccepting_iff]
    constructor
    · intro hS
      exact ⟨hx.met S (hx.wellFormed.accepting S hS), hx.marks S hS⟩
    · intro hand
      exact (hlooked S hand.1).2 hand.2

/-! ## Termination -/

/-- Either more of the sets have been met, or fewer are to look at. -/
theorem Halfway.shrinks {within : List (StateSet Q)} (hx : Halfway A x) (h : Step A x y)
    (hwithin : ∀ S, A.Met S → S ∈ within) :
    Prod.Lex (· < ·) (· < ·)
      (Graph.unseen within (OrdSet.ofMembers y.table.states), y.pending.length)
      (Graph.unseen within (OrdSet.ofMembers x.table.states), x.pending.length) := by
  have hy := hx.step h
  cases h with
  | @lookAt table before after S =>
    have hS : S ∈ table := hx.pending S (List.mem_append_right before List.mem_cons_self)
    have hkeep : ∀ T ∈ OrdSet.ofMembers table.states,
        T ∈ OrdSet.ofMembers (lookAt A S ⟨table, before ++ after⟩).table.states := by
      simp only [OrdSet.mem_ofMembers, mem_states]
      exact fun T hT => (mem_table_lookAt hS).mpr (.inl hT)
    obtain ⟨fresh, hpending, hfresh⟩ :=
      exists_pending_lookAt (A := A) (x := ⟨table, before ++ after⟩) hS
    rcases fresh with _ | ⟨T, fresh⟩
    · have hlength : (lookAt A S ⟨table, before ++ after⟩).pending.length <
          (before ++ S :: after).length := by
        rw [hpending, List.append_nil, List.length_append, List.length_append, List.length_cons]
        exact Nat.lt_succ_self _
      rcases Nat.lt_or_eq_of_le (Graph.unseen_le within hkeep) with hlt | heq
      · exact Prod.Lex.left _ _ hlt
      · rw [heq]
        exact Prod.Lex.right _ hlength
    · -- a set has been met that was not known
      obtain ⟨hnew, hT⟩ := (hfresh T).mp List.mem_cons_self
      have hknown : T ∈ (lookAt A S ⟨table, before ++ after⟩).table :=
        (mem_table_lookAt hS).mpr (.inr hT)
      refine Prod.Lex.left _ _ (Graph.unseen_lt hkeep (hwithin T (hy.met T hknown)) ?_ ?_)
      · rwa [OrdSet.mem_ofMembers, mem_states]
      · rwa [OrdSet.mem_ofMembers, mem_states]

theorem acc_of_halfway {within : List (StateSet Q)} (hwithin : ∀ S, A.Met S → S ∈ within)
    (x : Draft Q) (hx : Halfway A x) : Acc (fun y x => Step A x y) x :=
  ⟨x, fun y hstep => acc_of_halfway hwithin y (hx.step hstep)⟩
termination_by (Graph.unseen within (OrdSet.ofMembers x.table.states), x.pending.length)
decreasing_by exact hx.shrinks hstep hwithin

/-- No construction goes on forever, in whatever order sets are looked at. -/
theorem acc_ofStart (A : Automaton Q) : Acc (fun y x => Step A x y) (ofStart A) := by
  obtain ⟨within, hstarts, hclosed⟩ := A.bounded_moves [A.start]
  have hwithin : ∀ S, A.Met S → S ∈ within := by
    intro S hS
    unfold Met at hS
    induction hS with
    | start hv => exact hstarts _ hv
    | step _ he ih => exact hclosed _ ih _ he
  exact acc_of_halfway hwithin _ (halfway_ofStart A)

/-- It goes on as long as there is a set to look at. -/
theorem exists_step (h : x.pending ≠ []) : ∃ y, Step A x y := by
  obtain ⟨table, pending⟩ := x
  obtain ⟨S, rest, rfl⟩ := List.exists_cons_of_ne_nil h
  have hstep : Step A ⟨table, [] ++ S :: rest⟩ (lookAt A S ⟨table, [] ++ rest⟩) := .lookAt
  exact ⟨_, hstep⟩

/-- So it comes to its end. -/
theorem exists_done (hx : Acc (fun y x => Step A x y) x) :
    ∃ y, ReflTransGen (Step A) x y ∧ y.pending = [] := by
  induction hx with
  | intro x _ ih =>
    by_cases h : x.pending = []
    · exact ⟨x, .refl, h⟩
    · obtain ⟨y, hstep⟩ := exists_step h
      obtain ⟨z, hsteps, hdone⟩ := ih y hstep
      exact ⟨z, .head hstep hsteps, hdone⟩

end Draft

end ByteLexer.Automaton
