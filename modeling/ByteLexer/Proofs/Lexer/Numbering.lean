import ByteLexer.Proofs.Automaton.Relabelling
import ByteLexer.Proofs.Lexer.States

/-! # The numbers of the states

    The states of a compiled lexer stand for the sets of states that its merged automaton can be
    in. Interning loses nothing of the automaton of these sets, and it leaves no gap in the numbers.

    - **Numbers.** Those that are given to the sets of one sort, from the next one on.
    - **The automaton.** Which of its states are accepting, and what number its initial state has.
    - **Compilation.** All this for every table that compiles.
-/

namespace ByteLexer

open Automaton

/-! ## Numbers -/

section Numbers

variable {nfa : Regex} {kinds : List String}

/-- The sets of a sort get the numbers of the sort one after the other, by induction on the sets
    that are interned. -/
theorem filter_run_intern (sets : List (StateSet String)) (n : Numbering) (sort : Option Nat) :
    ((sets.mapM (intern nfa kinds)).run n).1.filter (fun q => q.kind? = sort) =
      (List.range' (n.next sort) (sets.countP fun S => winner nfa kinds S = sort)).map
        (LexerState.ofSort sort) := by
  induction sets generalizing n with
  | nil => rfl
  | cons S sets ih =>
    have hrun : (((S :: sets).mapM (intern nfa kinds)).run n).1 =
        (n.take (winner nfa kinds S)).1 ::
          ((sets.mapM (intern nfa kinds)).run (n.take (winner nfa kinds S)).2).1 := by
      rw [List.mapM_cons]
      rfl
    rw [hrun, Numbering.fst_take, List.filter_cons, LexerState.kind?_ofSort, ih,
      Numbering.next_snd_take, List.countP_cons]
    by_cases hsort : winner nfa kinds S = sort
    · -- the first number is taken, and the others follow it
      simp only [hsort, decide_true, if_true, List.range'_succ, List.map_cons]
    · simp only [hsort, decide_false, if_false, Nat.add_zero, Bool.false_eq_true]

end Numbers

/-! ## The automaton -/

namespace Lexer

variable {patterns : List Pattern} {q : LexerState} {S T : StateSet String}

theorem stateOf_injective (hS : S ∈ (merged patterns).subsetConstruction)
    (hT : T ∈ (merged patterns).subsetConstruction)
    (h : stateOf patterns S = stateOf patterns T) : S = T :=
  internedAs_injective (mem_visitOrder_of_mem hS) (mem_visitOrder_of_mem hT) h

/-- A known state is accepting exactly if it says that a token may end in it. -/
theorem mem_accepting_iff_kind? (h : ValidTable patterns)
    (hq : q ∈ (ofPatterns patterns).automaton) :
    q ∈ (ofPatterns patterns).automaton.accepting ↔ ∃ kind number, q = .final kind number := by
  obtain ⟨w, hw⟩ := exists_path_of_mem h hq
  have hkind := kind?_of_path h hw
  rw [mem_accepting_iff_of_path h hw]
  cases q with
  | intermediate n =>
    have hnone := h.winner_reached_eq_none_iff.mp hkind.symm
    exact iff_of_false hnone (by simp)
  | final kind n =>
    have hmatch := h.winner_reached_eq_some_iff.mp hkind.symm
    exact iff_of_true (exists_matchedAt_iff.mp ⟨kind, hmatch.1⟩) ⟨kind, n, rfl⟩

/-- The numbers of the states of one sort, in visit order. -/
theorem filter_map_stateOf (patterns : List Pattern) (sort : Option Nat) :
    ((merged patterns).subsetConstruction.visitOrder.map (stateOf patterns)).filter
        (fun q => q.kind? = sort) =
      (List.range ((merged patterns).subsetConstruction.visitOrder.countP fun S =>
        winner (merged patterns) (patterns.map Pattern.kind) S = sort)).map
        (LexerState.ofSort sort) := by
  have hanswers : (merged patterns).subsetConstruction.visitOrder.map (stateOf patterns) =
      (((merged patterns).subsetConstruction.visitOrder.mapM
        (intern (merged patterns) (patterns.map Pattern.kind))).run {}).1 :=
    map_answers_visitOrder _ _ _
  rw [hanswers, filter_run_intern, Numbering.next_empty, List.range_eq_range']

/-- So a sort has the numbers below some bound. -/
theorem ofSort_mem_automaton_iff (patterns : List Pattern) (sort : Option Nat) (n : Nat) :
    LexerState.ofSort sort n ∈ (ofPatterns patterns).automaton ↔
      n < (merged patterns).subsetConstruction.visitOrder.countP fun S =>
        winner (merged patterns) (patterns.map Pattern.kind) S = sort := by
  have hmem : LexerState.ofSort sort n ∈ (ofPatterns patterns).automaton ↔
      LexerState.ofSort sort n ∈
        ((merged patterns).subsetConstruction.visitOrder.map (stateOf patterns)).filter
          (fun q => q.kind? = sort) := by
    rw [List.mem_filter, List.mem_map, mem_automaton_iff, LexerState.kind?_ofSort,
      and_iff_left (decide_eq_true rfl)]
  rw [hmem, filter_map_stateOf, List.mem_map]
  constructor
  · intro hex
    obtain ⟨m, hm, heq⟩ := hex
    rw [← LexerState.ofSort_number_injective heq]
    exact List.mem_range.mp hm
  · intro hn
    exact ⟨n, List.mem_range.mpr hn, rfl⟩

/-! ## Compilation -/

/-- An automaton of sets and one of lexer states are the same but for the labels.

    - `injective`, `size`: different sets get different states, and there are as many.
    - `diagram`, `edges`, `accepting`: the initial state, the edges and the accepting states are
      those of the sets, and no others.
    - `final`: a state is accepting exactly if a token may end in it.
    - `initial`: the initial state has the number zero.
    - `numbers`: in visit order, the states of a sort are numbered from zero on. There are no other
      states of the sort, and not more of them than there are sets, so a counter of 32 bits does for
      fewer than `2 ^ 32` sets. -/
structure DenselyNumbered (sets : Automaton (StateSet String))
    (state : StateSet String → LexerState) (B : Automaton LexerState) : Prop where
  injective : ∀ S ∈ sets, ∀ T ∈ sets, state S = state T → S = T
  size : B.size = sets.size
  diagram : B.diagram = sets.diagram.image state
  edges : ∀ S ∈ sets, ∀ T ∈ sets, ∀ s,
    state T ∈ B.targets (state S) s ↔ T ∈ sets.targets S s
  accepting : ∀ S ∈ sets, state S ∈ B.accepting ↔ S ∈ sets.accepting
  final : ∀ q ∈ B, q ∈ B.accepting ↔ ∃ kind number, q = .final kind number
  initial : ∃ sort, B.initial = .ofSort sort 0
  numbers : ∀ sort, ∃ count ≤ sets.size,
    ((sets.visitOrder.map state).filter fun q => q.kind? = sort) =
      (List.range count).map (.ofSort sort) ∧
    ∀ n, .ofSort sort n ∈ B ↔ n < count

/-- The states of a valid table are numbered densely. -/
theorem denselyNumbered_ofPatterns (h : ValidTable patterns) :
    DenselyNumbered (merged patterns).subsetConstruction (stateOf patterns)
      (ofPatterns patterns).automaton := by
  have hsets := wellFormed_sets patterns
  have hinjective : ∀ S ∈ (merged patterns).subsetConstruction,
      ∀ T ∈ (merged patterns).subsetConstruction,
      stateOf patterns S = stateOf patterns T → S = T := fun S hS T hT => stateOf_injective hS hT
  constructor
  case injective => exact hinjective
  case size =>
    rw [automaton_ofPatterns]
    exact (hsets.image_injective hinjective).2
  case diagram =>
    rw [automaton_ofPatterns]
    exact diagram_image hsets _
  case edges =>
    intro S hS T hT s
    rw [automaton_ofPatterns]
    exact hsets.mem_targets_image_iff hinjective hS hT
  case accepting =>
    intro S hS
    rw [automaton_ofPatterns]
    exact hsets.mem_accepting_image_iff hinjective hS
  case final =>
    intro q hq
    exact mem_accepting_iff_kind? h hq
  case initial =>
    have hfirst : stateOf patterns (merged patterns).subsetConstruction.initial =
        (Numbering.take {} (winner (merged patterns) (patterns.map Pattern.kind)
          (merged patterns).subsetConstruction.initial)).1 :=
      answers_initial _ _ _
    refine ⟨winner (merged patterns) (patterns.map Pattern.kind)
      (merged patterns).subsetConstruction.initial, ?_⟩
    rw [automaton_ofPatterns, initial_image, hfirst, Numbering.fst_take, Numbering.next_empty]
  case numbers =>
    intro sort
    refine ⟨_, ?_, filter_map_stateOf patterns sort, ofSort_mem_automaton_iff patterns sort⟩
    rw [← hsets.length_visitOrder]
    exact List.countP_le_length

/-- Let a table compile. Interning is asked for the state of each set that its merged automaton can
    be in, once each and in visit order, and numbers these states densely. -/
theorem compiled_densely_numbered {l : Lexer} (h : compile patterns = .ok l) :
    RelabelledByCalls (intern l.nfa l.kinds) {} l.nfa.subsetConstruction l.automaton ∧
    DenselyNumbered l.nfa.subsetConstruction
      (answers (intern l.nfa l.kinds) {} l.nfa.subsetConstruction) l.automaton := by
  obtain ⟨htable, rfl⟩ := compile_eq_ok_iff.mp h
  exact ⟨(wellFormed_sets patterns).relabelledByCalls _ _, denselyNumbered_ofPatterns htable⟩

/-- No token ends in the initial state if no pattern recognizes the empty word. -/
theorem compiled_densely_numbered_word :
    let patterns : List Pattern := [⟨"if", Regex.word [105, 102]⟩]
    compile patterns = .ok (ofPatterns patterns) ∧
      (ofPatterns patterns).automaton.initial = .intermediate 0 ∧
      (ofPatterns patterns).automaton.size = (merged patterns).subsetConstruction.size := by
  intro patterns
  have htable : ValidTable patterns := ⟨List.cons_ne_nil _ _, by decide, by decide⟩
  have hcompile : compile patterns = .ok (ofPatterns patterns) :=
    compile_eq_ok_iff.mpr ⟨htable, rfl⟩
  obtain ⟨_, hdense⟩ := compiled_densely_numbered hcompile
  have hempty : ¬∃ p ∈ patterns, p.automaton.recognizes [] = true := by
    intro hex
    obtain ⟨p, hp, hw⟩ := hex
    rw [List.mem_singleton.mp hp, recognizes_iff_accepts, Regex.accepts_word_iff] at hw
    cases hw
  have hkind := kind?_of_path htable (.nil _)
  rw [htable.winner_reached_eq_none_iff.mpr hempty] at hkind
  obtain ⟨sort, hinitial⟩ := hdense.initial
  rw [hinitial, LexerState.kind?_ofSort] at hkind
  rw [hkind] at hinitial
  exact ⟨hcompile, hinitial, hdense.size⟩

end Lexer

end ByteLexer
