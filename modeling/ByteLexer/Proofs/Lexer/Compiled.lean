import ByteLexer.Proofs.Automaton.Runs
import ByteLexer.Proofs.Lexer.Interning
import ByteLexer.Proofs.Lexer.Merged
import ByteLexer.Proofs.Regex.Language

/-! # What a compiled lexer knows of a word

    The automaton of a compiled lexer follows all patterns of its table at once. The
    state that a word leads to tells which pattern recognizes the word first.

    - **First matches.** The kinds that are matched in the set of states that a word
      reaches are those of the patterns that recognize it, and the winner is the one
      declared first.
    - **The automaton.** Its paths, its determinism and its language.
    - **Compilation.** All this for every table that compiles.
-/

namespace ByteLexer

open Std (TransOrd LawfulEqOrd)
open Automaton

/-! ## First matches -/

/-- The pattern with an index recognizes a word. -/
def MatchedAt (patterns : List Pattern) (w : List UInt8) (i : Nat) : Prop :=
  ∃ p, patterns[i]? = some p ∧ p.automaton.recognizes w = true

/-- The pattern with an index is the first one of the table that recognizes a word. -/
def FirstMatch (patterns : List Pattern) (w : List UInt8) (i : Nat) : Prop :=
  MatchedAt patterns w i ∧ ∀ j < i, ¬MatchedAt patterns w j

section Matches

variable {patterns : List Pattern} {p : Pattern} {w : List UInt8} {i j : Nat} {nfa : Regex}
  {kinds : List String} {S : StateSet String}

theorem exists_matchedAt_iff :
    (∃ i, MatchedAt patterns w i) ↔ ∃ p ∈ patterns, p.automaton.recognizes w = true := by
  constructor
  · intro hex
    obtain ⟨i, p, hi, hp⟩ := hex
    exact ⟨p, List.mem_of_getElem? hi, hp⟩
  · intro hex
    obtain ⟨p, hp, hw⟩ := hex
    obtain ⟨i, hi⟩ := List.mem_iff_getElem?.mp hp
    exact ⟨i, p, hi, hw⟩

theorem FirstMatch.unique (hi : FirstMatch patterns w i) (hj : FirstMatch patterns w j) :
    i = j := by
  rcases Nat.lt_trichotomy i j with hlt | heq | hlt
  · exact absurd hi.1 (hj.2 i hlt)
  · exact heq
  · exact absurd hj.1 (hi.2 j hlt)

/-- If a pattern of the first part of a table recognizes a word, the first match is there. -/
theorem FirstMatch.mem_left {first rest : List Pattern} (hi : FirstMatch (first ++ rest) w i)
    (hp : (first ++ rest)[i]? = some p) (hw : ∃ p ∈ first, p.automaton.recognizes w = true) :
    p ∈ first := by
  obtain ⟨j, p', hj, hw⟩ := exists_matchedAt_iff.mpr hw
  obtain ⟨hlt, _⟩ := List.getElem?_eq_some_iff.mp hj
  have hmatched : MatchedAt (first ++ rest) w j := by
    refine ⟨p', ?_, hw⟩
    rw [List.getElem?_append_left hlt]
    exact hj
  have hle : i ≤ j := Nat.le_of_not_lt fun hji => hi.2 j hji hmatched
  rw [List.getElem?_append_left (Nat.lt_of_le_of_lt hle hlt)] at hp
  exact List.mem_of_getElem? hp

theorem mem_matchedKinds : i ∈ matchedKinds nfa kinds S ↔
    ∃ q ∈ S, q ∈ nfa.accepting ∧ kinds.idxOf? (kindOf q) = some i := by
  simp only [matchedKinds, Std.ExtTreeSet.mem_toList, OrdSet.mem_ofMembers, List.mem_filterMap,
    List.mem_filter, isAccepting_iff, and_assoc]

/-- Matched kinds are listed in increasing order. -/
theorem matchedKinds_sorted : (matchedKinds nfa kinds S).Pairwise (· < ·) := by
  refine Std.ExtTreeSet.ordered_toList.imp ?_
  intro i j h
  exact Nat.compare_eq_lt.mp h

/-- The winner is the least of the matched kinds. -/
theorem winner_eq_some_iff : winner nfa kinds S = some i ↔
    i ∈ matchedKinds nfa kinds S ∧ ∀ j < i, j ∉ matchedKinds nfa kinds S := by
  have hsorted : (matchedKinds nfa kinds S).Pairwise (· < ·) := matchedKinds_sorted
  rw [winner]
  rcases hkinds : matchedKinds nfa kinds S with _ | ⟨k, rest⟩
  · simp
  · rw [hkinds, List.pairwise_cons] at hsorted
    rw [List.head?_cons, Option.some.injEq]
    constructor
    · intro hk
      rw [← hk]
      -- nothing in a sorted list is less than its head
      refine ⟨List.mem_cons_self, fun j hj hmem => ?_⟩
      rcases List.mem_cons.mp hmem with hjk | hjr
      · omega
      · have := hsorted.1 j hjr
        omega
    · intro hand
      obtain ⟨hi, hleast⟩ := hand
      rcases List.mem_cons.mp hi with hik | hir
      · exact hik.symm
      · exact absurd List.mem_cons_self (hleast k (hsorted.1 i hir))

theorem winner_eq_none_iff : winner nfa kinds S = none ↔ ∀ i, i ∉ matchedKinds nfa kinds S := by
  rw [winner, List.head?_eq_none_iff, List.eq_nil_iff_forall_not_mem]

/-- The index of a pattern's kind is that of the pattern. -/
theorem ValidTable.idxOf?_kind (h : ValidTable patterns) (hp : p ∈ patterns) :
    (patterns.map Pattern.kind).idxOf? p.kind = some i ↔ patterns[i]? = some p := by
  rw [List.idxOf?_eq_some_iff]
  constructor
  · intro hand
    obtain ⟨hi, hkind, _⟩ := hand
    rw [List.getElem_map] at hkind
    rw [List.length_map] at hi
    rw [List.getElem?_eq_getElem hi,
      h.eq_of_kind_eq (List.getElem_mem hi) hp hkind]
  · intro hi
    obtain ⟨hlt, rfl⟩ := List.getElem?_eq_some_iff.mp hi
    refine ⟨by rw [List.length_map]; exact hlt, by rw [List.getElem_map], fun j hj hkind => ?_⟩
    -- no earlier pattern has the same kind
    have hne := List.pairwise_iff_getElem.mp h.distinct j i
      (by rw [List.length_map]; omega) (by rw [List.length_map]; exact hlt) hj
    rw [hkind, List.getElem_map] at hne
    exact hne rfl

/-- A pattern of a valid table has one index. -/
theorem ValidTable.index_unique (h : ValidTable patterns) (hi : patterns[i]? = some p)
    (hj : patterns[j]? = some p) : i = j := by
  have hp := List.mem_of_getElem? hi
  rw [← h.idxOf?_kind hp] at hi hj
  exact Option.some.inj (hi.symm.trans hj)

theorem Lexer.kind?_of_getElem? (hp : patterns[i]? = some p) :
    (Lexer.ofPatterns patterns).kind? i = some p.kind := by
  show (patterns.map Pattern.kind)[i]? = some p.kind
  rw [List.getElem?_map, hp]
  rfl

/-- So does its kind. -/
theorem ValidTable.kind?_eq_some_iff (h : ValidTable patterns) (hp : patterns[i]? = some p) :
    (Lexer.ofPatterns patterns).kind? j = some p.kind ↔ j = i := by
  constructor
  · intro hj
    have hkinds : (patterns.map Pattern.kind)[j]? = some p.kind := hj
    rw [List.getElem?_map, Option.map_eq_some_iff] at hkinds
    obtain ⟨p', hp', hkind⟩ := hkinds
    rw [h.eq_of_kind_eq (List.mem_of_getElem? hp') (List.mem_of_getElem? hp) hkind] at hp'
    exact h.index_unique hp' hp
  · intro hj
    rw [hj]
    exact Lexer.kind?_of_getElem? hp

/-- The kinds that are matched after a word are those of the patterns that recognize it. -/
theorem ValidTable.mem_matchedKinds_reached (h : ValidTable patterns) :
    i ∈ matchedKinds (merged patterns) (patterns.map Pattern.kind) ((merged patterns).reached w) ↔
      MatchedAt patterns w i := by
  rw [mem_matchedKinds]
  constructor
  · intro hex
    obtain ⟨x, hx, hacc, hidx⟩ := hex
    -- an accepting member is a copy of an accepting state of one pattern
    rw [mem_reached, initial_merged] at hx
    obtain ⟨p, hp, t, hl, ht⟩ := h.path_accepting_merged_iff.mp ⟨hx, hacc⟩
    rw [← hl, p.kindOf_label (h.valid p hp), h.idxOf?_kind hp] at hidx
    exact ⟨p, hidx, recognizes_iff_accepts.mpr ⟨t, ht⟩⟩
  · intro hex
    obtain ⟨p, hi, hw⟩ := hex
    have hp : p ∈ patterns := List.mem_of_getElem? hi
    obtain ⟨t, ht⟩ := recognizes_iff_accepts.mp hw
    obtain ⟨hpath, hacc⟩ := h.path_accepting_merged_iff.mpr ⟨p, hp, t, rfl, ht⟩
    refine ⟨p.label t, ?_, hacc, ?_⟩
    · rw [mem_reached, initial_merged]
      exact hpath
    · rw [p.kindOf_label (h.valid p hp), h.idxOf?_kind hp]
      exact hi

/-- The winner after a word is the first pattern that recognizes it. -/
theorem ValidTable.winner_reached_eq_some_iff (h : ValidTable patterns) :
    winner (merged patterns) (patterns.map Pattern.kind) ((merged patterns).reached w) = some i ↔
      FirstMatch patterns w i := by
  simp only [winner_eq_some_iff, h.mem_matchedKinds_reached, FirstMatch]

/-- There is no winner if no pattern recognizes the word. -/
theorem ValidTable.winner_reached_eq_none_iff (h : ValidTable patterns) :
    winner (merged patterns) (patterns.map Pattern.kind) ((merged patterns).reached w) = none ↔
      ¬∃ p ∈ patterns, p.automaton.recognizes w = true := by
  simp only [winner_eq_none_iff, h.mem_matchedKinds_reached, ← exists_matchedAt_iff, not_exists]

end Matches

/-! ## The automaton -/

namespace Lexer

variable {patterns : List Pattern} {w : List UInt8} {q : LexerState} {i : Nat}

/-- The state of a compiled lexer that stands for a set of states of its merged automaton. -/
def stateOf (patterns : List Pattern) (S : StateSet String) : LexerState :=
  internedAs (merged patterns) (patterns.map Pattern.kind) (merged patterns).subsetConstruction S

theorem automaton_ofPatterns (patterns : List Pattern) : (ofPatterns patterns).automaton =
    (merged patterns).subsetConstruction.image (stateOf patterns) :=
  interned_eq_image _ _ _

theorem keptApart_stateOf (patterns : List Pattern) :
    (merged patterns).subsetConstruction.KeptApart (stateOf patterns)
      (· ∈ (merged patterns).subsetConstruction.visitOrder) :=
  keptApart_internedAs

theorem deterministic_automaton (patterns : List Pattern) :
    (ofPatterns patterns).automaton.Deterministic :=
  (keptApart_stateOf patterns).deterministic (deterministic_subsetConstruction _)

/-- A path spells a word that is viable in some pattern, and ends in the state for the set
    that the word reaches. -/
theorem path_automaton_iff (h : ValidTable patterns) :
    (ofPatterns patterns).automaton.Path (ofPatterns patterns).automaton.initial w q ↔
      (∃ p ∈ patterns, p.automaton.Viable w) ∧
        q = stateOf patterns ((merged patterns).reached w) := by
  rw [automaton_ofPatterns, initial_image,
    (keptApart_stateOf patterns).region.path_iff List.mem_cons_self, ← h.viable_merged_iff]
  simp only [initial_subsetConstruction, (tidy_merged patterns).path_subsetConstruction_iff]
  constructor
  · intro hex
    obtain ⟨S, hq, hw, hS⟩ := hex
    rw [← hS]
    exact ⟨hw, hq.symm⟩
  · intro hand
    obtain ⟨hw, hq⟩ := hand
    exact ⟨_, hq.symm, hw, rfl⟩

/-- The set that a viable word reaches is visited when the states are interned. -/
theorem reached_mem_visitOrder (hw : (merged patterns).Viable w) :
    (merged patterns).reached w ∈ (merged patterns).subsetConstruction.visitOrder := by
  have hpath := path_subsetConstruction hw
  rw [← initial_subsetConstruction] at hpath
  -- whatever a path leads to is visited
  exact (keptApart_stateOf patterns).region.within_of_path List.mem_cons_self hpath

/-- The kind of the state that a word leads to is the winner in the set that it reaches. -/
theorem kind?_of_path (h : ValidTable patterns)
    (hq : (ofPatterns patterns).automaton.Path (ofPatterns patterns).automaton.initial w q) :
    q.kind? = winner (merged patterns) (patterns.map Pattern.kind)
      ((merged patterns).reached w) := by
  obtain ⟨hw, rfl⟩ := (path_automaton_iff h).mp hq
  exact kind?_internedAs (reached_mem_visitOrder (h.viable_merged_iff.mpr hw))

/-- The automaton accepts what some pattern accepts. -/
theorem accepts_automaton_iff (h : ValidTable patterns) :
    (ofPatterns patterns).automaton.Accepts w ↔ ∃ p ∈ patterns, p.automaton.Accepts w := by
  rw [automaton_ofPatterns, (keptApart_stateOf patterns).accepts_image_iff List.mem_cons_self
    fun S hS => mem_visitOrder_of_mem (mem_of_mem_accepting_subsetConstruction hS),
    accepts_subsetConstruction_iff, h.accepts_merged_iff]

/-! ## Compilation -/

/-- The automaton of a compiled lexer has a run on the words that are viable in some pattern.
    The run is the only one, it ends in a state of the kind of the first pattern that
    recognizes the word, and the automaton recognizes the same words as the merged one and as
    the patterns together. -/
theorem compiled_follows_patterns {l : Lexer} (h : compile patterns = .ok l) (w : List UInt8) :
    ((∃ q, l.automaton.Path l.automaton.initial w q) ↔ ∃ p ∈ patterns, p.automaton.Viable w) ∧
    (∀ q, l.automaton.Path l.automaton.initial w q →
      (∀ r, l.automaton.Path l.automaton.initial w r → r = q) ∧
      (∀ i, q.kind? = some i ↔ FirstMatch patterns w i) ∧
      (q.kind? = none ↔ ¬∃ p ∈ patterns, p.automaton.recognizes w = true)) ∧
    (l.nfa.recognizes w = true ↔ ∃ p ∈ patterns, p.automaton.recognizes w = true) ∧
    (l.automaton.recognizes w = true ↔ ∃ p ∈ patterns, p.automaton.recognizes w = true) := by
  obtain ⟨htable, rfl⟩ := compile_eq_ok_iff.mp h
  refine ⟨?_, ?_, ?_, ?_⟩
  · simp only [path_automaton_iff htable, exists_and_left, exists_eq, and_true]
  · intro q hq
    have hkind := kind?_of_path htable hq
    refine ⟨fun r hr => (deterministic_automaton patterns).path_unique hr hq, fun i => ?_, ?_⟩
    · rw [hkind, htable.winner_reached_eq_some_iff]
    · rw [hkind, htable.winner_reached_eq_none_iff]
  · show (merged patterns).recognizes w = true ↔ _
    simp only [recognizes_iff_accepts, htable.accepts_merged_iff]
  · simp only [recognizes_iff_accepts, accepts_automaton_iff htable]

/-- A kind may be called like the merged initial state, and it wins over a later one that
    matches the same word. -/
theorem compiled_follows_patterns_shadowed :
    let patterns : List Pattern := [⟨"0", Regex.word [97]⟩, ⟨"any", Regex.oneOf Regex.allBytes⟩]
    compile patterns = .ok (ofPatterns patterns) ∧
    ∃ q, (ofPatterns patterns).automaton.Path (ofPatterns patterns).automaton.initial [97] q ∧
      q.kind? = some 0 := by
  intro patterns
  have htable : ValidTable patterns := ⟨List.cons_ne_nil _ _, by decide, by decide⟩
  have hcompile : compile patterns = .ok (ofPatterns patterns) :=
    compile_eq_ok_iff.mpr ⟨htable, rfl⟩
  have hmatch : (Regex.word [97]).recognizes [97] = true :=
    recognizes_iff_accepts.mpr (Regex.accepts_word_iff.mpr rfl)
  obtain ⟨hrun, hkind, _⟩ := compiled_follows_patterns hcompile [97]
  obtain ⟨q, hq⟩ := hrun.mpr
    ⟨_, List.mem_cons_self, (recognizes_iff_accepts.mp hmatch).viable⟩
  refine ⟨hcompile, q, hq, ((hkind q hq).2.1 0).mpr ⟨⟨_, rfl, hmatch⟩, fun j hj => ?_⟩⟩
  exact absurd hj (Nat.not_lt_zero j)

end Lexer

end ByteLexer
