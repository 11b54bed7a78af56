import ByteLexer.Proofs.Lexer.Compiled

/-! # The states of a compiled lexer

    A state of a compiled lexer is known by the words that lead to it from the initial
    state.

    - **Known states.** Every set that is visited is reached by some word, so every known
      state is led to by some word.
    - **Edges.** An edge leads from the state of some word to that of the word with one
      more byte.
    - **The initial state.** No edge leads back to it.
    - **Accepting states.** A state is accepting exactly if some pattern recognizes the
      words that lead to it.
-/

namespace ByteLexer.Lexer

open Automaton

variable {patterns : List Pattern} {w : List UInt8} {q r : LexerState} {s : Symbol}
  {S : StateSet String}

/-! ## Known states -/

/-- The automaton of the sets that the merged automaton of a table can be in. -/
theorem wellFormed_sets (patterns : List Pattern) :
    (merged patterns).subsetConstruction.WellFormed :=
  wellFormed_ofParts _ _ _ _

/-- Every set that is visited is reached by some word. -/
theorem exists_reached_of_mem_visitOrder
    (hS : S ∈ (merged patterns).subsetConstruction.visitOrder) :
    ∃ w, (merged patterns).Viable w ∧ S = (merged patterns).reached w := by
  apply (tidy_merged patterns).exists_reached_of_met
  rcases mem_visitOrder_iff.mp hS with hS | hS | ⟨T, s, hS⟩
  · rw [hS, initial_subsetConstruction]
    exact met_start _
  · exact mem_subsetConstruction.mp hS
  · obtain ⟨hT, b, _, hb, rfl⟩ := mem_targets_subsetConstruction.mp hS
    exact hT.move hb

/-- The known states stand for the sets that are visited. -/
theorem mem_automaton_iff : q ∈ (ofPatterns patterns).automaton ↔
    ∃ S ∈ (merged patterns).subsetConstruction.visitOrder, stateOf patterns S = q := by
  rw [automaton_ofPatterns]
  exact mem_image_iff fun T hT => mem_of_mem_accepting_subsetConstruction hT

/-- Every known state is led to by some word. -/
theorem exists_path_of_mem (h : ValidTable patterns) (hq : q ∈ (ofPatterns patterns).automaton) :
    ∃ w, (ofPatterns patterns).automaton.Path (ofPatterns patterns).automaton.initial w q := by
  obtain ⟨S, hS, rfl⟩ := mem_automaton_iff.mp hq
  obtain ⟨w, hw, rfl⟩ := exists_reached_of_mem_visitOrder hS
  exact ⟨w, (path_automaton_iff h).mpr ⟨h.viable_merged_iff.mp hw, rfl⟩⟩

/-- Whatever state a word leads to is known. -/
theorem mem_of_path (h : ValidTable patterns)
    (hq : (ofPatterns patterns).automaton.Path (ofPatterns patterns).automaton.initial w q) :
    q ∈ (ofPatterns patterns).automaton := by
  obtain ⟨hviable, hstate⟩ := (path_automaton_iff h).mp hq
  exact mem_automaton_iff.mpr
    ⟨_, reached_mem_visitOrder (h.viable_merged_iff.mpr hviable), hstate.symm⟩

/-- The kind of a known state is first at some word. -/
theorem exists_firstMatch_of_mem (h : ValidTable patterns) {i : Nat}
    (hq : q ∈ (ofPatterns patterns).automaton) (hkind : q.kind? = some i) :
    ∃ w, FirstMatch patterns w i := by
  obtain ⟨w, hpath⟩ := exists_path_of_mem h hq
  rw [kind?_of_path h hpath, h.winner_reached_eq_some_iff] at hkind
  exact ⟨w, hkind⟩

/-- A word that some pattern recognizes leads to a known state. -/
theorem exists_path_of_matchedAt (h : ValidTable patterns) {i : Nat}
    (hi : MatchedAt patterns w i) : ∃ q ∈ (ofPatterns patterns).automaton,
      (ofPatterns patterns).automaton.Path (ofPatterns patterns).automaton.initial w q := by
  obtain ⟨p, hp, hw⟩ := exists_matchedAt_iff.mp ⟨i, hi⟩
  have hviable : ∃ p ∈ patterns, p.automaton.Viable w :=
    ⟨p, hp, (recognizes_iff_accepts.mp hw).viable⟩
  have hpath := (path_automaton_iff h).mpr ⟨hviable, rfl⟩
  exact ⟨_, mem_of_path h hpath, hpath⟩

/-! ## Edges -/

/-- An edge leads from the state of some word to that of the word with one more byte. -/
theorem exists_path_of_mem_targets (h : ValidTable patterns)
    (hr : r ∈ (ofPatterns patterns).automaton.targets q s) :
    ∃ w b, s = some b ∧
      (ofPatterns patterns).automaton.Path (ofPatterns patterns).automaton.initial w q ∧
      (ofPatterns patterns).automaton.Path (ofPatterns patterns).automaton.initial
        (w ++ [b]) r := by
  have himage := hr
  rw [automaton_ofPatterns] at himage
  obtain ⟨S, T, hT, hS, _⟩ := mem_targets_image.mp himage
  obtain ⟨hmet, b, rfl, _, _⟩ := mem_targets_subsetConstruction.mp hT
  -- the construction meets only what words reach
  obtain ⟨w, hw, rfl⟩ := (tidy_merged patterns).exists_reached_of_met hmet
  have hpath : (ofPatterns patterns).automaton.Path (ofPatterns patterns).automaton.initial w q :=
    (path_automaton_iff h).mpr ⟨h.viable_merged_iff.mp hw, hS.symm⟩
  exact ⟨w, b, rfl, hpath, hpath.append (.byte hr (.nil r))⟩

/-! ## The initial state -/

/-- Only the empty word leads to the initial state. -/
theorem eq_nil_of_path_initial (h : ValidTable patterns)
    (hw : (ofPatterns patterns).automaton.Path (ofPatterns patterns).automaton.initial w
      (ofPatterns patterns).automaton.initial) : w = [] := by
  obtain ⟨hviable, hstate⟩ := (path_automaton_iff h).mp hw
  have hsame : (merged patterns).reached [] = (merged patterns).reached w := by
    apply (keptApart_stateOf patterns).injective
    · exact reached_mem_visitOrder (viable_nil _)
    · exact reached_mem_visitOrder (h.viable_merged_iff.mpr hviable)
    · rw [← hstate, automaton_ofPatterns, initial_image, initial_subsetConstruction, reached_nil]
  -- the merged initial state is in the first of these sets, and no byte leads back to it
  have hmem : mergedInitial ∈ (merged patterns).reached w := by
    rw [← hsame, mem_reached, initial_merged]
    exact .nil _
  rw [mem_reached, initial_merged, h.path_merged_iff] at hmem
  rcases hmem with ⟨hnil, _⟩ | ⟨p, _, t, hlabel, _⟩
  · exact hnil
  · exact absurd hlabel (p.label_ne_mergedInitial t)

/-- No edge leads to the initial state. -/
theorem initial_not_mem_targets (h : ValidTable patterns) :
    (ofPatterns patterns).automaton.initial ∉ (ofPatterns patterns).automaton.targets q s := by
  intro hr
  obtain ⟨w, b, _, _, hpath⟩ := exists_path_of_mem_targets h hr
  have hnil : w ++ [b] = [] := eq_nil_of_path_initial h hpath
  simp at hnil

/-! ## Accepting states -/

/-- A state is accepting exactly if some pattern recognizes a word that leads to it. -/
theorem mem_accepting_iff_of_path (h : ValidTable patterns)
    (hq : (ofPatterns patterns).automaton.Path (ofPatterns patterns).automaton.initial w q) :
    q ∈ (ofPatterns patterns).automaton.accepting ↔
      ∃ p ∈ patterns, p.automaton.recognizes w = true := by
  simp only [recognizes_iff_accepts, ← accepts_automaton_iff h]
  constructor
  · intro hacc
    exact ⟨q, hq, hacc⟩
  · intro haccepts
    obtain ⟨t, ht, hacc⟩ := haccepts
    have heq : q = t := (deterministic_automaton patterns).path_unique hq ht
    rw [heq]
    exact hacc

end ByteLexer.Lexer
