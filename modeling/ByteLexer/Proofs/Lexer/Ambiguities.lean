import ByteLexer.Proofs.Automaton.Relabelling
import ByteLexer.Proofs.Automaton.ShortestWord
import ByteLexer.Proofs.Lexer.States
import Mathlib.Data.List.Sort

/-! # Ambiguities

    A compiled lexer lists the ambiguities of its table: one for every state whose words are
    recognized by several patterns, and no others.

    - **Ambiguous words.** Words that at least two patterns recognize.
    - **Entries.** What it means that an entry reports a state. There is at most one such
      entry for a state, and at most one such state for an entry.
    - **Sets.** A set that is visited has a shortest word, and the entry that is made for it
      reports the state that it is interned as.
    - **Conflicts** are noted while the sets are interned. The entries are made of these.
    - **The report.** The entries are exactly those that report a state.
-/

namespace ByteLexer

open Automaton

/-! ## Ambiguous words -/

/-- At least two patterns of a table recognize a word. -/
def Ambiguous (patterns : List Pattern) (w : List UInt8) : Prop :=
  ∃ i j, i ≠ j ∧ MatchedAt patterns w i ∧ MatchedAt patterns w j

/-- In a valid table, different patterns have different kinds. -/
theorem ValidTable.ambiguous_iff {patterns : List Pattern} {w : List UInt8}
    (h : ValidTable patterns) : Ambiguous patterns w ↔
      ∃ p ∈ patterns, ∃ p' ∈ patterns, p.kind ≠ p'.kind ∧
        p.automaton.recognizes w = true ∧ p'.automaton.recognizes w = true := by
  constructor
  · intro hex
    obtain ⟨i, j, hne, ⟨p, hi, hw⟩, ⟨p', hj, hw'⟩⟩ := hex
    have hp := List.mem_of_getElem? hi
    have hp' := List.mem_of_getElem? hj
    refine ⟨p, hp, p', hp', fun hkind => hne ?_, hw, hw'⟩
    rw [← h.eq_of_kind_eq hp hp' hkind] at hj
    exact h.index_unique hi hj
  · intro hex
    obtain ⟨p, hp, p', hp', hne, hw, hw'⟩ := hex
    obtain ⟨i, hi⟩ := List.mem_iff_getElem?.mp hp
    obtain ⟨j, hj⟩ := List.mem_iff_getElem?.mp hp'
    refine ⟨i, j, fun heq => hne ?_, ⟨p, hi, hw⟩, ⟨p', hj, hw'⟩⟩
    rw [heq, hj] at hi
    rw [Option.some.inj hi]

/-! ## Entries -/

namespace Ambiguity

variable {patterns : List Pattern} {A : Automaton LexerState} {q r : LexerState}
  {a a' : Ambiguity} {w sample : List UInt8} {kinds : List Nat}

/-- An entry reports a state: the words that lead there are recognized by the pattern of the
    winner and those of the shadowed kinds, and by no others. The winner is the first of them,
    the others follow in declaration order, and there is at least one. The sample is the first
    of the words. -/
structure Reports (patterns : List Pattern) (A : Automaton LexerState) (q : LexerState)
    (a : Ambiguity) : Prop where
  matched : ∀ w, A.Path A.initial w q →
    ∀ i, MatchedAt patterns w i ↔ i = a.winner ∨ i ∈ a.shadowed
  least : ∀ i ∈ a.shadowed, a.winner < i
  sorted : a.shadowed.Pairwise (· < ·)
  several : a.shadowed ≠ []
  sample : Graph.Foremost (A.Path A.initial · q) a.sample

/-- The words of a state that is reported are ambiguous. -/
theorem Reports.ambiguous (h : Reports patterns A q a) (hw : A.Path A.initial w q) :
    Ambiguous patterns w := by
  obtain ⟨i, hi⟩ := List.exists_mem_of_ne_nil _ h.several
  refine ⟨a.winner, i, ?_, (h.matched w hw _).mpr (.inl rfl), (h.matched w hw i).mpr (.inr hi)⟩
  exact Nat.ne_of_lt (h.least i hi)

/-- At most one entry reports a state. -/
theorem Reports.unique (h : Reports patterns A q a) (h' : Reports patterns A q a') : a = a' := by
  have hsample : a.sample = a'.sample := h.sample.unique h'.sample
  have hpath : A.Path A.initial a.sample q := h.sample.holds
  have hkinds : a.winner :: a.shadowed = a'.winner :: a'.shadowed := by
    apply (List.pairwise_cons.mpr ⟨h.least, h.sorted⟩).eq_of_mem_iff
      (List.pairwise_cons.mpr ⟨h'.least, h'.sorted⟩)
    intro i
    rw [List.mem_cons, List.mem_cons, ← h.matched _ hpath, ← h'.matched _ hpath]
  obtain ⟨hwinner, hshadowed⟩ := List.cons.inj hkinds
  obtain ⟨winner, shadowed, sample⟩ := a
  subst hwinner hshadowed hsample
  rfl

/-- An entry reports at most one state. -/
theorem Reports.state_unique (hA : A.Deterministic) (h : Reports patterns A q a)
    (h' : Reports patterns A r a) : q = r :=
  hA.path_unique h.sample.holds h'.sample.holds

/-- An entry is made where at least two kinds are matched. -/
theorem ofMatched?_eq_some_iff : ofMatched? sample kinds = some a ↔
    kinds = a.winner :: a.shadowed ∧ a.shadowed ≠ [] ∧ sample = a.sample := by
  constructor
  · intro h
    rcases kinds with _ | ⟨winner, _ | ⟨second, rest⟩⟩
    · cases h
    · cases h
    · obtain rfl := Option.some.inj h
      exact ⟨rfl, List.cons_ne_nil _ _, rfl⟩
  · intro hand
    obtain ⟨hkinds, hseveral, hsample⟩ := hand
    obtain ⟨winner, shadowed, sample'⟩ := a
    rcases shadowed with _ | ⟨second, rest⟩
    · exact absurd rfl hseveral
    · rw [hkinds, hsample]
      rfl

theorem exists_ofMatched? {i j : Nat} (hne : i ≠ j) (hi : i ∈ kinds) (hj : j ∈ kinds) :
    ∃ a, ofMatched? sample kinds = some a := by
  rcases kinds with _ | ⟨winner, _ | ⟨second, rest⟩⟩
  · cases hi
  · -- both would be the only one
    rw [List.mem_singleton] at hi hj
    exact absurd (hi.trans hj.symm) hne
  · exact ⟨_, rfl⟩

end Ambiguity

/-! ## Sets -/

namespace Lexer

variable {patterns : List Pattern} {w : List UInt8} {q : LexerState} {a : Ambiguity}
  {S : StateSet String}

/-- The words that lead to the state of a set are those that lead to the set. -/
theorem path_stateOf_iff (hS : S ∈ (merged patterns).subsetConstruction.visitOrder) :
    (ofPatterns patterns).automaton.Path (ofPatterns patterns).automaton.initial w
      (stateOf patterns S) ↔
    (merged patterns).subsetConstruction.Path (merged patterns).subsetConstruction.initial w S := by
  rw [automaton_ofPatterns, initial_image]
  exact (keptApart_stateOf patterns).path_image_iff List.mem_cons_self hS

/-- They reach the set in the merged automaton. -/
theorem reached_of_path_stateOf (hS : S ∈ (merged patterns).subsetConstruction.visitOrder)
    (hw : (ofPatterns patterns).automaton.Path (ofPatterns patterns).automaton.initial w
      (stateOf patterns S)) : (merged patterns).reached w = S := by
  have hpath := (path_stateOf_iff hS).mp hw
  rw [initial_subsetConstruction] at hpath
  exact (eq_foldl_move_of_path hpath).symm

/-- Every set that is visited has a shortest word, and it is the first one that leads to the
    state of the set. -/
theorem exists_shortestWord? (hS : S ∈ (merged patterns).subsetConstruction.visitOrder) :
    ∃ u, (merged patterns).subsetConstruction.shortestWord? S = some u ∧
      Graph.Foremost ((ofPatterns patterns).automaton.Path
        (ofPatterns patterns).automaton.initial · (stateOf patterns S)) u := by
  obtain ⟨w, hw, rfl⟩ := exists_reached_of_mem_visitOrder hS
  have hpath := path_subsetConstruction hw
  rw [← initial_subsetConstruction] at hpath
  obtain ⟨u, hu, hforemost⟩ := (deterministic_subsetConstruction _).exists_shortestWord? hpath
  exact ⟨u, hu, hforemost.congr fun v => (path_stateOf_iff hS).symm⟩

/-- The entry for a set is the one that reports its state. -/
theorem ofMatched?_eq_some_iff_reports (h : ValidTable patterns)
    (hS : S ∈ (merged patterns).subsetConstruction.visitOrder) :
    Ambiguity.ofMatched? (((merged patterns).subsetConstruction.shortestWord? S).getD [])
        (matchedKinds (merged patterns) (patterns.map Pattern.kind) S) = some a ↔
      a.Reports patterns (ofPatterns patterns).automaton (stateOf patterns S) := by
  obtain ⟨u, hu, hforemost⟩ := exists_shortestWord? hS
  have hmatched : ∀ w, (ofPatterns patterns).automaton.Path
      (ofPatterns patterns).automaton.initial w (stateOf patterns S) →
      ∀ i, MatchedAt patterns w i ↔
        i ∈ matchedKinds (merged patterns) (patterns.map Pattern.kind) S := by
    intro w hw i
    rw [← h.mem_matchedKinds_reached, reached_of_path_stateOf hS hw]
  have hsorted : (matchedKinds (merged patterns) (patterns.map Pattern.kind) S).Pairwise
      (· < ·) := matchedKinds_sorted
  rw [hu, Option.getD_some, Ambiguity.ofMatched?_eq_some_iff]
  constructor
  · intro hand
    obtain ⟨hkinds, hseveral, hsample⟩ := hand
    rw [hkinds, List.pairwise_cons] at hsorted
    rw [hsample] at hforemost
    refine ⟨fun w hw i => ?_, hsorted.1, hsorted.2, hseveral, hforemost⟩
    rw [hmatched w hw, hkinds, List.mem_cons]
  · intro hreports
    refine ⟨?_, hreports.several, hforemost.unique hreports.sample⟩
    -- lists in order with the same members are equal
    apply hsorted.eq_of_mem_iff (List.pairwise_cons.mpr ⟨hreports.least, hreports.sorted⟩)
    intro i
    rw [List.mem_cons, ← hmatched u hforemost.holds, hreports.matched u hforemost.holds]

/-! ## Conflicts -/

/-- A set in which several kinds are matched: the first one of them, and the others. -/
structure Conflict where
  states : StateSet String
  winner : Nat
  shadowed : List Nat

/-- What is noted on a set in which some kinds are matched. -/
def Conflict.ofMatched (S : StateSet String) : List Nat → List Conflict
  | winner :: second :: rest => [⟨S, winner, second :: rest⟩]
  | _ => []

/-- Interns a set, and notes the conflict if several kinds are matched in it. -/
def internNoting (nfa : Regex) (kinds : List String) :
    StateSet String → StateM (Numbering × List Conflict) LexerState :=
  noting (intern nfa kinds) fun S => Conflict.ofMatched S (matchedKinds nfa kinds S)

/-- The entry for a conflict. If no word led to its set, the sample would be empty. -/
def Conflict.ambiguity (sets : Automaton (StateSet String)) (c : Conflict) : Ambiguity :=
  ⟨c.winner, c.shadowed, (sets.shortestWord? c.states).getD []⟩

/-- Sets are interned one after the other, as they turn up in the rows of their automaton, and a
    set that has been interned is looked up in a table. The conflicts that are noted on the way are
    those of the sets in visit order, and there is an entry for each of them. -/
theorem ambiguitiesOf_eq_map_conflicts (nfa : Regex) (kinds : List String)
    {sets : Automaton (StateSet String)} (h : sets.WellFormed) :
    ∃ table numbers conflicts,
      (relabelByRows (internNoting nfa kinds) sets).run (∅, {}, []) =
        (interned nfa kinds sets, table, numbers, conflicts) ∧
      ambiguitiesOf nfa kinds sets = conflicts.map (Conflict.ambiguity sets) := by
  obtain ⟨table, hrun, _⟩ := h.run_relabelByRows_noting (intern nfa kinds)
    (fun S => Conflict.ofMatched S (matchedKinds nfa kinds S)) {}
  refine ⟨table, _, _, hrun, ?_⟩
  rw [ambiguitiesOf, List.map_flatMap, List.filterMap_eq_flatMap_toList]
  -- set by set, at most one conflict is noted, and at most one entry is made
  refine congrArg List.flatten (List.map_congr_left fun S _ => ?_)
  rcases matchedKinds nfa kinds S with _ | ⟨winner, _ | ⟨second, rest⟩⟩
  · rfl
  · rfl
  · rfl

/-! ## The report -/

/-- The entries are those that report a state. -/
theorem mem_ambiguities_iff (h : ValidTable patterns) : a ∈ (ofPatterns patterns).ambiguities ↔
    ∃ q ∈ (ofPatterns patterns).automaton,
      a.Reports patterns (ofPatterns patterns).automaton q := by
  show a ∈ ambiguitiesOf _ _ _ ↔ _
  rw [ambiguitiesOf, List.mem_filterMap]
  constructor
  · intro hex
    obtain ⟨S, hS, ha⟩ := hex
    exact ⟨_, mem_automaton_iff.mpr ⟨S, hS, rfl⟩, (ofMatched?_eq_some_iff_reports h hS).mp ha⟩
  · intro hex
    obtain ⟨q, hq, ha⟩ := hex
    obtain ⟨S, hS, rfl⟩ := mem_automaton_iff.mp hq
    exact ⟨S, hS, (ofMatched?_eq_some_iff_reports h hS).mpr ha⟩

/-- No entry is listed twice. -/
theorem nodup_ambiguities (h : ValidTable patterns) : (ofPatterns patterns).ambiguities.Nodup := by
  show (ambiguitiesOf _ _ _).Nodup
  rw [ambiguitiesOf, List.Nodup, List.pairwise_filterMap]
  refine nodup_visitOrder.imp_of_mem fun {S T} hS hT hne a ha a' ha' heq => hne ?_
  have hreports := (ofMatched?_eq_some_iff_reports h hS).mp ha
  have hreports' := (ofMatched?_eq_some_iff_reports h hT).mp ha'
  rw [← heq] at hreports'
  -- one entry cannot report the states of two sets
  exact (keptApart_stateOf patterns).injective hS hT
    (hreports.state_unique (deterministic_automaton patterns) hreports')

/-- The state of an ambiguous word is reported. -/
theorem exists_reports (h : ValidTable patterns) (hq : q ∈ (ofPatterns patterns).automaton)
    (hpath : (ofPatterns patterns).automaton.Path (ofPatterns patterns).automaton.initial w q)
    (hw : Ambiguous patterns w) :
    ∃ a : Ambiguity, a.Reports patterns (ofPatterns patterns).automaton q := by
  obtain ⟨S, hS, rfl⟩ := mem_automaton_iff.mp hq
  obtain ⟨i, j, hne, hi, hj⟩ := hw
  rw [← h.mem_matchedKinds_reached, reached_of_path_stateOf hS hpath] at hi hj
  obtain ⟨a, ha⟩ := Ambiguity.exists_ofMatched? hne hi hj
  exact ⟨a, (ofMatched?_eq_some_iff_reports h hS).mp ha⟩

/-- There are no entries exactly if no word is ambiguous. -/
theorem ambiguities_eq_nil_iff (h : ValidTable patterns) :
    (ofPatterns patterns).ambiguities = [] ↔ ∀ w, ¬Ambiguous patterns w := by
  constructor
  · intro hnil w hw
    obtain ⟨i, _, _, hi, _⟩ := id hw
    obtain ⟨q, hq, hpath⟩ := exists_path_of_matchedAt h hi
    obtain ⟨a, ha⟩ := exists_reports h hq hpath hw
    have hmem := (mem_ambiguities_iff h).mpr ⟨q, hq, ha⟩
    rw [hnil] at hmem
    cases hmem
  · intro hnone
    apply List.eq_nil_iff_forall_not_mem.mpr
    intro a ha
    obtain ⟨q, _, hreports⟩ := (mem_ambiguities_iff h).mp ha
    exact hnone _ (hreports.ambiguous hreports.sample.holds)

/-- The ambiguities of a compiled lexer are exactly those of its table. No entry is listed
    twice, and each reports one known state. A known state is led to by some word, and its words
    are all ambiguous or all not; if they are, there is exactly one entry for the state. So for
    every ambiguous word there is exactly one entry that reports the state it leads to. The entries
    are those for the conflicts that are noted while the sets are numbered row by row, in the order
    in which these are met. No sample is made up, because every set that is asked for one has a
    shortest word. -/
theorem ambiguities_exact {l : Lexer} (h : compile patterns = .ok l) :
    l.ambiguities.Nodup ∧
    (∀ a ∈ l.ambiguities, ∃! q, q ∈ l.automaton ∧ a.Reports patterns l.automaton q) ∧
    (∀ q ∈ l.automaton, (∃ w, l.automaton.Path l.automaton.initial w q) ∧
      ∀ w, l.automaton.Path l.automaton.initial w q → (Ambiguous patterns w ↔
        ∃! a, a ∈ l.ambiguities ∧ a.Reports patterns l.automaton q)) ∧
    (∀ w, Ambiguous patterns w → ∃! a, a ∈ l.ambiguities ∧
      ∃ q, l.automaton.Path l.automaton.initial w q ∧ a.Reports patterns l.automaton q) ∧
    (∃ table numbers conflicts,
      (relabelByRows (internNoting l.nfa l.kinds) l.nfa.subsetConstruction).run (∅, {}, []) =
        (l.automaton, table, numbers, conflicts) ∧
      l.ambiguities = conflicts.map (Conflict.ambiguity l.nfa.subsetConstruction)) ∧
    (∀ S ∈ l.nfa.subsetConstruction.visitOrder,
      ∃ u, l.nfa.subsetConstruction.shortestWord? S = some u) := by
  obtain ⟨htable, rfl⟩ := compile_eq_ok_iff.mp h
  have hdet := deterministic_automaton patterns
  refine ⟨nodup_ambiguities htable, ?_, ?_, ?_, ?_, ?_⟩
  · intro a ha
    obtain ⟨q, hq, hreports⟩ := (mem_ambiguities_iff htable).mp ha
    exact ⟨q, ⟨hq, hreports⟩, fun r hr => hr.2.state_unique hdet hreports⟩
  · intro q hq
    refine ⟨exists_path_of_mem htable hq, fun w hpath => ⟨fun hw => ?_, fun hex => ?_⟩⟩
    · obtain ⟨a, ha⟩ := exists_reports htable hq hpath hw
      exact ⟨a, ⟨(mem_ambiguities_iff htable).mpr ⟨q, hq, ha⟩, ha⟩, fun a' ha' => ha'.2.unique ha⟩
    · obtain ⟨a, ⟨_, hreports⟩, _⟩ := hex
      exact hreports.ambiguous hpath
  · intro w hw
    obtain ⟨i, _, _, hi, _⟩ := id hw
    obtain ⟨q, hq, hpath⟩ := exists_path_of_matchedAt htable hi
    obtain ⟨a, ha⟩ := exists_reports htable hq hpath hw
    refine ⟨a, ⟨(mem_ambiguities_iff htable).mpr ⟨q, hq, ha⟩, q, hpath, ha⟩, fun a' ha' => ?_⟩
    -- the word leads to one state only
    obtain ⟨_, r, hr, hreports⟩ := ha'
    rw [hdet.path_unique hr hpath] at hreports
    exact hreports.unique ha
  · exact ambiguitiesOf_eq_map_conflicts _ _ (wellFormed_sets patterns)
  · intro S hS
    obtain ⟨u, hu, _⟩ := exists_shortestWord? hS
    exact ⟨u, hu⟩

/-- The second kind is shadowed where it matches the same byte as the first one. -/
theorem ambiguities_exact_overlap :
    let patterns : List Pattern := [⟨"A", Regex.word [97]⟩, ⟨"B", Regex.oneOf [97, 98]⟩]
    compile patterns = .ok (ofPatterns patterns) ∧ Ambiguous patterns [97] ∧
    ∃! a, a ∈ (ofPatterns patterns).ambiguities ∧
      ∃ q, (ofPatterns patterns).automaton.Path (ofPatterns patterns).automaton.initial [97] q ∧
        a.Reports patterns (ofPatterns patterns).automaton q := by
  intro patterns
  have hcompile : compile patterns = .ok (ofPatterns patterns) :=
    compile_eq_ok_iff.mpr ⟨⟨List.cons_ne_nil _ _, by decide, by decide⟩, rfl⟩
  have hambiguous : Ambiguous patterns [97] := by
    have hA : (Regex.word [97]).recognizes [97] = true :=
      recognizes_iff_accepts.mpr (Regex.accepts_word_iff.mpr rfl)
    have hB : (Regex.oneOf [97, 98]).recognizes [97] = true :=
      recognizes_iff_accepts.mpr (Regex.accepts_oneOf_iff.mpr ⟨97, by decide, rfl⟩)
    exact ⟨0, 1, Nat.zero_ne_one, ⟨_, rfl, hA⟩, ⟨_, rfl, hB⟩⟩
  exact ⟨hcompile, hambiguous, (ambiguities_exact hcompile).2.2.2.1 [97] hambiguous⟩

end Lexer

end ByteLexer
