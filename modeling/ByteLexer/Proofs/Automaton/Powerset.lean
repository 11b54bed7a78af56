import ByteLexer.Proofs.Automaton.Construction
import ByteLexer.Proofs.Automaton.Subset

/-! # The shape of the subset construction

    The full subset construction has a state for every word, the set of the states that the word
    leads to, and from every set an edge on every byte. What `subsetConstruction` builds is this
    diagram without the empty set, although it tries no other bytes than those on which some member
    of a set can move.

    - **Ends.** The states that paths from some states lead to while they spell a word, as a
      mathematical set, and how such sets compose.
    - **The full construction**, as a diagram over such sets, and the part of a diagram.
    - **Known sets.** A set is a state of the construction if it holds the ends of a word and is not
      empty, and two such sets are joined on a byte if the second one holds the ends of the first.
-/

namespace ByteLexer

open Std (TransOrd LawfulEqOrd)

/-! ## Members -/

/-- The members of a set of states, as a mathematical set. -/
def StateSet.members {Q : Type} [Ord Q] [TransOrd Q] (S : StateSet Q) : Set Q :=
  {q | q ∈ S}

/-- The members of a set are counted by its size. -/
theorem StateSet.ncard_members {Q : Type} [Ord Q] [TransOrd Q] [LawfulEqOrd Q] (S : StateSet Q) :
    S.members.ncard = S.size := by
  have hcount := Automaton.ncard_setOf_mem (OrdSet.nodup_toList S)
  simp only [Std.ExtTreeSet.mem_toList] at hcount
  exact hcount.trans Std.ExtTreeSet.length_toList

/-! ## Parts of diagrams -/

/-- The part of a diagram on some of its states: these states, and the edges between them. -/
def Diagram.restrict {Q : Type} (D : Diagram Q) (keep : Set Q) : Diagram Q where
  initial := D.initial
  states := D.states ∩ keep
  edges := {e | e ∈ D.edges ∧ e.source ∈ keep ∧ e.target ∈ keep}
  accepting := D.accepting ∩ keep

namespace Automaton

variable {Q : Type} [Ord Q] [TransOrd Q]

/-! ## Ends -/

/-- The states that paths from some given states lead to while they spell a word. -/
def ends (A : Automaton Q) (X : Set Q) (w : List UInt8) : Set Q :=
  {r | ∃ q ∈ X, A.Path q w r}

/-- The states that a word leads to. -/
def wordEnds (A : Automaton Q) (w : List UInt8) : Set Q :=
  A.ends {A.initial} w

section Ends

variable {A : Automaton Q} {X : Set Q} {q : Q} {b : UInt8} {u w : List UInt8}

theorem mem_wordEnds : q ∈ A.wordEnds w ↔ A.Path A.initial w q := by
  constructor
  · intro hex
    obtain ⟨p, hp, hpath⟩ := hex
    rw [Set.mem_singleton_iff.mp hp] at hpath
    exact hpath
  · intro hpath
    exact ⟨A.initial, rfl, hpath⟩

/-- The ends of two words in a row are the ends of the second one from those of the first. -/
theorem ends_append : A.ends X (u ++ w) = A.ends (A.ends X u) w := by
  ext r
  constructor
  · intro hex
    obtain ⟨q, hq, hpath⟩ := hex
    obtain ⟨t, ht, hr⟩ := hpath.cut
    exact ⟨t, ⟨q, hq, ht⟩, hr⟩
  · intro hex
    obtain ⟨t, ⟨q, hq, ht⟩, hr⟩ := hex
    exact ⟨q, hq, ht.append hr⟩

theorem wordEnds_append : A.wordEnds (u ++ w) = A.ends (A.wordEnds u) w :=
  ends_append

/-- Nothing more can be reached from the ends of a word without consuming anything. -/
theorem ends_wordEnds_nil : A.ends (A.wordEnds w) [] = A.wordEnds w := by
  rw [← wordEnds_append, List.append_nil]

theorem nonempty_wordEnds_iff : (A.wordEnds w).Nonempty ↔ A.Viable w :=
  exists_congr fun _ => mem_wordEnds

/-- If a set is closed, a byte leads somewhere from it exactly if a member has an edge on the
    byte. -/
theorem nonempty_ends_byte_iff (h : A.ends X [] = X) :
    (A.ends X [b]).Nonempty ↔ ∃ q ∈ X, ∃ r, r ∈ A.targets q (some b) := by
  constructor
  · intro hex
    obtain ⟨t, q, hq, hpath⟩ := hex
    obtain ⟨p, r, hp, hr, _⟩ := hpath.cut_byte
    -- the silent part of the path stays in the set
    have hpX : p ∈ A.ends X [] := ⟨q, hq, hp⟩
    rw [h] at hpX
    exact ⟨p, hpX, r, hr⟩
  · intro hex
    obtain ⟨q, hq, r, hr⟩ := hex
    exact ⟨r, q, hq, .byte hr (.nil r)⟩

end Ends

/-! ## The full construction -/

/-- The full subset construction. Its states are the sets of states that words lead to, the empty
    set too if there is a word that leads nowhere, and from each of them there is an edge on every
    byte. -/
def powerset (A : Automaton Q) : Diagram (Set Q) where
  initial := A.wordEnds []
  states := Set.range A.wordEnds
  edges := {e | e.source ∈ Set.range A.wordEnds ∧
    ∃ b, e.symbol = some b ∧ e.target = A.ends e.source [b]}
  accepting := {X | X ∈ Set.range A.wordEnds ∧ ∃ q ∈ X, q ∈ A.accepting}

/-! ## Known sets -/

variable [LawfulEqOrd Q] {A : Automaton Q} {S T : StateSet Q} {b : UInt8} {w : List UInt8}

/-- Sets of the same members are equal. -/
theorem members_injective : Function.Injective (StateSet.members (Q := Q)) := by
  intro S T h
  exact Std.ExtTreeSet.ext_mem fun q => Set.ext_iff.mp h q

theorem members_reached : (A.reached w).members = A.wordEnds w := by
  ext q
  rw [mem_wordEnds]
  exact mem_reached

/-- The initial set holds the ends of the empty word. -/
theorem members_initial_subsetConstruction :
    A.subsetConstruction.initial.members = A.wordEnds [] := by
  rw [initial_subsetConstruction, ← reached_nil]
  exact members_reached

/-- The known states of the construction are the ends of words, the empty set apart. -/
theorem Tidy.mem_subsetConstruction_iff (hA : A.Tidy) :
    S ∈ A.subsetConstruction ↔ S.members.Nonempty ∧ S.members ∈ Set.range A.wordEnds := by
  rw [mem_subsetConstruction]
  constructor
  · intro hmet
    obtain ⟨w, hw, rfl⟩ := hA.exists_reached_of_met hmet
    rw [members_reached]
    exact ⟨nonempty_wordEnds_iff.mpr hw, w, rfl⟩
  · intro hand
    obtain ⟨hne, w, hw⟩ := hand
    rw [← hw, nonempty_wordEnds_iff] at hne
    rw [← members_reached] at hw
    rw [← members_injective hw]
    exact met_reached hne

/-- Nothing more can be reached from a known set without consuming anything. -/
theorem Tidy.ends_members_nil (hA : A.Tidy) (hS : S ∈ A.subsetConstruction) :
    A.ends S.members [] = S.members := by
  obtain ⟨_, w, hw⟩ := hA.mem_subsetConstruction_iff.mp hS
  rw [← hw]
  exact ends_wordEnds_nil

/-- The bytes that are tried at a set are those on which a member has an edge. -/
theorem Tidy.mem_inputs_iff (hA : A.Tidy) :
    b ∈ A.inputs S ↔ ∃ q ∈ S, ∃ r, r ∈ A.targets q (some b) := by
  rw [mem_inputs]
  simp only [hA.mem_row_iff]

/-- At a known set they are those that lead somewhere. -/
theorem Tidy.mem_inputs_iff_nonempty (hA : A.Tidy) (hS : S ∈ A.subsetConstruction) :
    b ∈ A.inputs S ↔ (A.ends S.members [b]).Nonempty := by
  rw [nonempty_ends_byte_iff (hA.ends_members_nil hS), hA.mem_inputs_iff]
  rfl

/-- From a known set, a byte leads to a known set if it is tried. -/
theorem exists_target_iff_mem_inputs (hS : S ∈ A.subsetConstruction) :
    (∃ T, T ∈ A.subsetConstruction.targets S (some b)) ↔ b ∈ A.inputs S := by
  simp only [mem_targets_subsetConstruction]
  constructor
  · intro hex
    obtain ⟨T, _, c, hc, hb, _⟩ := hex
    rw [Option.some.inj hc]
    exact hb
  · intro hb
    exact ⟨A.move S b, mem_subsetConstruction.mp hS, b, rfl, hb, rfl⟩

/-- From a known set, a move gives the ends of the byte. -/
theorem Tidy.members_move (hA : A.Tidy) (hS : S ∈ A.subsetConstruction) :
    (A.move S b).members = A.ends S.members [b] := by
  obtain ⟨w, _, rfl⟩ := hA.exists_reached_of_met (mem_subsetConstruction.mp hS)
  rw [← reached_concat, members_reached, members_reached, wordEnds_append]

/-- There is an edge between two known sets on a byte if the second one holds the ends of the byte
    from the first one. -/
theorem Tidy.mem_targets_subsetConstruction_iff (hA : A.Tidy) {s : Symbol} :
    T ∈ A.subsetConstruction.targets S s ↔
      S ∈ A.subsetConstruction ∧ T ∈ A.subsetConstruction ∧
        ∃ b, s = some b ∧ T.members = A.ends S.members [b] := by
  rw [mem_targets_subsetConstruction]
  constructor
  · intro hand
    obtain ⟨hmet, b, hs, hb, rfl⟩ := hand
    have hS : S ∈ A.subsetConstruction := mem_subsetConstruction.mpr hmet
    exact ⟨hS, mem_subsetConstruction.mpr (hmet.move hb), b, hs, hA.members_move hS⟩
  · intro hand
    obtain ⟨hS, hT, b, hs, hends⟩ := hand
    -- as the second set is not empty, the byte is tried
    have hne := (hA.mem_subsetConstruction_iff.mp hT).1
    rw [hends] at hne
    refine ⟨mem_subsetConstruction.mp hS, b, hs, (hA.mem_inputs_iff_nonempty hS).mpr hne, ?_⟩
    exact members_injective (hends.trans (hA.members_move hS).symm)

/-- The ends of a word are known, unless there are none. -/
theorem Tidy.exists_members_eq_iff (hA : A.Tidy) {X : Set Q} :
    (∃ S, S ∈ A.subsetConstruction ∧ S.members = X) ↔ X.Nonempty ∧ X ∈ Set.range A.wordEnds := by
  constructor
  · intro hex
    obtain ⟨S, hS, rfl⟩ := hex
    exact hA.mem_subsetConstruction_iff.mp hS
  · intro hand
    obtain ⟨hne, w, rfl⟩ := hand
    refine ⟨A.reached w, hA.mem_subsetConstruction_iff.mpr ?_, members_reached⟩
    rw [members_reached]
    exact ⟨hne, w, rfl⟩

/-- A word leads to the set of its ends. -/
theorem Tidy.path_subsetConstruction_iff_members (hA : A.Tidy) :
    A.subsetConstruction.Path A.subsetConstruction.initial w S ↔
      S.members.Nonempty ∧ S.members = A.wordEnds w := by
  rw [initial_subsetConstruction, hA.path_subsetConstruction_iff, ← nonempty_wordEnds_iff,
    ← members_reached, members_injective.eq_iff]
  constructor
  · intro hand
    obtain ⟨hne, rfl⟩ := hand
    exact ⟨hne, rfl⟩
  · intro hand
    obtain ⟨hne, rfl⟩ := hand
    exact ⟨hne, rfl⟩

/-! ## The construction as a diagram -/

/-- The construction shows the full one without the empty set. -/
theorem Tidy.diagram_subsetConstruction (hA : A.Tidy) :
    A.subsetConstruction.diagram.image StateSet.members =
      A.powerset.restrict {X | X.Nonempty} := by
  apply Diagram.ext
  · exact members_initial_subsetConstruction
  · ext X
    show (∃ S, S ∈ A.subsetConstruction ∧ S.members = X) ↔ X ∈ Set.range A.wordEnds ∧ X.Nonempty
    rw [hA.exists_members_eq_iff, and_comm]
  · ext e
    constructor
    · intro hex
      obtain ⟨d, hd, rfl⟩ := hex
      obtain ⟨hS, hT, b, hs, hends⟩ := hA.mem_targets_subsetConstruction_iff.mp hd
      obtain ⟨hsource, hrange⟩ := hA.mem_subsetConstruction_iff.mp hS
      have htarget := (hA.mem_subsetConstruction_iff.mp hT).1
      exact ⟨⟨hrange, b, hs, hends⟩, hsource, htarget⟩
    · intro hand
      obtain ⟨⟨⟨w, hw⟩, b, hs, hends⟩, hsource, htarget⟩ := hand
      -- the ends of a byte from the ends of a word are those of the longer word
      have hlonger : A.wordEnds (w ++ [b]) = e.target := by
        rw [wordEnds_append, hw, hends]
      obtain ⟨S, hS, hSe⟩ := hA.exists_members_eq_iff.mpr ⟨hsource, w, hw⟩
      obtain ⟨T, hT, hTe⟩ := hA.exists_members_eq_iff.mpr ⟨htarget, w ++ [b], hlonger⟩
      refine ⟨⟨S, e.symbol, T⟩, hA.mem_targets_subsetConstruction_iff.mpr ⟨hS, hT, b, hs, ?_⟩, ?_⟩
      · rw [hSe, hTe, hends]
      · unfold Edge.image
        rw [hSe, hTe]
  · ext X
    constructor
    · intro hex
      obtain ⟨S, hS, rfl⟩ := hex
      obtain ⟨hmet, q, hq, hacc⟩ := mem_accepting_subsetConstruction.mp hS
      obtain ⟨hne, hrange⟩ := hA.mem_subsetConstruction_iff.mp (mem_subsetConstruction.mpr hmet)
      exact ⟨⟨hrange, q, hq, hacc⟩, hne⟩
    · intro hand
      obtain ⟨⟨hrange, q, hq, hacc⟩, hne⟩ := hand
      obtain ⟨S, hS, rfl⟩ := hA.exists_members_eq_iff.mpr ⟨hne, hrange⟩
      exact ⟨S, mem_accepting_subsetConstruction.mpr
        ⟨mem_subsetConstruction.mp hS, q, hq, hacc⟩, rfl⟩

/-- `B` is the subset construction of `A` and has no junk.

    - `states`: its states are the ends of words, the empty set apart.
    - `path`: a word leads to the set of its ends, so every state can be reached.
    - `closed`: nothing more can be reached from a state without consuming anything.
    - `tried`: the bytes tried at a state are those that lead to any state of `A`.
    - `moves`: on a byte there is an edge if some member of the state has one.
    - `targets`: an edge leads to the set of the states that its byte leads to.
    - `accepting`: a state is accepting if it has an accepting member.
    - `whole`: all in all it is the full subset construction without the empty set. -/
structure IsSubsetConstruction (A : Automaton Q) (B : Automaton (StateSet Q)) : Prop where
  states : ∀ X : Set Q, (∃ S, S ∈ B ∧ S.members = X) ↔ X.Nonempty ∧ ∃ w, A.wordEnds w = X
  initial : B.initial.members = A.wordEnds []
  path : ∀ w S, B.Path B.initial w S ↔ S.members.Nonempty ∧ S.members = A.wordEnds w
  closed : ∀ S, S ∈ B → A.ends S.members [] = S.members
  tried : ∀ S, S ∈ B → ∀ b, b ∈ A.inputs S ↔ (A.ends S.members [b]).Nonempty
  moves : ∀ S, S ∈ B → ∀ b,
    (∃ T, T ∈ B.targets S (some b)) ↔ ∃ q ∈ S, ∃ r, r ∈ A.targets q (some b)
  targets : ∀ S s T, T ∈ B.targets S s ↔
    S ∈ B ∧ T ∈ B ∧ ∃ b, s = some b ∧ T.members = A.ends S.members [b]
  accepting : ∀ S, S ∈ B.accepting ↔ S ∈ B ∧ ∃ q ∈ S, q ∈ A.accepting
  whole : B.diagram.image StateSet.members = A.powerset.restrict {X | X.Nonempty}

/-- Let an automaton be built by any sequence of operations. The states of its subset construction
    are the sets of states that some word leads to, the empty set apart, and each of them can be
    reached. On a byte it leads on exactly if some member of the set has an edge on the byte, and
    then to the set of the states that the byte leads to. -/
theorem Construction.subsetConstruction_exact {L : Labels} (c : Construction L) :
    IsSubsetConstruction c.build c.build.subsetConstruction := by
  have hA := c.wellFormed_build.tidy
  constructor
  case states =>
    intro X
    exact hA.exists_members_eq_iff
  case initial => exact members_initial_subsetConstruction
  case path =>
    intro w S
    exact hA.path_subsetConstruction_iff_members
  case closed =>
    intro S hS
    exact hA.ends_members_nil hS
  case tried =>
    intro S hS b
    exact hA.mem_inputs_iff_nonempty hS
  case moves =>
    intro S hS b
    rw [exists_target_iff_mem_inputs hS]
    exact hA.mem_inputs_iff
  case targets =>
    intro S s T
    exact hA.mem_targets_subsetConstruction_iff
  case accepting =>
    intro S
    rw [mem_accepting_subsetConstruction, mem_subsetConstruction]
  case whole => exact hA.diagram_subsetConstruction

/-- The only edge on a byte starts one silent edge away from the initial state, and leads back. -/
theorem Construction.subsetConstruction_exact_cycle :
    let c : Construction ⟨Nat⟩ := .addEdge (.addEdge (.ofInitial 0) ⟨0, none, 1⟩) ⟨1, some 97, 0⟩
    let B := c.build.subsetConstruction
    ∃ T, T ∈ B.targets B.initial (some 97) ∧ 1 ∈ T := by
  intro c B
  have hexact := subsetConstruction_exact c
  have hedge : 0 ∈ c.build.targets 1 (some 97) := mem_targets_addEdge.mpr (.inl rfl)
  have hsilent : c.build.Path 0 [] 1 :=
    .silent (mem_targets_addEdge.mpr (.inr (mem_targets_addEdge.mpr (.inl rfl)))) (.nil 1)
  have hinitial : 1 ∈ B.initial.members := by
    rw [hexact.initial]
    exact mem_wordEnds.mpr hsilent
  have hknown : B.initial ∈ B := c.subsetConstruction.wellFormed_build.initial
  obtain ⟨T, hT⟩ := (hexact.moves _ hknown 97).mpr ⟨1, hinitial, 0, hedge⟩
  obtain ⟨_, _, b, hb, hends⟩ := (hexact.targets _ _ _).mp hT
  refine ⟨T, hT, ?_⟩
  show 1 ∈ T.members
  rw [hends, ← Option.some.inj hb]
  exact ⟨1, hinitial, .byte hedge hsilent⟩

end Automaton

end ByteLexer
