import ByteLexer.Proofs.Automaton.Powerset
import ByteLexer.Proofs.Automaton.Runs

/-! # Subset constructions of deterministic automata

    A deterministic automaton is in one state at a time, so its subset construction does no more
    than to leave out the states that no word leads to, and to put each other one into a set of its
    own. A subset construction is deterministic and has no such states, so to repeat it only
    changes the labels.

    - **Accessible states.** Those that a word leads to.
    - **Parts of automata.** `restrict` leaves out all states but some.
    - **One state at a time.** The ends of words in a deterministic automaton, and the known sets of
      its subset construction.
    - **Repetition.** Where all states can be reached, nothing is left out.
-/

namespace ByteLexer.Automaton

open Std (TransOrd LawfulEqOrd)

variable {Q : Type} [Ord Q] [TransOrd Q] {A : Automaton Q} {q r : Q} {b : UInt8} {w : List UInt8}

/-! ## Accessible states -/

/-- A state that some word leads to. -/
def Accessible (A : Automaton Q) (q : Q) : Prop :=
  ∃ w, A.Path A.initial w q

theorem accessible_initial (A : Automaton Q) : A.Accessible A.initial :=
  ⟨[], .nil A.initial⟩

/-! ## Parts of automata -/

open Classical in
/-- The part of an automaton on some of its states: these states, and the edges between them. -/
noncomputable def restrict (A : Automaton Q) (keep : Set Q) : Automaton Q :=
  ofParts A.initial (A.states.filter (· ∈ keep))
    (A.edges.filter fun e => e.source ∈ keep ∧ e.target ∈ keep)
    (A.accepting.toList.filter (· ∈ keep))

/-- A path from a known state leads to known states. -/
theorem WellFormed.mem_of_path (hA : A.WellFormed) (hq : q ∈ A) (h : A.Path q w r) : r ∈ A := by
  induction h with
  | nil => exact hq
  | silent hr _ ih => exact ih (hA.ends _ _ _ hr).2
  | byte hr _ ih => exact ih (hA.ends _ _ _ hr).2

theorem WellFormed.mem_of_accessible (hA : A.WellFormed) (h : A.Accessible q) : q ∈ A := by
  obtain ⟨w, hw⟩ := h
  exact hA.mem_of_path hA.initial hw

variable [LawfulEqOrd Q]

theorem wellFormed_restrict (A : Automaton Q) (keep : Set Q) : (A.restrict keep).WellFormed :=
  wellFormed_ofParts _ _ _ _

/-- A part of an automaton shows the part of its diagram. -/
theorem diagram_restrict (hA : A.WellFormed) {keep : Set Q} (h : A.initial ∈ keep) :
    (A.restrict keep).diagram = A.diagram.restrict keep := by
  apply Diagram.ext
  · exact initial_ofParts
  · ext q
    show q ∈ A.restrict keep ↔ q ∈ A ∧ q ∈ keep
    unfold restrict
    simp only [mem_ofParts, List.mem_filter, mem_states, decide_eq_true_eq, mem_edges,
      Std.ExtTreeSet.mem_toList]
    constructor
    · intro hq
      -- what edges and accepting states bring in, the automaton knows anyway
      rcases hq with rfl | hq | ⟨e, ⟨he, hsource, htarget⟩, rfl | rfl⟩ | ⟨hq, hkeep⟩
      · exact ⟨hA.initial, h⟩
      · exact hq
      · exact ⟨(hA.ends _ _ _ he).1, hsource⟩
      · exact ⟨(hA.ends _ _ _ he).2, htarget⟩
      · exact ⟨hA.accepting q hq, hkeep⟩
    · intro hq
      exact .inr (.inl hq)
  · ext e
    show e.target ∈ (A.restrict keep).targets e.source e.symbol ↔ _
    unfold restrict
    simp only [mem_targets_ofParts, List.mem_filter, mem_edges, decide_eq_true_eq]
    rfl
  · ext q
    show q ∈ (A.restrict keep).accepting ↔ q ∈ A.accepting ∧ q ∈ keep
    unfold restrict
    simp only [mem_accepting_ofParts, List.mem_filter, Std.ExtTreeSet.mem_toList,
      decide_eq_true_eq]

/-- The part on all known states is the whole. -/
theorem restrict_eq_self (hA : A.WellFormed) {keep : Set Q} (h : ∀ q ∈ A, q ∈ keep) :
    A.restrict keep = A := by
  apply eq_of_diagram_eq (A.wellFormed_restrict keep).tidy hA.tidy
  rw [diagram_restrict hA (h _ hA.initial)]
  apply Diagram.ext
  · rfl
  · exact Set.inter_eq_left.mpr h
  · ext e
    exact and_iff_left_of_imp fun he =>
      ⟨h _ (hA.ends _ _ _ he).1, h _ (hA.ends _ _ _ he).2⟩
  · exact Set.inter_eq_left.mpr fun q hq => h q (hA.accepting q hq)

/-! ## One state at a time -/

theorem members_singleton (q : Q) : StateSet.members {q} = {q} := by
  ext r
  exact OrdSet.mem_singleton

namespace Deterministic

omit [LawfulEqOrd Q] in
/-- A word leads to one state, if it leads anywhere. -/
theorem wordEnds_eq (h : A.Deterministic) (hq : A.Path A.initial w q) : A.wordEnds w = {q} := by
  ext r
  rw [mem_wordEnds]
  constructor
  · intro hr
    exact h.path_unique hr hq
  · intro hr
    rw [Set.mem_singleton_iff.mp hr]
    exact hq

omit [LawfulEqOrd Q] in
/-- From one state, a byte leads to the target of the edge on it. -/
theorem ends_singleton (h : A.Deterministic) :
    A.ends {q} [b] = {r} ↔ r ∈ A.targets q (some b) := by
  have hmem : ∀ t, t ∈ A.ends {q} [b] ↔ t ∈ A.targets q (some b) := by
    intro t
    constructor
    · intro hex
      obtain ⟨p, hp, hpath⟩ := hex
      rw [Set.mem_singleton_iff.mp hp] at hpath
      obtain ⟨u, hu, htail⟩ := h.path_cons_iff.mp hpath
      rw [h.path_nil_iff.mp htail]
      exact hu
    · intro ht
      exact ⟨q, rfl, .byte ht (.nil t)⟩
  constructor
  · intro heq
    rw [← hmem, heq]
    rfl
  · intro hr
    ext t
    rw [hmem]
    constructor
    · intro ht
      exact h.single q b t r ht hr
    · intro ht
      rw [Set.mem_singleton_iff.mp ht]
      exact hr

/-- The known sets are those of one accessible state each. -/
theorem mem_subsetConstruction_iff (h : A.Deterministic) (hA : A.Tidy) {S : StateSet Q} :
    S ∈ A.subsetConstruction ↔ ∃ q, A.Accessible q ∧ {q} = S := by
  rw [hA.mem_subsetConstruction_iff]
  constructor
  · intro hand
    obtain ⟨⟨q, hq⟩, w, hw⟩ := hand
    -- a member of the set is the only one
    rw [← hw, mem_wordEnds] at hq
    refine ⟨q, ⟨w, hq⟩, members_injective ?_⟩
    rw [members_singleton, ← hw, h.wordEnds_eq hq]
  · intro hex
    obtain ⟨q, ⟨w, hw⟩, rfl⟩ := hex
    rw [members_singleton]
    exact ⟨Set.singleton_nonempty q, w, h.wordEnds_eq hw⟩

/-- The construction shows the accessible part, each state in a set of its own. -/
theorem diagram_subsetConstruction (h : A.Deterministic) (hA : A.WellFormed) :
    A.subsetConstruction.diagram =
      (A.diagram.restrict {q | A.Accessible q}).image fun q => {q} := by
  have hknown := fun S => h.mem_subsetConstruction_iff hA.tidy (S := S)
  apply Diagram.ext
  · apply members_injective
    show A.subsetConstruction.initial.members = StateSet.members {A.initial}
    rw [members_initial_subsetConstruction, members_singleton]
    exact h.wordEnds_eq (.nil A.initial)
  · ext S
    show S ∈ A.subsetConstruction ↔ ∃ q, (q ∈ A ∧ A.Accessible q) ∧ {q} = S
    rw [hknown]
    constructor
    · intro hex
      obtain ⟨q, hq, hS⟩ := hex
      exact ⟨q, ⟨hA.mem_of_accessible hq, hq⟩, hS⟩
    · intro hex
      obtain ⟨q, ⟨_, hq⟩, hS⟩ := hex
      exact ⟨q, hq, hS⟩
  · ext e
    show e.target ∈ A.subsetConstruction.targets e.source e.symbol ↔ _
    rw [hA.tidy.mem_targets_subsetConstruction_iff]
    constructor
    · intro hand
      obtain ⟨hsource, htarget, b, hs, hends⟩ := hand
      obtain ⟨q, hq, hqe⟩ := (hknown _).mp hsource
      obtain ⟨r, hr, hre⟩ := (hknown _).mp htarget
      rw [← hqe, ← hre, members_singleton, members_singleton] at hends
      refine ⟨⟨q, e.symbol, r⟩, ⟨?_, hq, hr⟩, ?_⟩
      · show r ∈ A.targets q e.symbol
        rw [hs]
        exact h.ends_singleton.mp hends.symm
      · show (⟨{q}, e.symbol, {r}⟩ : Edge (StateSet Q)) = e
        rw [hqe, hre]
    · intro hex
      obtain ⟨⟨q, s, r⟩, ⟨hedge, hq, hr⟩, rfl⟩ := hex
      refine ⟨(hknown _).mpr ⟨q, hq, rfl⟩, (hknown _).mpr ⟨r, hr, rfl⟩, ?_⟩
      cases s with
      | none => exact absurd hedge (h.silent_free q r)
      | some b =>
        refine ⟨b, rfl, ?_⟩
        show StateSet.members {r} = A.ends (StateSet.members {q}) [b]
        rw [members_singleton, members_singleton, h.ends_singleton.mpr hedge]
  · ext S
    show S ∈ A.subsetConstruction.accepting ↔
      ∃ q, (q ∈ A.accepting ∧ A.Accessible q) ∧ {q} = S
    rw [mem_accepting_subsetConstruction, ← mem_subsetConstruction, hknown]
    constructor
    · intro hand
      obtain ⟨⟨q, hq, rfl⟩, t, ht, hacc⟩ := hand
      rw [OrdSet.mem_singleton.mp ht] at hacc
      exact ⟨q, ⟨hacc, hq⟩, rfl⟩
    · intro hex
      obtain ⟨q, ⟨hacc, hq⟩, rfl⟩ := hex
      exact ⟨⟨q, hq, rfl⟩, q, OrdSet.mem_singleton.mpr rfl, hacc⟩

/-- So it is the accessible part, with changed labels. -/
theorem subsetConstruction_eq (h : A.Deterministic) (hA : A.WellFormed) :
    A.subsetConstruction = (A.restrict {q | A.Accessible q}).image fun q => {q} := by
  have himage : ((A.restrict {q | A.Accessible q}).image fun q => ({q} : StateSet Q)).Tidy :=
    tidy_ofParts _ _ _ _
  apply eq_of_diagram_eq A.tidy_subsetConstruction himage
  rw [h.diagram_subsetConstruction hA, diagram_image (A.wellFormed_restrict _),
    diagram_restrict hA A.accessible_initial]

end Deterministic

/-! ## Repetition -/

/-- Every state of a subset construction can be reached, by a word that it holds the ends of. -/
theorem Tidy.accessible_subsetConstruction (hA : A.Tidy) {S : StateSet Q}
    (hS : S ∈ A.subsetConstruction) : A.subsetConstruction.Accessible S := by
  obtain ⟨hne, w, hw⟩ := hA.mem_subsetConstruction_iff.mp hS
  exact ⟨w, hA.path_subsetConstruction_iff_members.mpr ⟨hne, hw.symm⟩⟩

/-- A deterministic automaton all whose states can be reached. -/
structure Reduced (A : Automaton Q) : Prop where
  wellFormed : A.WellFormed
  deterministic : A.Deterministic
  accessible : ∀ q ∈ A, A.Accessible q

/-- A subset construction is reduced. -/
theorem WellFormed.reduced_subsetConstruction (hA : A.WellFormed) :
    A.subsetConstruction.Reduced where
  wellFormed := wellFormed_ofParts _ _ _ _
  deterministic := A.deterministic_subsetConstruction
  accessible _ hS := hA.tidy.accessible_subsetConstruction hS

/-- The subset construction of a reduced automaton leaves nothing out. -/
theorem Reduced.subsetConstruction_eq (h : A.Reduced) :
    A.subsetConstruction = A.image fun q => {q} := by
  have hall : ∀ q ∈ A, q ∈ {q | A.Accessible q} := h.accessible
  rw [h.deterministic.subsetConstruction_eq h.wellFormed, restrict_eq_self h.wellFormed hall]

/-- Let an automaton be built by any sequence of operations. If it is deterministic, its subset
    construction is the part of it on the states that some word leads to, with a set of one state
    for each. Whatever it is, to make the construction twice is to make it once and then put each
    state into a set of its own. -/
theorem Construction.subsetConstruction_prunes {L : Labels} (c : Construction L) :
    (c.build.isDeterministic = true →
      c.build.subsetConstruction =
        (c.build.restrict {q | c.build.Accessible q}).image fun q => {q}) ∧
    c.build.subsetConstruction.subsetConstruction =
      c.build.subsetConstruction.image fun S => {S} := by
  have hA := c.wellFormed_build
  constructor
  · intro hdet
    exact (hA.tidy.isDeterministic_iff.mp hdet).subsetConstruction_eq hA
  · exact hA.reduced_subsetConstruction.subsetConstruction_eq

/-- A state with a loop that no word leads to is left out. -/
theorem Construction.subsetConstruction_prunes_loop :
    let c : Construction ⟨Nat⟩ :=
      .addAccepting (.addEdge (.addEdge (.ofInitial 0) ⟨0, some 97, 1⟩) ⟨2, some 98, 2⟩) 1
    c.build.isDeterministic = true ∧ 2 ∈ c.build ∧ ¬c.build.Accessible 2 ∧
      c.build.subsetConstruction =
        (c.build.restrict {q | c.build.Accessible q}).image fun q => {q} := by
  intro c
  have hdet : c.build.isDeterministic = true := by decide
  have hknown : 2 ∈ c.build := by decide
  have hedges : ∀ q s r, r ∈ c.build.targets q s → q ≠ 2 → r ≠ 2 := by
    intro q s r hr hq
    have hcases : (q = 2 ∧ s = some 98 ∧ r = 2) ∨ (q = 0 ∧ s = some 97 ∧ r = 1) := by
      simpa [c, build, mem_targets_addEdge] using hr
    rcases hcases with ⟨hloop, _, _⟩ | ⟨_, _, rfl⟩
    · exact absurd hloop hq
    · decide
  have hpaths : ∀ q w r, c.build.Path q w r → q ≠ 2 → r ≠ 2 := by
    intro q w r h
    induction h with
    | nil => exact id
    | silent hr _ ih => exact fun hq => ih (hedges _ _ _ hr hq)
    | byte hr _ ih => exact fun hq => ih (hedges _ _ _ hr hq)
  have haccessible : ¬c.build.Accessible 2 := by
    intro h
    obtain ⟨w, hw⟩ := h
    exact hpaths _ w 2 hw (by decide) rfl
  exact ⟨hdet, hknown, haccessible, (subsetConstruction_prunes c).1 hdet⟩

end ByteLexer.Automaton
