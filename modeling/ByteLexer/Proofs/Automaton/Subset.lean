import ByteLexer.Automaton.Powerset
import ByteLexer.Proofs.Automaton.Deterministic
import ByteLexer.Proofs.Automaton.Words

/-! # What the subset construction builds

    The states of a subset construction are the sets that can be met from the start
    on, and on each byte there is one way to go: to the set that a move gives.

    - **Shape.** Edges and accepting states, in terms of moves.
    - **Paths.** A path from the initial set leads to the set that its word reaches,
      and there is such a path for every viable word.
    - **Language.** The same words are accepted.
-/

namespace ByteLexer.Automaton

open Std (TransOrd LawfulEqOrd)

variable {Q : Type} [Ord Q] [TransOrd Q] [LawfulEqOrd Q] {A : Automaton Q}
  {S T : StateSet Q} {b : UInt8} {w : List UInt8}

/-! ## Shape -/

/-- A set that the construction meets. -/
def Met (A : Automaton Q) (S : StateSet Q) : Prop :=
  Graph.Reachable A.moves [A.start] S

theorem exists_mem_reachableSets_iff :
    (∃ x ∈ A.reachableSets, x.vertex = S) ↔ A.Met S :=
  Graph.exists_mem_traverse_iff

theorem edges_of_mem_reachableSets {x : Graph.Visit (StateSet Q) UInt8}
    (h : x ∈ A.reachableSets) : x.edges = A.moves x.vertex :=
  Graph.edges_of_mem_explore x h

theorem mem_moves : (b, T) ∈ A.moves S ↔ b ∈ A.inputs S ∧ T = A.move S b := by
  simp only [moves, List.mem_map, Std.ExtTreeSet.mem_toList, Prod.mk.injEq]
  constructor
  · intro hex
    obtain ⟨c, hc, hb, hT⟩ := hex
    rw [← hT, ← hb]
    exact ⟨hc, rfl⟩
  · intro hand
    obtain ⟨hb, hT⟩ := hand
    exact ⟨b, hb, rfl, hT.symm⟩

@[simp] theorem initial_subsetConstruction : A.subsetConstruction.initial = A.start :=
  initial_ofParts

theorem met_start (A : Automaton Q) : A.Met A.start :=
  .start (List.mem_singleton.mpr rfl)

theorem Met.move (h : A.Met S) (hb : b ∈ A.inputs S) : A.Met (A.move S b) :=
  .step (e := (b, A.move S b)) h (mem_moves.mpr ⟨hb, rfl⟩)

/-- The edges of the construction are the moves of the sets that are met. -/
theorem mem_targets_subsetConstruction {s : Symbol} :
    T ∈ A.subsetConstruction.targets S s ↔
      A.Met S ∧ ∃ b, s = some b ∧ b ∈ A.inputs S ∧ T = A.move S b := by
  simp only [subsetConstruction, mem_targets_ofParts, List.mem_flatMap, List.mem_map,
    Edge.mk.injEq]
  constructor
  · intro hex
    obtain ⟨x, hx, ⟨b, U⟩, he, hS, hs, hT⟩ := hex
    subst hS hs hT
    rw [edges_of_mem_reachableSets hx] at he
    obtain ⟨hb, hT⟩ := mem_moves.mp he
    exact ⟨exists_mem_reachableSets_iff.mp ⟨x, hx, rfl⟩, b, rfl, hb, hT⟩
  · intro hand
    obtain ⟨hS, b, hs, hb, hT⟩ := hand
    subst hs hT
    obtain ⟨x, hx, rfl⟩ := exists_mem_reachableSets_iff.mpr hS
    refine ⟨x, hx, (b, A.move x.vertex b), ?_, rfl, rfl, rfl⟩
    rw [edges_of_mem_reachableSets hx]
    exact mem_moves.mpr ⟨hb, rfl⟩

/-- A set that is met is accepting if it has an accepting member. -/
theorem mem_accepting_subsetConstruction :
    S ∈ A.subsetConstruction.accepting ↔ A.Met S ∧ ∃ q ∈ S, q ∈ A.accepting := by
  rw [subsetConstruction, mem_accepting_ofParts, List.mem_filter, List.mem_map,
    exists_mem_reachableSets_iff, meetsAccepting_iff]

/-- The known states of the construction are the sets that are met. -/
theorem mem_subsetConstruction : S ∈ A.subsetConstruction ↔ A.Met S := by
  constructor
  · intro h
    rw [subsetConstruction, mem_ofParts] at h
    rcases h with h | h | ⟨e, he, h⟩ | h
    · rw [h]
      exact A.met_start
    · exact exists_mem_reachableSets_iff.mp (List.mem_map.mp h)
    · -- both ends of an edge are met
      have hedge : e.target ∈ A.subsetConstruction.targets e.source e.symbol :=
        mem_targets_ofParts.mpr he
      obtain ⟨hmet, b, _, hb, htarget⟩ := mem_targets_subsetConstruction.mp hedge
      rcases h with h | h
      · rw [h]
        exact hmet
      · rw [h, htarget]
        exact hmet.move hb
    · exact exists_mem_reachableSets_iff.mp (List.mem_map.mp (List.mem_filter.mp h).1)
  · intro h
    exact mem_ofParts.mpr (.inr (.inl (List.mem_map.mpr (exists_mem_reachableSets_iff.mpr h))))

/-- Accepting sets are among the known ones. -/
theorem mem_of_mem_accepting_subsetConstruction (h : S ∈ A.subsetConstruction.accepting) :
    S ∈ A.subsetConstruction :=
  mem_subsetConstruction.mpr (mem_accepting_subsetConstruction.mp h).1

theorem tidy_subsetConstruction (A : Automaton Q) : A.subsetConstruction.Tidy :=
  tidy_ofParts _ _ _ _

/-- On each byte there is one move, and there are no silent edges. -/
theorem deterministic_subsetConstruction (A : Automaton Q) :
    A.subsetConstruction.Deterministic where
  silent_free S T h := by
    obtain ⟨_, b, hb, _⟩ := mem_targets_subsetConstruction.mp h
    cases hb
  single S b T U hT hU := by
    obtain ⟨_, c, hc, _, rfl⟩ := mem_targets_subsetConstruction.mp hT
    obtain ⟨_, d, hd, _, rfl⟩ := mem_targets_subsetConstruction.mp hU
    rw [← Option.some.inj hc, ← Option.some.inj hd]

/-! ## Paths -/

/-- If a word is viable, so that its last byte can be read after the others, then that byte is
    among the inputs of the set that the others reach. -/
theorem mem_inputs_of_viable (h : A.Viable (w ++ [b])) : b ∈ A.inputs (A.reached w) := by
  obtain ⟨q, hq⟩ := h
  obtain ⟨p, hp, hb⟩ := hq.cut
  obtain ⟨r, s, hr, hedge, _⟩ := hb.cut_byte
  have hmem : r ∈ A.reached w := by
    have hw := hp.append hr
    rw [List.append_nil] at hw
    exact mem_reached.mpr hw
  refine mem_inputs.mpr ⟨r, hmem, ?_⟩
  rw [Std.ExtTreeMap.mem_iff_isSome_getElem?]
  rcases hts : (A.row r)[(some b : Symbol)]? with _ | ts
  · simp [targets, targets?, hts] at hedge
  · rfl

/-- Every set that a viable word reaches is met. -/
theorem met_reached (h : A.Viable w) : A.Met (A.reached w) := by
  induction w using List.reverseRecOn with
  | nil => exact A.met_start
  | append_singleton w b ih =>
    rw [reached_concat]
    exact (ih h.of_append).move (mem_inputs_of_viable h)

/-- A viable word is spelled by a path to the set that it reaches. -/
theorem path_subsetConstruction (h : A.Viable w) :
    A.subsetConstruction.Path A.start w (A.reached w) := by
  induction w using List.reverseRecOn with
  | nil => exact .nil _
  | append_singleton w b ih =>
    have hw : A.Viable w := h.of_append
    have hedge : A.reached (w ++ [b]) ∈ A.subsetConstruction.targets (A.reached w) (some b) := by
      rw [mem_targets_subsetConstruction, reached_concat]
      exact ⟨met_reached hw, b, rfl, mem_inputs_of_viable h, rfl⟩
    exact (ih hw).append (.byte hedge (.nil _))

/-- A path leads to the set that the moves on its word give. -/
theorem eq_foldl_move_of_path (h : A.subsetConstruction.Path S w T) : T = w.foldl A.move S := by
  induction h with
  | nil => rfl
  | silent hr _ _ => exact absurd hr (A.deterministic_subsetConstruction.silent_free _ _)
  | byte hr _ ih =>
    obtain ⟨_, c, hc, _, rfl⟩ := mem_targets_subsetConstruction.mp hr
    rw [ih, ← Option.some.inj hc, List.foldl_cons]

/-- In a tidy automaton, a word stays viable with each of the inputs of the set that it
    reaches. -/
theorem Tidy.viable_of_mem_inputs (hA : A.Tidy) (h : b ∈ A.inputs (A.reached w)) :
    A.Viable (w ++ [b]) := by
  obtain ⟨p, hp, hrow⟩ := mem_inputs.mp h
  obtain ⟨r, hr⟩ := hA.mem_row_iff.mp hrow
  -- the set has a member with an edge on the byte
  have hpath : A.Path A.initial w p := mem_reached.mp hp
  exact ⟨r, hpath.append (.byte hr (.nil r))⟩

/-- In the construction for a tidy automaton, a path needs a viable word. -/
theorem Tidy.viable_of_path (hA : A.Tidy) (h : A.subsetConstruction.Path A.start w T) :
    A.Viable w := by
  induction w using List.reverseRecOn generalizing T with
  | nil => exact A.viable_nil
  | append_singleton w b ih =>
    obtain ⟨S, hS, hb⟩ := h.cut
    obtain ⟨U, V, hU, hedge, _⟩ := hb.cut_byte
    obtain rfl : U = S := eq_foldl_move_of_path hU
    obtain ⟨_, c, hc, hinput, _⟩ := mem_targets_subsetConstruction.mp hedge
    rw [← Option.some.inj hc, eq_foldl_move_of_path hS] at hinput
    exact hA.viable_of_mem_inputs hinput

/-- For a tidy automaton, every set that is met is reached by some viable word. -/
theorem Tidy.exists_reached_of_met (hA : A.Tidy) (h : A.Met S) :
    ∃ w, A.Viable w ∧ S = A.reached w := by
  unfold Met at h
  induction h with
  | start hS => exact ⟨[], A.viable_nil, List.mem_singleton.mp hS⟩
  | @step S e _ he ih =>
    obtain ⟨w, _, rfl⟩ := ih
    have hmove : e.1 ∈ A.inputs (A.reached w) ∧ e.2 = A.move (A.reached w) e.1 := mem_moves.mp he
    refine ⟨w ++ [e.1], hA.viable_of_mem_inputs hmove.1, ?_⟩
    rw [hmove.2, reached_concat]

/-- For a tidy automaton, the paths from the initial set are known exactly. -/
theorem Tidy.path_subsetConstruction_iff (hA : A.Tidy) :
    A.subsetConstruction.Path A.start w T ↔ A.Viable w ∧ T = A.reached w := by
  constructor
  · intro h
    exact ⟨hA.viable_of_path h, eq_foldl_move_of_path h⟩
  · intro hand
    obtain ⟨h, hT⟩ := hand
    rw [hT]
    exact path_subsetConstruction h

/-! ## Language -/

/-- The construction accepts the same words. -/
theorem accepts_subsetConstruction_iff : A.subsetConstruction.Accepts w ↔ A.Accepts w := by
  rw [Accepts, initial_subsetConstruction]
  constructor
  · intro hex
    obtain ⟨T, hpath, hT⟩ := hex
    obtain ⟨_, q, hq, hacc⟩ := mem_accepting_subsetConstruction.mp hT
    rw [eq_foldl_move_of_path hpath] at hq
    exact ⟨q, mem_reached.mp hq, hacc⟩
  · intro h
    obtain ⟨q, hq, hacc⟩ := h
    have hv : A.Viable w := ⟨q, hq⟩
    exact ⟨A.reached w, path_subsetConstruction hv,
      mem_accepting_subsetConstruction.mpr ⟨met_reached hv, q, mem_reached.mpr hq, hacc⟩⟩

end ByteLexer.Automaton
