import ByteLexer.Automaton.Construction
import ByteLexer.Proofs.Automaton.Diagram

/-! # What constructions build

    Whatever operations an automaton is built by, its rows are in order, and it is known what it
    shows without carrying them out.

    - **Diagrams of constructions.** Each operation does to the diagram what it means for diagrams.
    - **Building.** By induction on a construction, what is built is well-formed and shows this
      diagram. So it does not matter in which order automata are overlaid, or how often.
-/

namespace ByteLexer.Automaton

/-! ## Diagrams of constructions -/

/-- The diagram that a construction means. A procedure that keeps a state changes the labels by
    what it answers when it is asked for each of them; the subset construction begins anew. -/
def Construction.diagram {L : Labels} : Construction L → Diagram L
  | .ofInitial q => .ofInitial q
  | .addState c q => c.diagram.addState q
  | .addEdge c e => c.diagram.addEdge e
  | .addAccepting c q => c.diagram.addAccepting q
  | .overlay c d => c.diagram.overlay d.diagram
  | .image f c => c.diagram.image f
  | .relabel f start c => c.diagram.image (answers f start c.build)
  | .qualify name c => c.diagram.image fun q => name ++ q
  | .subsetConstruction c => c.build.subsetConstruction.diagram

namespace Construction

variable {L : Labels} {c : Construction L} {ds es : List (Construction L)}

/-! ## Building -/

/-- Whatever is built is well-formed: each operation adds to something well-formed. -/
theorem wellFormed_build (c : Construction L) : c.build.WellFormed := by
  induction c with
  | ofInitial q => exact wellFormed_ofInitial q
  | addState c q ih => exact ih.extend [q] [] []
  | addEdge c e ih => exact ih.extend [] [e] []
  | addAccepting c q ih => exact ih.extend [] [] [q]
  | overlay c d ihc _ => exact ihc.extend d.build.states d.build.edges []
  | image f c _ => exact wellFormed_ofParts _ _ _ _
  | relabel f start c _ => exact wellFormed_ofParts _ _ _ _
  | qualify name c _ => exact wellFormed_ofParts _ _ _ _
  | subsetConstruction c _ => exact wellFormed_ofParts _ _ _ _

/-- And it shows what the construction means. -/
theorem diagram_build (c : Construction L) : c.build.diagram = c.diagram := by
  induction c with
  | ofInitial q => exact diagram_ofInitial q
  | addState c q ih =>
    unfold build diagram
    rw [diagram_addState, ih]
  | addEdge c e ih =>
    unfold build diagram
    rw [diagram_addEdge, ih]
  | addAccepting c q ih =>
    unfold build diagram
    rw [diagram_addAccepting, ih]
  | overlay c d ihc ihd =>
    unfold build diagram
    rw [diagram_overlay _ d.wellFormed_build, ihc, ihd]
  | image f c ih =>
    unfold build diagram
    rw [diagram_image c.wellFormed_build, ih]
  | relabel f start c ih =>
    unfold build diagram
    rw [relabel_eq_image, diagram_image c.wellFormed_build, ih]
  | qualify name c ih =>
    unfold build diagram Automaton.qualify
    rw [diagram_image c.wellFormed_build, ih]
  | subsetConstruction c _ => rfl

/-- Constructions that mean the same build the same. -/
theorem build_eq_of_diagram_eq {d : Construction L} (h : c.diagram = d.diagram) :
    c.build = d.build := by
  apply eq_of_diagram_eq c.wellFormed_build.tidy d.wellFormed_build.tidy
  rw [diagram_build, diagram_build, h]

/-- What it means to overlay several automata one after the other. -/
theorem diagram_foldl_overlay (c : Construction L) (ds : List (Construction L)) :
    (ds.foldl overlay c).diagram = (ds.map diagram).foldl Diagram.overlay c.diagram := by
  induction ds generalizing c with
  | nil => rfl
  | cons d ds ih => exact ih (c.overlay d)

/-- Let an automaton be built by any sequence of operations. Then its initial state, its accepting
    states and the ends of its edges are known, and no set of targets that it stores is empty. It
    shows the diagram that the operations mean. A procedure that relabels the states is asked for
    each of them once, and if it keeps no state that is to take the image. The same is built in
    whatever order other automata are overlaid, and to overlay one twice changes nothing. -/
theorem build_shows_diagram (c : Construction L) :
    c.build.WellFormed ∧ c.build.Shows c.diagram ∧
    (∀ {M : Labels} {σ : Type} (f : L → StateM σ M) (start : σ),
      c.build.visitOrder.Nodup ∧ (∀ q, q ∈ c.build.visitOrder ↔ q ∈ c.build) ∧
      c.build.visitOrder.map (answers f start c.build) =
        ((c.build.visitOrder.mapM f).run start).1) ∧
    (∀ {M : Labels} {σ : Type} (g : L → M) (start : σ),
      (relabel (fun q => pure (g q)) start c).build = (image g c).build) ∧
    (∀ ds es : List (Construction L), ds.Perm es →
      (ds.foldl overlay c).build = (es.foldl overlay c).build) ∧
    ∀ d : Construction L, ((c.overlay d).overlay d).build = (c.overlay d).build := by
  have hshows := c.wellFormed_build.tidy.shows
  rw [diagram_build] at hshows
  refine ⟨c.wellFormed_build, hshows, fun f start => ?_,
    fun g start => relabel_pure g start c.wellFormed_build.accepting, fun ds es hperm => ?_,
    fun d => ?_⟩
  · exact ⟨c.build.nodup_visitOrder, fun q => c.wellFormed_build.mem_visitOrder_iff,
      map_answers_visitOrder f start c.build⟩
  · apply build_eq_of_diagram_eq
    rw [diagram_foldl_overlay, diagram_foldl_overlay]
    exact Diagram.foldl_overlay_perm (hperm.map diagram) c.diagram
  · apply build_eq_of_diagram_eq
    exact Diagram.overlay_overlay_self c.diagram d.diagram

/-- Two automata of one byte each are overlaid on a first state, in both orders. -/
theorem build_shows_diagram_bytes :
    let c : Construction ⟨Nat⟩ := .ofInitial 0
    let d : Construction ⟨Nat⟩ := .addEdge (.ofInitial 1) ⟨1, some 97, 2⟩
    let e : Construction ⟨Nat⟩ := .addEdge (.ofInitial 1) ⟨1, some 98, 3⟩
    [d, e].Perm [e, d] ∧
      ((c.overlay d).overlay e).build = ((c.overlay e).overlay d).build ∧
      3 ∈ ((c.overlay d).overlay e).build.states := by
  intro c d e
  have hperm : [d, e].Perm [e, d] := List.Perm.swap e d []
  obtain ⟨_, _, _, _, horder, _⟩ := build_shows_diagram c
  obtain ⟨_, hshows, _⟩ := build_shows_diagram ((c.overlay d).overlay e)
  refine ⟨hperm, horder [d, e] [e, d] hperm, (hshows.states 3).mpr ?_⟩
  -- the state is an end of the edge of the second one
  exact .inr (.inr (.inl rfl))

end Construction

end ByteLexer.Automaton
