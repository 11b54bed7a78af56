import ByteLexer.Proofs.Automaton.Region
import ByteLexer.Proofs.OrdSet

/-! # The states that a relabelling visits

    The visit order of an automaton lists its initial state and all its known
    states, each once. Whatever lies on an edge is visited, so a relabelling that
    answers differently for different visits keeps the whole automaton apart.

    - **Mentions.** What `mentions` lists.
    - **Visits.** Every mentioned state is visited, and none twice.
    - **Answers.** What a list of answers, one for each state, says of a state.
    - **Asking.** A procedure that is asked for new labels answers for each state once.
-/

namespace ByteLexer.Automaton

open Std (TransOrd LawfulEqOrd)

variable {Q : Type} [Ord Q] [TransOrd Q] [LawfulEqOrd Q] {A : Automaton Q} {q r : Q} {s : Symbol}

/-! ## Mentions -/

theorem mem_mentions_of_mem (h : q ∈ A) : q ∈ A.mentions := by
  obtain ⟨row, hrow⟩ := OrdMap.mem_iff_exists.mp (mem_def.mp h)
  exact List.mem_flatMap.mpr
    ⟨(q, row), Std.ExtTreeMap.mem_toList_iff_getElem?_eq_some.mpr hrow, List.mem_cons_self⟩

omit [LawfulEqOrd Q] in
/-- The source of an edge is known. -/
theorem mem_of_mem_targets (h : r ∈ A.targets q s) : q ∈ A := by
  rw [mem_def, Std.ExtTreeMap.mem_iff_isSome_getElem?]
  rcases hrow : A.rows[q]? with _ | row
  · simp [targets, targets?, row, hrow] at h
  · rfl

theorem target_mem_mentions (h : r ∈ A.targets q s) : r ∈ A.mentions := by
  obtain ⟨row, hrow⟩ := OrdMap.mem_iff_exists.mp (mem_def.mp (mem_of_mem_targets h))
  refine List.mem_flatMap.mpr
    ⟨(q, row), Std.ExtTreeMap.mem_toList_iff_getElem?_eq_some.mpr hrow, List.mem_cons_of_mem _ ?_⟩
  refine List.mem_map.mpr ⟨⟨q, s, r⟩, mem_rowEdges.mpr ⟨rfl, ?_⟩, rfl⟩
  rw [targets, targets?, Automaton.row, hrow, Option.getD_some] at h
  exact h

omit [LawfulEqOrd Q] in
/-- The edges of a row are in the order of their symbols, and those on one symbol in the order of
    their targets. -/
theorem sorted_rowEdges (q : Q) (row : Row Q) : (Row.edges q row).Pairwise fun d e =>
    compare d.symbol e.symbol = .lt ∨
      d.symbol = e.symbol ∧ compare d.target e.target = .lt := by
  rw [Row.edges, List.pairwise_flatMap]
  constructor
  · intro entry _
    rw [List.pairwise_map]
    exact Std.ExtTreeSet.ordered_toList.imp fun hlt => .inr ⟨rfl, hlt⟩
  · refine Std.ExtTreeMap.ordered_keys_toList.imp fun {x y} hlt d hd e he => ?_
    obtain ⟨_, _, rfl⟩ := List.mem_map.mp hd
    obtain ⟨_, _, rfl⟩ := List.mem_map.mp he
    exact .inl hlt

/-- What is mentioned, with the known states and their rows looked up. -/
theorem mentions_eq (A : Automaton Q) : A.mentions =
    A.states.flatMap fun q => q :: (Row.edges q (A.row q)).map Edge.target := by
  rw [states, ← Std.ExtTreeMap.map_fst_toList_eq_keys, List.flatMap_map]
  refine congrArg List.flatten (List.map_congr_left fun entry hentry => ?_)
  obtain ⟨q, row⟩ := entry
  rw [Std.ExtTreeMap.mem_toList_iff_getElem?_eq_some] at hentry
  show _ = q :: (Row.edges q (A.row q)).map Edge.target
  rw [Automaton.row, hentry]
  rfl

/-! ## Visits -/

/-- Whatever is mentioned is visited. -/
theorem mem_visitOrder_of_mem_mentions (h : q ∈ A.mentions) : q ∈ A.visitOrder := by
  by_cases hq : q = A.initial
  · rw [hq]
    exact List.mem_cons_self
  · have hseen : id q ∉ ({A.initial} : OrdSet Q) := fun h => hq (OrdSet.mem_singleton.mp h)
    have hlater : ∃ p ∈ A.laterVisits, id p = id q := key_mem_firsts h hseen
    obtain ⟨p, hp, hpq⟩ := hlater
    rw [show q = p from hpq.symm]
    exact List.mem_cons_of_mem _ hp

theorem mem_visitOrder_of_mem (h : q ∈ A) : q ∈ A.visitOrder :=
  mem_visitOrder_of_mem_mentions (mem_mentions_of_mem h)

theorem mem_or_target_of_mem_mentions (h : q ∈ A.mentions) :
    q ∈ A ∨ ∃ p s, q ∈ A.targets p s := by
  obtain ⟨⟨p, row⟩, hrow, hq⟩ := List.mem_flatMap.mp h
  rw [Std.ExtTreeMap.mem_toList_iff_getElem?_eq_some] at hrow
  rcases List.mem_cons.mp hq with rfl | hq
  · exact .inl (mem_def.mpr (OrdMap.mem_iff_exists.mpr ⟨row, hrow⟩))
  · obtain ⟨e, he, rfl⟩ := List.mem_map.mp hq
    refine .inr ⟨p, e.symbol, ?_⟩
    rw [targets, targets?, Automaton.row, hrow, Option.getD_some]
    exact (mem_rowEdges.mp he).2

/-- The initial state is visited, and what is known or lies on an edge. -/
theorem mem_visitOrder_iff :
    q ∈ A.visitOrder ↔ q = A.initial ∨ q ∈ A ∨ ∃ p s, q ∈ A.targets p s := by
  constructor
  · intro h
    rcases List.mem_cons.mp h with h | h
    · exact .inl h
    · exact .inr (mem_or_target_of_mem_mentions (mem_of_mem_firsts h))
  · intro h
    rcases h with rfl | h | ⟨p, s, h⟩
    · exact List.mem_cons_self
    · exact mem_visitOrder_of_mem h
    · exact mem_visitOrder_of_mem_mentions (target_mem_mentions h)

/-- The initial state is not visited again. -/
theorem initial_not_mem_laterVisits : A.initial ∉ A.laterVisits := by
  intro h
  exact key_not_mem_of_mem_firsts h (OrdSet.mem_singleton.mpr rfl)

theorem nodup_laterVisits : A.laterVisits.Nodup := by
  have h := nodup_map_firsts id ({A.initial} : OrdSet Q) A.mentions
  rw [List.map_id] at h
  exact h

/-- No state is visited twice. -/
theorem nodup_visitOrder : A.visitOrder.Nodup :=
  List.nodup_cons.mpr ⟨initial_not_mem_laterVisits, nodup_laterVisits⟩

/-- The known states of an image are the images of the visited ones. -/
theorem mem_image_iff {P : Type} [Ord P] [TransOrd P] [LawfulEqOrd P] {f : Q → P} {x : P}
    (hacc : ∀ q ∈ A.accepting, q ∈ A) : x ∈ A.image f ↔ ∃ q ∈ A.visitOrder, f q = x := by
  rw [image, mem_ofParts]
  constructor
  · intro h
    rcases h with h | h | ⟨e, he, h⟩ | h
    · exact ⟨A.initial, List.mem_cons_self, h.symm⟩
    · obtain ⟨q, hq, hx⟩ := List.mem_map.mp h
      exact ⟨q, mem_visitOrder_of_mem (mem_states.mp hq), hx⟩
    · obtain ⟨d, hd, rfl⟩ := List.mem_map.mp he
      have hedge := mem_edges.mp hd
      rcases h with h | h
      · exact ⟨d.source, mem_visitOrder_of_mem (mem_of_mem_targets hedge), h.symm⟩
      · exact ⟨d.target, mem_visitOrder_of_mem_mentions (target_mem_mentions hedge), h.symm⟩
    · obtain ⟨q, hq, hx⟩ := List.mem_map.mp h
      exact ⟨q, mem_visitOrder_of_mem (hacc q (Std.ExtTreeSet.mem_toList.mp hq)), hx⟩
  · intro hex
    obtain ⟨q, hq, rfl⟩ := hex
    rcases mem_visitOrder_iff.mp hq with rfl | hq | ⟨p, s, hq⟩
    · exact .inl rfl
    · exact .inr (.inl (List.mem_map_of_mem (mem_states.mpr hq)))
    · have hedge : (⟨p, s, q⟩ : Edge Q) ∈ A.edges := mem_edges.mpr hq
      exact .inr (.inr (.inl ⟨_, List.mem_map_of_mem hedge, .inr rfl⟩))

/-- What a function says of other labels than the visited ones does not matter to the image. -/
theorem image_congr {P : Type} [Ord P] [TransOrd P] {f g : Q → P}
    (hacc : ∀ q ∈ A.accepting, q ∈ A) (h : ∀ q ∈ A.visitOrder, f q = g q) :
    A.image f = A.image g := by
  have hstates : A.states.map f = A.states.map g := by
    apply List.map_congr_left
    intro q hq
    exact h q (mem_visitOrder_of_mem (mem_states.mp hq))
  have hedges : A.edges.map (Edge.image f) = A.edges.map (Edge.image g) := by
    apply List.map_congr_left
    intro e he
    have hedge := mem_edges.mp he
    unfold Edge.image
    rw [h e.source (mem_visitOrder_of_mem (mem_of_mem_targets hedge)),
      h e.target (mem_visitOrder_of_mem_mentions (target_mem_mentions hedge))]
  have haccepting : A.accepting.toList.map f = A.accepting.toList.map g := by
    apply List.map_congr_left
    intro q hq
    exact h q (mem_visitOrder_of_mem (hacc q (Std.ExtTreeSet.mem_toList.mp hq)))
  unfold image
  rw [h A.initial List.mem_cons_self, hstates, hedges, haccepting]

/-- A function that is injective on the visited states keeps them apart. -/
theorem keptApart_of_injOn_visitOrder {P : Type} {f : Q → P}
    (h : ∀ q ∈ A.visitOrder, ∀ r ∈ A.visitOrder, f q = f r → q = r) :
    A.KeptApart f (· ∈ A.visitOrder) where
  source hr := mem_visitOrder_of_mem (mem_of_mem_targets hr)
  target hr := mem_visitOrder_of_mem_mentions (target_mem_mentions hr)
  injective hq hr := h _ hq _ hr

/-! ## Answers -/

section Answers

variable {P : Type} {answers : List (Q × P)} {p otherwise : P}

theorem answer_of_mem (hn : (answers.map Prod.fst).Nodup) (h : (q, p) ∈ answers) :
    answer (Std.ExtTreeMap.ofList answers compare) otherwise q = p := by
  rw [answer, OrdMap.getElem?_ofList_of_mem hn h, Option.getD_some]

theorem answer_of_not_mem (h : q ∉ answers.map Prod.fst) :
    answer (Std.ExtTreeMap.ofList answers compare) otherwise q = otherwise := by
  rw [answer, OrdMap.getElem?_ofList_of_not_mem h, Option.getD_none]

end Answers

/-! ## Asking -/

section Asking

variable {P σ : Type} (f : Q → StateM σ P)

omit [Ord Q] [TransOrd Q] [LawfulEqOrd Q] in
/-- To pair what is asked for with the answers changes nothing about the answers. -/
theorem run_mapM_pairs (xs : List Q) (start : σ) :
    let x := (xs.mapM fun q => do return (q, ← f q)).run start
    x.1.map Prod.fst = xs ∧ x.1.map Prod.snd = ((xs.mapM f).run start).1 := by
  induction xs generalizing start with
  | nil => exact ⟨rfl, rfl⟩
  | cons q xs ih =>
    obtain ⟨hasked, hanswered⟩ := ih ((f q).run start).2
    simp only [List.mapM_cons]
    exact ⟨congrArg (q :: ·) hasked, congrArg (((f q).run start).1 :: ·) hanswered⟩

/-- What a procedure answers for each state of an automaton when it is asked to relabel it. -/
def answers (start : σ) (A : Automaton Q) (q : Q) : P :=
  let first := (f A.initial).run start
  let later := (A.laterVisits.mapM fun q => do return (q, ← f q)).run first.2
  answer (Std.ExtTreeMap.ofList later.1 compare) first.1 q

omit [LawfulEqOrd Q] in
/-- To relabel is to take the image under these answers. -/
theorem relabel_eq_image [Ord P] [TransOrd P] (start : σ) (A : Automaton Q) :
    ((A.relabel f).run start).1 = A.image (answers f start A) :=
  rfl

/-- The initial state is asked for first, and not again. -/
theorem answers_initial (start : σ) (A : Automaton Q) :
    answers f start A A.initial = ((f A.initial).run start).1 := by
  apply answer_of_not_mem
  rw [(run_mapM_pairs f A.laterVisits ((f A.initial).run start).2).1]
  exact initial_not_mem_laterVisits

/-- They are what the procedure answers when it is asked for the states in visit order, for each of
    them once. -/
theorem map_answers_visitOrder (start : σ) (A : Automaton Q) :
    A.visitOrder.map (answers f start A) = ((A.visitOrder.mapM f).run start).1 := by
  obtain ⟨hasked, hanswered⟩ := run_mapM_pairs f A.laterVisits ((f A.initial).run start).2
  have hnodup := A.nodup_laterVisits
  rw [← hasked] at hnodup
  have hlater : A.laterVisits.map (answers f start A) =
      ((A.laterVisits.mapM f).run ((f A.initial).run start).2).1 := by
    rw [← hanswered]
    conv => lhs; rw [← hasked]
    rw [List.map_map]
    apply List.map_congr_left
    intro x hx
    exact answer_of_mem hnodup hx
  unfold visitOrder
  rw [List.map_cons, answers_initial, hlater, List.mapM_cons]
  rfl

/-- If the answers do not depend on a state that the procedure keeps, to relabel is to take the
    image under a function. -/
theorem relabel_pure {P σ : Type} [Ord P] [TransOrd P] (g : Q → P) (start : σ)
    (hacc : ∀ q ∈ A.accepting, q ∈ A) :
    ((A.relabel fun q => (pure (g q) : StateM σ P)).run start).1 = A.image g := by
  have hanswers := map_answers_visitOrder (fun q => (pure (g q) : StateM σ P)) start A
  rw [List.mapM_pure] at hanswers
  rw [relabel_eq_image]
  apply image_congr hacc
  exact List.map_inj_left.mp hanswers

end Asking

end ByteLexer.Automaton
