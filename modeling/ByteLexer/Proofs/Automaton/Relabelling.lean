import ByteLexer.Proofs.Automaton.Construction
import ByteLexer.Proofs.Automaton.Words

/-! # Relabelling row by row

    The image under the answers of a procedure can be built while the rows of an automaton are
    looked through. The procedure is asked where a state turns up first, and what it answered is
    looked up in a table where the state turns up again.

    - **Asking.** What some requests leave behind: a table, and the state that the procedure keeps.
    - **Programs that ask.** Such a program is described by the states that it asks for, and by
      what it makes of the answers.
    - **Building.** What is added row by row may be added all at once.
    - **First requests.** The procedure is called for the first of several requests only.
    - **Images.** What an image recognizes, and what a function that tells the states apart keeps.
    - **Calls.** All this for every automaton, with the calls written down.
-/

namespace ByteLexer.Automaton

open Std (TransOrd LawfulEqOrd)

variable {Q P σ γ δ ι : Type} [Ord Q] [TransOrd Q]

/-! ## Asking -/

/-- Asks a procedure for the label of a state, or looks the label up if it has been given. -/
def ask (f : Q → StateM σ P) (q : Q) : StateM (OrdMap Q P × σ) P := fun x =>
  match x.1[q]? with
  | some p => (p, x)
  | none =>
    let (p, kept) := (f q).run x.2
    (p, (x.1.insert q p, kept))

/-- What is left after some states have been asked for. -/
def asked (f : Q → StateM σ P) (x : OrdMap Q P × σ) (requests : List Q) : OrdMap Q P × σ :=
  requests.foldl (fun x q => ((ask f q).run x).2) x

section Asking

variable {f : Q → StateM σ P} {x : OrdMap Q P × σ} {q r : Q} {p : P} {requests : List Q}

theorem run_ask_of_eq_some (h : x.1[q]? = some p) : (ask f q).run x = (p, x) := by
  show (match x.1[q]? with | some p => (p, x) | none => _) = _
  rw [h]

theorem run_ask_of_not_mem (h : q ∉ x.1) : (ask f q).run x =
    (((f q).run x.2).1, (x.1.insert q ((f q).run x.2).1, ((f q).run x.2).2)) := by
  show (match x.1[q]? with | some p => (p, x) | none => _) = _
  rw [Std.ExtTreeMap.getElem?_eq_none h]
  rfl

/-- Whatever is asked for is in the table from then on. -/
theorem getElem?_ask : (((ask f q).run x).2.1)[q]? = some ((ask f q).run x).1 := by
  by_cases hq : q ∈ x.1
  · obtain ⟨p, hp⟩ := OrdMap.mem_iff_exists.mp hq
    rw [run_ask_of_eq_some hp]
    exact hp
  · rw [run_ask_of_not_mem hq]
    exact Std.ExtTreeMap.getElem?_insert_self

variable [LawfulEqOrd Q]

/-- Other entries do not change. -/
theorem getElem?_ask_of_ne (h : q ≠ r) : (((ask f q).run x).2.1)[r]? = x.1[r]? := by
  by_cases hq : q ∈ x.1
  · obtain ⟨p, hp⟩ := OrdMap.mem_iff_exists.mp hq
    rw [run_ask_of_eq_some hp]
  · rw [run_ask_of_not_mem hq, Std.ExtTreeMap.getElem?_insert]
    simp [h]

/-- A label that has been given is not given again. -/
theorem getElem?_ask_of_mem (h : r ∈ x.1) : (((ask f q).run x).2.1)[r]? = x.1[r]? := by
  by_cases hq : q = r
  · obtain ⟨p, hp⟩ := OrdMap.mem_iff_exists.mp h
    rw [hq, run_ask_of_eq_some hp]
  · exact getElem?_ask_of_ne hq

theorem getElem?_asked_of_mem (h : r ∈ x.1) : (asked f x requests).1[r]? = x.1[r]? := by
  induction requests generalizing x with
  | nil => rfl
  | cons q requests ih =>
    have hstays := getElem?_ask_of_mem (f := f) (q := q) h
    have hmem : r ∈ ((ask f q).run x).2.1 := by
      obtain ⟨p, hp⟩ := OrdMap.mem_iff_exists.mp h
      exact OrdMap.mem_iff_exists.mpr ⟨p, hstays.trans hp⟩
    exact (ih hmem).trans hstays

theorem mem_or_mem_of_mem_asked (h : r ∈ (asked f x requests).1) : r ∈ x.1 ∨ r ∈ requests := by
  induction requests generalizing x with
  | nil => exact .inl h
  | cons q requests ih =>
    rcases ih h with hold | hlater
    · by_cases hq : q = r
      · exact .inr (List.mem_cons.mpr (.inl hq.symm))
      · obtain ⟨p, hp⟩ := OrdMap.mem_iff_exists.mp hold
        rw [getElem?_ask_of_ne hq] at hp
        exact .inl (OrdMap.mem_iff_exists.mpr ⟨p, hp⟩)
    · exact .inr (List.mem_cons_of_mem _ hlater)

end Asking

/-! ## Programs that ask -/

/-- A program asks for some states, one after the other, and makes `value` of the answers. These
    are what the table says in the end. -/
structure Asks (f : Q → StateM σ P) (m : StateM (OrdMap Q P × σ) γ) (requests : List Q)
    (value : (Q → P) → γ) : Prop where
  leaves : ∀ x, (m.run x).2 = asked f x requests
  value : ∀ x g, (∀ q p, (asked f x requests).1[q]? = some p → g q = p) → (m.run x).1 = value g

namespace Asks

variable {f : Q → StateM σ P} {m : StateM (OrdMap Q P × σ) γ}
  {k : γ → StateM (OrdMap Q P × σ) δ} {requests later : List Q} {value : (Q → P) → γ}
  {next : γ → (Q → P) → δ}

theorem pure (c : γ) : Asks f (pure c) [] fun _ => c where
  leaves _ := rfl
  value _ _ _ := rfl

/-- The same requests and the same value may be written in another way. -/
theorem congr {requests' : List Q} {value' : (Q → P) → γ} (h : Asks f m requests value)
    (hrequests : requests = requests') (hvalue : ∀ g, value g = value' g) :
    Asks f m requests' value' := by
  rw [← hrequests, show value' = value from funext fun g => (hvalue g).symm]
  exact h

theorem ask (q : Q) : Asks f (Automaton.ask f q) [q] fun g => g q where
  leaves _ := rfl
  value _ _ hg := (hg q _ getElem?_ask).symm

variable [LawfulEqOrd Q]

/-- What the first program was answered is still in the table after the second one. -/
theorem bind (hm : Asks f m requests value) (hk : ∀ c, Asks f (k c) later (next c)) :
    Asks f (m >>= k) (requests ++ later) fun g => next (value g) g where
  leaves x := by
    show ((k (m.run x).1).run (m.run x).2).2 = _
    rw [(hk _).leaves, hm.leaves, asked, asked, asked, List.foldl_append]
  value x g hg := by
    show ((k (m.run x).1).run (m.run x).2).1 = _
    have happend : asked f x (requests ++ later) = asked f (asked f x requests) later := by
      rw [asked, asked, asked, List.foldl_append]
    -- the table is only added to, so in the end it still has the first answers
    have hfirst : (m.run x).1 = value g := by
      refine hm.value x g fun q p hp => hg q p ?_
      rw [happend, getElem?_asked_of_mem (OrdMap.mem_iff_exists.mpr ⟨p, hp⟩)]
      exact hp
    rw [hfirst, hm.leaves]
    refine (hk _).value _ g fun q p hp => hg q p ?_
    rw [happend]
    exact hp

/-- A loop asks for what its rounds ask for. -/
theorem foldlM {step : γ → ι → StateM (OrdMap Q P × σ) γ} {requests : ι → List Q}
    {value : γ → ι → (Q → P) → γ} (h : ∀ c i, Asks f (step c i) (requests i) (value c i))
    (c : γ) (is : List ι) : Asks f (is.foldlM step c) (is.flatMap requests)
      fun g => is.foldl (fun c i => value c i g) c := by
  induction is generalizing c with
  | nil => exact .pure c
  | cons i is ih => exact (h c i).bind fun c => ih c

end Asks

/-! ## Building -/

section Building

variable [Ord P] [TransOrd P]

/-- Adds the image of a state, and then those of the edges of its row. -/
def relabelRow (f : Q → StateM σ P) (B : Automaton P) (entry : Q × Row Q) :
    StateM (OrdMap Q P × σ) (Automaton P) := do
  let source ← ask f entry.1
  (Row.edges entry.1 entry.2).foldlM (fun B e => do
    let target ← ask f e.target
    return B.addEdge ⟨source, e.symbol, target⟩) (B.addState source)

/-- Relabels an automaton row by row: first the initial state, then every row, then the accepting
    states. -/
def relabelByRows (f : Q → StateM σ P) (A : Automaton Q) :
    StateM (OrdMap Q P × σ) (Automaton P) := do
  let initial ← ask f A.initial
  let B ← A.rows.toList.foldlM (relabelRow f) (ofInitial initial)
  A.accepting.toList.foldlM (fun B q => do
    let q ← ask f q
    return B.addAccepting q) B

variable [LawfulEqOrd Q]

omit [Ord P] [TransOrd P] in
/-- All edges of a row leave its state. -/
theorem map_image_rowEdges (g : Q → P) (q : Q) (row : Row Q) :
    (Row.edges q row).map (Edge.image g) =
      (Row.edges q row).map fun e => ⟨g q, e.symbol, g e.target⟩ := by
  apply List.map_congr_left
  intro e he
  unfold Edge.image
  rw [(mem_rowEdges.mp he).1]

/-- For a row, its state is asked for, and then the targets of its edges. -/
theorem asks_relabelRow (f : Q → StateM σ P) (B : Automaton P) (entry : Q × Row Q) :
    Asks f (relabelRow f B entry)
      (entry.1 :: (Row.edges entry.1 entry.2).map Edge.target)
      fun g => B.extend [g entry.1] ((Row.edges entry.1 entry.2).map (Edge.image g)) [] := by
  have hrow := (Asks.ask (f := f) entry.1).bind fun source =>
    Asks.foldlM (fun B e => (Asks.ask (f := f) e.target).bind fun target =>
      .pure (B.addEdge ⟨source, e.symbol, target⟩)) (B.addState source)
      (Row.edges entry.1 entry.2)
  refine hrow.congr ?_ fun g => ?_
  · exact congrArg (entry.1 :: ·) List.map_eq_flatMap.symm
  · rw [map_image_rowEdges]
    exact List.foldl_map.symm

variable [LawfulEqOrd P] {B : Automaton P}

/-- What is added to an automaton in two goes may be added in one. -/
theorem Tidy.extend_extend (h : B.Tidy) (states states' : List P) (edges edges' : List (Edge P))
    (accepting accepting' : List P) :
    (B.extend states edges accepting).extend states' edges' accepting' =
      B.extend (states ++ states') (edges ++ edges') (accepting ++ accepting') := by
  -- tidy automata are compared by what they show, which is a matter of membership
  apply eq_of_diagram_eq ((h.extend _ _ _).extend _ _ _) (h.extend _ _ _)
  ext x
  · simp [diagram]
  · show x ∈ (B.extend _ _ _).extend _ _ _ ↔ x ∈ B.extend _ _ _
    simp only [mem_extend, List.mem_append, or_and_right, exists_or]
    grind
  · show x.target ∈ ((B.extend _ _ _).extend _ _ _).targets x.source x.symbol ↔
      x.target ∈ (B.extend _ _ _).targets x.source x.symbol
    simp only [mem_targets_extend, List.mem_append, or_assoc]
  · show x ∈ ((B.extend _ _ _).extend _ _ _).accepting ↔ x ∈ (B.extend _ _ _).accepting
    simp only [mem_accepting_extend, List.mem_append, or_assoc]

omit [LawfulEqOrd Q] in
/-- Rows may be added one after the other, or all at once. -/
theorem Tidy.foldl_extend (h : B.Tidy) (g : Q → P) (rows : List (Q × Row Q)) :
    rows.foldl (fun B entry => B.extend [g entry.1]
      ((Row.edges entry.1 entry.2).map (Edge.image g)) []) B =
      B.extend (rows.map fun entry => g entry.1)
        (rows.flatMap fun entry => (Row.edges entry.1 entry.2).map (Edge.image g)) [] := by
  induction rows generalizing B with
  | nil => rfl
  | cons entry rows ih =>
    rw [List.foldl_cons, ih (h.extend _ _ _), h.extend_extend]
    rfl

/-- Relabelling row by row asks for the initial state, for whatever the rows mention, and for the
    accepting states, and takes the image under the answers. -/
theorem asks_relabelByRows (f : Q → StateM σ P) (A : Automaton Q) :
    Asks f (relabelByRows f A) (A.initial :: (A.mentions ++ A.accepting.toList))
      fun g => A.image g := by
  have hall := (Asks.ask (f := f) A.initial).bind fun initial =>
    (Asks.foldlM (fun B entry => asks_relabelRow f B entry) (ofInitial initial)
      A.rows.toList).bind fun B =>
      Asks.foldlM (fun B q => (Asks.ask (f := f) q).bind fun p => .pure (B.addAccepting p)) B
        A.accepting.toList
  refine hall.congr ?_ fun g => ?_
  · exact congrArg (A.initial :: A.mentions ++ ·) (List.flatMap_singleton' A.accepting.toList)
  · have hstates : A.rows.toList.map (fun entry => g entry.1) = A.states.map g := by
      rw [states, ← Std.ExtTreeMap.map_fst_toList_eq_keys, List.map_map]
      rfl
    have hedges : A.rows.toList.flatMap (fun entry =>
        (Row.edges entry.1 entry.2).map (Edge.image g)) = A.edges.map (Edge.image g) := by
      rw [edges, List.map_flatMap]
    rw [(tidy_ofInitial _).foldl_extend, hstates, hedges, ← List.foldl_map]
    show ((ofInitial (g A.initial)).extend (A.states.map g) (A.edges.map (Edge.image g)) []).extend
      [] [] (A.accepting.toList.map g) = A.image g
    rw [(tidy_ofInitial _).extend_extend, List.append_nil, List.append_nil]
    rfl

end Building

/-! ## First requests -/

section Requests

variable [LawfulEqOrd Q] {f : Q → StateM σ P} {x : OrdMap Q P × σ} {seen : OrdSet Q}
  {A : Automaton Q}

/-- A procedure that also writes down some notes on what it is called for. -/
def noting (f : Q → StateM σ P) (notes : Q → List γ) (q : Q) : StateM (σ × List γ) P := fun x =>
  let (p, kept) := (f q).run x.1
  (p, (kept, x.2 ++ notes q))

/-- A procedure that writes down its calls. -/
def record (f : Q → StateM σ P) : Q → StateM (σ × List Q) P :=
  noting f fun q => [q]

omit [Ord Q] [TransOrd Q] [LawfulEqOrd Q] in
/-- It answers the same if notes are taken. -/
theorem run_mapM_noting (notes : Q → List γ) (qs : List Q) (x : σ × List γ) :
    (qs.mapM (noting f notes)).run x =
      (((qs.mapM f).run x.1).1, (((qs.mapM f).run x.1).2, x.2 ++ qs.flatMap notes)) := by
  induction qs generalizing x with
  | nil =>
    show (([] : List P), x) = ([], (x.1, x.2 ++ []))
    rw [List.append_nil]
  | cons q qs ih =>
    have htail := ih (((f q).run x.1).2, x.2 ++ notes q)
    rw [List.append_assoc, ← List.flatMap_cons] at htail
    rw [List.mapM_cons, List.mapM_cons]
    show (_ :: ((qs.mapM (noting f notes)).run (((f q).run x.1).2, x.2 ++ notes q)).1,
      ((qs.mapM (noting f notes)).run (((f q).run x.1).2, x.2 ++ notes q)).2) = _
    rw [htail]
    rfl

/-- The procedure is called for the states that are not in the table, each where it is asked for
    first, and its answers are in the table in the end. -/
theorem asked_eq (requests : List Q) (hseen : ∀ q, q ∈ seen ↔ q ∈ x.1) :
    (asked f x requests).2 = (((firsts id seen requests).mapM f).run x.2).2 ∧
    (firsts id seen requests).map ((asked f x requests).1[·]?) =
      (((firsts id seen requests).mapM f).run x.2).1.map some := by
  induction requests generalizing x seen with
  | nil => exact ⟨rfl, rfl⟩
  | cons q requests ih =>
    have hasked : asked f x (q :: requests) = asked f ((ask f q).run x).2 requests := rfl
    rw [hasked]
    by_cases hq : q ∈ seen
    · -- the label is looked up, and nothing changes
      have hfirsts : firsts id seen (q :: requests) = firsts id seen requests := if_pos hq
      obtain ⟨p, hp⟩ := OrdMap.mem_iff_exists.mp ((hseen q).mp hq)
      rw [hfirsts, run_ask_of_eq_some hp]
      exact ih hseen
    · have hfirsts : firsts id seen (q :: requests) =
          q :: firsts id (seen.insert q) requests := if_neg hq
      have hseen' : ∀ r, r ∈ seen.insert q ↔ r ∈ x.1.insert q ((f q).run x.2).1 := by
        intro r
        rw [Std.ExtTreeSet.mem_insert, Std.ExtTreeMap.mem_insert, hseen]
      obtain ⟨hkept, htable⟩ :=
        ih (x := (x.1.insert q ((f q).run x.2).1, ((f q).run x.2).2)) hseen'
      rw [hfirsts, run_ask_of_not_mem fun h => hq ((hseen q).mpr h), List.mapM_cons]
      refine ⟨hkept, ?_⟩
      -- the answer that was given first is kept
      have hfirst : (asked f (x.1.insert q ((f q).run x.2).1, ((f q).run x.2).2) requests).1[q]? =
          some ((f q).run x.2).1 := by
        rw [getElem?_asked_of_mem Std.ExtTreeMap.mem_insert_self]
        exact Std.ExtTreeMap.getElem?_insert_self
      rw [List.map_cons, hfirst, htable]
      rfl

/-- The states that are asked for first are those in visit order. -/
theorem firsts_requests (hacc : ∀ q ∈ A.accepting, q ∈ A) :
    firsts id ∅ (A.initial :: (A.mentions ++ A.accepting.toList)) = A.visitOrder := by
  have hlater : firsts id {A.initial} (A.mentions ++ A.accepting.toList) = A.laterVisits := by
    refine firsts_append_of_forall_mem fun q hq => ?_
    have hq' := hacc q (Std.ExtTreeSet.mem_toList.mp hq)
    exact .inr ⟨q, mem_mentions_of_mem hq', rfl⟩
  rw [visitOrder, ← hlater]
  exact if_neg Std.ExtTreeSet.not_mem_empty

omit [LawfulEqOrd Q] in
/-- What the procedure keeps when it has answered for all states. -/
theorem snd_run_relabel [Ord P] [TransOrd P] (f : Q → StateM σ P) (start : σ) (A : Automaton Q) :
    ((A.relabel f).run start).2 = ((A.visitOrder.mapM f).run start).2 := by
  have hpairs : ∀ (qs : List Q) (kept : σ), ((qs.mapM fun q => do return (q, ← f q)).run kept).2 =
      ((qs.mapM f).run kept).2 := by
    intro qs
    induction qs with
    | nil => exact fun _ => rfl
    | cons q qs ih =>
      intro kept
      simp only [List.mapM_cons]
      exact ih _
  rw [visitOrder, List.mapM_cons]
  exact hpairs _ _

/-- To relabel an automaton row by row is to relabel it: the result is the same, and the procedure
    keeps the same state. In the end the table has its answers. -/
theorem run_relabelByRows [Ord P] [TransOrd P] [LawfulEqOrd P] (f : Q → StateM σ P) (start : σ)
    (hacc : ∀ q ∈ A.accepting, q ∈ A) :
    ∃ table : OrdMap Q P,
      (relabelByRows f A).run (∅, start) =
        (((A.relabel f).run start).1, (table, ((A.relabel f).run start).2)) ∧
      ∀ q ∈ A.visitOrder, table[q]? = some (answers f start A q) := by
  have hempty : ∀ q, q ∈ (∅ : OrdSet Q) ↔ q ∈ (∅ : OrdMap Q P) := fun q =>
    iff_of_false Std.ExtTreeSet.not_mem_empty Std.ExtTreeMap.not_mem_empty
  obtain ⟨hkept, htable⟩ := asked_eq (f := f) (x := (∅, start))
    (A.initial :: (A.mentions ++ A.accepting.toList)) hempty
  rw [firsts_requests hacc] at hkept htable
  rw [← map_answers_visitOrder, List.map_map] at htable
  have hanswers := List.map_inj_left.mp htable
  -- the table has no other states than those that were asked for
  have hagree : ∀ q p, (asked f (∅, start)
      (A.initial :: (A.mentions ++ A.accepting.toList))).1[q]? = some p →
      answers f start A q = p := by
    intro q p hp
    rcases mem_or_mem_of_mem_asked (OrdMap.mem_iff_exists.mpr ⟨p, hp⟩) with hq | hq
    · exact absurd hq Std.ExtTreeMap.not_mem_empty
    · have hfirst : ∃ r ∈ firsts id ∅ (A.initial :: (A.mentions ++ A.accepting.toList)),
          id r = id q := key_mem_firsts hq Std.ExtTreeSet.not_mem_empty
      rw [firsts_requests hacc] at hfirst
      obtain ⟨r, hr, rfl⟩ := hfirst
      exact Option.some.inj ((hanswers r hr).symm.trans hp)
  have hasks := asks_relabelByRows f A
  refine ⟨_, Prod.ext (hasks.value _ _ hagree) ?_, hanswers⟩
  rw [hasks.leaves, snd_run_relabel, ← hkept]

end Requests

/-! ## Images -/

section Images

variable [LawfulEqOrd Q] [Ord P] [TransOrd P] [LawfulEqOrd P] {A : Automaton Q} {g : Q → P}
  {q r : Q} {w : List UInt8}

/-- The image of a path is a path. -/
theorem Path.image (g : Q → P) (h : A.Path q w r) : (A.image g).Path (g q) w (g r) := by
  induction h with
  | nil q => exact .nil (g q)
  | silent hr _ ih => exact .silent (mem_targets_image.mpr ⟨_, _, hr, rfl, rfl⟩) ih
  | byte hr _ ih => exact .byte (mem_targets_image.mpr ⟨_, _, hr, rfl, rfl⟩) ih

/-- Whatever the labels become, no word gets lost. -/
theorem recognizes_image (g : Q → P) (h : A.recognizes w = true) :
    (A.image g).recognizes w = true := by
  rw [recognizes_iff_accepts] at h ⊢
  obtain ⟨q, hpath, hq⟩ := h
  refine ⟨g q, ?_, mem_accepting_image.mpr ⟨q, hq, rfl⟩⟩
  rw [initial_image]
  exact hpath.image g

omit [Ord P] [TransOrd P] [LawfulEqOrd P] in
/-- If the known states get different labels, the whole automaton is kept apart. -/
theorem WellFormed.keptApart (hA : A.WellFormed) (hg : ∀ q ∈ A, ∀ r ∈ A, g q = g r → q = r) :
    A.KeptApart g (· ∈ A.visitOrder) :=
  keptApart_of_injOn_visitOrder fun q hq r hr =>
    hg q (hA.mem_visitOrder_iff.mp hq) r (hA.mem_visitOrder_iff.mp hr)

/-- Then the image recognizes the same words and has as many states. -/
theorem WellFormed.image_injective (hA : A.WellFormed)
    (hg : ∀ q ∈ A, ∀ r ∈ A, g q = g r → q = r) :
    (∀ w, (A.image g).recognizes w = A.recognizes w) ∧ (A.image g).size = A.size := by
  refine ⟨fun w => ?_, ?_⟩
  · rw [Bool.eq_iff_iff, recognizes_iff_accepts, recognizes_iff_accepts]
    exact (hA.keptApart hg).accepts_image_iff List.mem_cons_self
      fun q hq => mem_visitOrder_of_mem (hA.accepting q hq)
  · rw [← ncard_states, ← ncard_states, diagram_image hA]
    have hinjective : Set.InjOn g A.diagram.states := fun q hq r hr => hg q hq r hr
    exact hinjective.ncard_image

/-- And every edge of the image is that of an edge between the same states. -/
theorem WellFormed.mem_targets_image_iff (hA : A.WellFormed)
    (hg : ∀ q ∈ A, ∀ r ∈ A, g q = g r → q = r) (hq : q ∈ A) (hr : r ∈ A) {s : Symbol} :
    g r ∈ (A.image g).targets (g q) s ↔ r ∈ A.targets q s := by
  rw [mem_targets_image]
  constructor
  · intro hex
    obtain ⟨p, t, ht, hpq, htr⟩ := hex
    obtain ⟨hp, ht'⟩ := hA.ends p s t ht
    rw [← hg p hp q hq hpq, ← hg t ht' r hr htr]
    exact ht
  · intro hedge
    exact ⟨q, r, hedge, rfl, rfl⟩

theorem WellFormed.mem_accepting_image_iff (hA : A.WellFormed)
    (hg : ∀ q ∈ A, ∀ r ∈ A, g q = g r → q = r) (hq : q ∈ A) :
    g q ∈ (A.image g).accepting ↔ q ∈ A.accepting := by
  rw [mem_accepting_image]
  constructor
  · intro hex
    obtain ⟨p, hp, hpq⟩ := hex
    rw [← hg p (hA.accepting p hp) q hq hpq]
    exact hp
  · intro hacc
    exact ⟨q, hacc, rfl⟩

/-- The visited states are counted by the size. -/
theorem WellFormed.length_visitOrder (hA : A.WellFormed) : A.visitOrder.length = A.size := by
  have hcount := ncard_setOf_mem A.nodup_visitOrder
  simp only [hA.mem_visitOrder_iff] at hcount
  exact hcount.symm.trans A.ncard_states

end Images

/-! ## Calls -/

/-- A procedure that keeps a state relabels an automaton by one call for each of its states.

    - `calls`: relabelling row by row gives the same, and leaves the same. The calls that it makes
      are those in visit order, and the table has all the answers.
    - `once`, `all`: no state is visited twice, and the known ones are.
    - `order`: they are visited where they are first named, if the initial state is named, and then
      each state followed by the targets of its edges.
    - `states`, `targets`: these are named in order, and the edges by symbol and then by target.
    - `answers`, `image`: the labels are what the procedure answers to the calls, and the initial
      state, the states, the edges and the accepting states are the images of those before.
    - `recognized`: whatever was recognized still is.
    - `injective`: if no two states get the same label, nothing else is, and no state is lost. -/
structure RelabelledByCalls [LawfulEqOrd Q] [Ord P] [TransOrd P] [LawfulEqOrd P]
    (f : Q → StateM σ P) (start : σ) (A : Automaton Q) (B : Automaton P) : Prop where
  calls : ∃ table : OrdMap Q P,
    (relabelByRows (record f) A).run (∅, start, []) =
      (B, table, ((A.relabel f).run start).2, A.visitOrder) ∧
    ∀ q ∈ A, table[q]? = some (answers f start A q)
  once : A.visitOrder.Nodup
  all : ∀ q, q ∈ A.visitOrder ↔ q ∈ A
  order : A.visitOrder = firsts id ∅ (A.initial ::
    A.states.flatMap fun q => q :: (Row.edges q (A.row q)).map Edge.target)
  states : A.states.Pairwise fun q r => compare q r = .lt
  targets : ∀ q, (Row.edges q (A.row q)).Pairwise fun d e =>
    compare d.symbol e.symbol = .lt ∨ d.symbol = e.symbol ∧ compare d.target e.target = .lt
  answers : A.visitOrder.map (answers f start A) = ((A.visitOrder.mapM f).run start).1
  image : B.diagram = A.diagram.image (Automaton.answers f start A)
  recognized : ∀ w, A.recognizes w = true → B.recognizes w = true
  injective : (∀ q ∈ A, ∀ r ∈ A,
      Automaton.answers f start A q = Automaton.answers f start A r → q = r) →
    (∀ w, B.recognizes w = A.recognizes w) ∧ B.size = A.size

/-- A procedure answers the same if notes are taken. -/
theorem answers_noting [LawfulEqOrd Q] (f : Q → StateM σ P) (notes : Q → List γ) (start : σ)
    (A : Automaton Q) :
    ∀ q ∈ A.visitOrder, answers (noting f notes) (start, []) A q = answers f start A q := by
  apply List.map_inj_left.mp
  rw [map_answers_visitOrder, map_answers_visitOrder, run_mapM_noting]

/-- To relabel a well-formed automaton row by row while notes are taken is to relabel it. The notes
    are those on its states, in visit order. -/
theorem WellFormed.run_relabelByRows_noting [LawfulEqOrd Q] [Ord P] [TransOrd P] [LawfulEqOrd P]
    {A : Automaton Q} (hA : A.WellFormed) (f : Q → StateM σ P) (notes : Q → List γ) (start : σ) :
    ∃ table : OrdMap Q P,
      (relabelByRows (noting f notes) A).run (∅, start, []) =
        (((A.relabel f).run start).1, table, ((A.relabel f).run start).2,
          A.visitOrder.flatMap notes) ∧
      ∀ q ∈ A, table[q]? = some (answers f start A q) := by
  obtain ⟨table, hrun, htable⟩ := run_relabelByRows (noting f notes) (start, []) hA.accepting
  have hresult :
      ((A.relabel (noting f notes)).run (start, [])).1 = ((A.relabel f).run start).1 := by
    rw [relabel_eq_image, relabel_eq_image]
    exact image_congr hA.accepting (answers_noting f notes start A)
  have hkept : ((A.relabel (noting f notes)).run (start, [])).2 =
      (((A.relabel f).run start).2, A.visitOrder.flatMap notes) := by
    rw [snd_run_relabel, snd_run_relabel, run_mapM_noting, List.nil_append]
  rw [hresult, hkept] at hrun
  refine ⟨table, hrun, fun q hq => ?_⟩
  have hvisit := mem_visitOrder_of_mem hq
  rw [htable q hvisit, answers_noting f notes start A q hvisit]

/-- Every well-formed automaton is relabelled by calls. -/
theorem WellFormed.relabelledByCalls [LawfulEqOrd Q] [Ord P] [TransOrd P] [LawfulEqOrd P]
    {A : Automaton Q} (hA : A.WellFormed) (f : Q → StateM σ P) (start : σ) :
    RelabelledByCalls f start A ((A.relabel f).run start).1 where
  calls := by
    have hcalls := hA.run_relabelByRows_noting f (fun q => [q]) start
    rwa [List.flatMap_singleton'] at hcalls
  once := A.nodup_visitOrder
  all _ := hA.mem_visitOrder_iff
  order := by
    rw [← mentions_eq]
    exact (if_neg Std.ExtTreeSet.not_mem_empty).symm
  states := Std.ExtTreeMap.ordered_keys
  targets q := sorted_rowEdges q (A.row q)
  answers := map_answers_visitOrder f start A
  image := by
    rw [relabel_eq_image]
    exact diagram_image hA _
  recognized _ hw := recognizes_image _ hw
  injective hg := hA.image_injective hg

/-- Let an automaton be built by any sequence of operations, and let a procedure relabel it whose
    answers may depend on the calls before. Then it is called once for each state, in visit order,
    and the result is the image under its answers. To put a text in front of every label changes
    neither the words that are recognized nor the number of states. -/
theorem Construction.relabelled_by_calls :
    (∀ {L M : Labels} {σ : Type} (f : L → StateM σ M) (start : σ) (c : Construction L),
      RelabelledByCalls f start c.build (c.relabel f start).build) ∧
    ∀ (name : String) (c : Construction ⟨String⟩),
      (∀ w, (c.qualify name).build.recognizes w = c.build.recognizes w) ∧
      (c.qualify name).build.size = c.build.size := by
  constructor
  · intro L M σ f start c
    exact c.wellFormed_build.relabelledByCalls f start
  · intro name c
    exact c.wellFormed_build.image_injective fun q _ r _ => (String.append_right_inj name).mp

/-- A procedure that counts its calls numbers the states. -/
theorem Construction.relabelled_by_calls_counted :
    let c : Construction ⟨Nat⟩ :=
      .addAccepting (.addEdge (.addEdge (.ofInitial 5) ⟨5, none, 9⟩) ⟨9, some 97, 7⟩) 7
    let count : Nat → StateM Nat Nat := fun _ n => (n, n + 1)
    let d : Construction ⟨Nat⟩ := c.relabel count 0
    c.build.visitOrder = [5, 9, 7] ∧ d.build.recognizes [97] = c.build.recognizes [97] ∧
      d.build.size = c.build.size := by
  intro c count d
  have hcalls : RelabelledByCalls count 0 c.build d.build :=
    Construction.relabelled_by_calls.1 (L := ⟨Nat⟩) (M := ⟨Nat⟩) count 0 c
  have hnodup : (c.build.visitOrder.map (answers count 0 c.build)).Nodup := by
    rw [hcalls.answers]
    decide
  have hinjective : ∀ q ∈ c.build, ∀ r ∈ c.build,
      answers count 0 c.build q = answers count 0 c.build r → q = r := fun q hq r hr =>
    List.inj_on_of_nodup_map hnodup ((hcalls.all q).mpr hq) ((hcalls.all r).mpr hr)
  obtain ⟨hrecognizes, hsize⟩ := hcalls.injective hinjective
  exact ⟨by decide, hrecognizes [97], hsize⟩

end ByteLexer.Automaton
