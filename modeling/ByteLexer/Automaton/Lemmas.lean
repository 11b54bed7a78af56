import ByteLexer.Automaton.Relabel

/-! # What the building operations do

    An automaton is seen through four things: its initial state, its known states,
    the targets of each state and symbol, and its accepting states. Each building
    operation is described by what it does to them.

    - **One thing.** `ofInitial`, `addState`, `addEdge`, `addAccepting`.
    - **Many things.** `extend`, `ofParts`, `overlay`, `image`.
-/

namespace ByteLexer.Automaton

open Std (TransOrd LawfulEqOrd)

variable {Q P : Type} [Ord Q] [TransOrd Q] [Ord P] [TransOrd P]

/-! ## Initial states -/

section Initial

variable {A B : Automaton Q} {q : Q} {e : Edge Q} {states accepting : List Q}
  {edges : List (Edge Q)} {f : Q → P}

@[simp] theorem initial_ofInitial : (ofInitial q).initial = q := rfl

@[simp] theorem initial_addState : (A.addState q).initial = A.initial := rfl

@[simp] theorem initial_addEdge : (A.addEdge e).initial = A.initial := rfl

@[simp] theorem initial_addAccepting : (A.addAccepting q).initial = A.initial := rfl

@[simp] theorem initial_extend : (A.extend states edges accepting).initial = A.initial := by
  have h₁ : ∀ (A : Automaton Q), (states.foldl addState A).initial = A.initial := by
    induction states with
    | nil => exact fun _ => rfl
    | cons q qs ih => exact fun A => ih (A.addState q)
  have h₂ : ∀ (A : Automaton Q), (edges.foldl addEdge A).initial = A.initial := by
    induction edges with
    | nil => exact fun _ => rfl
    | cons e es ih => exact fun A => ih (A.addEdge e)
  have h₃ : ∀ (A : Automaton Q), (accepting.foldl addAccepting A).initial = A.initial := by
    induction accepting with
    | nil => exact fun _ => rfl
    | cons q qs ih => exact fun A => ih (A.addAccepting q)
  simp [extend, h₁, h₂, h₃]

@[simp] theorem initial_ofParts : (ofParts q states edges accepting).initial = q :=
  initial_extend

@[simp] theorem initial_overlay : (A.overlay B).initial = A.initial :=
  initial_extend

@[simp] theorem initial_image : (A.image f).initial = f A.initial :=
  initial_ofParts

end Initial

/-! ## One state -/

variable [LawfulEqOrd Q] [LawfulEqOrd P]

section One

variable {A : Automaton Q} {p q r : Q} {s : Symbol} {e : Edge Q}

omit [LawfulEqOrd Q] in
@[simp] theorem accepting_addState : (A.addState q).accepting = A.accepting := rfl

omit [LawfulEqOrd Q] in
@[simp] theorem accepting_addEdge : (A.addEdge e).accepting = A.accepting := rfl

@[simp] theorem mem_ofInitial : p ∈ ofInitial q ↔ p = q := by
  simp only [mem_def, ofInitial, Std.ExtTreeMap.mem_insert, Std.LawfulEqCmp.compare_eq_iff_eq,
    Std.ExtTreeMap.not_mem_empty, or_false]
  exact eq_comm

omit [LawfulEqOrd Q] in
@[simp] theorem not_mem_targets_ofInitial : r ∉ (ofInitial q).targets p s := by
  have : (ofInitial q).row p = ∅ := by
    simp only [row, ofInitial, Std.ExtTreeMap.getElem?_insert]
    split <;> simp
  simp [targets, targets?, this]

omit [LawfulEqOrd Q] in
@[simp] theorem not_mem_accepting_ofInitial : p ∉ (ofInitial q).accepting := by
  simp [ofInitial]

/-! ## A state more -/

@[simp] theorem mem_addState : p ∈ A.addState q ↔ p = q ∨ p ∈ A := by
  simp only [mem_def, addState, Std.ExtTreeMap.mem_insertIfNew,
    Std.LawfulEqCmp.compare_eq_iff_eq, @eq_comm Q q]

@[simp] theorem row_addState : (A.addState q).row p = A.row p := by
  simp only [row, addState, Std.ExtTreeMap.getElem?_insertIfNew]
  split
  · rename_i h
    have : A.rows[p]? = none := by
      simpa [← Std.LawfulEqCmp.eq_of_compare h.1] using h.2
    simp [this]
  · rfl

@[simp] theorem targets_addState : (A.addState q).targets p s = A.targets p s := by
  simp [targets, targets?]

/-! ## An edge more -/

@[simp] theorem mem_addEdge : p ∈ A.addEdge e ↔ p = e.source ∨ p = e.target ∨ p ∈ A := by
  have h : p ∈ (A.addState e.target).rows ↔ p = e.target ∨ p ∈ A := mem_addState
  rw [mem_def]
  simp only [addEdge, Std.ExtTreeMap.mem_insert, Std.LawfulEqCmp.compare_eq_iff_eq, h,
    @eq_comm Q e.source]

/-- The row of the source of an added edge has the target more. -/
theorem row_addEdge_source :
    (A.addEdge e).row e.source = Row.addTarget (A.row e.source) e.symbol e.target := by
  rw [← row_addState (A := A) (q := e.target)]
  simp [addEdge, row]

/-- The other rows stay. -/
theorem row_addEdge_of_ne (h : e.source ≠ p) : (A.addEdge e).row p = A.row p := by
  rw [← row_addState (A := A) (q := e.target)]
  simp [addEdge, row, Std.ExtTreeMap.getElem?_insert, h]

/-- An added target is a target, and all others stay. -/
theorem mem_addTarget {row : Row Q} {symbol : Symbol} {target : Q} :
    r ∈ ((Row.addTarget row symbol target)[s]?).getD ∅ ↔
      (s = symbol ∧ r = target) ∨ r ∈ (row[s]?).getD ∅ := by
  by_cases h : symbol = s
  · subst h
    simp [Row.addTarget, @eq_comm Q target]
  · simp [Row.addTarget, Std.ExtTreeMap.getElem?_insert, h, Ne.symm h]

/-- An added edge leads where it says, and all others stay. -/
theorem mem_targets_addEdge :
    r ∈ (A.addEdge e).targets p s ↔ (⟨p, s, r⟩ : Edge Q) = e ∨ r ∈ A.targets p s := by
  obtain ⟨source, symbol, target⟩ := e
  simp only [targets, targets?, Edge.mk.injEq]
  by_cases h : source = p
  · subst h
    rw [row_addEdge_source, mem_addTarget]
    simp
  · rw [row_addEdge_of_ne h]
    simp [Ne.symm h]

/-! ## An accepting state more -/

@[simp] theorem mem_addAccepting : p ∈ A.addAccepting q ↔ p = q ∨ p ∈ A :=
  mem_addState

@[simp] theorem targets_addAccepting : (A.addAccepting q).targets p s = A.targets p s :=
  targets_addState

@[simp] theorem mem_accepting_addAccepting :
    p ∈ (A.addAccepting q).accepting ↔ p = q ∨ p ∈ A.accepting := by
  simp only [addAccepting, Std.ExtTreeSet.mem_insert, Std.LawfulEqCmp.compare_eq_iff_eq,
    @eq_comm Q q]

end One

/-! ## Many things -/

section Many

variable {A B : Automaton Q} {p r : Q} {s : Symbol} {states accepting : List Q}
  {edges : List (Edge Q)}

/-- The known states of an extension: those before, the added ones, and whatever an added
    edge or accepting mark names. -/
theorem mem_extend : p ∈ A.extend states edges accepting ↔
    p ∈ A ∨ p ∈ states ∨ (∃ e ∈ edges, p = e.source ∨ p = e.target) ∨ p ∈ accepting := by
  have h₁ : ∀ (A : Automaton Q), p ∈ states.foldl addState A ↔ p ∈ A ∨ p ∈ states := by
    induction states with
    | nil => simp
    | cons q qs ih => exact fun A => by simp [ih, or_assoc, or_left_comm]
  have h₂ : ∀ (A : Automaton Q), p ∈ edges.foldl addEdge A ↔
      p ∈ A ∨ ∃ e ∈ edges, p = e.source ∨ p = e.target := by
    induction edges with
    | nil => simp
    | cons e es ih =>
      intro A
      simp only [List.foldl_cons, ih, mem_addEdge, List.mem_cons, exists_eq_or_imp]
      grind
  have h₃ : ∀ (A : Automaton Q), p ∈ accepting.foldl addAccepting A ↔ p ∈ A ∨ p ∈ accepting := by
    induction accepting with
    | nil => simp
    | cons q qs ih => exact fun A => by simp [ih, or_assoc, or_left_comm]
  simp only [extend, h₁, h₂, h₃, or_assoc]

/-- The edges of an extension: those before and the added ones. -/
theorem mem_targets_extend : r ∈ (A.extend states edges accepting).targets p s ↔
    r ∈ A.targets p s ∨ (⟨p, s, r⟩ : Edge Q) ∈ edges := by
  have h₁ : ∀ (A : Automaton Q), (states.foldl addState A).targets p s = A.targets p s := by
    induction states with
    | nil => exact fun _ => rfl
    | cons q qs ih => exact fun A => by simp [ih]
  have h₂ : ∀ (A : Automaton Q), r ∈ (edges.foldl addEdge A).targets p s ↔
      r ∈ A.targets p s ∨ (⟨p, s, r⟩ : Edge Q) ∈ edges := by
    induction edges with
    | nil => simp
    | cons e es ih => exact fun A => by simp [ih, mem_targets_addEdge, or_assoc, or_left_comm]
  have h₃ : ∀ (A : Automaton Q),
      (accepting.foldl addAccepting A).targets p s = A.targets p s := by
    induction accepting with
    | nil => exact fun _ => rfl
    | cons q qs ih => exact fun A => by simp [ih]
  simp only [extend, h₁, h₂, h₃]

/-- The accepting states of an extension: those before and the added ones. -/
theorem mem_accepting_extend : p ∈ (A.extend states edges accepting).accepting ↔
    p ∈ A.accepting ∨ p ∈ accepting := by
  have h₁ : ∀ (A : Automaton Q), (states.foldl addState A).accepting = A.accepting := by
    induction states with
    | nil => exact fun _ => rfl
    | cons q qs ih => exact fun A => by simp [ih]
  have h₂ : ∀ (A : Automaton Q), (edges.foldl addEdge A).accepting = A.accepting := by
    induction edges with
    | nil => exact fun _ => rfl
    | cons e es ih => exact fun A => by simp [ih]
  have h₃ : ∀ (A : Automaton Q), p ∈ (accepting.foldl addAccepting A).accepting ↔
      p ∈ A.accepting ∨ p ∈ accepting := by
    induction accepting with
    | nil => simp
    | cons q qs ih => exact fun A => by simp [ih, or_assoc, or_left_comm]
  simp only [extend, h₁, h₂, h₃]

theorem mem_ofParts {q : Q} : p ∈ ofParts q states edges accepting ↔
    p = q ∨ p ∈ states ∨ (∃ e ∈ edges, p = e.source ∨ p = e.target) ∨ p ∈ accepting := by
  simp [ofParts, mem_extend]

theorem mem_targets_ofParts {q : Q} : r ∈ (ofParts q states edges accepting).targets p s ↔
    (⟨p, s, r⟩ : Edge Q) ∈ edges := by
  simp [ofParts, mem_targets_extend]

theorem mem_accepting_ofParts {q : Q} : p ∈ (ofParts q states edges accepting).accepting ↔
    p ∈ accepting := by
  simp [ofParts, mem_accepting_extend]

/-- An overlay has the states of both automata. -/
theorem mem_overlay_of_mem_left (h : p ∈ A) : p ∈ A.overlay B :=
  mem_extend.mpr (.inl h)

theorem mem_overlay_of_mem_right (h : p ∈ B) : p ∈ A.overlay B :=
  mem_extend.mpr (.inr (.inl (mem_states.mpr h)))

/-- An overlay has the edges of both automata. -/
theorem mem_targets_overlay :
    r ∈ (A.overlay B).targets p s ↔ r ∈ A.targets p s ∨ r ∈ B.targets p s := by
  simp [overlay, mem_targets_extend, mem_edges]

/-- An overlay has the accepting states of the first automaton only. -/
@[simp] theorem mem_accepting_overlay : p ∈ (A.overlay B).accepting ↔ p ∈ A.accepting := by
  simp [overlay, mem_accepting_extend]

end Many

/-! ## Images -/

section Image

variable {A : Automaton Q} {f : Q → P} {p r : P} {s : Symbol}

theorem mem_image_of_mem {q : Q} (h : q ∈ A) : f q ∈ A.image f :=
  mem_ofParts.mpr (.inr (.inl (List.mem_map_of_mem (mem_states.mpr h))))

/-- The edges of an image are the images of the edges. -/
theorem mem_targets_image : r ∈ (A.image f).targets p s ↔
    ∃ q t, t ∈ A.targets q s ∧ f q = p ∧ f t = r := by
  simp only [image, mem_targets_ofParts, List.mem_map, mem_edges, Edge.image, Edge.mk.injEq]
  constructor
  · intro hex
    obtain ⟨⟨q, _, t⟩, ht, hq, hs, hr⟩ := hex
    subst hs
    exact ⟨q, t, ht, hq, hr⟩
  · intro hex
    obtain ⟨q, t, ht, hq, hr⟩ := hex
    exact ⟨⟨q, s, t⟩, ht, hq, rfl, hr⟩

/-- The accepting states of an image are the images of the accepting states. -/
theorem mem_accepting_image : p ∈ (A.image f).accepting ↔ ∃ q ∈ A.accepting, f q = p := by
  simp [image, mem_accepting_ofParts]

end Image

end ByteLexer.Automaton
