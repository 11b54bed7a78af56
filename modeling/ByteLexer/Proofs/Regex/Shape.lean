import ByteLexer.Proofs.Automaton.Region
import ByteLexer.Regex.Basic

/-! # The shape of a combination

    What the automata built by the combinators look like: which edges they have, and
    how the copies of the operands lie in them.

    - **Labels.** The two namespaces, `0` and `1` have no label in common.
    - **Edges.** The copied edges of the operands, and the joints between them.
    - **Regions.** The copy of an operand is left from its accepting states only.
-/

namespace ByteLexer.Regex

open Automaton

/-! ## Labels -/

/-- The label of a state of the first operand in a combination. -/
def left (q : String) : String :=
  "a." ++ q

/-- The label of a state of the second operand in a combination. -/
def right (q : String) : String :=
  "b." ++ q

section Labels

variable {p q r : String}

/-- Labels that begin with different characters are different. -/
theorem ne_of_head (h : p.toList.head? ≠ q.toList.head?) : p ≠ q := by
  intro hpq
  rw [hpq] at h
  exact h rfl

@[simp] theorem left_inj : left q = left r ↔ q = r :=
  String.append_right_inj "a."

@[simp] theorem right_inj : right q = right r ↔ q = r :=
  String.append_right_inj "b."

@[simp] theorem left_ne_right : left q ≠ right r :=
  ne_of_head (by simp [left, right])

@[simp] theorem right_ne_left : right q ≠ left r :=
  ne_of_head (by simp [left, right])

@[simp] theorem left_ne_first : left q ≠ first :=
  ne_of_head (by simp [left, first])

@[simp] theorem left_ne_final : left q ≠ final :=
  ne_of_head (by simp [left, final])

@[simp] theorem right_ne_first : right q ≠ first :=
  ne_of_head (by simp [right, first])

@[simp] theorem right_ne_final : right q ≠ final :=
  ne_of_head (by simp [right, final])

@[simp] theorem first_ne_final : first ≠ final :=
  ne_of_head (by simp [first, final])

@[simp] theorem final_ne_first : final ≠ first :=
  ne_of_head (by simp [first, final])

end Labels

/-! ## Edges -/

variable {a b : Regex} {bytes : List UInt8} {p q x : String} {s : Symbol}

/-- The copy of a first operand. -/
theorem qualify_left (a : Regex) : a.qualify "a." = a.image left :=
  rfl

/-- The copy of a second operand. -/
theorem qualify_right (a : Regex) : a.qualify "b." = a.image right :=
  rfl

@[simp] theorem edge_eq_joint {r : String} :
    (⟨p, s, x⟩ : Edge String) = joint q r ↔ p = q ∧ s = Symbol.epsilon ∧ x = r := by
  simp [joint]

theorem mem_targets_oneOf :
    x ∈ (oneOf bytes).targets p s ↔ p = first ∧ x = final ∧ ∃ b ∈ bytes, s = some b := by
  simp only [oneOf, mem_targets_ofParts, List.mem_map, Edge.mk.injEq]
  constructor
  · intro hex
    obtain ⟨b, hb, hp, hs, hx⟩ := hex
    exact ⟨hp.symm, hx.symm, b, hb, hs.symm⟩
  · intro hand
    obtain ⟨hp, hx, b, hb, hs⟩ := hand
    exact ⟨b, hb, hp.symm, hs.symm, hx.symm⟩

theorem mem_targets_epsilon :
    x ∈ epsilon.targets p s ↔ p = first ∧ s = Symbol.epsilon ∧ x = final := by
  simp only [epsilon, mem_targets_ofParts, List.mem_singleton, edge_eq_joint]

theorem mem_map_joint {states : List String} {r : String} :
    (⟨p, s, x⟩ : Edge String) ∈ states.map (fun q => joint q r) ↔
      p ∈ states ∧ s = Symbol.epsilon ∧ x = r := by
  simp only [List.mem_map, eq_comm (b := (⟨p, s, x⟩ : Edge String)), edge_eq_joint]
  constructor
  · intro hex
    obtain ⟨q, hq, hp, hs, hx⟩ := hex
    rw [hp]
    exact ⟨hq, hs, hx⟩
  · intro hand
    obtain ⟨hp, hs, hx⟩ := hand
    exact ⟨p, hp, rfl, hs, hx⟩

/-- The edges of a union: both copies, two joints from the start, and one from each copy of an
    accepting state to the end. -/
theorem mem_targets_union : x ∈ (union a b).targets p s ↔
    x ∈ (a.image left).targets p s ∨ x ∈ (b.image right).targets p s ∨
    (p = first ∧ s = Symbol.epsilon ∧ x = left a.initial) ∨
    (p = first ∧ s = Symbol.epsilon ∧ x = right b.initial) ∨
    ((p ∈ (a.image left).accepting ∨ p ∈ (b.image right).accepting) ∧
      s = Symbol.epsilon ∧ x = final) := by
  simp only [union, qualify_left, qualify_right, initial_image, mem_targets_extend,
    mem_targets_overlay, not_mem_targets_ofInitial, false_or, List.mem_cons, edge_eq_joint,
    mem_map_joint, List.mem_append, Std.ExtTreeSet.mem_toList, or_assoc]

/-- The edges of a concatenation: both copies, joints from the first one to the second one,
    and joints from there to the end. -/
theorem mem_targets_concat : x ∈ (concat a b).targets p s ↔
    x ∈ (a.image left).targets p s ∨ x ∈ (b.image right).targets p s ∨
    (p ∈ (a.image left).accepting ∧ s = Symbol.epsilon ∧ x = right b.initial) ∨
    (p ∈ (b.image right).accepting ∧ s = Symbol.epsilon ∧ x = final) := by
  simp only [concat, qualify_left, qualify_right, initial_image, mem_targets_extend,
    mem_targets_overlay, not_mem_targets_ofInitial, false_or, mem_map_joint, List.mem_append,
    Std.ExtTreeSet.mem_toList, or_assoc]

/-- The edges of a repetition: the copy, two joints from the start, and two from each copy of
    an accepting state, to the end and back. -/
theorem mem_targets_star : x ∈ (star a).targets p s ↔
    x ∈ (a.image left).targets p s ∨
    (p = first ∧ s = Symbol.epsilon ∧ x = left a.initial) ∨
    (p = first ∧ s = Symbol.epsilon ∧ x = final) ∨
    (p ∈ (a.image left).accepting ∧ s = Symbol.epsilon ∧ (x = final ∨ x = left a.initial)) := by
  have hjoints : (⟨p, s, x⟩ : Edge String) ∈ ((a.image left).accepting.toList.flatMap fun q =>
      [joint q final, joint q (left a.initial)]) ↔
      p ∈ (a.image left).accepting ∧ s = Symbol.epsilon ∧ (x = final ∨ x = left a.initial) := by
    simp only [List.mem_flatMap, Std.ExtTreeSet.mem_toList, List.mem_cons, List.not_mem_nil,
      or_false, edge_eq_joint, ← and_or_left]
    constructor
    · intro hex
      obtain ⟨q, hq, hp, hs, hx⟩ := hex
      rw [hp]
      exact ⟨hq, hs, hx⟩
    · intro hand
      obtain ⟨hp, hs, hx⟩ := hand
      exact ⟨p, hp, rfl, hs, hx⟩
  simp only [star, qualify_left, initial_image, mem_targets_extend, mem_targets_overlay,
    not_mem_targets_ofInitial, false_or, List.mem_cons, edge_eq_joint, hjoints]

/-! ## Accepting states -/

@[simp] theorem mem_accepting_oneOf : p ∈ (oneOf bytes).accepting ↔ p = final := by
  simp only [oneOf, mem_accepting_ofParts, List.mem_singleton]

@[simp] theorem mem_accepting_epsilon : p ∈ epsilon.accepting ↔ p = final := by
  simp only [epsilon, mem_accepting_ofParts, List.mem_singleton]

@[simp] theorem mem_accepting_union : p ∈ (union a b).accepting ↔ p = final := by
  simp only [union, mem_accepting_extend, mem_accepting_overlay, not_mem_accepting_ofInitial,
    List.mem_singleton, false_or]

@[simp] theorem mem_accepting_concat : p ∈ (concat a b).accepting ↔ p = final := by
  simp only [concat, mem_accepting_extend, mem_accepting_overlay, not_mem_accepting_ofInitial,
    List.mem_singleton, false_or]

@[simp] theorem mem_accepting_star : p ∈ (star a).accepting ↔ p = final := by
  simp only [star, mem_accepting_extend, mem_accepting_overlay, not_mem_accepting_ofInitial,
    List.mem_singleton, false_or]

/-! ## Initial states -/

@[simp] theorem initial_oneOf : (oneOf bytes).initial = first :=
  initial_ofParts

@[simp] theorem initial_epsilon : epsilon.initial = first :=
  initial_ofParts

@[simp] theorem initial_union : (union a b).initial = first := by
  simp only [union, initial_extend, initial_overlay, initial_ofInitial]

@[simp] theorem initial_concat : (concat a b).initial = left a.initial := by
  simp only [concat, qualify_left, initial_extend, initial_overlay, initial_ofInitial,
    initial_image]

@[simp] theorem initial_star : (star a).initial = first := by
  simp only [star, initial_extend, initial_overlay, initial_ofInitial]

/-! ## Regions -/

/-- No edge of a copy leaves a label outside its namespace. -/
theorem not_mem_targets_image {f : String → String} (h : ∀ q, f q ≠ p) :
    x ∉ (a.image f).targets p s := by
  intro hx
  obtain ⟨q, _, _, hq, _⟩ := mem_targets_image.mp hx
  exact h q hq

@[simp] theorem not_mem_targets_left_right {q : String} :
    x ∉ (a.image left).targets (right q) s :=
  not_mem_targets_image fun _ => left_ne_right

@[simp] theorem not_mem_targets_right_left {q : String} :
    x ∉ (a.image right).targets (left q) s :=
  not_mem_targets_image fun _ => right_ne_left

/-- The copy of an operand is a region if nothing but joints from accepting states leaves it
    besides the copied edges. -/
theorem region_of_targets {f : String → String} {A R : Regex} {exit : String → Prop}
    (hf : ∀ q r, f q = f r → q = r)
    (h : ∀ q s x, x ∈ R.targets (f q) s ↔ x ∈ (A.image f).targets (f q) s ∨
      (f q ∈ (A.image f).accepting ∧ s = Symbol.epsilon ∧ exit x)) :
    Region (fun _ => True) f A R exit where
  closed _ _ := trivial
  edge _ hr := (h _ _ _).mpr (.inl (mem_targets_image.mpr ⟨_, _, hr, rfl, rfl⟩))
  out _ hq hx := (h _ _ _).mpr (.inr ⟨mem_accepting_image.mpr ⟨_, hq, rfl⟩, rfl, hx⟩)
  leave {q s x} _ hx := by
    rcases (h q s x).mp hx with hin | ⟨hq, hs, hexit⟩
    · obtain ⟨p, r, hr, hp, hrx⟩ := mem_targets_image.mp hin
      obtain rfl := hf p q hp
      exact .inl ⟨r, hr, hrx⟩
    · obtain ⟨p, hacc, hp⟩ := mem_accepting_image.mp hq
      obtain rfl := hf p q hp
      exact .inr ⟨hs, hacc, hexit⟩

theorem region_union_left (a b : Regex) :
    Region (fun _ => True) left a (union a b) (· = final) :=
  region_of_targets (fun _ _ => left_inj.mp) fun q s x => by
    simp [mem_targets_union, mem_accepting_image]

theorem region_union_right (a b : Regex) :
    Region (fun _ => True) right b (union a b) (· = final) :=
  region_of_targets (fun _ _ => right_inj.mp) fun q s x => by
    simp [mem_targets_union, mem_accepting_image]

theorem region_concat_left (a b : Regex) :
    Region (fun _ => True) left a (concat a b) (· = right b.initial) :=
  region_of_targets (fun _ _ => left_inj.mp) fun q s x => by
    simp [mem_targets_concat, mem_accepting_image]

theorem region_concat_right (a b : Regex) :
    Region (fun _ => True) right b (concat a b) (· = final) :=
  region_of_targets (fun _ _ => right_inj.mp) fun q s x => by
    simp [mem_targets_concat, mem_accepting_image]

theorem region_star (a : Regex) :
    Region (fun _ => True) left a (star a) (fun x => x = final ∨ x = left a.initial) :=
  region_of_targets (fun _ _ => left_inj.mp) fun q s x => by
    simp [mem_targets_star, mem_accepting_image]

/-! ## The start and the end -/

theorem mem_targets_epsilon_first : x ∈ epsilon.targets first s ↔
    s = Symbol.epsilon ∧ x = final := by
  simp [mem_targets_epsilon]

/-- The start of a union leads to the copies of both initial states. -/
theorem mem_targets_union_first : x ∈ (union a b).targets first s ↔
    s = Symbol.epsilon ∧ (x = left a.initial ∨ x = right b.initial) := by
  simp [mem_targets_union, mem_targets_image, mem_accepting_image, and_or_left]

/-- The start of a repetition leads to the copy of the initial state and to the end. -/
theorem mem_targets_star_first : x ∈ (star a).targets first s ↔
    s = Symbol.epsilon ∧ (x = left a.initial ∨ x = final) := by
  simp [mem_targets_star, mem_targets_image, mem_accepting_image, and_or_left]

theorem not_mem_targets_oneOf_final : x ∉ (oneOf bytes).targets final s := by
  simp [mem_targets_oneOf]

theorem not_mem_targets_epsilon_final : x ∉ epsilon.targets final s := by
  simp [mem_targets_epsilon]

theorem not_mem_targets_union_final : x ∉ (union a b).targets final s := by
  simp [mem_targets_union, mem_targets_image, mem_accepting_image]

theorem not_mem_targets_concat_final : x ∉ (concat a b).targets final s := by
  simp [mem_targets_concat, mem_targets_image, mem_accepting_image]

theorem not_mem_targets_star_final : x ∉ (star a).targets final s := by
  simp [mem_targets_star, mem_targets_image, mem_accepting_image]

end ByteLexer.Regex
