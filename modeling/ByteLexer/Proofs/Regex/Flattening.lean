import ByteLexer.Proofs.Automaton.Flattening
import ByteLexer.Proofs.Regex.Labels

/-! # Flattened expressions

    The combinators label states with digits and dots, so their automata have no commas in their
    labels, unless there are some in an automaton or a text that they are given.

    - **Plain automata** have no commas in their labels. Those of combinators are plain.
    - **Rounds.** Any number of rounds of `flatten` makes of a plain automaton one that is
      deterministic, as large as its subset construction, and recognizes the same words.
-/

namespace ByteLexer.Regex

open Automaton

/-! ## Plain automata -/

/-- A well-formed automaton whose labels have no commas. -/
structure Plain (A : Regex) : Prop where
  wellFormed : A.WellFormed
  commaFree : ∀ q ∈ A, CommaFree q

theorem kept_commaFree : Kept CommaFree :=
  kept_not_mem (by decide)

namespace Expr

/-- No label has a comma in the automata that a tree is built from, and no text in front of labels
    has one. The combinators bring in none. -/
def CommaFree : Expr → Prop
  | .automaton A => Plain A
  | .byte _ | .between _ _ | .allBut _ | .oneOf _ | .epsilon | .word _ => True
  | .union a b | .concat a b | .or a b | .add a b => a.CommaFree ∧ b.CommaFree
  | .star a | .plus a | .optional a => a.CommaFree
  | .qualify name a => ByteLexer.CommaFree name ∧ a.CommaFree

theorem CommaFree.labelled {e : Expr} (h : e.CommaFree) : e.Labelled ByteLexer.CommaFree := by
  induction e with
  | automaton A => exact ⟨h.wellFormed, h.commaFree⟩
  | byte _ | between _ _ | allBut _ | oneOf _ | epsilon | word _ => trivial
  | union a b iha ihb | concat a b iha ihb | or a b iha ihb | add a b iha ihb =>
    exact ⟨iha h.1, ihb h.2⟩
  | star a iha | plus a iha | optional a iha => exact iha h
  | qualify name a iha => exact ⟨fun q hq => h.1.append hq, iha h.2⟩

/-- The automaton of such a tree is plain. -/
theorem CommaFree.plain {e : Expr} (h : e.CommaFree) : Plain e.build := by
  have hlabels := h.labelled.build kept_commaFree
  exact ⟨hlabels.wellFormed, hlabels.labels⟩

end Expr

/-! ## Rounds -/

/-- `B` is deterministic, is as large as the subset construction of `A` with as many accepting
    states, and recognizes the same words as `A`. -/
structure Determinizes (A B : Regex) : Prop where
  deterministic : B.isDeterministic = true
  size : B.size = A.subsetConstruction.size
  accepting : B.accepting.size = A.subsetConstruction.accepting.size
  recognizes : ∀ w, B.recognizes w = A.recognizes w

theorem Plain.determinizes {A : Regex} (hA : Plain A) (n : Nat) :
    Determinizes A (Automaton.flatten^[n + 1] A) := by
  obtain ⟨hreduced, halike⟩ := hA.wellFormed.iterate_flatten hA.commaFree n
  exact {
    deterministic := hreduced.wellFormed.tidy.isDeterministic_iff.mpr hreduced.deterministic
    size := halike.size
    accepting := halike.accepting
    recognizes := fun w => by
      rw [halike.recognizes, Bool.eq_iff_iff, recognizes_iff_accepts, recognizes_iff_accepts]
      exact accepts_subsetConstruction_iff }

/-- Let the labels of an automaton have no commas, whether it is built by any sequence of operations
    or by a combinator expression. After one round of `flatten` or more it is deterministic, has as
    many states and accepting states as the subset construction, and recognizes the same words. -/
theorem iterate_flatten_determinizes (n : Nat) (hn : 1 ≤ n) :
    (∀ c : Construction ⟨String⟩, (∀ q ∈ c.build, CommaFree q) →
      Determinizes c.build (Automaton.flatten^[n] c.build)) ∧
    ∀ e : Expr, e.CommaFree → Determinizes e.build (Automaton.flatten^[n] e.build) := by
  obtain ⟨n, rfl⟩ := Nat.exists_eq_add_of_le' hn
  constructor
  · intro c hcomma
    exact Plain.determinizes ⟨c.wellFormed_build, hcomma⟩ n
  · intro e he
    exact he.plain.determinizes n

/-- Two rounds for a repetition, whose labels have commas after the first one. -/
theorem iterate_flatten_determinizes_star :
    let e : Expr := .star (.union (.byte 97) (.between 48 57))
    e.CommaFree ∧ Determinizes e.build (Automaton.flatten^[2] e.build) := by
  intro e
  have he : e.CommaFree := ⟨trivial, trivial⟩
  exact ⟨he, (iterate_flatten_determinizes 2 (by decide)).2 e he⟩

end ByteLexer.Regex
