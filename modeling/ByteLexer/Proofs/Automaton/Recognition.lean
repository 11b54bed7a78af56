import ByteLexer.Automaton.Lemmas
import ByteLexer.Proofs.Automaton.Words
import Mathlib.Computability.EpsilonNFA

/-! # Recognition and the paths of an automaton

    An automaton is followed along all paths at once, yet each word that it recognizes has a single
    path that spells it. The paths are those of an automaton with silent edges in Mathlib: lists of
    symbols, from which the silent ones are left out to get the word.

    - **The same automaton** over mathematical sets, and its paths.
    - **Dead ends.** Once no state is left, the rest of the word need not be looked at.
-/

namespace ByteLexer.Automaton

open Std (TransOrd LawfulEqOrd)

variable {Q : Type} [Ord Q] [TransOrd Q] {A : Automaton Q} {q r : Q} {w : List UInt8}

/-! ## The same automaton over sets -/

/-- The automaton with sets for its targets and its accepting states. -/
def toEpsilonNFA (A : Automaton Q) : εNFA UInt8 Q where
  step q s := {r | r ∈ A.targets q s}
  start := {A.initial}
  accept := {q | q ∈ A.accepting}

/-- A path that spells a word is a list of symbols whose bytes are the word. -/
theorem path_iff_exists_isPath :
    A.Path q w r ↔ ∃ x : List Symbol, A.toEpsilonNFA.IsPath q r x ∧ x.reduceOption = w := by
  constructor
  · intro h
    induction h with
    | nil q => exact ⟨[], .nil q, rfl⟩
    | silent hr _ ih =>
      obtain ⟨x, hx, hw⟩ := ih
      exact ⟨none :: x, .cons _ _ _ none x hr hx, hw⟩
    | @byte _ _ _ b _ hr _ ih =>
      obtain ⟨x, hx, hw⟩ := ih
      refine ⟨some b :: x, .cons _ _ _ (some b) x hr hx, ?_⟩
      rw [List.reduceOption_cons_of_some, hw]
  · intro hex
    obtain ⟨x, hx, hw⟩ := hex
    rw [← hw]
    clear hw
    induction hx with
    | nil q => exact .nil q
    | cons _ _ _ s x hr _ ih =>
      cases s with
      | none => exact .silent hr ih
      | some b => exact .byte hr ih

theorem accepts_iff_exists_isPath :
    A.Accepts w ↔ ∃ q ∈ A.accepting, ∃ x : List Symbol,
      A.toEpsilonNFA.IsPath A.initial q x ∧ x.reduceOption = w := by
  unfold Accepts
  simp only [path_iff_exists_isPath, and_comm]

/-- Both automata accept the same words. -/
theorem accepts_iff_mem_accepts : A.Accepts w ↔ w ∈ A.toEpsilonNFA.accepts := by
  rw [accepts_iff_exists_isPath, εNFA.mem_accepts_iff_exists_path]
  constructor
  · intro hex
    obtain ⟨q, hq, x, hpath, hx⟩ := hex
    exact ⟨A.initial, q, x, rfl, hq, hx, hpath⟩
  · intro hex
    obtain ⟨p, q, x, hp, hq, hx, hpath⟩ := hex
    rw [Set.mem_singleton_iff.mp hp] at hpath
    exact ⟨q, hq, x, hpath, hx⟩

/-! ## Dead ends -/

variable [LawfulEqOrd Q] {S : StateSet Q}

/-- Whether a word leads from one of the given states to an accepting one. Once no state is left,
    the rest of the word is not looked at. -/
def recognizesFrom (A : Automaton Q) (states : StateSet Q) : List UInt8 → Bool
  | [] => A.meetsAccepting states
  | b :: w => if states.isEmpty then false else A.recognizesFrom (A.move states b) w

/-- Nothing more is reached once no state is left. -/
theorem foldl_move_empty (A : Automaton Q) (w : List UInt8) : w.foldl A.move ∅ = ∅ := by
  induction w with
  | nil => rfl
  | cons b w ih =>
    have hmove : A.move ∅ b = ∅ := by
      rw [Std.ExtTreeSet.eq_empty_iff_forall_not_mem]
      intro q hq
      obtain ⟨p, hp, _⟩ := mem_move.mp hq
      exact Std.ExtTreeSet.not_mem_empty hp
    rw [List.foldl_cons, hmove, ih]

/-- To stop at a dead end gives the same answer as to look at the whole word. -/
theorem recognizesFrom_eq : A.recognizesFrom S w = A.meetsAccepting (w.foldl A.move S) := by
  induction w generalizing S with
  | nil => rfl
  | cons b w ih =>
    rw [recognizesFrom]
    split
    case isTrue hempty =>
      -- no state is left, so none will be accepting
      rw [Std.ExtTreeSet.isEmpty_iff.mp hempty, foldl_move_empty]
      rfl
    case isFalse => exact ih

/-- A word is recognized exactly if there is a finite path from the initial state to an accepting
    one whose bytes, in order and without its silent edges, spell the word; in other words, if the
    automaton over sets accepts it. To stop at a dead end makes no difference. -/
theorem recognizes_iff_isPath (A : Automaton Q) (w : List UInt8) :
    (A.recognizes w = true ↔ ∃ q ∈ A.accepting, ∃ x : List Symbol,
      A.toEpsilonNFA.IsPath A.initial q x ∧ x.reduceOption = w) ∧
    (A.recognizes w = true ↔ w ∈ A.toEpsilonNFA.accepts) ∧
    A.recognizesFrom A.start w = A.recognizes w := by
  rw [recognizes_iff_accepts]
  exact ⟨accepts_iff_exists_isPath, accepts_iff_mem_accepts, recognizesFrom_eq⟩

/-- A silent cycle is crossed before and after the byte. -/
theorem recognizes_iff_isPath_cycle :
    let A : Automaton Nat := ofParts 0 [] [⟨0, none, 1⟩, ⟨1, none, 0⟩, ⟨1, some 97, 0⟩] [1]
    A.recognizes [97] = true ∧ A.recognizesFrom A.start [97] = true := by
  intro A
  have hleave : 1 ∈ A.targets 0 none := mem_targets_ofParts.mpr (by decide)
  have hbyte : 0 ∈ A.targets 1 (some 97) := mem_targets_ofParts.mpr (by decide)
  have hpath : A.toEpsilonNFA.IsPath 0 1 [none, some 97, none] :=
    .cons 1 0 1 _ _ hleave (.cons 0 1 1 _ _ hbyte (.cons 1 0 1 _ _ hleave (.nil 1)))
  have haccepting : 1 ∈ A.accepting := mem_accepting_ofParts.mpr List.mem_cons_self
  obtain ⟨hiff, _, hsame⟩ := recognizes_iff_isPath A [97]
  have hrecognizes : A.recognizes [97] = true := hiff.mpr ⟨1, haccepting, _, hpath, rfl⟩
  exact ⟨hrecognizes, hsame.trans hrecognizes⟩

end ByteLexer.Automaton
