import ByteLexer.Automaton.Basic

/-! # Runs of an automaton

    A `Run` is an automaton together with the state it is in. It starts in the
    initial state and goes from state to state as bytes are fed to it; on a byte
    that leads nowhere, or more than one way, it stays where it is. `Run.follow`
    feeds a word up to such a byte.
-/

namespace ByteLexer

open Std (TransOrd LawfulEqOrd)

/-- An automaton and the state it is in. -/
structure Run (Q : Type) [Ord Q] where
  automaton : Automaton Q
  state : Q

namespace Run

variable {Q : Type} [Ord Q] [TransOrd Q]

/-- A run that has read nothing. -/
def ofAutomaton (A : Automaton Q) : Run Q :=
  ⟨A, A.initial⟩

/-- The run, back in the initial state. -/
def restart (r : Run Q) : Run Q :=
  { r with state := r.automaton.initial }

/-- Whether the run is in an accepting state. -/
def accepts (r : Run Q) : Bool :=
  r.automaton.isAccepting r.state

/-- Feeds one byte: whether the run could follow it, and the run afterwards. -/
def feed (r : Run Q) (b : UInt8) : Except Nondeterminism Bool × Run Q :=
  match r.automaton.step r.state b with
  | .error e => (.error e, r)
  | .ok none => (.ok false, r)
  | .ok (some q) => (.ok true, { r with state := q })

/-- A run stays in its automaton. -/
theorem automaton_feed (r : Run Q) (b : UInt8) : (r.feed b).2.automaton = r.automaton := by
  unfold feed
  split <;> rfl

/-! ## Following a word -/

/-- How far a run could follow a word: the part that it consumed, the part that is left, the
    run where it got stuck, and the error if that is why. -/
structure Stretch (Q : Type) [Ord Q] where
  consumed : List UInt8
  rest : List UInt8
  run : Run Q
  error : Option Nondeterminism

/-- Feeds the bytes of a word for as long as the run can follow them. -/
def follow (r : Run Q) : List UInt8 → Stretch Q
  | [] => ⟨[], [], r, none⟩
  | b :: rest =>
    match r.feed b with
    | (.ok true, next) =>
      let x := next.follow rest
      { x with consumed := b :: x.consumed }
    | (.ok false, next) => ⟨[], b :: rest, next, none⟩
    | (.error e, next) => ⟨[], b :: rest, next, some e⟩

/-- Nothing of the word gets lost. -/
theorem consumed_append_rest (r : Run Q) (w : List UInt8) :
    (r.follow w).consumed ++ (r.follow w).rest = w := by
  induction w generalizing r with
  | nil => rfl
  | cons b rest ih =>
    unfold follow
    split
    · rename_i next _
      simpa using ih next
    · rfl
    · rfl

theorem automaton_follow (r : Run Q) (w : List UInt8) :
    (r.follow w).run.automaton = r.automaton := by
  induction w generalizing r with
  | nil => rfl
  | cons b rest ih =>
    have hstay := r.automaton_feed b
    unfold follow
    split
    · rename_i next hfeed
      rw [hfeed] at hstay
      exact (ih next).trans hstay
    · rename_i next hfeed
      rw [hfeed] at hstay
      exact hstay
    · rename_i next hfeed
      rw [hfeed] at hstay
      exact hstay

/-- Wherever a run has got stuck, a restart brings it back. -/
theorem restart_run_follow (r : Run Q) (w : List UInt8) :
    (r.follow w).run.restart = r.restart := by
  unfold restart
  rw [automaton_follow]

end Run
end ByteLexer
