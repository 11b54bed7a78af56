import ByteLexer.Automaton.Basic

/-! # Paths and words

    A path follows edges from state to state; the bytes of its edges, in order, are
    the word that it spells. An automaton accepts the words spelled by the paths
    from its initial state to an accepting one. Nothing here is computed: these
    are the notions that the algorithms on automata are about.
-/

namespace ByteLexer.Automaton

open Std (TransOrd LawfulEqOrd)

variable {Q : Type} [Ord Q] [TransOrd Q]

/-- `A.Path q w r`: there is a path from `q` to `r` that spells `w`. -/
inductive Path (A : Automaton Q) : Q → List UInt8 → Q → Prop
  | nil (q : Q) : Path A q [] q
  | silent {q r t : Q} {w : List UInt8} :
      r ∈ A.targets q Symbol.epsilon → Path A r w t → Path A q w t
  | byte {q r t : Q} {b : UInt8} {w : List UInt8} :
      r ∈ A.targets q (some b) → Path A r w t → Path A q (b :: w) t

/-- Paths compose, and so do the words that they spell. -/
theorem Path.append {A : Automaton Q} {q r t : Q} {u w : List UInt8}
    (h : A.Path q u r) (k : A.Path r w t) : A.Path q (u ++ w) t := by
  induction h with
  | nil => exact k
  | silent hr _ ih => exact .silent hr (ih k)
  | byte hr _ ih => exact .byte hr (ih k)

/-- A word is accepted if it leads from the initial state to an accepting one. -/
def Accepts (A : Automaton Q) (w : List UInt8) : Prop :=
  ∃ q, A.Path A.initial w q ∧ q ∈ A.accepting

/-- A word is viable if it leads anywhere from the initial state. -/
def Viable (A : Automaton Q) (w : List UInt8) : Prop :=
  ∃ q, A.Path A.initial w q

end ByteLexer.Automaton
