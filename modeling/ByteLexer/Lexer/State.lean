import ByteLexer.OrdSet

/-! # States of a lexer

    A state of a compiled lexer says at once whether a token may end in it and of
    which kind that token is. States of one sort are told apart by a number.

    States are ordered: those in which no token ends come first, then by kind, then
    by number.
-/

namespace ByteLexer

open Std (TransOrd LawfulEqOrd)

/-- A state of a compiled lexer. -/
inductive LexerState where
  | intermediate (number : Nat)
  | final (kind number : Nat)
deriving DecidableEq, Repr

namespace LexerState

/-- The index of the kind of the tokens that end in a state. -/
def kind? : LexerState → Option Nat
  | .intermediate _ => none
  | .final kind _ => some kind

/-! ## Order -/

/-- The order of states is that of these words. -/
def key : LexerState → List Nat
  | .intermediate n => [0, n]
  | .final kind n => [1, kind, n]

theorem key_injective {q r : LexerState} (h : q.key = r.key) : q = r := by
  cases q <;> cases r <;> simp_all [key]

instance : Ord LexerState where
  compare q r := compare q.key r.key

instance : TransOrd LexerState where
  eq_swap {q r} := show compare q.key r.key = (compare r.key q.key).swap from
    Std.OrientedCmp.eq_swap
  isLE_trans {q r s} h k := show (compare q.key s.key).isLE from
    Std.TransCmp.isLE_trans (b := r.key) h k

instance : LawfulEqOrd LexerState where
  compare_self {q} := show compare q.key q.key = .eq from Std.ReflCmp.compare_self
  eq_of_compare {q r} h := key_injective
    (Std.LawfulEqCmp.eq_of_compare (show compare q.key r.key = .eq from h))

end LexerState
end ByteLexer
