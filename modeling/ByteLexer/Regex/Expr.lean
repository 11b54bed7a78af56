import ByteLexer.Automaton.Path
import ByteLexer.Regex.Basic

/-! # Expression trees and their languages

    An `Expr` is a tree of combinators whose leaves may be any automata; the operators
    `|||` and `+` have nodes of their own. It is built into an automaton by
    `Expr.build`, and it denotes a language by `Expr.Matches`, which only speaks of
    words.
-/

namespace ByteLexer.Regex

/-- A tree of combinators. -/
inductive Expr where
  | automaton (A : Regex)
  | byte (b : UInt8)
  | between (a b : UInt8)
  | allBut (b : UInt8)
  | oneOf (bytes : List UInt8)
  | epsilon
  | word (bytes : List UInt8)
  | union (a b : Expr)
  | concat (a b : Expr)
  | or (a b : Expr)
  | add (a b : Expr)
  | star (a : Expr)
  | plus (a : Expr)
  | optional (a : Expr)
  | qualify (name : String) (a : Expr)

namespace Expr

/-- The automaton of a tree. -/
def build : Expr → Regex
  | .automaton A => A
  | .byte b => Regex.byte b
  | .between a b => Regex.between a b
  | .allBut b => Regex.allBut b
  | .oneOf bytes => Regex.oneOf bytes
  | .epsilon => Regex.epsilon
  | .word bytes => Regex.word bytes
  | .union a b => Regex.union a.build b.build
  | .concat a b => Regex.concat a.build b.build
  | .or a b => a.build ||| b.build
  | .add a b => a.build + b.build
  | .star a => Regex.star a.build
  | .plus a => Regex.plus a.build
  | .optional a => Regex.optional a.build
  | .qualify name a => a.build.qualify name

/-- The concatenations of members of a language. -/
inductive Repeated (L : List UInt8 → Prop) : List UInt8 → Prop
  | nil : Repeated L []
  | append {u w : List UInt8} : L u → Repeated L w → Repeated L (u ++ w)

/-- The language that a tree denotes. -/
def Matches : Expr → List UInt8 → Prop
  | .automaton A, w => A.Accepts w
  | .byte b, w => w = [b]
  | .between a b, w => ∃ c, min a b ≤ c ∧ c ≤ max a b ∧ w = [c]
  | .allBut b, w => ∃ c, c ≠ b ∧ w = [c]
  | .oneOf bytes, w => ∃ c ∈ bytes, w = [c]
  | .epsilon, w => w = []
  | .word bytes, w => w = bytes
  | .union a b, w => a.Matches w ∨ b.Matches w
  | .concat a b, w => ∃ u v, a.Matches u ∧ b.Matches v ∧ w = u ++ v
  | .or a b, w => a.Matches w ∨ b.Matches w
  | .add a b, w => ∃ u v, a.Matches u ∧ b.Matches v ∧ w = u ++ v
  | .star a, w => Repeated a.Matches w
  | .plus a, w => ∃ u v, a.Matches u ∧ Repeated a.Matches v ∧ w = u ++ v
  | .optional a, w => a.Matches w ∨ w = []
  | .qualify _ a, w => a.Matches w

end Expr
end ByteLexer.Regex
