import ByteLexer.Automaton.Relabel
import ByteLexer.Byte.Range

/-! # Regular expressions as automata

    A `Regex` is an automaton with text labels. Every combinator gives a new one,
    whose only accepting state is `1` and whose initial state is `0`, or for a
    concatenation that of its first operand. The operands are copied under the
    namespaces `a.` and `b.` and tied together by edges that consume nothing, so
    that no label of one copy is a label of the other, or `0`, or `1`.
-/

namespace ByteLexer

/-- An automaton with text labels, as the combinators build them. -/
abbrev Regex := Automaton String

namespace Regex

open Automaton

/-! ## Joints -/

/-- The label of the initial state. -/
def first : String := "0"

/-- The label of the accepting state. -/
def final : String := "1"

/-- An edge that consumes nothing. -/
def joint (source target : String) : Edge String :=
  ⟨source, Symbol.epsilon, target⟩

/-! ## Single bytes -/

/-- Matches any one of the given bytes. -/
def oneOf (bytes : List UInt8) : Regex :=
  ofParts first [] (bytes.map fun b => ⟨first, some b, final⟩) [final]

/-- Matches one byte. -/
def byte (b : UInt8) : Regex :=
  oneOf [b]

/-- Matches any byte between two given ones, in whatever order these are given. -/
def between (a b : UInt8) : Regex :=
  oneOf (ByteRange.ofBounds a b).bytes

/-- All bytes, in increasing order. -/
def allBytes : List UInt8 :=
  (List.range 256).map UInt8.ofNat

/-- Matches any byte but one. -/
def allBut (b : UInt8) : Regex :=
  oneOf (allBytes.filter (· != b))

/-! ## Combinations -/

/-- Matches the empty word. -/
def epsilon : Regex :=
  ofParts first [] [joint first final] [final]

/-- Matches what one of two expressions matches. -/
def union (a b : Regex) : Regex :=
  let a := a.qualify "a."
  let b := b.qualify "b."
  ((ofInitial first).overlay a |>.overlay b).extend []
    (joint first a.initial :: joint first b.initial
      :: (a.accepting.toList ++ b.accepting.toList).map fun q => joint q final)
    [final]

/-- Matches what one expression matches followed by what another matches. -/
def concat (a b : Regex) : Regex :=
  let a := a.qualify "a."
  let b := b.qualify "b."
  ((ofInitial a.initial).overlay a |>.overlay b).extend []
    ((a.accepting.toList.map fun q => joint q b.initial)
      ++ b.accepting.toList.map fun q => joint q final)
    [final]

/-- Matches any number of repetitions, none included. -/
def star (a : Regex) : Regex :=
  let a := a.qualify "a."
  ((ofInitial first).overlay a).extend []
    (joint first a.initial :: joint first final
      :: a.accepting.toList.flatMap fun q => [joint q final, joint q a.initial])
    [final]

/-- Matches one repetition or more. -/
def plus (a : Regex) : Regex :=
  concat a (star a)

/-- Matches what an expression matches, and the empty word. -/
def optional (a : Regex) : Regex :=
  union a epsilon

/-- Matches one word. -/
def word : List UInt8 → Regex
  | [] => epsilon
  | b :: rest => rest.foldl (fun r c => concat r (byte c)) (byte b)

instance : Add Regex := ⟨concat⟩

instance : OrOp Regex := ⟨union⟩

end Regex
end ByteLexer
