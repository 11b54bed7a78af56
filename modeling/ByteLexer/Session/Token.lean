import ByteLexer.Byte.Utf8
import ByteLexer.Lexer.Basic
import ByteLexer.Text.Position

/-! # Tokens and what can go wrong

    A token is a lexeme with its kind and its place in the input. A call of a session
    can fail at a place in the input (`Located`); it can also turn out that the place
    cannot be told, because a tab would have to be measured that has no width.
-/

namespace ByteLexer

/-! ## Tokens -/

/-- A lexeme, its kind, the index of the kind, and its place in the input. -/
structure Token where
  kind : String
  index : Nat
  lexeme : List UInt8
  offset : Nat
  span : Span
deriving DecidableEq, Repr

/-- The lexeme of a token, decoded. -/
def Token.text (t : Token) : String :=
  Byte.Utf8.decode t.lexeme

/-- The report that a token was read. -/
def Lexer.tokenRecord (l : Lexer) (t : Token) : Record :=
  let lexeme := "`" ++ Byte.spellAll t.lexeme ++ "`"
  if l.isSkip t.index then ⟨.trace, "skipped " ++ lexeme⟩
  else ⟨.trace, "token " ++ t.kind ++ " " ++ lexeme⟩

/-! ## Errors -/

/-- Why a call failed.

    - `lexical`: no token begins here. The lexeme is what could be read, and `found` the
      byte after it, if there is one.
    - `unexpected`: the next token is of another kind, or there is none.
    - `automaton`: the automaton does not say where to go. -/
inductive SessionError where
  | lexical (lexeme : List UInt8) (found : Option UInt8)
  | unexpected (expected : String) (found : Option (String × List UInt8))
  | automaton (cause : Nondeterminism)
deriving DecidableEq, Repr

namespace SessionError

/-- Whether no token could be read. -/
def isLexical : SessionError → Bool
  | .lexical _ _ => true
  | _ => false

/-- The sort of error in two words. -/
def title : SessionError → String
  | .lexical _ _ => "lexical error"
  | .unexpected _ _ => "unexpected token"
  | .automaton _ => "invalid lexer"

/-- The text of the error. -/
def message : SessionError → String
  | .lexical lexeme found =>
    (match found with
      | some b => "unexpected byte `" ++ Byte.spell b ++ "`"
      | none => "unexpected end of input")
      ++ if lexeme.isEmpty then "" else " after `" ++ Byte.spellAll lexeme ++ "`"
  | .unexpected expected (some (kind, lexeme)) =>
    "expected `" ++ expected ++ "`, found `" ++ kind ++ "` (`" ++ Byte.spellAll lexeme ++ "`)"
  | .unexpected expected none => "expected `" ++ expected ++ "`, found end of input"
  | .automaton cause => cause.message

end SessionError

/-- An error and its place in the input. -/
structure Located where
  error : SessionError
  span : Span
deriving DecidableEq, Repr

/-- How a call fails: with an error at a place, or because the place cannot be measured. -/
inductive Failure where
  | located (e : Located)
  | unmeasurable
deriving DecidableEq, Repr

end ByteLexer
