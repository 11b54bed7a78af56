/-! # Colours

    Terminals change the look of text on escape sequences. `paint` wraps a text in
    bold, in a colour or not, and resets the look after it; `Ink` is one of the
    bright colours in which source excerpts are drawn.
-/

namespace ByteLexer

/-- Starts an escape sequence. -/
def escapeSequence (code : String) : String :=
  "\x1b[" ++ code ++ "m"

/-- The colours of bold text. -/
inductive Tint where
  | plain
  | red
  | green
  | yellow
  | blue
deriving DecidableEq, Repr

/-- The codes that switch on bold text of a colour. -/
def Tint.code : Tint → String
  | .plain => "1"
  | .red => "1;31"
  | .green => "1;32"
  | .yellow => "1;33"
  | .blue => "1;34"

/-- A text in bold. -/
def paint (tint : Tint) (s : String) : String :=
  escapeSequence tint.code ++ s ++ escapeSequence "0"

/-- The colours of a source excerpt. -/
inductive Ink where
  | red
  | green
  | yellow
  | blue
deriving DecidableEq, Repr

/-- The number of a colour among the 256 of a terminal. -/
def Ink.number : Ink → Nat
  | .red => 9
  | .green => 10
  | .yellow => 11
  | .blue => 12

/-- Switches to a colour in bold, or back to the usual look. -/
def Ink.switch : Option Ink → String
  | some ink => escapeSequence "1" ++ escapeSequence ("38;5;" ++ toString ink.number)
  | none => escapeSequence ""

end ByteLexer
