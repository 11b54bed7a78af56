import ByteLexer.Lexer.Basic

/-! # The tokens of S-expressions

    A table for a small language of S-expressions: blanks and line comments, which are
    skipped, strings without escapes, symbols, numbers, keywords, identifiers and
    punctuation. Keywords are declared before identifiers, and so win over them.
-/

namespace ByteLexer.SExpression

open Regex

/-- The bytes of an ASCII text. -/
def ascii (s : String) : List UInt8 :=
  s.toList.map fun c => UInt8.ofNat c.toNat

/-! ## Classes of words -/

/-- One digit. -/
def digit : Regex :=
  between 0x30 0x39

/-- One ASCII letter. -/
def letter : Regex :=
  between 0x61 0x7a ||| between 0x41 0x5a

/-- A letter and then letters and digits. -/
def identifier : Regex :=
  letter + star (letter ||| digit)

/-- One digit or more. -/
def number : Regex :=
  plus digit

/-- A text between double quotes; there is no way to write a double quote in it. -/
def string : Regex :=
  byte 0x22 + star (allBut 0x22) + byte 0x22

/-- A comment, from `#` to the end of the line. -/
def comment : Regex :=
  byte 0x23 + star (allBut 0x0a) + byte 0x0a

/-- A blank or a comment. -/
def skipped : Regex :=
  oneOf (ascii " \n\t") ||| comment

/-- A colon and an identifier. -/
def symbolName : Regex :=
  byte 0x3a + identifier

/-! ## The table -/

/-- The keywords; each is a kind of its own, named by its upper-case form. -/
def keywords : List String :=
  ["if", "while", "until", "loop", "when", "do", "val", "let", "template", "type", "true",
    "false"]

/-- The kinds of punctuation and their texts. -/
def punctuation : List (String × String) :=
  [("OPAREN", "("), ("CPAREN", ")"), ("OBRACK", "["), ("CBRACK", "]"), ("OBRACE", "\x7b"),
    ("CBRACE", "\x7d"), ("ASSIGN", "="), ("EQUALS", "=="), ("PLUS", "+"), ("MINUS", "-"),
    ("STAR", "*"), ("FSLASH", "/"), ("BSLASH", "\x5c"), ("SEMI", ";"), ("COLONS", "::"),
    ("COLON", ":"), ("DOT", "."), ("COMMA", ","), ("AT", "@"), ("ARROW", "->")]

/-- The table of patterns. -/
def patterns : List Pattern :=
  [⟨skipKind, skipped⟩, ⟨"STRING", string⟩, ⟨"SYM", symbolName⟩, ⟨"NUM", number⟩]
    ++ keywords.map (fun k => ⟨k.toUpper, word (ascii k)⟩)
    ++ [⟨"ID", identifier⟩]
    ++ punctuation.map (fun (kind, text) => ⟨kind, word (ascii text)⟩)

/-- The compiled table. -/
def lexer? : Except TableError Lexer :=
  Lexer.compile patterns

end ByteLexer.SExpression
