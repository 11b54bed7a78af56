/-! # Quoted text

    A text between double quotes, in which a backslash stands before each
    backslash and each double quote. `decode` reads from left to right what
    `encode` wrote.
-/

namespace ByteLexer.Text.Quoted

/-- Writes a backslash before each backslash and each double quote. -/
def encode : List Char → List Char
  | [] => []
  | c :: rest =>
    if c = '\\' ∨ c = '\x22' then '\\' :: c :: encode rest else c :: encode rest

/-- Takes the backslashes away again; refuses a double quote or a final
    backslash that has none before it. -/
def decode : List Char → Option (List Char)
  | [] => some []
  | '\\' :: c :: rest => (c :: ·) <$> decode rest
  | c :: rest => if c = '\\' ∨ c = '\x22' then none else (c :: ·) <$> decode rest

/-- The quoted form of a text. -/
def quote (s : String) : String :=
  String.ofList ('\x22' :: encode s.toList ++ ['\x22'])

end ByteLexer.Text.Quoted
