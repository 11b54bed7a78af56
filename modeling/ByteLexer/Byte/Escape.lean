/-! # Printable bytes

    Every byte has a printable spelling in ASCII graphic characters:
    - a graphic character other than the backslash stands for itself,
    - the backslash, carriage return, line feed, space and tab are a backslash
      and one more character,
    - every other byte is `\x` and two lower-case hexadecimal digits.

    Spellings are written one after the other without a separator; `unescape`
    reads such a text back.
-/

namespace ByteLexer.Byte

/-! ## Hexadecimal digits -/

/-- The lower-case hexadecimal digit of a number below 16. -/
def hexDigit (n : Nat) : Char :=
  Char.ofNat (if n < 10 then 0x30 + n else 0x57 + n)

/-- The value of a lower-case hexadecimal digit. -/
def hexValue? (c : Char) : Option Nat :=
  if 0x30 ≤ c.toNat ∧ c.toNat ≤ 0x39 then some (c.toNat - 0x30)
  else if 0x61 ≤ c.toNat ∧ c.toNat ≤ 0x66 then some (c.toNat - 0x57)
  else none

/-! ## Spelling a byte -/

/-- The visible ASCII characters, from `!` to `~`. -/
def isGraphic (c : Char) : Bool :=
  0x21 ≤ c.toNat && c.toNat ≤ 0x7e

/-- The spelling of one byte. -/
def escape (b : UInt8) : List Char :=
  if b = 0x5c then ['\\', '\\']
  else if b = 0x0d then ['\\', 'r']
  else if b = 0x0a then ['\\', 'n']
  else if b = 0x20 then ['\\', 's']
  else if b = 0x09 then ['\\', 't']
  else if isGraphic (Char.ofUInt8 b) then [Char.ofUInt8 b]
  else ['\\', 'x', hexDigit (b.toNat / 16), hexDigit (b.toNat % 16)]

/-- The spelling of one byte, as text. -/
def spell (b : UInt8) : String :=
  String.ofList (escape b)

/-- The spellings of some bytes, one after the other. -/
def spellAll (bytes : List UInt8) : String :=
  String.ofList (bytes.flatMap escape)

/-! ## Reading spellings back -/

/-- The bytes that a text spells, if it is a sequence of spellings. -/
def unescape : List Char → Option (List UInt8)
  | [] => some []
  | '\\' :: '\\' :: rest => (0x5c :: ·) <$> unescape rest
  | '\\' :: 'r' :: rest => (0x0d :: ·) <$> unescape rest
  | '\\' :: 'n' :: rest => (0x0a :: ·) <$> unescape rest
  | '\\' :: 's' :: rest => (0x20 :: ·) <$> unescape rest
  | '\\' :: 't' :: rest => (0x09 :: ·) <$> unescape rest
  | '\\' :: 'x' :: high :: low :: rest => do
    let h ← hexValue? high
    let l ← hexValue? low
    (UInt8.ofNat (16 * h + l) :: ·) <$> unescape rest
  | c :: rest =>
    if isGraphic c ∧ c ≠ '\\' then (UInt8.ofNat c.toNat :: ·) <$> unescape rest else none

end ByteLexer.Byte
