/-! # Decoding UTF-8

    Bytes are read as UTF-8. What is not well formed is replaced: each maximal
    initial part of a well-formed sequence that is not continued as it should be,
    and each byte that can begin no sequence, becomes one U+FFFD.

    The decoder goes from byte to byte. Between two bytes it remembers the
    sequence it is in the middle of, if any: the bits read so far and the
    intervals in which the bytes to come must lie.
-/

namespace ByteLexer.Byte.Utf8

/-- The character that stands for what cannot be decoded. -/
def replacement : Char := Char.ofNat 0xfffd

/-- A sequence that is being read: the bits so far, the interval in which the
    next byte must lie, and how many bytes follow that one. -/
structure Pending where
  bits : Nat
  least : UInt8
  greatest : UInt8
  more : Nat
deriving DecidableEq, Repr

/-- The sequence that a byte begins, if it begins one of several bytes. The
    intervals leave out overlong forms, surrogates and what is above U+10FFFF. -/
def Pending.ofLead? (b : UInt8) : Option Pending :=
  if 0xc2 ≤ b ∧ b ≤ 0xdf then some ⟨b.toNat - 0xc0, 0x80, 0xbf, 0⟩
  else if b = 0xe0 then some ⟨0, 0xa0, 0xbf, 1⟩
  else if b = 0xed then some ⟨0xd, 0x80, 0x9f, 1⟩
  else if 0xe1 ≤ b ∧ b ≤ 0xef then some ⟨b.toNat - 0xe0, 0x80, 0xbf, 1⟩
  else if b = 0xf0 then some ⟨0, 0x90, 0xbf, 2⟩
  else if 0xf1 ≤ b ∧ b ≤ 0xf3 then some ⟨b.toNat - 0xf0, 0x80, 0xbf, 2⟩
  else if b = 0xf4 then some ⟨4, 0x80, 0x8f, 2⟩
  else none

/-- Reads a byte outside any sequence. -/
def begin (b : UInt8) : List Char × Option Pending :=
  if b < 0x80 then ([Char.ofUInt8 b], none)
  else match Pending.ofLead? b with
    | some p => ([], some p)
    | none => ([replacement], none)

/-- Reads a byte: the characters that are settled by it and the sequence it leaves open. -/
def feed (pending : Option Pending) (b : UInt8) : List Char × Option Pending :=
  match pending with
  | none => begin b
  | some p =>
    if p.least ≤ b ∧ b ≤ p.greatest then
      let bits := 64 * p.bits + (b.toNat - 0x80)
      match p.more with
      | 0 => ([Char.ofNat bits], none)
      | more + 1 => ([], some ⟨bits, 0x80, 0xbf, more⟩)
    else
      let (chars, next) := begin b
      (replacement :: chars, next)

/-- The characters of some bytes, read from the middle of a sequence. -/
def decodeFrom (pending : Option Pending) : List UInt8 → List Char
  | [] => if pending.isSome then [replacement] else []
  | b :: rest =>
    let (chars, next) := feed pending b
    chars ++ decodeFrom next rest

/-- The text of some bytes. -/
def decode (bytes : List UInt8) : String :=
  String.ofList (decodeFrom none bytes)

end ByteLexer.Byte.Utf8
