import ByteLexer.Byte.Escape

/-! # Ranges of bytes

    A `ByteRange` is an interval of bytes, both ends included. `ByteRange.runs`
    compresses a list of bytes into ranges: a byte joins the range before it
    exactly when it is that range's last byte plus one, so expanding the ranges
    in order gives the list back.
-/

namespace ByteLexer

/-- The bytes from `first` to `last`, both included. -/
structure ByteRange where
  first : UInt8
  last : UInt8
deriving DecidableEq, Repr

namespace ByteRange

/-! ## Building ranges -/

/-- The range between two bytes, in whatever order they are given. -/
def ofBounds (a b : UInt8) : ByteRange :=
  if a ≤ b then ⟨a, b⟩ else ⟨b, a⟩

/-- The range of one byte. -/
def ofByte (b : UInt8) : ByteRange :=
  ⟨b, b⟩

/-- Puts a byte in front of some ranges, joined to the first one if that
    begins with the next byte. -/
def consRun (b : UInt8) : List ByteRange → List ByteRange
  | [] => [ofByte b]
  | r :: rest =>
    if b.toNat + 1 = r.first.toNat then ⟨b, r.last⟩ :: rest else ofByte b :: r :: rest

/-- The runs of consecutive values of a list of bytes, in the order of the list. -/
def runs (bytes : List UInt8) : List ByteRange :=
  bytes.foldr consRun []

/-! ## Looking at ranges -/

/-- How many bytes a range holds. -/
def size (r : ByteRange) : Nat :=
  r.last.toNat + 1 - r.first.toNat

/-- The bytes of a range, in increasing order. -/
def bytes (r : ByteRange) : List UInt8 :=
  (List.range' r.first.toNat r.size).map UInt8.ofNat

/-- A range as text: one byte, two neighbours side by side, or both ends around a dash. -/
def text (r : ByteRange) : List Char :=
  if r.first = r.last then Byte.escape r.first
  else if r.first.toNat + 1 = r.last.toNat then Byte.escape r.first ++ Byte.escape r.last
  else Byte.escape r.first ++ '-' :: Byte.escape r.last

end ByteRange
end ByteLexer
