/-! # Positions, spans and metrics

    A `Position` is a line and a column, both from zero. A `Metrics` says how far
    a character moves it; the one thing that varies is the distance between two
    tab stops. A `Span` is a stretch of text, kept as three positions: where it
    starts, that of its last character, and the one just after it.

    With a tab stop of zero no tab has a width. `Metrics.Measures` says that a
    metrics can measure a text; what `Metrics.next` gives for a tab is then
    meant.
-/

namespace ByteLexer

/-! ## Positions -/

/-- A line and a column, both counted from zero. -/
structure Position where
  line : Nat := 0
  column : Nat := 0
deriving DecidableEq, Repr, Inhabited

/-- How characters are measured: the number of columns between two tab stops. -/
structure Metrics where
  tabStop : Nat := 8
deriving DecidableEq, Repr

/-- A character without width: U+0000 to U+001F and U+007F to U+009F. -/
def isControl (c : Char) : Bool :=
  c.toNat < 0x20 || (0x7f ≤ c.toNat && c.toNat < 0xa0)

namespace Metrics

/-- The position after a character. -/
def next (m : Metrics) (p : Position) (c : Char) : Position :=
  if c = '\n' then ⟨p.line + 1, 0⟩
  else if c = '\t' then ⟨p.line, p.column / m.tabStop * m.tabStop + m.tabStop⟩
  else if isControl c then p
  else ⟨p.line, p.column + 1⟩

/-- A text can be measured unless it holds a tab and tabs have no width. -/
def Measures (m : Metrics) (text : List Char) : Prop :=
  '\t' ∈ text → m.tabStop ≠ 0

instance (m : Metrics) (text : List Char) : Decidable (m.Measures text) :=
  inferInstanceAs (Decidable ('\t' ∈ text → m.tabStop ≠ 0))

end Metrics

/-! ## Spans -/

/-- A stretch of text: its start, the position of its last character, and the position
    after it. -/
structure Span where
  start : Position
  last : Position
  stop : Position
deriving DecidableEq, Repr

namespace Span

/-- The empty span at a position. -/
def emptyAt (p : Position) : Span :=
  ⟨p, p, p⟩

/-- Extends a span by the character that follows it. -/
def push (m : Metrics) (s : Span) (c : Char) : Span :=
  ⟨s.start, s.stop, m.next s.stop c⟩

/-- The span of a text that starts at a position. -/
def ofText (m : Metrics) (p : Position) (text : List Char) : Span :=
  text.foldl (push m) (emptyAt p)

theorem start_foldl_push (m : Metrics) (s : Span) (text : List Char) :
    (text.foldl (push m) s).start = s.start := by
  induction text generalizing s with
  | nil => rfl
  | cons c text ih => exact ih (s.push m c)

theorem stop_foldl_push (m : Metrics) (s : Span) (text : List Char) :
    (text.foldl (push m) s).stop = text.foldl m.next s.stop := by
  induction text generalizing s with
  | nil => rfl
  | cons c text ih => exact ih (s.push m c)

@[simp]
theorem start_ofText (m : Metrics) (p : Position) (text : List Char) :
    (ofText m p text).start = p :=
  start_foldl_push m (emptyAt p) text

/-- A text leads from its start to where its characters lead one after the other. -/
theorem stop_ofText (m : Metrics) (p : Position) (text : List Char) :
    (ofText m p text).stop = text.foldl m.next p :=
  stop_foldl_push m (emptyAt p) text

end Span

/-! ## Bytes as text -/

/-- The characters of some bytes, each byte standing for the character of its value. -/
def latin1 (bytes : List UInt8) : List Char :=
  bytes.map Char.ofUInt8

/-- The span of a whole input. -/
def Metrics.spanOf (m : Metrics) (input : List UInt8) : Span :=
  Span.ofText m {} (latin1 input)

/-- More input leads on from where the first part has led. -/
theorem Metrics.stop_spanOf_append (m : Metrics) (u v : List UInt8) :
    (m.spanOf (u ++ v)).stop = (Span.ofText m (m.spanOf u).stop (latin1 v)).stop := by
  unfold spanOf latin1
  rw [List.map_append, Span.stop_ofText, Span.stop_ofText, Span.stop_ofText, List.foldl_append]

end ByteLexer
