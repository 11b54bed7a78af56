import ByteLexer.Diagnostic.Grid
import ByteLexer.Text.Position

/-! # Source excerpts

    An excerpt shows the lines of a source around a highlighted span, with their
    numbers, a mark under the span and a label beside the mark. A span within a
    line is underlined; one that goes over several lines gets a bar at the left of
    them, from a line under its first character to a line under its last one.

    - **Lines shown.** The first and last line of the span, and two around each.
      Where lines are left out, dots stand in the margin.
    - **Sections.** Each stretch of text is drawn on a grid of its own, one per
      line; the excerpt is their texts one after the other. A first grid stays
      empty.
-/

namespace ByteLexer

/-! ## Highlights -/

/-- The look of a highlight. -/
inductive Style where
  | error
  | warning
  | note
  | help
deriving DecidableEq, Repr

namespace Style

/-- The colour of a highlight. -/
def ink : Style → Ink
  | .error => .red
  | .warning => .yellow
  | .note => .blue
  | .help => .green

/-- The character of which a mark is made. -/
def mark : Style → Char
  | .error | .warning => '^'
  | .note | .help => '-'

end Style

/-- A span to be shown, with a label or not. -/
structure Highlight where
  span : Span
  label : Option String
  style : Style
deriving DecidableEq, Repr

namespace Highlight

/-- Whether the span goes over several lines. -/
def isMultiline (h : Highlight) : Bool :=
  h.span.last.line > h.span.start.line

/-- The width of the margin: line numbers up to two lines after the span, a blank, a bar and
    a blank. -/
def marginWidth (h : Highlight) : Nat :=
  (toString (h.span.last.line + 3)).length + 3

/-- The columns between the margin and the text that are left for the bar. -/
def nesting (h : Highlight) : Nat :=
  if h.isMultiline then 2 else 0

/-- The column in which source text begins. -/
def textColumn (h : Highlight) : Nat :=
  h.marginWidth + h.nesting

/-- Whether a line is shown. -/
def shows (h : Highlight) (line : Nat) : Bool :=
  let near (l : Nat) := l ≤ line + 2 && line ≤ l + 2
  near h.span.start.line || near h.span.last.line

/-! ## Margin -/

/-- Writes the number of a line into the margin. -/
def drawNumber (h : Highlight) (line : Nat) (g : Grid) : Grid :=
  let digits := (toString (line + 1)).toList.reverse
  (g.set (h.marginWidth - 2) 0 (.margin '|')).setAll
    (digits.zipIdx.map fun (c, i) => (h.marginWidth - 4 - i, 0, .margin c))

/-- Writes dots into the margin, where lines are left out. -/
def drawDots (h : Highlight) (g : Grid) : Grid :=
  (g.set (h.marginWidth - 2) 0 (.margin '|')).setAll
    ((List.range (h.marginWidth - 3)).map fun x => (x, 0, .margin '.'))

/-! ## Marks -/

/-- Draws a mark in the row under the text, unless something else is there. -/
def drawMarker (h : Highlight) (x : Nat) (g : Grid) : Grid :=
  let cell := g.get x 1
  if cell = .empty ∨ cell.isHorizontal then g.set x 1 (.marker h.style.mark h.style.ink) else g

/-- Underlines the columns from one to another. -/
def drawUnderline (h : Highlight) (first last : Nat) (g : Grid) : Grid :=
  (List.range' first (last + 1 - first)).foldl (fun g x =>
    if x = first ∨ x = last then h.drawMarker x g
    else g.set x 1 (.underline h.style.mark h.style.ink)) (g.grow (last + 1) 2)

/-- Draws a line from the bar at the left to a mark, under the text. -/
def drawCorner (h : Highlight) (first last : Nat) (g : Grid) : Grid :=
  (List.range' first (last + 1 - first)).foldl (fun g x =>
    if x = last then h.drawMarker x g
    else match g.get x 1 with
      | .bar _ => g
      | _ => g.set x 1 (.horizontal h.style.ink)) (g.grow (last + 1) 2)

/-- Draws the bar of a span of several lines from one row to another. -/
def drawBar (h : Highlight) (first last : Nat) (g : Grid) : Grid :=
  g.setAll ((List.range' first (last + 1 - first)).map fun y =>
    (h.marginWidth, y, .bar h.style.ink))

/-! ## Labels -/

/-- The label on a grid of its own. -/
def labelGrid (h : Highlight) (m : Metrics) (label : String) : Grid :=
  (label.toList.foldl (fun (g, p) c =>
    let g := if c = '\n' ∨ c = '\t' then g
      else Grid.set g p.column p.line (.label c h.style.ink)
    (g, m.next p c)) (Grid.empty, ({} : Position))).1

/-- Puts a label beside the mark, or if there is no room below it, tied to it by a line. -/
def drawLabel (h : Highlight) (m : Metrics) (label : String) (g : Grid) : Grid :=
  let content := h.labelGrid m label
  let x := h.textColumn + h.span.last.column
  if g.hasRoom (x + 2) 1 content then g.paste (x + 2) 1 content
  else
    let y := ((List.range' 3 (g.height + 1)).find? fun y => g.hasRoom x y content).getD 3
    (g.paste x y content).setAll
      ((List.range' 2 (y - 2)).map fun v => (x, v, .vertical h.style.ink))

/-! ## Lines -/

/-- Whether a span of several lines begins at or before the first character of a line that
    is not blank; then its bar begins beside that line. -/
def startsLine (h : Highlight) (firstVisible : Option Nat) : Bool :=
  firstVisible.any (h.span.start.column ≤ ·)

/-- Draws what belongs under a line of text: the mark or the line to it, the bar, and the
    label. -/
def drawLine (h : Highlight) (m : Metrics) (line : Nat) (firstVisible : Option Nat) (g : Grid) :
    Grid :=
  let start := h.span.start
  let last := h.span.last
  let shortcut := start.line == line && last.line != line && h.startsLine firstVisible
  -- the mark, or the line that ties the bar to it
  let marked :=
    if start.line = line then
      if last.line = line then
        h.drawUnderline (h.textColumn + start.column) (h.textColumn + last.column) g
      else if shortcut then g.set h.marginWidth 0 (.barStart h.style.ink)
      else h.drawCorner (h.marginWidth + 1) (h.textColumn + start.column) g
    else if last.line = line then
      h.drawCorner (h.marginWidth + 1) (h.textColumn + last.column) g
    else g
  -- the bar beside the lines after the first one
  let barred :=
    if shortcut || (start.line < line && line ≤ last.line) then
      h.drawBar (if shortcut then 1 else 0)
        (if last.line = line then 1 else marked.height - 1) marked
    else marked
  match h.label with
  | some label => if last.line = line then h.drawLabel m label barred else barred
  | none => barred

end Highlight

/-! ## Excerpts -/

/-- White space among the characters up to U+00FF. -/
def isBlank (c : Char) : Bool :=
  let n := c.toNat
  (0x09 ≤ n && n ≤ 0x0d) || n == 0x20 || n == 0x85 || n == 0xa0

namespace Excerpt

/-- An excerpt while it is drawn: the grids that are finished, the one that is drawn on if
    the line is shown, the position, and the column of the first visible character of the
    line. -/
structure Canvas where
  finished : List Grid
  current : Option Grid
  position : Position
  firstVisible : Option Nat

variable (m : Metrics) (h : Highlight)

/-- Finishes the grid of the current line. -/
def finishLine (x : Canvas) : List Grid :=
  match x.current with
  | none => x.finished
  | some g =>
    x.finished ++ [h.drawLine m x.position.line x.firstVisible (h.drawNumber x.position.line g)]

/-- Goes on to the next line. -/
def newLine (x : Canvas) : Canvas :=
  let line := x.position.line
  let finished := finishLine m h x
  let position : Position := ⟨line + 1, 0⟩
  if h.shows (line + 1) then
    let gap := if x.current.isSome then []
      else [h.drawLine m line none (h.drawDots .single)]
    ⟨finished ++ gap, some .single, position, none⟩
  else ⟨finished, none, position, none⟩

/-- Draws a character of the source. -/
def draw (x : Canvas) (c : Char) : Canvas :=
  if c = '\n' then newLine m h x
  else
    let position := m.next x.position c
    if c = '\t' then { x with position }
    else match x.current with
      | none => { x with position }
      | some g =>
        let visible := !isBlank c && !isControl c
        { x with
          current := some (g.set (h.textColumn + x.position.column) 0 (.text c))
          position
          firstVisible := x.firstVisible.or (if visible then some x.position.column else none) }

/-- The grids of an excerpt. -/
def grids (source : List Char) : List Grid :=
  let start : Canvas := ⟨[.single], if h.shows 0 then some .single else none, {}, none⟩
  finishLine m h (source.foldl (draw m h) start)

/-- Whether all that has to be measured for an excerpt can be: the source, and the label if
    its line is reached. -/
def Measurable (source : List Char) (h : Option Highlight) : Prop :=
  m.Measures source ∧ ∀ x ∈ h, ∀ label ∈ x.label,
    x.span.last.line ≤ source.count '\n' → m.Measures label.toList

instance (source : List Char) (h : Option Highlight) : Decidable (Measurable m source h) :=
  inferInstanceAs (Decidable (_ ∧ _))

/-- The text of an excerpt. -/
def text (source : List Char) : Option Highlight → String
  | none => Grid.single.text
  | some h => String.join ((grids m h source).map Grid.text)

end Excerpt
end ByteLexer
