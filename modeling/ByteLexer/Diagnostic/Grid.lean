import ByteLexer.Diagnostic.Colour

/-! # Grids

    A source excerpt is drawn on a grid of cells that grows as it is drawn on. When
    rows are added below, the margin and the vertical bars of the last row go on
    into them.

    A grid is printed row by row, with a change of colour only where a cell needs
    one; empty cells go with any colour.
-/

namespace ByteLexer

/-- One cell of a grid: what is drawn there. -/
inductive Cell where
  | empty
  | text (c : Char)
  | margin (c : Char)
  | label (c : Char) (ink : Ink)
  | marker (c : Char) (ink : Ink)
  | underline (c : Char) (ink : Ink)
  | horizontal (ink : Ink)
  | vertical (ink : Ink)
  | bar (ink : Ink)
  | barStart (ink : Ink)
deriving DecidableEq, Repr

namespace Cell

/-- The character of a cell. -/
def char : Cell → Char
  | .empty => ' '
  | .text c | .margin c | .label c _ | .marker c _ | .underline c _ => c
  | .horizontal _ => '_'
  | .vertical _ | .bar _ => '|'
  | .barStart _ => '/'

/-- The colour of a cell that is not empty; source text has none. -/
def ink? : Cell → Option Ink
  | .empty | .text _ => none
  | .margin _ => some .blue
  | .label _ ink | .marker _ ink | .underline _ ink | .horizontal ink | .vertical ink
  | .bar ink | .barStart ink => some ink

/-- Whether a cell is part of a horizontal line. -/
def isHorizontal : Cell → Bool
  | .horizontal _ => true
  | _ => false

/-- What goes on below a cell of the last row, given the cells to its left and right. A bar
    ends where a line leaves it to the right, unless that line comes from the left; it
    begins left of where a line begins. -/
def below (left cell right : Cell) : Cell :=
  match cell, right with
  | .bar ink, .horizontal _ => if left.isHorizontal then .bar ink else .empty
  | .bar ink, _ | .barStart ink, _ | .empty, .horizontal ink => .bar ink
  | .margin c, _ => if c = '|' then .margin c else .empty
  | _, _ => .empty

end Cell

/-- A grid of cells; what lies outside is empty. -/
structure Grid where
  width : Nat
  height : Nat
  rows : Array (Array Cell)

namespace Grid

/-- The grid without cells. -/
def empty : Grid :=
  ⟨0, 0, #[]⟩

/-- The grid of one empty cell. -/
def single : Grid :=
  ⟨1, 1, #[#[.empty]]⟩

/-- The cell in a column of a row. -/
def get (g : Grid) (x y : Nat) : Cell :=
  (g.rows.getD y #[]).getD x .empty

/-- The row that a grid grows below its last one. -/
def nextRow (g : Grid) (width : Nat) : Array Cell :=
  let last := g.rows.getD (g.height - 1) #[]
  Array.ofFn (n := width) fun x =>
    if x < g.width then
      let left := if x.val = 0 then .empty else last.getD (x - 1) .empty
      Cell.below left (last.getD x .empty) (last.getD (x + 1) .empty)
    else .empty

/-- Grows a grid to at least some width and height, in one step. -/
def grow (g : Grid) (width height : Nat) : Grid :=
  if width ≤ g.width ∧ height ≤ g.height then g
  else
    let width := max g.width width
    let padded := g.rows.map fun row => row ++ Array.replicate (width - row.size) .empty
    let added := Array.replicate (height - g.height) (g.nextRow width)
    ⟨width, max g.height height, padded ++ added⟩

/-- Draws a cell. -/
def set (g : Grid) (x y : Nat) (cell : Cell) : Grid :=
  let g := g.grow (x + 1) (y + 1)
  { g with rows := g.rows.modify y fun row => row.setIfInBounds x cell }

/-- Draws cells one after the other. -/
def setAll (g : Grid) (cells : List (Nat × Nat × Cell)) : Grid :=
  cells.foldl (fun g (x, y, cell) => g.set x y cell) g

/-- Whether all cells of a rectangle are empty. -/
def isFree (g : Grid) (x y width height : Nat) : Bool :=
  (List.range' y height).all fun j => (List.range' x width).all fun i => g.get i j == .empty

/-- Whether another grid can be put at a place so that there are empty cells around it. -/
def hasRoom (g : Grid) (x y : Nat) (other : Grid) : Bool :=
  let dx := if x > 0 then 1 else 0
  let dy := if y > 1 then 1 else 0
  g.isFree (x - dx) (y - dy) (other.width + dx + 1) (other.height + dy + 1)

/-- Puts another grid at a place. -/
def paste (g : Grid) (x y : Nat) (other : Grid) : Grid :=
  (g.grow (x + other.width) (y + other.height)).setAll
    ((List.range other.height).flatMap fun j =>
      (List.range other.width).map fun i => (x + i, y + j, other.get i j))

/-- Prints a cell after some text, given the colour that is switched on. -/
def printCell (printed : String × Option Ink) (cell : Cell) : String × Option Ink :=
  let (out, ink) := printed
  if cell = .empty ∨ cell.ink? = ink then (out.push cell.char, ink)
  else ((out ++ Ink.switch cell.ink?).push cell.char, cell.ink?)

/-- Prints a row. -/
def printRow (printed : String × Option Ink) (row : Array Cell) : String × Option Ink :=
  let (out, ink) := row.foldl printCell printed
  (out.push '\n', ink)

/-- The text of a grid, with its changes of colour. -/
def text (g : Grid) : String :=
  (g.rows.foldl printRow ("", none)).1 ++ Ink.switch none

end Grid
end ByteLexer
