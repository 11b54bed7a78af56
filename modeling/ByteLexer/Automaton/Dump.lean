import ByteLexer.Automaton.Basic
import ByteLexer.Byte.Range
import ByteLexer.Text.Quoted

/-! # Automata as text

    Two texts show an automaton. Both group the edges between two states into at most
    two arrows, one for the edges that consume nothing and one for all the bytes,
    written as ranges.

    - **Dump.** Initial state, the states with their arrows, accepting states.
    - **Drawing.** A description of the graph in the language of Graphviz.

    Each text is a list of lines first; a line knows which states it is about.
-/

namespace ByteLexer.Automaton

open Std (TransOrd LawfulEqOrd)

variable {Q : Type} [Ord Q] [TransOrd Q]

/-! ## Arrows -/

/-- All edges from a state to one target, by what they consume. -/
structure Arrow (Q : Type) where
  target : Q
  epsilon : Bool
  bytes : List UInt8

/-- The targets of a row, each once, in order. -/
def Row.targets (row : Row Q) : List Q :=
  (OrdSet.ofMembers (row.toList.flatMap fun (_, ts) => ts.toList)).toList

/-- The symbols on which a row leads to a target, in order. -/
def Row.symbolsTo (row : Row Q) (r : Q) : List Symbol :=
  (row.toList.filter fun (_, ts) => ts.contains r).map Prod.fst

/-- The arrow of a row to a target. -/
def Row.arrowTo (row : Row Q) (r : Q) : Arrow Q :=
  let symbols := Row.symbolsTo row r
  ⟨r, symbols.contains Symbol.epsilon, symbols.filterMap id⟩

/-- The arrows of a row, by target. -/
def Row.arrows (row : Row Q) : List (Arrow Q) :=
  (Row.targets row).map (Row.arrowTo row)

/-- The labels of an arrow: one if it consumes nothing, and one for its bytes. -/
def Arrow.labels (a : Arrow Q) : List String :=
  (if a.epsilon then ["ε"] else [])
    ++ (if a.bytes.isEmpty then []
      else [String.ofList ('[' :: (ByteRange.runs a.bytes).flatMap ByteRange.text ++ [']'])])

/-! ## Dump -/

/-- A line of a dump. -/
inductive DumpLine (Q : Type) where
  | initial (q : Q)
  | state (q : Q)
  | arrow (source : Q) (label : String) (target : Q)
  | acceptingHeader
  | accepting (q : Q)

/-- The text of a line, given the text of a state. -/
def DumpLine.text (name : Q → String) : DumpLine Q → String
  | .initial q => "initial: " ++ name q ++ "\n"
  | .state q => "state: " ++ name q ++ "\n"
  | .arrow _ label target => "\ton " ++ label ++ " goto " ++ name target ++ "\n"
  | .acceptingHeader => "accepting:\n"
  | .accepting q => "\t" ++ name q ++ "\n"

/-- The lines of the dump of an automaton. -/
def dumpLines (A : Automaton Q) : List (DumpLine Q) :=
  .initial A.initial
    :: A.rows.toList.flatMap (fun (q, row) => .state q
      :: (Row.arrows row).flatMap fun a => a.labels.map fun label => .arrow q label a.target)
    ++ .acceptingHeader :: A.accepting.toList.map .accepting

/-- The dump of an automaton. -/
def dump (name : Q → String) (A : Automaton Q) : String :=
  String.join (A.dumpLines.map (DumpLine.text name))

/-! ## Drawing -/

/-- A line of a drawing. -/
inductive DrawingLine (Q : Type) where
  | opening
  | direction
  | entry
  | initial (q : Q)
  | accepting (q : Q)
  | arrow (source : Q) (label : String) (target : Q)
  | closing

/-- The text of a line, given the text of a state. -/
def DrawingLine.text (name : Q → String) : DrawingLine Q → String
  | .opening => "digraph \x7b\n"
  | .direction => "\trankdir=LR\n"
  | .entry => "\t\x22\x22 [ shape=none ]\n"
  | .initial q => "\t\x22\x22 -> " ++ Text.Quoted.quote (name q) ++ "\n"
  | .accepting q => "\t" ++ Text.Quoted.quote (name q) ++ " [ shape=doublecircle ]\n"
  | .arrow source label target => "\t" ++ Text.Quoted.quote (name source) ++ " -> "
      ++ Text.Quoted.quote (name target) ++ " [ label=" ++ Text.Quoted.quote label ++ " ]\n"
  | .closing => "\x7d\n"

/-- The lines of the drawing of an automaton. The anonymous node points at the initial state. -/
def drawingLines (A : Automaton Q) : List (DrawingLine Q) :=
  [.opening, .direction, .entry, .initial A.initial]
    ++ A.accepting.toList.map .accepting
    ++ A.rows.toList.flatMap (fun (q, row) => (Row.arrows row).flatMap fun a =>
      a.labels.map fun label => .arrow q label a.target)
    ++ [.closing]

/-- The drawing of an automaton. -/
def drawing (name : Q → String) (A : Automaton Q) : String :=
  String.join (A.drawingLines.map (DrawingLine.text name))

end ByteLexer.Automaton
