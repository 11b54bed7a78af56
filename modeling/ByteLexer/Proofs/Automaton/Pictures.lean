import ByteLexer.Proofs.Automaton.Construction
import ByteLexer.Proofs.Automaton.Dump

/-! # Faithful pictures

    A dump and a drawing go over the same pairs of states and write the same labels for each of
    them. No edge is lost there, and none is made up.

    - **Labels.** What is written about the edges from one state to another.
    - **Rows.** A row lists the states that it leads to. To go over all states gives the same lines,
      as there are no labels for the others.
    - **Texts.** A dump and a drawing as they are written, word for word.
-/

namespace ByteLexer.Automaton

open Std (TransOrd LawfulEqOrd)
open ByteRange

/-! ## Labels -/

/-- A range as text: one byte, two neighbours side by side, or both ends around a dash. -/
def rangeText (range : ByteRange) : String :=
  if range.first = range.last then Byte.spell range.first
  else if range.first.toNat + 1 = range.last.toNat then
    Byte.spell range.first ++ Byte.spell range.last
  else Byte.spell range.first ++ "-" ++ Byte.spell range.last

theorem ofList_text (range : ByteRange) : String.ofList range.text = rangeText range := by
  have hdash : String.ofList ['-'] = "-" := by decide
  unfold ByteRange.text rangeText
  split
  · rfl
  · split
    · exact String.ofList_append
    · rw [← List.singleton_append, String.ofList_append, String.ofList_append, hdash,
        ← String.append_assoc]
      rfl

variable {Q : Type} [Ord Q] [TransOrd Q] {A : Automaton Q} {q r : Q}

/-- The ranges of the bytes on which edges lead from one state to another. -/
def rangesTo (A : Automaton Q) (q r : Q) : List ByteRange :=
  runs (A.bytesTo q r)

/-- These ranges in brackets. -/
def bracketsTo (A : Automaton Q) (q r : Q) : String :=
  "[" ++ String.join ((A.rangesTo q r).map rangeText) ++ "]"

/-- What is written about the edges from one state to another, given the line for a label: one line
    if an edge consumes nothing, and one if there are edges on bytes. -/
def edgeLines (A : Automaton Q) (q r : Q) (line : String → String) : String :=
  (if r ∈ A.targets q Symbol.epsilon then line "ε" else "")
    ++ (if A.rangesTo q r = [] then "" else line (A.bracketsTo q r))

/-- The ranges are those of the edges on bytes.

    - `bytes`: there are ranges if there are such edges.
    - `covered`: a byte is in one of them if there is an edge on it.
    - `apart`: no range has its ends the wrong way round, and there is a gap between any two of
      them, so no byte is in two.
    - `brackets`: in brackets they are not taken for an edge that consumes nothing. -/
structure Pictured (A : Automaton Q) (q r : Q) : Prop where
  bytes : A.rangesTo q r ≠ [] ↔ ∃ b, r ∈ A.targets q (some b)
  covered : ∀ b, (∃ range ∈ A.rangesTo q r, range.first ≤ b ∧ b ≤ range.last) ↔
    r ∈ A.targets q (some b)
  apart : Apart (A.rangesTo q r)
  brackets : A.bracketsTo q r ≠ "ε"

theorem bracketed_bytesTo (A : Automaton Q) (q r : Q) :
    bracketed (A.bytesTo q r) = A.bracketsTo q r := by
  have hjoin : ∀ ranges : List ByteRange,
      String.ofList (ranges.flatMap ByteRange.text) = String.join (ranges.map rangeText) := by
    intro ranges
    induction ranges with
    | nil => rfl
    | cons range ranges ih =>
      rw [List.flatMap_cons, String.ofList_append, ih, ofList_text, List.map_cons, String.join_cons]
  have hopen : String.ofList ['['] = "[" := by decide
  have hclose : String.ofList [']'] = "]" := by decide
  rw [bracketed, bracketsTo, rangesTo, ← hjoin, List.cons_append, ← List.singleton_append,
    String.ofList_append, String.ofList_append, hopen, hclose, String.append_assoc]

/-- There are ranges if there are bytes. -/
theorem rangesTo_eq_nil_iff : A.rangesTo q r = [] ↔ A.bytesTo q r = [] := by
  constructor
  · intro h
    rw [← flatMap_bytes_runs (A.bytesTo q r)]
    exact congrArg (List.flatMap ByteRange.bytes) h
  · intro h
    rw [rangesTo, h]
    rfl

theorem pictured (A : Automaton Q) (q r : Q) : A.Pictured q r := by
  have hmem : ∀ b, b ∈ A.bytesTo q r ↔ r ∈ A.targets q (some b) := fun b => mem_bytes_arrowTo
  constructor
  case bytes =>
    rw [ne_eq, rangesTo_eq_nil_iff]
    simp only [← hmem]
    exact ⟨List.exists_mem_of_ne_nil _, fun h => List.ne_nil_of_mem h.choose_spec⟩
  case covered =>
    intro b
    rw [← hmem, ← flatMap_bytes_runs (A.bytesTo q r), List.mem_flatMap]
    simp only [mem_bytes]
    rfl
  case apart => exact apart_runs (sorted_bytes_arrowTo _ _)
  case brackets =>
    rw [← bracketed_bytesTo]
    exact bracketed_ne_epsilon _

/-! ## Rows -/

/-- The lines for the edges from one state to another, one for each label. -/
def pairLines {γ : Type} (A : Automaton Q) (line : Q → String → Q → γ) (q r : Q) : List γ :=
  (Row.arrowTo (A.row q) r).labels.map fun label => line q label r

/-- There is a line for each label, and no other one. -/
theorem join_pairLines (A : Automaton Q) (line : Q → String → Q → String) (q r : Q) :
    String.join (A.pairLines line q r) = A.edgeLines q r fun label => line q label r := by
  rw [pairLines, edgeLines, Arrow.labels, List.map_append, String.join_append]
  refine congrArg₂ (· ++ ·) ?_ ?_
  · -- the label of the edges that consume nothing
    simp only [epsilon_arrowTo]
    split
    · rw [List.map_singleton, String.join_cons, String.join_nil, String.append_empty]
    · rfl
  · -- the label of the others
    simp only [rangesTo_eq_nil_iff, ← bracketed_bytesTo, List.isEmpty_iff]
    show String.join ((if A.bytesTo q r = [] then [] else _).map _) = _
    split
    · rfl
    · rw [List.map_singleton, String.join_cons, String.join_nil, String.append_empty]
      rfl

variable [LawfulEqOrd Q]

/-- A row lists, in order, the states that there are labels for. -/
theorem WellFormed.rowTargets_eq (hA : A.WellFormed) (q : Q) :
    Row.targets (A.row q) =
      A.states.filter fun r => !(Row.arrowTo (A.row q) r).labels.isEmpty := by
  refine eq_of_ordered Std.ExtTreeSet.ordered_toList (Std.ExtTreeMap.ordered_keys.filter _)
    fun r => ?_
  show r ∈ Row.targets (A.row q) ↔ _
  rw [mem_rowTargets, List.mem_filter, mem_states, Bool.not_eq_true', List.isEmpty_eq_false_iff,
    labels_ne_nil_iff]
  -- the target of an edge is a state
  refine (and_iff_right_of_imp fun h => ?_).symm
  obtain ⟨s, hr⟩ := h
  exact (hA.ends q s r hr).2

/-- A row has lines for the same pairs as the whole list of the states. -/
theorem WellFormed.flatMap_arrows {γ : Type} (hA : A.WellFormed) (line : Q → String → Q → γ)
    (q : Q) : ((Row.arrows (A.row q)).flatMap fun a => a.labels.map fun label =>
      line q label a.target) = A.states.flatMap (A.pairLines line q) := by
  have hwritten : (fun r => !(Row.arrowTo (A.row q) r).labels.isEmpty) =
      (fun lines => !lines.isEmpty) ∘ A.pairLines line q := by
    funext r
    rw [Function.comp_apply, pairLines, List.isEmpty_map]
  calc _ = (Row.targets (A.row q)).flatMap (A.pairLines line q) := by
        rw [Row.arrows, List.flatMap_map]
        rfl
    _ = ((A.states.map (A.pairLines line q)).filter fun lines => !lines.isEmpty).flatten := by
        rw [hA.rowTargets_eq, hwritten, List.filter_map, List.flatMap_def]
    _ = A.states.flatMap (A.pairLines line q) := List.flatten_filter_not_isEmpty

/-! ## Texts -/

open Text.Quoted

/-- A dump, word for word: the initial state, for each state a heading and what is written about
    the edges to each of the states, and the accepting states. -/
def dumpByPairs (name : Q → String) (A : Automaton Q) : String :=
  "initial: " ++ name A.initial ++ "\n"
    ++ String.join (A.states.map fun q => "state: " ++ name q ++ "\n"
      ++ String.join (A.states.map fun r => A.edgeLines q r fun label =>
        "\ton " ++ label ++ " goto " ++ name r ++ "\n"))
    ++ "accepting:\n"
    ++ String.join (A.accepting.toList.map fun q => "\t" ++ name q ++ "\n")

/-- A drawing, word for word: the arrow to the initial state, the accepting states, and what is
    written about the edges from each of the states to each of them. -/
def drawingByPairs (name : Q → String) (A : Automaton Q) : String :=
  "digraph \x7b\n" ++ "\trankdir=LR\n" ++ "\t\x22\x22 [ shape=none ]\n"
    ++ "\t\x22\x22 -> " ++ quoteByReplacing (name A.initial) ++ "\n"
    ++ String.join (A.accepting.toList.map fun q =>
      "\t" ++ quoteByReplacing (name q) ++ " [ shape=doublecircle ]\n")
    ++ String.join (A.states.map fun q => String.join (A.states.map fun r =>
      A.edgeLines q r fun label => "\t" ++ quoteByReplacing (name q) ++ " -> "
        ++ quoteByReplacing (name r) ++ " [ label=" ++ quoteByReplacing label ++ " ]\n"))
    ++ "\x7d\n"

theorem join_flatMap {α : Type} (xs : List α) (f : α → List String) :
    String.join (xs.flatMap f) = String.join (xs.map fun x => String.join (f x)) := by
  induction xs with
  | nil => rfl
  | cons x xs ih => rw [List.flatMap_cons, String.join_append, ih, List.map_cons, String.join_cons]

/-- The lines for the edges from one state, given the text of a line. -/
theorem WellFormed.join_arrows {γ : Type} (hA : A.WellFormed) (line : Q → String → Q → γ)
    (text : γ → String) (q : Q) :
    String.join (((Row.arrows (A.row q)).flatMap fun a => a.labels.map fun label =>
      line q label a.target).map text) =
    String.join (A.states.map fun r => A.edgeLines q r fun label => text (line q label r)) := by
  rw [hA.flatMap_arrows, List.map_flatMap, join_flatMap]
  refine congrArg String.join (List.map_congr_left fun r _ => ?_)
  rw [← join_pairLines A fun q label r => text (line q label r), pairLines, pairLines,
    List.map_map]
  rfl

theorem WellFormed.dump_eq (hA : A.WellFormed) (name : Q → String) :
    A.dump name = A.dumpByPairs name := by
  have hlines : A.dumpLines = .initial A.initial
      :: A.states.flatMap (fun q => .state q :: (Row.arrows (A.row q)).flatMap fun a =>
        a.labels.map fun label => .arrow q label a.target)
      ++ .acceptingHeader :: A.accepting.toList.map .accepting := by
    rw [dumpLines, toList_rows, List.flatMap_map]
  have hstates : String.join ((A.states.flatMap fun q => DumpLine.state q
      :: (Row.arrows (A.row q)).flatMap fun a => a.labels.map fun label =>
        DumpLine.arrow q label a.target).map (DumpLine.text name)) =
      String.join (A.states.map fun q => "state: " ++ name q ++ "\n"
        ++ String.join (A.states.map fun r => A.edgeLines q r fun label =>
          "\ton " ++ label ++ " goto " ++ name r ++ "\n")) := by
    rw [List.map_flatMap, join_flatMap]
    refine congrArg String.join (List.map_congr_left fun q _ => ?_)
    rw [List.map_cons, String.join_cons, hA.join_arrows]
    rfl
  rw [dump, hlines, List.cons_append, List.map_cons, String.join_cons, List.map_append,
    String.join_append, hstates, List.map_cons, String.join_cons, List.map_map]
  unfold dumpByPairs
  simp only [DumpLine.text, String.append_assoc]
  rfl

theorem WellFormed.drawing_eq (hA : A.WellFormed) (name : Q → String) :
    A.drawing name = A.drawingByPairs name := by
  have hlines : A.drawingLines = [.opening, .direction, .entry, .initial A.initial]
      ++ A.accepting.toList.map .accepting
      ++ A.states.flatMap (fun q => (Row.arrows (A.row q)).flatMap fun a =>
        a.labels.map fun label => .arrow q label a.target)
      ++ [.closing] := by
    rw [drawingLines, toList_rows, List.flatMap_map]
  have hstates : String.join ((A.states.flatMap fun q => (Row.arrows (A.row q)).flatMap fun a =>
      a.labels.map fun label => DrawingLine.arrow q label a.target).map (DrawingLine.text name)) =
      String.join (A.states.map fun q => String.join (A.states.map fun r =>
        A.edgeLines q r fun label => "\t" ++ quoteByReplacing (name q) ++ " -> "
          ++ quoteByReplacing (name r) ++ " [ label=" ++ quoteByReplacing label ++ " ]\n")) := by
    rw [List.map_flatMap, join_flatMap]
    refine congrArg String.join (List.map_congr_left fun q _ => ?_)
    rw [hA.join_arrows]
    simp only [DrawingLine.text, quote_eq_replacing]
  have haccepting : String.join ((A.accepting.toList.map DrawingLine.accepting).map
      (DrawingLine.text name)) = String.join (A.accepting.toList.map fun q =>
        "\t" ++ quoteByReplacing (name q) ++ " [ shape=doublecircle ]\n") := by
    rw [List.map_map]
    refine congrArg String.join (List.map_congr_left fun q _ => ?_)
    simp only [Function.comp_apply, DrawingLine.text, quote_eq_replacing]
  rw [drawing, hlines, List.map_append, List.map_append, List.map_append, String.join_append,
    String.join_append, String.join_append, hstates, haccepting]
  unfold drawingByPairs
  simp only [List.map_cons, List.map_nil, String.join_cons, String.join_nil, String.append_empty,
    DrawingLine.text, quote_eq_replacing, String.append_assoc]

/-- Let an automaton be built by any sequence of operations, and let its states have any names. The
    two texts are known word for word. For each of its states, in order, the dump has a heading, and
    under it the lines for the edges to each of the states, in order; the drawing has the same
    lines, with all names and labels in double quotes. All states with edges are among these, and
    both texts list the accepting states. For any two states there is one line that says that an
    edge consumes nothing if there is such an edge, and one line for bytes if there are edges on
    bytes: its ranges hold just these bytes, and none of them twice. What is written for a byte
    tells the byte. To gather the edges of a row by target, one after the other, gives its
    arrows. -/
theorem Construction.build_pictured {L : Labels} (c : Construction L) (name : L → String) :
    let A := c.build
    A.dump name = A.dumpByPairs name ∧
      A.drawing name = A.drawingByPairs name ∧
      (∀ q r, A.Pictured q r) ∧
      (∀ b, Byte.unescape (Byte.spell b).toList = some [b]) ∧
      (∀ q, (Row.gathered (A.row q)).toList = (Row.arrows (A.row q)).map fun a => (a.target, a)) ∧
      (∀ q s r, r ∈ A.targets q s → q ∈ A.states ∧ r ∈ A.states) ∧
      A.states.Nodup ∧ (∀ q, q ∈ A.states ↔ q ∈ A) ∧
      A.accepting.toList.Nodup ∧ ∀ q, q ∈ A.accepting.toList ↔ q ∈ A.accepting := by
  intro A
  have hA : A.WellFormed := c.wellFormed_build
  refine ⟨hA.dump_eq name, hA.drawing_eq name, A.pictured, fun b => ?_,
    fun q => Row.toList_gathered _, fun q s r hr => ?_, Std.ExtTreeMap.nodup_keys,
    fun q => mem_states, OrdSet.nodup_toList _, fun q => Std.ExtTreeSet.mem_toList⟩
  · have hread := Byte.unescape_flatMap_escape [b]
    rw [List.flatMap_singleton] at hread
    rw [Byte.spell, String.toList_ofList]
    exact hread
  · rw [mem_states, mem_states]
    exact hA.ends q s r hr

/-- Between two states with double quotes in their names there are an edge without a byte, edges on
    neighbouring bytes and one on a byte that is spelled with a backslash. There are edges on more
    than two bytes in a row as well. -/
theorem Construction.build_pictured_pair :
    let edges : List (Edge Nat) := [⟨0, some 98, 1⟩, ⟨0, Symbol.epsilon, 1⟩, ⟨0, some 92, 1⟩,
      ⟨0, some 97, 1⟩, ⟨1, some 50, 0⟩, ⟨1, some 48, 0⟩, ⟨1, some 49, 0⟩]
    let c : Construction ⟨Nat⟩ := .addAccepting (edges.foldl .addEdge (.ofInitial 0)) 1
    let name : Nat → String := fun q => "\x22" ++ toString q
    1 ∈ c.build.targets 0 (some 98) ∧ 1 ∈ c.build.states ∧
      c.build.dump name = String.join [
        "initial: \x220\n",
        "state: \x220\n",
        "\ton ε goto \x221\n",
        "\ton [\\\\ab] goto \x221\n",
        "state: \x221\n",
        "\ton [0-2] goto \x220\n",
        "accepting:\n",
        "\t\x221\n"] ∧
      c.build.drawing name = String.join [
        "digraph \x7b\n",
        "\trankdir=LR\n",
        "\t\x22\x22 [ shape=none ]\n",
        "\t\x22\x22 -> \x22\\\x220\x22\n",
        "\t\x22\\\x221\x22 [ shape=doublecircle ]\n",
        "\t\x22\\\x220\x22 -> \x22\\\x221\x22 [ label=\x22ε\x22 ]\n",
        "\t\x22\\\x220\x22 -> \x22\\\x221\x22 [ label=\x22[\\\\\\\\ab]\x22 ]\n",
        "\t\x22\\\x221\x22 -> \x22\\\x220\x22 [ label=\x22[0-2]\x22 ]\n",
        "\x7d\n"] := by
  intro edges c name
  obtain ⟨hdump, hdrawing, _, _, _, hends, _⟩ := build_pictured c name
  have hedge : 1 ∈ c.build.targets 0 (some 98) := by decide
  refine ⟨hedge, (hends 0 _ 1 hedge).2, ?_, ?_⟩
  · rw [hdump]
    decide
  · rw [hdrawing]
    decide +kernel

end ByteLexer.Automaton
