import ByteLexer.Automaton.Dump
import ByteLexer.Proofs.Automaton.Diagram
import ByteLexer.Proofs.Text.Quoted

/-! # Arrows and lines

    The rows of an automaton are kept by symbol, and its texts show them by target. Nothing is lost
    when they are grouped in the other way.

    - **Arrows.** What the arrow from one state to another stands for.
    - **Gathering.** The arrows of a row are found by going once through its edges.
    - **Lines of a drawing.** Which states they name, and that the names can be read back.
-/

namespace ByteLexer.Automaton

open Std (TransOrd LawfulEqOrd)

variable {Q : Type} [Ord Q] [TransOrd Q] {A : Automaton Q} {q r : Q} {s : Symbol} {b : UInt8}

/-! ## Arrows -/

theorem mem_targets_iff_row : r ∈ A.targets q s ↔ ∃ ts, (A.row q)[s]? = some ts ∧ r ∈ ts := by
  rw [targets, targets?]
  rcases (A.row q)[s]? with _ | ts
  · simp
  · simp

/-- The symbols on which a row leads to a state. -/
theorem Row.mem_symbolsTo {row : Row Q} :
    s ∈ Row.symbolsTo row r ↔ ∃ ts, row[s]? = some ts ∧ r ∈ ts := by
  rw [Row.symbolsTo, List.mem_map]
  constructor
  · intro h
    obtain ⟨entry, hentry, rfl⟩ := h
    obtain ⟨hrow, hr⟩ := List.mem_filter.mp hentry
    exact ⟨entry.2, Std.ExtTreeMap.mem_toList_iff_getElem?_eq_some.mp hrow,
      Std.ExtTreeSet.contains_iff_mem.mp hr⟩
  · intro h
    obtain ⟨ts, hrow, hr⟩ := h
    refine ⟨(s, ts), List.mem_filter.mpr ⟨?_, Std.ExtTreeSet.contains_iff_mem.mpr hr⟩, rfl⟩
    exact Std.ExtTreeMap.mem_toList_iff_getElem?_eq_some.mpr hrow

theorem mem_symbolsTo : s ∈ Row.symbolsTo (A.row q) r ↔ r ∈ A.targets q s := by
  rw [Row.mem_symbolsTo, mem_targets_iff_row]

theorem sorted_symbolsTo (row : Row Q) (r : Q) :
    (Row.symbolsTo row r).Pairwise fun s t => compare s t = .lt := by
  rw [Row.symbolsTo, List.pairwise_map]
  exact Std.ExtTreeMap.ordered_keys_toList.filter _

/-- An arrow says whether there is an edge that consumes nothing. -/
theorem epsilon_arrowTo :
    (Row.arrowTo (A.row q) r).epsilon = true ↔ r ∈ A.targets q Symbol.epsilon := by
  rw [← mem_symbolsTo]
  exact List.contains_iff_mem

/-- It lists the bytes of the others. -/
theorem mem_bytes_arrowTo : b ∈ (Row.arrowTo (A.row q) r).bytes ↔ r ∈ A.targets q (some b) := by
  rw [← mem_symbolsTo]
  show b ∈ (Row.symbolsTo (A.row q) r).filterMap id ↔ _
  rw [List.mem_filterMap]
  simp only [id_eq, exists_eq_right]

/-- The bytes are in order, and none is listed twice. -/
theorem sorted_bytes_arrowTo (row : Row Q) (r : Q) :
    (Row.arrowTo row r).bytes.Pairwise (· < ·) := by
  show ((Row.symbolsTo row r).filterMap id).Pairwise (· < ·)
  rw [List.pairwise_filterMap]
  refine (sorted_symbolsTo row r).imp fun {s t} hlt b hb c hc => ?_
  obtain rfl : s = some b := hb
  obtain rfl : t = some c := hc
  exact Std.compare_eq_lt.mp hlt

variable [LawfulEqOrd Q]

/-- The states that a row leads to. -/
theorem Row.mem_targets {row : Row Q} : r ∈ Row.targets row ↔ ∃ s, s ∈ Row.symbolsTo row r := by
  rw [Row.targets, Std.ExtTreeSet.mem_toList, OrdSet.mem_ofMembers, List.mem_flatMap]
  simp only [Row.mem_symbolsTo]
  constructor
  · intro h
    obtain ⟨entry, hentry, hr⟩ := h
    exact ⟨entry.1, entry.2, Std.ExtTreeMap.mem_toList_iff_getElem?_eq_some.mp hentry,
      Std.ExtTreeSet.mem_toList.mp hr⟩
  · intro h
    obtain ⟨s, ts, hrow, hr⟩ := h
    exact ⟨(s, ts), Std.ExtTreeMap.mem_toList_iff_getElem?_eq_some.mpr hrow,
      Std.ExtTreeSet.mem_toList.mpr hr⟩

theorem mem_rowTargets : r ∈ Row.targets (A.row q) ↔ ∃ s, r ∈ A.targets q s := by
  simp only [Row.mem_targets, mem_symbolsTo]

/-- There is an arrow to each of them. -/
theorem mem_arrows {a : Arrow Q} :
    a ∈ Row.arrows (A.row q) ↔ ∃ r, (∃ s, r ∈ A.targets q s) ∧ Row.arrowTo (A.row q) r = a := by
  rw [Row.arrows, List.mem_map]
  simp only [mem_rowTargets]

/-- The rows of the known states. -/
theorem toList_rows (A : Automaton Q) : A.rows.toList = A.states.map fun q => (q, A.row q) := by
  refine OrdMap.toList_eq_map_keys fun q hq => ?_
  obtain ⟨ts, hrow⟩ := OrdMap.mem_iff_exists.mp hq
  rw [row, hrow]
  rfl

/-! ## Gathering -/

/-- An arrow with one more edge. -/
def Arrow.add {Q : Type} (a : Arrow Q) : Symbol → Arrow Q
  | none => { a with epsilon := true }
  | some b => { a with bytes := a.bytes ++ [b] }

/-- Adds an edge to the arrow to its target, which may be new. -/
def Row.gather (s : Symbol) (m : OrdMap Q (Arrow Q)) (r : Q) : OrdMap Q (Arrow Q) :=
  m.alter r fun a => some ((a.getD ⟨r, false, []⟩).add s)

/-- The arrows of a row by target, going once through its edges, symbol by symbol. -/
def Row.gathered (row : Row Q) : OrdMap Q (Arrow Q) :=
  row.toList.foldl (fun m entry => entry.2.toList.foldl (Row.gather entry.1) m) ∅

/-- The arrow to a state that stands for some symbols. -/
def Arrow.ofSymbols {Q : Type} (r : Q) (symbols : List Symbol) : Arrow Q :=
  ⟨r, symbols.contains Symbol.epsilon, symbols.filterMap id⟩

theorem Arrow.add_ofSymbols {Q : Type} (r : Q) (symbols : List Symbol) (s : Symbol) :
    (Arrow.ofSymbols r symbols).add s = Arrow.ofSymbols r (symbols ++ [s]) := by
  cases s with
  | none => simp [Arrow.ofSymbols, Arrow.add, Symbol.epsilon]
  | some b => simp [Arrow.ofSymbols, Arrow.add, Symbol.epsilon]

/-- The edges that have been gathered so far: `found` tells on which symbols they lead to a
    state. -/
def Gathered (m : OrdMap Q (Arrow Q)) (found : Q → List Symbol) : Prop :=
  ∀ r, m[r]? = if found r = [] then none else some (Arrow.ofSymbols r (found r))

namespace Gathered

variable {m : OrdMap Q (Arrow Q)} {found : Q → List Symbol}

omit [LawfulEqOrd Q] in
theorem empty : Gathered (∅ : OrdMap Q (Arrow Q)) fun _ => [] := by
  intro r
  rw [Std.ExtTreeMap.getElem?_empty, if_pos rfl]

/-- One more edge. -/
theorem gather [DecidableEq Q] (h : Gathered m found) (s : Symbol) (t : Q) :
    Gathered (Row.gather s m t) (Function.update found t (found t ++ [s])) := by
  intro r
  rw [Row.gather, Std.ExtTreeMap.getElem?_alter]
  by_cases hr : r = t
  · -- the arrow to the target of the edge, which there may not have been before
    subst hr
    have hadd : (m[r]?.getD ⟨r, false, []⟩).add s = Arrow.ofSymbols r (found r ++ [s]) := by
      rw [← Arrow.add_ofSymbols, h r]
      by_cases hnil : found r = []
      · rw [if_pos hnil, hnil]
        rfl
      · rw [if_neg hnil]
        rfl
    rw [if_pos Std.ReflCmp.compare_self, hadd, Function.update_self,
      if_neg (List.append_ne_nil_of_right_ne_nil _ (List.cons_ne_nil _ _))]
  · -- the others stay as they are
    have hne : compare t r ≠ .eq := fun heq => hr (Std.LawfulEqCmp.eq_of_compare heq).symm
    rw [if_neg hne, Function.update_of_ne hr]
    exact h r

/-- The edges on one symbol, by induction on the targets. -/
theorem targets {found' : Q → List Symbol} {ts : List Q} (h : Gathered m found)
    (hts : ts.Nodup) (hto : ∀ r ∈ ts, found' r = found r ++ [s])
    (hother : ∀ r, r ∉ ts → found' r = found r) :
    Gathered (ts.foldl (Row.gather s) m) found' := by
  classical
  induction ts generalizing m found with
  | nil =>
    rw [funext fun r => hother r List.not_mem_nil]
    exact h
  | cons t ts ih =>
    obtain ⟨ht, hts⟩ := List.nodup_cons.mp hts
    rw [List.foldl_cons]
    refine ih (h.gather s t) hts (fun r hr => ?_) fun r hr => ?_
    · -- no target is listed twice, so nothing has been added to this arrow yet
      have hne : r ≠ t := fun heq => ht (heq ▸ hr)
      rw [Function.update_of_ne hne, hto r (List.mem_cons_of_mem _ hr)]
    · by_cases hrt : r = t
      · rw [hrt, Function.update_self, hto t List.mem_cons_self]
      · rw [Function.update_of_ne hrt, hother r (List.not_mem_cons_of_ne_of_not_mem hrt hr)]

/-- A part of a row, by induction on its entries. -/
theorem entries (h : Gathered m found) (entries : List (Symbol × StateSet Q)) :
    Gathered (entries.foldl (fun m entry => entry.2.toList.foldl (Row.gather entry.1) m) m)
      fun r => found r ++ (entries.filter fun entry => entry.2.contains r).map Prod.fst := by
  induction entries generalizing m found with
  | nil =>
    simp only [List.filter_nil, List.map_nil, List.append_nil]
    exact h
  | cons entry entries ih =>
    rw [List.foldl_cons]
    have hone : Gathered (entry.2.toList.foldl (Row.gather entry.1) m) fun r =>
        if entry.2.contains r then found r ++ [entry.1] else found r := by
      refine h.targets (OrdSet.nodup_toList _) (fun r hr => ?_) fun r hr => ?_
      · exact if_pos (Std.ExtTreeSet.contains_iff_mem.mpr (Std.ExtTreeSet.mem_toList.mp hr))
      · rw [Std.ExtTreeSet.mem_toList, ← Std.ExtTreeSet.contains_iff_mem] at hr
        exact if_neg hr
    -- what is added for the first entry comes before what is added for the others
    refine (congrArg (Gathered _) (funext fun r => ?_)).mp (ih hone)
    rw [List.filter_cons]
    split
    · rw [List.map_cons, List.append_assoc, List.singleton_append]
    · rfl

end Gathered

/-- All edges of a row are gathered. -/
theorem Row.gathered_symbolsTo (row : Row Q) : Gathered (Row.gathered row) (Row.symbolsTo row) :=
  Gathered.empty.entries row.toList

/-- Gathering the edges of a row by target gives its arrows. -/
theorem Row.toList_gathered (row : Row Q) :
    (Row.gathered row).toList = (Row.arrows row).map fun a => (a.target, a) := by
  have hget := Row.gathered_symbolsTo row
  have hmem : ∀ r, r ∈ Row.gathered row ↔ Row.symbolsTo row r ≠ [] := by
    intro r
    rw [Std.ExtTreeMap.mem_iff_isSome_getElem?, hget r]
    split
    · rename_i hnil
      exact iff_of_false Bool.false_ne_true (not_not_intro hnil)
    · rename_i hne
      exact iff_of_true rfl hne
  have hkeys : (Row.gathered row).keys = Row.targets row := by
    refine eq_of_ordered Std.ExtTreeMap.ordered_keys Std.ExtTreeSet.ordered_toList fun r => ?_
    show _ ↔ r ∈ Row.targets row
    rw [Std.ExtTreeMap.mem_keys, hmem, Row.mem_targets]
    exact ⟨List.exists_mem_of_ne_nil _, fun h => List.ne_nil_of_mem h.choose_spec⟩
  have hvalue : ∀ r ∈ Row.gathered row, (Row.gathered row)[r]? = some (Row.arrowTo row r) := by
    intro r hr
    rw [hget r, if_neg ((hmem r).mp hr)]
    rfl
  rw [OrdMap.toList_eq_map_keys hvalue, hkeys, Row.arrows, List.map_map]
  rfl

/-! ## Lines of a drawing -/

/-- The states that a line is about. -/
def DrawingLine.names {Q : Type} : DrawingLine Q → List Q
  | .opening | .direction | .entry | .closing => []
  | .initial q | .accepting q => [q]
  | .arrow source _ target => [source, target]

/-- The lines of a drawing are about known states. -/
theorem WellFormed.mem_of_mem_names (hA : A.WellFormed) {line : DrawingLine Q}
    (hline : line ∈ A.drawingLines) : ∀ q ∈ line.names, q ∈ A := by
  rw [drawingLines, toList_rows, List.mem_append, List.mem_append, List.mem_append] at hline
  rcases hline with ((hline | hline) | hline) | hline
  · simp only [List.mem_cons, List.not_mem_nil, or_false] at hline
    rcases hline with rfl | rfl | rfl | rfl
    · exact List.forall_mem_nil _
    · exact List.forall_mem_nil _
    · exact List.forall_mem_nil _
    · exact List.forall_mem_singleton.mpr hA.initial
  · obtain ⟨q, hq, rfl⟩ := List.mem_map.mp hline
    exact List.forall_mem_singleton.mpr (hA.accepting q (Std.ExtTreeSet.mem_toList.mp hq))
  · rw [List.flatMap_map] at hline
    obtain ⟨q, hq, hline⟩ := List.mem_flatMap.mp hline
    obtain ⟨a, ha, hline⟩ := List.mem_flatMap.mp hline
    obtain ⟨label, _, rfl⟩ := List.mem_map.mp hline
    obtain ⟨r, ⟨s, hr⟩, rfl⟩ := mem_arrows.mp ha
    exact List.forall_mem_cons.mpr
      ⟨mem_states.mp hq, List.forall_mem_singleton.mpr (hA.ends q s r hr).2⟩
  · rw [List.mem_singleton.mp hline]
    exact List.forall_mem_nil _

omit [Ord Q] [TransOrd Q] [LawfulEqOrd Q]

open Text.Quoted

/-- What is quoted in a line, given the text of a state. The anonymous node has no name. -/
def DrawingLine.quoted (name : Q → String) : DrawingLine Q → List String
  | .opening | .direction | .closing => []
  | .entry => [""]
  | .initial q => ["", name q]
  | .accepting q => [name q]
  | .arrow source label target => [name source, name target, label]

theorem DrawingLine.quotations_text_append (name : Q → String) (line : DrawingLine Q) (s : String) :
    quotations (line.text name ++ s) = (line.quoted name ++ ·) <$> quotations s := by
  -- the anonymous node is written as the empty text is
  have hentry : "\t\x22\x22 [ shape=none ]\n" = "\t" ++ quote "" ++ " [ shape=none ]\n" := by decide
  have hinitial : "\t\x22\x22 -> " = "\t" ++ quote "" ++ " -> " := by decide
  have hplain : ∀ u ∈ ["digraph \x7b\n", "\trankdir=LR\n", "\x7d\n", "\t", "\n", " -> ",
      " [ shape=none ]\n", " [ shape=doublecircle ]\n", " [ label=", " ]\n"],
      ∀ s, quotations (u ++ s) = quotations s := by
    refine fun u hu => quotations_append_of_not_mem ?_
    revert u
    decide
  simp only [List.forall_mem_cons] at hplain
  obtain ⟨hopening, hdirection, hclosing, htab, hend, hto, hnone, hcircle, hlabel, hbracket, _⟩ :=
    hplain
  -- in every line, one quoted text after the other is split off
  cases line <;>
    simp only [text, quoted, hentry, hinitial, String.append_assoc, quotations_quote_append,
      hopening, hdirection, hclosing, htab, hend, hto, hnone, hcircle, hlabel, hbracket] <;>
    cases quotations s <;> rfl

/-- Reading the quoted texts of a whole drawing from left to right gives the names in its lines. -/
theorem quotations_drawing [Ord Q] [TransOrd Q] (name : Q → String) (A : Automaton Q) :
    quotations (A.drawing name) = some (A.drawingLines.flatMap (DrawingLine.quoted name)) := by
  rw [drawing]
  induction A.drawingLines with
  | nil => rfl
  | cons line lines ih =>
    rw [List.map_cons, String.join_cons, DrawingLine.quotations_text_append, ih]
    rfl

end ByteLexer.Automaton
