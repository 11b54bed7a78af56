import ByteLexer.Proofs.Automaton.Arrows
import ByteLexer.Proofs.Byte.Marks
import ByteLexer.Proofs.Text.Separators

/-! # Reading dumps

    A dump of an automaton is read line by line. Labels of states may hold anything but the end of a
    line: they stand at the end of their lines, and what stands in front of them has no blanks.

    - **Labels** of arrows, and what they tell.
    - **Lines** of a dump, without what ends them.
    - **Sections.** The lines under a heading are those up to the next one.
    - **Dumps.** What two automata with the same dump have in common.
-/

namespace ByteLexer.Automaton

open Std (TransOrd LawfulEqOrd)
open ByteRange

/-! ## Labels -/

section Labels

variable {Q : Type} {a a' : Arrow Q} {label : String} {c : Char}

/-- The label of an arrow on some bytes. -/
def bracketed (bytes : List UInt8) : String :=
  String.ofList ('[' :: (runs bytes).flatMap ByteRange.text ++ [']'])

theorem mem_labels : label ∈ a.labels ↔
    a.epsilon = true ∧ label = "ε" ∨ a.bytes ≠ [] ∧ label = bracketed a.bytes := by
  rw [Arrow.labels, List.mem_append]
  refine or_congr ?_ ?_
  · cases a.epsilon with
    | false => simp
    | true => simp
  · rcases a.bytes with _ | ⟨b, bytes⟩
    · simp
    · simp [bracketed]

theorem toList_bracketed (bytes : List UInt8) : (bracketed bytes).toList =
    '[' :: ((runs bytes).flatMap ByteRange.text ++ [']']) := by
  rw [bracketed, String.toList_ofList, List.cons_append]

theorem bracketed_ne_epsilon (bytes : List UInt8) : bracketed bytes ≠ "ε" := by
  intro h
  have hlist := congrArg String.toList h
  rw [toList_bracketed] at hlist
  exact absurd (List.cons.inj hlist).1 (by decide)

theorem bracketed_inj {xs ys : List UInt8} : bracketed xs = bracketed ys ↔
    (runs xs).flatMap ByteRange.text = (runs ys).flatMap ByteRange.text := by
  rw [← String.toList_inj, toList_bracketed, toList_bracketed, List.cons.injEq,
    List.append_left_inj, and_iff_right rfl]

/-- There are neither blanks nor ends of lines in a label. -/
theorem solid_of_mem_labels (h : label ∈ a.labels) : ' ' ∉ label.toList ∧ '\n' ∉ label.toList := by
  have hgraphic : ∀ bytes, ∀ c ∈ (bracketed bytes).toList, Byte.isGraphic c = true := by
    intro bytes c hc
    rw [toList_bracketed, List.mem_cons, List.mem_append, List.mem_singleton] at hc
    rcases hc with rfl | hc | rfl
    · decide
    · obtain ⟨r, _, hc⟩ := List.mem_flatMap.mp hc
      rw [text_eq, List.mem_flatMap] at hc
      obtain ⟨b, _, hc⟩ := hc
      exact Byte.graphic_of_mem_escape hc
    · decide
  rcases mem_labels.mp h with ⟨_, rfl⟩ | ⟨_, rfl⟩
  · exact ⟨by decide, by decide⟩
  · exact ⟨fun hc => absurd (hgraphic _ _ hc) (by decide),
      fun hc => absurd (hgraphic _ _ hc) (by decide)⟩

/-- Two arrows with the same labels stand for the same bytes, as far as these can be read. -/
theorem eq_of_labels (h : ∀ label, label ∈ a.labels ↔ label ∈ a'.labels) :
    a.epsilon = a'.epsilon ∧
      (runs a.bytes).flatMap ByteRange.text = (runs a'.bytes).flatMap ByteRange.text := by
  have hsilent : ∀ a : Arrow Q, "ε" ∈ a.labels ↔ a.epsilon = true := by
    intro a
    rw [mem_labels, and_iff_left rfl, or_iff_left fun h => bracketed_ne_epsilon _ h.2.symm]
  have hbytes : ∀ (a : Arrow Q) bytes, bracketed bytes ∈ a.labels ↔
      a.bytes ≠ [] ∧ bracketed bytes = bracketed a.bytes := by
    intro a bytes
    rw [mem_labels, or_iff_right fun h => bracketed_ne_epsilon _ h.2]
  refine ⟨Bool.eq_iff_iff.mpr ?_, ?_⟩
  · rw [← hsilent, ← hsilent, h]
  · by_cases hnil : a.bytes = []
    · have hnil' : a'.bytes = [] := by
        by_contra hne
        exact ((hbytes a _).mp ((h _).mpr ((hbytes a' _).mpr ⟨hne, rfl⟩))).1 hnil
      rw [hnil, hnil']
    · exact bracketed_inj.mp ((hbytes a' _).mp ((h _).mp ((hbytes a _).mpr ⟨hnil, rfl⟩))).2

end Labels

/-! ## Lines -/

/-- A line of a dump, without its end. -/
def DumpLine.body : DumpLine String → String
  | .initial q => "initial: " ++ q
  | .state q => "state: " ++ q
  | .arrow _ label target => "\ton " ++ label ++ " goto " ++ target
  | .acceptingHeader => "accepting:"
  | .accepting q => "\t" ++ q

theorem DumpLine.text_eq (line : DumpLine String) : line.text id = line.body ++ "\n" := by
  cases line with
  | acceptingHeader => decide
  | _ => rfl

theorem toList_dump (A : Automaton String) : (A.dump id).toList =
    ((A.dumpLines.map DumpLine.body).map String.toList).flatMap (· ++ ['\n']) := by
  rw [dump, String.toList_join, List.flatMap_map, List.flatMap_map, List.flatMap_map]
  refine congrArg (A.dumpLines.flatMap ·) (funext fun line => ?_)
  rw [line.text_eq, String.toList_append]
  rfl

/-! ## Sections -/

/-- What is listed under a state: labels and where their arrows lead. -/
def Row.entries {Q : Type} [Ord Q] [TransOrd Q] (row : Row Q) : List (String × Q) :=
  (Row.arrows row).flatMap fun a => a.labels.map fun label => (label, a.target)

section Entries

variable {Q : Type} [Ord Q] [TransOrd Q] [LawfulEqOrd Q] {A : Automaton Q} {q r : Q}
  {label : String}

omit [LawfulEqOrd Q] in
/-- There are no labels where there are no edges. -/
theorem exists_mem_targets_of_mem_labels (h : label ∈ (Row.arrowTo (A.row q) r).labels) :
    ∃ s, r ∈ A.targets q s := by
  rcases mem_labels.mp h with ⟨hsilent, _⟩ | ⟨hbytes, _⟩
  · exact ⟨_, epsilon_arrowTo.mp hsilent⟩
  · obtain ⟨b, hb⟩ := List.exists_mem_of_ne_nil _ hbytes
    exact ⟨_, mem_bytes_arrowTo.mp hb⟩

omit [LawfulEqOrd Q] in
theorem labels_ne_nil_iff : (Row.arrowTo (A.row q) r).labels ≠ [] ↔ ∃ s, r ∈ A.targets q s := by
  constructor
  · intro h
    obtain ⟨label, hlabel⟩ := List.exists_mem_of_ne_nil _ h
    exact exists_mem_targets_of_mem_labels hlabel
  · intro h
    obtain ⟨s, hr⟩ := h
    cases s with
    | none => exact List.ne_nil_of_mem (mem_labels.mpr (.inl ⟨epsilon_arrowTo.mpr hr, rfl⟩))
    | some b =>
      have hb := mem_bytes_arrowTo.mpr hr
      exact List.ne_nil_of_mem (mem_labels.mpr (.inr ⟨List.ne_nil_of_mem hb, rfl⟩))

theorem mem_entries :
    (label, r) ∈ Row.entries (A.row q) ↔ label ∈ (Row.arrowTo (A.row q) r).labels := by
  rw [Row.entries, List.mem_flatMap]
  constructor
  · intro h
    obtain ⟨a, ha, he⟩ := h
    obtain ⟨t, _, rfl⟩ := mem_arrows.mp ha
    obtain ⟨label', hlabel, heq⟩ := List.mem_map.mp he
    obtain ⟨rfl, rfl⟩ := Prod.mk.inj heq
    exact hlabel
  · intro h
    exact ⟨_, mem_arrows.mpr ⟨r, exists_mem_targets_of_mem_labels h, rfl⟩,
      List.mem_map.mpr ⟨label, h, rfl⟩⟩

end Entries

/-- An arrow as it is listed. -/
def arrowBody (e : String × String) : String :=
  "\ton " ++ e.1 ++ " goto " ++ e.2

/-- A state with what is listed under it. -/
def sectionBodies (entry : String × List (String × String)) : List String :=
  ("state: " ++ entry.1) :: entry.2.map arrowBody

theorem map_body_dumpLines (A : Automaton String) : A.dumpLines.map DumpLine.body =
    ("initial: " ++ A.initial) ::
      ((A.states.map fun q => (q, Row.entries (A.row q))).flatMap sectionBodies
        ++ "accepting:" :: A.accepting.toList.map ("\t" ++ ·)) := by
  rw [dumpLines, toList_rows]
  simp only [List.flatMap_map, List.map_cons, List.map_append, List.map_flatMap, List.map_map,
    sectionBodies, Row.entries, List.cons_append]
  rfl

/-- An arrow is read if there is no blank in its label. -/
theorem arrowBody_inj {e e' : String × String} (he : ' ' ∉ e.1.toList) (he' : ' ' ∉ e'.1.toList)
    (h : arrowBody e = arrowBody e') : e = e' := by
  have hblank : " goto ".toList = ' ' :: "goto ".toList := by decide
  unfold arrowBody at h
  simp only [String.append_assoc, String.append_right_inj] at h
  rw [← String.toList_inj] at h
  simp only [String.toList_append, hblank, List.cons_append] at h
  obtain ⟨hlabel, hrest⟩ := eq_of_append_cons_eq he he' h
  rw [List.append_right_inj] at hrest
  exact Prod.ext (String.toList_inj.mp hlabel) (String.toList_inj.mp hrest)

theorem eq_of_map_arrowBody_eq {es es' : List (String × String)} (hes : ∀ e ∈ es, ' ' ∉ e.1.toList)
    (hes' : ∀ e ∈ es', ' ' ∉ e.1.toList) (h : es.map arrowBody = es'.map arrowBody) : es = es' := by
  induction es generalizing es' with
  | nil => exact (List.map_eq_nil_iff.mp h.symm).symm
  | cons e es ih =>
    rcases es' with _ | ⟨e', es'⟩
    · cases h
    · obtain ⟨he, hes⟩ := List.forall_mem_cons.mp hes
      obtain ⟨he', hes'⟩ := List.forall_mem_cons.mp hes'
      obtain ⟨hfirst, hrest⟩ := List.cons.inj h
      rw [arrowBody_inj he he' hfirst, ih hes hes' hrest]

/-- An arrow is listed behind a tab. -/
theorem head?_of_mem_map_arrowBody {es : List (String × String)} {line : String}
    (h : line ∈ es.map arrowBody) : line.toList.head? = some '\t' := by
  obtain ⟨e, _, rfl⟩ := List.mem_map.mp h
  simp only [arrowBody, String.toList_append]
  rfl

section Sections

variable {R R' : List (String × List (String × String))} {X X' : List String}

/-- Neither a state nor the heading of the accepting states is listed behind a tab. -/
theorem head?_ne_of_mem_head? {line : String}
    (h : line ∈ (R.flatMap sectionBodies ++ "accepting:" :: X).head?) :
    line.toList.head? ≠ some '\t' := by
  rcases R with _ | ⟨entry, R⟩
  · obtain rfl := Option.some.inj h
    decide
  · obtain rfl := Option.some.inj h
    rw [String.toList_append]
    exact fun htab => absurd (Option.some.inj htab) (by decide)

/-- The heading of the accepting states is not that of a state. -/
theorem accepting_ne_state (q : String) : "accepting:" ≠ "state: " ++ q := by
  intro h
  have hhead := congrArg String.toList h
  rw [String.toList_append] at hhead
  exact absurd (List.cons.inj hhead).1 (by decide)

/-- Only arrows are listed behind a tab, so the lines under a state are those up to the next line
    without one. By induction on the states of one of the two lists. -/
theorem sections_inj (hR : ∀ entry ∈ R, ∀ e ∈ entry.2, ' ' ∉ e.1.toList)
    (hR' : ∀ entry ∈ R', ∀ e ∈ entry.2, ' ' ∉ e.1.toList)
    (h : R.flatMap sectionBodies ++ "accepting:" :: X =
      R'.flatMap sectionBodies ++ "accepting:" :: X') : R = R' ∧ X = X' := by
  induction R generalizing R' with
  | nil =>
    rcases R' with _ | ⟨entry, R'⟩
    · exact ⟨rfl, (List.cons.inj h).2⟩
    · exact absurd (List.cons.inj h).1 (accepting_ne_state _)
  | cons entry R ih =>
    rcases R' with _ | ⟨entry', R'⟩
    · exact absurd (List.cons.inj h).1.symm (accepting_ne_state _)
    · obtain ⟨q, es⟩ := entry
      obtain ⟨q', es'⟩ := entry'
      obtain ⟨hes, htail⟩ := List.forall_mem_cons.mp hR
      obtain ⟨hes', htail'⟩ := List.forall_mem_cons.mp hR'
      rw [List.flatMap_cons, List.flatMap_cons, List.append_assoc, List.append_assoc] at h
      obtain ⟨hstate, hlines⟩ := List.cons.inj h
      -- the arrows end where the tabs end
      obtain ⟨harrows, hrest⟩ := append_inj_of_forall (fun _ => head?_of_mem_map_arrowBody)
        (fun _ => head?_of_mem_map_arrowBody) (fun _ => head?_ne_of_mem_head?)
        (fun _ => head?_ne_of_mem_head?) hlines
      have hes_eq : es = es' := eq_of_map_arrowBody_eq hes hes' harrows
      have hq_eq : q = q' := (String.append_right_inj _).mp hstate
      obtain ⟨hR_eq, hX_eq⟩ := ih htail htail' hrest
      rw [hq_eq, hes_eq, hR_eq]
      exact ⟨rfl, hX_eq⟩

end Sections

/-! ## Dumps -/

/-- A label of a state that can stand in a line. -/
def NewlineFree (q : String) : Prop :=
  '\n' ∉ q.toList

variable {A B : Automaton String}

/-- The labels of the arrows have no blanks. -/
theorem solid_sections (A : Automaton String) :
    ∀ entry ∈ A.states.map (fun q => (q, Row.entries (A.row q))), ∀ e ∈ entry.2,
      ' ' ∉ e.1.toList := by
  intro entry hentry e he
  obtain ⟨q, _, rfl⟩ := List.mem_map.mp hentry
  obtain ⟨label, r⟩ := e
  exact (solid_of_mem_labels (mem_entries.mp he)).1

theorem row_of_not_mem {q : String} (h : q ∉ A) : A.row q = ∅ := by
  rw [row, Std.ExtTreeMap.getElem?_eq_none h]
  rfl

/-- The labels in a dump stand in their lines. -/
theorem WellFormed.newline_not_mem_body (hA : A.WellFormed) (hfree : ∀ q ∈ A, NewlineFree q) :
    ∀ body ∈ A.dumpLines.map DumpLine.body, '\n' ∉ body.toList := by
  have hlabels : ∀ q ∈ A, ∀ e ∈ Row.entries (A.row q), '\n' ∉ (arrowBody e).toList := by
    intro q _ e he
    obtain ⟨label, r⟩ := e
    have hlabel := mem_entries.mp he
    obtain ⟨t, ht⟩ := exists_mem_targets_of_mem_labels hlabel
    have hsolid := not_mem_toList_append (s := "\ton ") (by decide) (solid_of_mem_labels hlabel).2
    exact not_mem_toList_append (not_mem_toList_append hsolid (by decide))
      (hfree r (hA.ends q t r ht).2)
  rw [map_body_dumpLines]
  -- the initial state, then the states with their arrows, then the accepting states
  refine List.forall_mem_cons.mpr ⟨not_mem_toList_append (by decide) (hfree _ hA.initial), ?_⟩
  refine List.forall_mem_append.mpr ⟨fun body hbody => ?_, ?_⟩
  · rw [List.flatMap_map] at hbody
    obtain ⟨q, hq, hbody⟩ := List.mem_flatMap.mp hbody
    rcases List.mem_cons.mp hbody with rfl | hbody
    · exact not_mem_toList_append (by decide) (hfree q (mem_states.mp hq))
    · obtain ⟨e, he, rfl⟩ := List.mem_map.mp hbody
      exact hlabels q (mem_states.mp hq) e he
  · refine List.forall_mem_cons.mpr ⟨by decide, fun body hbody => ?_⟩
    obtain ⟨q, hq, rfl⟩ := List.mem_map.mp hbody
    exact not_mem_toList_append (by decide)
      (hfree q (hA.accepting q (Std.ExtTreeSet.mem_toList.mp hq)))

/-- Two automata whose labels stand in their lines have the same dump exactly if they have the same
    initial state, the same states with the same entries, and the same accepting states. -/
theorem dump_eq_iff_entries (hA : A.WellFormed) (hB : B.WellFormed)
    (hfree : ∀ q ∈ A, NewlineFree q) (hfree' : ∀ q ∈ B, NewlineFree q) :
    A.dump id = B.dump id ↔ A.initial = B.initial ∧ A.states = B.states ∧
      (∀ q, Row.entries (A.row q) = Row.entries (B.row q)) ∧ A.accepting = B.accepting := by
  rw [← String.toList_inj, toList_dump, toList_dump]
  constructor
  · intro h
    have hinjective : Function.Injective String.toList := fun _ _ => String.toList_inj.mp
    have hbodies : A.dumpLines.map DumpLine.body = B.dumpLines.map DumpLine.body := by
      refine hinjective.list_map (eq_of_flatMap_append_eq ?_ ?_ h)
      · exact List.forall_mem_map.mpr (hA.newline_not_mem_body hfree)
      · exact List.forall_mem_map.mpr (hB.newline_not_mem_body hfree')
    rw [map_body_dumpLines, map_body_dumpLines] at hbodies
    obtain ⟨hinitial, hrest⟩ := List.cons.inj hbodies
    obtain ⟨hsections, hmarks⟩ := sections_inj (solid_sections A) (solid_sections B) hrest
    have hstates : A.states = B.states := by
      have hfst := congrArg (List.map Prod.fst) hsections
      rw [List.map_map, List.map_map] at hfst
      exact (List.map_id _).symm.trans (hfst.trans (List.map_id _))
    refine ⟨(String.append_right_inj _).mp hinitial, hstates, fun q => ?_, ?_⟩
    · -- only known states have a section of their own, any other one has no edges in either
      by_cases hq : q ∈ A
      · rw [← hstates, List.map_inj_left] at hsections
        exact (Prod.mk.inj (hsections q (mem_states.mpr hq))).2
      · have hq' : q ∉ B := by
          rw [← mem_states, ← hstates, mem_states]
          exact hq
        rw [row_of_not_mem hq, row_of_not_mem hq']
    · have htabbed : Function.Injective ("\t" ++ ·) := fun _ _ => (String.append_right_inj _).mp
      exact Std.ExtTreeSet.toList_inj.mp (htabbed.list_map hmarks)
  · intro h
    obtain ⟨hinitial, hstates, hentries, haccepting⟩ := h
    rw [map_body_dumpLines, map_body_dumpLines, hinitial, hstates, haccepting]
    simp only [hentries]

/-- The bytes on which edges lead from one state to another, in increasing order. -/
def bytesTo {Q : Type} [Ord Q] [TransOrd Q] (A : Automaton Q) (q r : Q) : List UInt8 :=
  (Row.arrowTo (A.row q) r).bytes

/-- Two automata with the same initial state, the same states, the same edges without a byte and the
    same accepting states. From one state to another they have edges on the same bytes, or at least
    on bytes that are written in the same way. -/
structure DumpedAlike (A B : Automaton String) : Prop where
  initial : A.initial = B.initial
  states : ∀ q, q ∈ A ↔ q ∈ B
  silent : ∀ q r, r ∈ A.targets q Symbol.epsilon ↔ r ∈ B.targets q Symbol.epsilon
  bytes : ∀ q r, WrittenAlike (A.bytesTo q r) (B.bytesTo q r)
  accepting : ∀ q, q ∈ A.accepting ↔ q ∈ B.accepting

theorem writtenAlike_of_entries {q : String} (h : Row.entries (A.row q) = Row.entries (B.row q))
    (r : String) : (r ∈ A.targets q Symbol.epsilon ↔ r ∈ B.targets q Symbol.epsilon) ∧
      WrittenAlike (A.bytesTo q r) (B.bytesTo q r) := by
  have hlabels : ∀ label, label ∈ (Row.arrowTo (A.row q) r).labels ↔
      label ∈ (Row.arrowTo (B.row q) r).labels := by
    intro label
    rw [← mem_entries, ← mem_entries, h]
  obtain ⟨hsilent, htext⟩ := eq_of_labels hlabels
  refine ⟨?_, (text_runs_eq_iff (sorted_bytes_arrowTo _ _) (sorted_bytes_arrowTo _ _)).mp htext⟩
  rw [← epsilon_arrowTo, ← epsilon_arrowTo, hsilent]

/-- What is written alike has the same labels. -/
theorem labels_congr {Q : Type} {a a' : Arrow Q} (hsilent : a.epsilon = a'.epsilon)
    (hbytes : WrittenAlike a.bytes a'.bytes)
    (htext : (runs a.bytes).flatMap ByteRange.text = (runs a'.bytes).flatMap ByteRange.text) :
    a.labels = a'.labels := by
  rw [Arrow.labels, Arrow.labels, hsilent, htext]
  rcases hbytes.eq_or_dash_mem with heq | ⟨hdash, hdash'⟩
  · rw [heq]
  · -- twins are not empty, so both have a label for their bytes
    rw [List.isEmpty_eq_false_iff.mpr (List.ne_nil_of_mem hdash),
      List.isEmpty_eq_false_iff.mpr (List.ne_nil_of_mem hdash')]

/-- The entries of a row are told by the labels of the arrows to each state. -/
theorem entries_congr {q : String}
    (h : ∀ r, (Row.arrowTo (A.row q) r).labels = (Row.arrowTo (B.row q) r).labels) :
    Row.entries (A.row q) = Row.entries (B.row q) := by
  have hentries : ∀ row : Row String, Row.entries row =
      (Row.targets row).flatMap fun r =>
        (Row.arrowTo row r).labels.map fun label => (label, r) := by
    intro row
    rw [Row.entries, Row.arrows, List.flatMap_map]
    rfl
  have htargets : Row.targets (A.row q) = Row.targets (B.row q) := by
    refine congrArg Std.ExtTreeSet.toList (Std.ExtTreeSet.ext_mem fun r => ?_)
    rw [← Std.ExtTreeSet.mem_toList, ← Std.ExtTreeSet.mem_toList]
    show r ∈ Row.targets (A.row q) ↔ r ∈ Row.targets (B.row q)
    rw [mem_rowTargets, mem_rowTargets, ← labels_ne_nil_iff, ← labels_ne_nil_iff, h]
  simp only [hentries, htargets, h]

/-- The states are listed in order. -/
theorem states_congr (h : ∀ q, q ∈ A ↔ q ∈ B) : A.states = B.states := by
  refine eq_of_ordered Std.ExtTreeMap.ordered_keys Std.ExtTreeMap.ordered_keys fun q => ?_
  exact mem_states.trans ((h q).trans mem_states.symm)

/-- What a dump tells, for labels that stand in their lines: everything but which of two twins the
    bytes are on which edges lead from one state to another. -/
theorem WellFormed.dump_eq_iff (hA : A.WellFormed) (hB : B.WellFormed)
    (hfree : ∀ q ∈ A, NewlineFree q) (hfree' : ∀ q ∈ B, NewlineFree q) :
    A.dump id = B.dump id ↔ DumpedAlike A B := by
  rw [dump_eq_iff_entries hA hB hfree hfree']
  constructor
  · intro h
    obtain ⟨hinitial, hstates, hentries, haccepting⟩ := h
    refine ⟨hinitial, fun q => ?_, fun q r => (writtenAlike_of_entries (hentries q) r).1,
      fun q r => (writtenAlike_of_entries (hentries q) r).2, fun q => ?_⟩
    · rw [← mem_states, hstates, mem_states]
    · rw [haccepting]
  · intro h
    refine ⟨h.initial, ?_, fun q => entries_congr fun r => ?_, Std.ExtTreeSet.ext_mem h.accepting⟩
    · exact states_congr h.states
    · refine labels_congr (Bool.eq_iff_iff.mpr ?_) (h.bytes q r) ?_
      · rw [epsilon_arrowTo, epsilon_arrowTo, h.silent]
      · exact (text_runs_eq_iff (sorted_bytes_arrowTo _ _) (sorted_bytes_arrowTo _ _)).mpr
          (h.bytes q r)

/-- If one of them has no edges on the dash, the automata are the same. -/
theorem DumpedAlike.eq_of_dash_free (hA : A.WellFormed) (hB : B.WellFormed) (h : DumpedAlike A B)
    (hdash : ∀ q r, r ∉ A.targets q (some dash)) : A = B := by
  have hbytes : ∀ q r, A.bytesTo q r = B.bytesTo q r := by
    intro q r
    rcases (h.bytes q r).eq_or_dash_mem with heq | ⟨hmem, _⟩
    · exact heq
    · -- both of two twins have the dash
      exact absurd (mem_bytes_arrowTo.mp hmem) (hdash q r)
  have hedges : ∀ e : Edge String, e.target ∈ A.targets e.source e.symbol ↔
      e.target ∈ B.targets e.source e.symbol := by
    intro e
    obtain ⟨q, s, r⟩ := e
    cases s with
    | none => exact h.silent q r
    | some b =>
      show r ∈ A.targets q (some b) ↔ r ∈ B.targets q (some b)
      rw [← mem_bytes_arrowTo, ← mem_bytes_arrowTo, ← bytesTo, hbytes, bytesTo]
  exact eq_of_diagram_eq hA.tidy hB.tidy
    (Diagram.ext h.initial (Set.ext h.states) (Set.ext hedges) (Set.ext h.accepting))

end ByteLexer.Automaton
