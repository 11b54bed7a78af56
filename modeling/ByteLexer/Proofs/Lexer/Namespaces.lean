import ByteLexer.Proofs.Lexer.Merged
import ByteLexer.Proofs.Regex.Namespaces

/-! # The patterns of a table in their namespaces

    The merged automaton of a table holds a copy of each pattern in the namespace of its kind, as a
    combination holds copies of its operands. Whoever enters the copy of a pattern stays there.

    - **States** of the merged automaton.
    - **Edges** of one copy among the others.
    - **Copies** in combinations and in merged automata.
-/

namespace ByteLexer

open Automaton
open Regex (Labelled labelled_self)

/-- A pattern as a part of the merged automaton. -/
def Pattern.part (p : Pattern) : Part :=
  ⟨p.kind ++ separator.toString, p.automaton⟩

/-! ## States -/

section States

variable {P P' : String → Prop} {A : Regex} {patterns : List Pattern} {p : Pattern} {q x : String}

/-- The labels that a pattern brings in are those of its copy. -/
theorem Regex.Labelled.addPattern (hA : Labelled P A) (hinitial : P mergedInitial)
    (hp : Labelled P' p.automaton) (hlabel : ∀ q, P' q → P (p.label q)) :
    Labelled P (addPattern A p) := by
  have hcopy : Labelled P p.qualified := hp.qualify hlabel
  exact (hA.overlay hcopy).extend (by simp)
    (List.forall_mem_singleton.mpr ⟨hinitial, hcopy.initial⟩) hcopy.accepting

theorem labelled_merged (hinitial : P mergedInitial)
    (hpatterns : ∀ p ∈ patterns, p.automaton.WellFormed ∧ ∀ q ∈ p.automaton, P (p.label q)) :
    Labelled P (merged patterns) := by
  have hfold : ∀ A : Regex, Labelled P A → Labelled P (patterns.foldl addPattern A) := by
    induction patterns with
    | nil => exact fun _ hA => hA
    | cons p rest ih =>
      obtain ⟨⟨hwell, hlabel⟩, hrest⟩ := List.forall_mem_cons.mp hpatterns
      exact fun A hA => ih hrest _ (hA.addPattern hinitial (labelled_self hwell) hlabel)
  exact hfold _ (Labelled.ofInitial hinitial)

/-- No state of a pattern is missing. -/
theorem label_mem_merged (hp : p ∈ patterns) (hq : q ∈ p.automaton) :
    p.label q ∈ merged patterns := by
  have hfold : ∀ A : Regex, p.label q ∈ A ∨ p ∈ patterns →
      p.label q ∈ patterns.foldl addPattern A := by
    clear hp
    induction patterns with
    | nil => exact fun A h => h.resolve_right List.not_mem_nil
    | cons p' rest ih =>
      intro A h
      refine ih (addPattern A p') ?_
      rcases h with h | h
      · exact .inl (mem_extend.mpr (.inl (mem_overlay_of_mem_left h)))
      · rcases List.mem_cons.mp h with rfl | h
        · have hcopy : p.label q ∈ p.qualified := mem_image_of_mem hq
          exact .inl (mem_extend.mpr (.inl (mem_overlay_of_mem_right hcopy)))
        · exact .inr h
  exact hfold _ (.inr hp)

/-- The kind can be read off any label in the namespace. -/
theorem Pattern.kindOf_of_inNamespace (h : isValidKind p.kind = true)
    (hx : InNamespace p.part.name x) : kindOf x = p.kind := by
  obtain ⟨q, rfl⟩ := inNamespace_iff.mp hx
  exact p.kindOf_label h q

/-- The merged automaton of a table has a state of its own, and the states of the patterns. -/
theorem ValidTable.madeOf_merged (h : ValidTable patterns)
    (hwell : ∀ p ∈ patterns, p.automaton.WellFormed) :
    MadeOf (merged patterns) [mergedInitial] (patterns.map Pattern.part) := by
  have hlabels : Labelled (· ∈ [mergedInitial] ++ (patterns.map Pattern.part).flatMap Part.states)
      (merged patterns) := by
    refine labelled_merged (by simp) fun p hp => ⟨hwell p hp, fun q hq => ?_⟩
    exact mem_states_of_mem_part (List.mem_map_of_mem hp) hq
  have hinitial : mergedInitial ∈ merged patterns :=
    initial_merged patterns ▸ hlabels.wellFormed.initial
  refine MadeOf.of_labelled hlabels (by simp [hinitial]) ?_ (by simp) ?_ ?_
  · exact List.forall_mem_map.mpr fun p hp q => label_mem_merged hp
  · -- a label in two namespaces would have two kinds
    have hkinds := List.pairwise_map.mp h.distinct
    refine List.pairwise_map.mpr (hkinds.imp_of_mem fun {p p'} hp hp' hne q hq hq' => hne ?_)
    rw [← p.kindOf_of_inNamespace (h.valid p hp) hq, p'.kindOf_of_inNamespace (h.valid p' hp') hq']
  · refine List.forall_mem_singleton.mpr (List.forall_mem_map.mpr fun p _ hin => ?_)
    obtain ⟨q, hq⟩ := inNamespace_iff.mp hin
    exact p.label_ne_mergedInitial q hq

end States

/-! ## Edges -/

namespace ValidTable

variable {patterns : List Pattern} {p p' : Pattern} {x y : String} {s : Symbol}

/-- The edges in the copy of one pattern do not touch that of another. -/
theorem label_ne_of_mem_targets (h : ValidTable patterns) (hp : p ∈ patterns) (hp' : p' ∈ patterns)
    (hne : p' ≠ p) (hx : x ∈ (p'.automaton.image p'.label).targets y s) (q : String) :
    p.label q ≠ y ∧ p.label q ≠ x := by
  obtain ⟨t, r, _, rfl, rfl⟩ := mem_targets_image.mp hx
  exact ⟨fun heq => hne (h.eq_of_label_eq hp hp' heq).1.symm,
    fun heq => hne (h.eq_of_label_eq hp hp' heq).1.symm⟩

/-- The edges of a merged automaton besides those in the copy of one pattern. -/
def Besides (patterns : List Pattern) (p : Pattern) (y : String) (s : Symbol) (x : String) : Prop :=
  (∃ p' ∈ patterns, p' ≠ p ∧ x ∈ (p'.automaton.image p'.label).targets y s) ∨
    (y = mergedInitial ∧ s = Symbol.epsilon ∧
      ∃ p' ∈ patterns, x = p'.label p'.automaton.initial)

theorem mem_targets_merged_iff_besides (hp : p ∈ patterns) : x ∈ (merged patterns).targets y s ↔
    x ∈ (p.automaton.image p.label).targets y s ∨ Besides patterns p y s x := by
  rw [mem_targets_merged, Besides, ← or_assoc]
  refine or_congr_left ⟨fun hex => ?_, fun hor => ?_⟩
  · obtain ⟨p', hp', hx⟩ := hex
    by_cases hpp' : p' = p
    · rw [hpp'] at hx
      exact .inl hx
    · exact .inr ⟨p', hp', hpp', hx⟩
  · rcases hor with hx | ⟨p', hp', _, hx⟩
    · exact ⟨p, hp, hx⟩
    · exact ⟨p', hp', hx⟩

/-- No edge leaves the copy of a pattern, and only one leads into it. -/
theorem copiedIn_merged (h : ValidTable patterns) (hp : p ∈ patterns) :
    CopiedIn p.part.name p.automaton (merged patterns) False (· = mergedInitial)
      (fun _ => False) := by
  have hstay : ∀ q s x, ¬Besides patterns p (p.label q) s x := by
    intro q s x hbesides
    rcases hbesides with ⟨p', hp', hne, hx⟩ | ⟨hinitial, _⟩
    · exact (h.label_ne_of_mem_targets hp hp' hne hx q).1 rfl
    · exact p.label_ne_mergedInitial q hinitial
  refine CopiedIn.of_targets (f := p.label) (fun _ => rfl)
    (fun y s x => mem_targets_merged_iff_besides hp) ?_ ?_ ?_
  · exact fun q s r => iff_of_false (hstay q s _) fun hand => hand.1
  · intro y s r _
    constructor
    · intro hbesides
      rcases hbesides with ⟨p', hp', hne, hx⟩ | ⟨hy, hs, p', hp', hr⟩
      · exact absurd rfl (h.label_ne_of_mem_targets hp hp' hne hx r).2
      · -- the joint to the initial state of another pattern leads elsewhere
        obtain ⟨rfl, rfl⟩ := h.eq_of_label_eq hp hp' hr
        exact ⟨hy, hs, rfl⟩
    · intro hand
      obtain ⟨hy, hs, rfl⟩ := hand
      exact .inr ⟨hy, hs, p, hp, rfl⟩
  · exact fun q s x _ => iff_of_false (hstay q s x) fun hand => hand.2.2

end ValidTable

/-! ## Copies -/

/-- Let two well-formed automata be combined, whatever their labels look like, or one of them with
    itself. (Whatever is built by operations is well-formed: `Construction.wellFormed_build`.) The
    result is well-formed again. It has one state for each state of the operands and one or two of
    its own, and `1` is its only accepting state. An edge between two labels in the namespace of an
    operand is the copy of an edge, unless it leads back to the initial state in a repetition. From
    outside, one gets there at the copy of the initial state only; to outside, from copies of
    accepting states only, and without a byte. The merged automaton of a table has one state for
    each state of the patterns and one of its own. The same holds of the namespaces of its patterns,
    but nothing leaves them, and their labels tell the kind. -/
theorem copies_kept_apart {a b : Regex} (ha : a.WellFormed) (hb : b.WellFormed) :
    ((Regex.union a b).size = a.size + b.size + 2 ∧
      (∀ q, q ∈ (Regex.union a b).accepting ↔ q = "1") ∧
      MadeOf (Regex.union a b) ["0", "1"] [⟨"a.", a⟩, ⟨"b.", b⟩] ∧
      CopiedIn "a." a (Regex.union a b) False (· = "0") (· = "1") ∧
      CopiedIn "b." b (Regex.union a b) False (· = "0") (· = "1")) ∧
    ((Regex.concat a b).size = a.size + b.size + 1 ∧
      (∀ q, q ∈ (Regex.concat a b).accepting ↔ q = "1") ∧
      MadeOf (Regex.concat a b) ["1"] [⟨"a.", a⟩, ⟨"b.", b⟩] ∧
      CopiedIn "a." a (Regex.concat a b) False (fun _ => False) (· = "b." ++ b.initial) ∧
      CopiedIn "b." b (Regex.concat a b) False (fun p => ∃ q ∈ a.accepting, "a." ++ q = p)
        (· = "1")) ∧
    ((Regex.star a).size = a.size + 2 ∧
      (∀ q, q ∈ (Regex.star a).accepting ↔ q = "1") ∧
      MadeOf (Regex.star a) ["0", "1"] [⟨"a.", a⟩] ∧
      CopiedIn "a." a (Regex.star a) True (· = "0") (· = "1")) ∧
    ∀ patterns l, Lexer.compile patterns = .ok l → (∀ p ∈ patterns, p.automaton.WellFormed) →
      l.nfa.size = 1 + (patterns.map fun p => p.automaton.size).sum ∧
      MadeOf l.nfa ["0"] (patterns.map fun p => ⟨p.kind ++ ".", p.automaton⟩) ∧
      ∀ p ∈ patterns,
        CopiedIn (p.kind ++ ".") p.automaton l.nfa False (· = "0") (fun _ => False) ∧
        ∀ q, InNamespace (p.kind ++ ".") q → kindOf q = p.kind := by
  have hunion := Regex.madeOf_union ha hb
  have hconcat := Regex.madeOf_concat ha hb
  have hstar := Regex.madeOf_star ha
  refine ⟨⟨?_, fun q => Regex.mem_accepting_union, hunion, Regex.copiedIn_union_left a b,
      Regex.copiedIn_union_right a b⟩,
    ⟨?_, fun q => Regex.mem_accepting_concat, hconcat, Regex.copiedIn_concat_left a b,
      Regex.copiedIn_concat_right a b⟩,
    ⟨?_, fun q => Regex.mem_accepting_star, hstar, Regex.copiedIn_star a⟩,
    fun patterns l hl hwell => ?_⟩
  · rw [hunion.size, List.map_cons, List.map_singleton, List.sum_cons, List.sum_singleton]
    exact Nat.add_comm 2 _
  · rw [hconcat.size, List.map_cons, List.map_singleton, List.sum_cons, List.sum_singleton]
    exact Nat.add_comm 1 _
  · rw [hstar.size, List.map_singleton, List.sum_singleton]
    exact Nat.add_comm 2 _
  · obtain ⟨htable, rfl⟩ := Lexer.compile_eq_ok_iff.mp hl
    have hmerged := htable.madeOf_merged hwell
    have hsize := hmerged.size
    rw [List.map_map] at hsize
    exact ⟨hsize, hmerged, fun p hp => ⟨htable.copiedIn_merged hp,
      fun q => p.kindOf_of_inNamespace (htable.valid p hp)⟩⟩

/-- An automaton with labels that look like those of copies is united with itself, and it is in a
    table together with its repetition, whose states look like those of a pattern. -/
theorem copies_kept_apart_lookalikes :
    let c : Construction ⟨String⟩ := .addAccepting (.addEdge (.addEdge (.ofInitial "0")
      ⟨"0", some 97, "a.0"⟩) ⟨"a.0", some 98, "b.1"⟩) "a.0"
    let a : Regex := c.build
    let patterns : List Pattern := [⟨"0", a⟩, ⟨"a", Regex.star a⟩]
    a.WellFormed ∧ (Regex.union a a).size = 8 ∧
      Regex.final ∈ (Regex.union a a).targets "b.a.0" Symbol.epsilon ∧
      ∃ l, Lexer.compile patterns = .ok l ∧ (Regex.star a).WellFormed ∧ l.nfa.size = 9 := by
  intro c a patterns
  have ha : a.WellFormed := c.wellFormed_build
  have hthree : a.size = 3 := by decide
  have hcompile : Lexer.compile patterns = .ok (Lexer.ofPatterns patterns) :=
    Lexer.compile_eq_ok_iff.mpr ⟨⟨List.cons_ne_nil _ _, by decide, by decide⟩, rfl⟩
  obtain ⟨⟨hunion, _, _, _, hcopy⟩, _, ⟨hstar, _, hmade, _⟩, hmerged⟩ := copies_kept_apart ha ha
  rw [hthree] at hunion hstar
  have hwell : ∀ p ∈ patterns, p.automaton.WellFormed :=
    List.forall_mem_cons.mpr ⟨ha, List.forall_mem_singleton.mpr hmade.wellFormed⟩
  obtain ⟨hsize, _⟩ := hmerged patterns _ hcompile hwell
  have hsum : (patterns.map fun p => p.automaton.size).sum = a.size + ((Regex.star a).size + 0) :=
    rfl
  rw [hsum, hthree, hstar] at hsize
  refine ⟨ha, hunion, ?_, _, hcompile, hmade.wellFormed, hsize⟩
  exact (hcopy.leave "a.0" Symbol.epsilon "1" (by decide)).mpr ⟨by decide, rfl, rfl⟩

end ByteLexer
