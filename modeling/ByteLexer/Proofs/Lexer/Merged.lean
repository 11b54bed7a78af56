import ByteLexer.Lexer.Basic
import ByteLexer.Proofs.Automaton.Deterministic
import ByteLexer.Proofs.Automaton.Words
import ByteLexer.Proofs.Regex.Shape
import Mathlib.Data.List.Nodup

/-! # Tables and their merged automata

    A table that passes the checks keeps its patterns apart by their kinds, so the
    merged automaton is all of them side by side.

    - **Tables.** `compile` succeeds on the tables whose kinds are valid and distinct.
    - **Labels.** The kind can be read back from a label, and different patterns have
      no label in common.
    - **Paths.** From the new initial state a path enters the copy of one pattern and
      stays there.
-/

namespace ByteLexer

open Std (TransOrd LawfulEqOrd)
open Automaton

/-! ## Tables -/

/-- A table that is not empty and whose kinds are valid and distinct. -/
structure ValidTable (patterns : List Pattern) : Prop where
  nonempty : patterns ≠ []
  valid : ∀ p ∈ patterns, isValidKind p.kind = true
  distinct : (patterns.map Pattern.kind).Nodup

theorem checkKinds_eq_ok_iff {declared : OrdSet String} {kinds : List String} :
    checkKinds declared kinds = .ok () ↔
      (∀ k ∈ kinds, isValidKind k = true ∧ k ∉ declared) ∧ kinds.Nodup := by
  induction kinds generalizing declared with
  | nil => simp [checkKinds]
  | cons kind rest ih =>
    rw [checkKinds]
    by_cases hv : isValidKind kind = true
    · by_cases hd : kind ∈ declared
      · simp [hv, hd]
      · -- the kind counts as declared for the rest
        simp only [hv, hd, ih, List.nodup_cons, List.mem_cons, forall_eq_or_imp,
          Std.ExtTreeSet.mem_insert, Std.LawfulEqCmp.compare_eq_iff_eq, not_or,
          Bool.not_true, Bool.false_eq_true, if_false, not_false_eq_true, true_and]
        constructor
        · intro hand
          obtain ⟨h, hn⟩ := hand
          exact ⟨fun k hk => ⟨(h k hk).1, (h k hk).2.2⟩, fun hk => (h kind hk).2.1 rfl, hn⟩
        · intro hand
          obtain ⟨h, hk, hn⟩ := hand
          refine ⟨fun k hk' => ⟨(h k hk').1, fun he => hk ?_, (h k hk').2⟩, hn⟩
          rw [he]
          exact hk'
    · simp [hv]

/-- The checks succeed on the valid tables. -/
theorem checkTable_eq_ok_iff {patterns : List Pattern} :
    checkTable patterns = .ok () ↔ ValidTable patterns := by
  rcases patterns with _ | ⟨p, rest⟩
  · constructor
    · intro h
      cases h
    · intro h
      exact absurd rfl h.nonempty
  · rw [checkTable, List.isEmpty_cons, if_neg Bool.false_ne_true, checkKinds_eq_ok_iff]
    constructor
    · intro hand
      obtain ⟨h, hn⟩ := hand
      exact ⟨List.cons_ne_nil _ _, fun p hp => (h p.kind (List.mem_map_of_mem hp)).1, hn⟩
    · intro h
      -- nothing is declared before the first pattern
      refine ⟨fun k hk => ?_, h.distinct⟩
      obtain ⟨q, hq, hqk⟩ := List.mem_map.mp hk
      rw [← hqk]
      exact ⟨h.valid q hq, Std.ExtTreeSet.not_mem_empty⟩

/-- Compilation succeeds on the valid tables. -/
theorem Lexer.compile_eq_ok_iff {patterns : List Pattern} {l : Lexer} :
    Lexer.compile patterns = .ok l ↔ ValidTable patterns ∧ l = Lexer.ofPatterns patterns := by
  rw [← checkTable_eq_ok_iff]
  rcases h : checkTable patterns with e | u
  · have hc : Lexer.compile patterns = .error e := by
      rw [Lexer.compile, h]
      rfl
    rw [hc]
    constructor
    · intro h
      cases h
    · intro h
      cases h.1
  · have hc : Lexer.compile patterns = .ok (Lexer.ofPatterns patterns) := by
      rw [Lexer.compile, h]
      rfl
    rw [hc, Except.ok.injEq]
    exact ⟨fun h => ⟨rfl, h.symm⟩, fun h => h.2.symm⟩

/-! ## Labels -/

/-- The label of a state of a pattern in the merged automaton. -/
def Pattern.label (p : Pattern) (q : String) : String :=
  p.kind ++ separator.toString ++ q

theorem Pattern.toList_label (p : Pattern) (q : String) :
    (p.label q).toList = p.kind.toList ++ separator :: q.toList := by
  simp [label, separator]

theorem Pattern.label_injective {p : Pattern} {q r : String} (h : p.label q = p.label r) :
    q = r :=
  (String.append_right_inj _).mp h

theorem Pattern.qualified_eq (p : Pattern) : p.qualified = p.automaton.image p.label :=
  rfl

theorem separator_not_mem_of_isValidKind {kind : String} (h : isValidKind kind = true) :
    separator ∉ kind.toList := by
  intro hmem
  simp [isValidKind, hmem] at h

/-- The kind of a pattern is read back from its labels. -/
theorem Pattern.kindOf_label {p : Pattern} (h : isValidKind p.kind = true) (q : String) :
    kindOf (p.label q) = p.kind := by
  have hkind : ∀ c ∈ p.kind.toList, (c != separator) = true := by
    intro c hc
    rw [bne_iff_ne]
    intro he
    rw [he] at hc
    exact separator_not_mem_of_isValidKind h hc
  rw [kindOf, p.toList_label, List.takeWhile_append_of_pos hkind,
    List.takeWhile_cons_of_neg (by simp), List.append_nil, String.ofList_toList]

/-- The new initial state has a label of its own. -/
theorem Pattern.label_ne_mergedInitial (p : Pattern) (q : String) :
    p.label q ≠ mergedInitial := by
  intro h
  have hmem : separator ∈ mergedInitial.toList := by
    rw [← h, p.toList_label]
    simp
  exact absurd hmem (by decide)

namespace ValidTable

variable {patterns : List Pattern} {p p' : Pattern} {i : Nat}

theorem eq_of_kind_eq (h : ValidTable patterns) (hp : p ∈ patterns) (hp' : p' ∈ patterns)
    (hk : p.kind = p'.kind) : p = p' :=
  List.inj_on_of_nodup_map h.distinct hp hp' hk

/-- Labels tell the patterns of a table apart. -/
theorem eq_of_label_eq (h : ValidTable patterns) (hp : p ∈ patterns) (hp' : p' ∈ patterns)
    {q r : String} (hl : p.label q = p'.label r) : p = p' ∧ q = r := by
  have hk : p.kind = p'.kind := by
    rw [← p.kindOf_label (h.valid p hp) q, hl, p'.kindOf_label (h.valid p' hp')]
  obtain rfl := h.eq_of_kind_eq hp hp' hk
  exact ⟨rfl, Pattern.label_injective hl⟩

end ValidTable

/-! ## Edges -/

section Edges

variable {patterns : List Pattern} {p x : String} {s : Symbol}

/-- The edges of a merged automaton: those of the copies, and a joint to each of them. -/
theorem mem_targets_merged : x ∈ (merged patterns).targets p s ↔
    (∃ pat ∈ patterns, x ∈ (pat.automaton.image pat.label).targets p s) ∨
    (p = mergedInitial ∧ s = Symbol.epsilon ∧
      ∃ pat ∈ patterns, x = pat.label pat.automaton.initial) := by
  have hfold : ∀ A : Regex, x ∈ (patterns.foldl addPattern A).targets p s ↔
      x ∈ A.targets p s ∨
      (∃ pat ∈ patterns, x ∈ (pat.automaton.image pat.label).targets p s) ∨
      (p = mergedInitial ∧ s = Symbol.epsilon ∧
        ∃ pat ∈ patterns, x = pat.label pat.automaton.initial) := by
    induction patterns with
    | nil => simp
    | cons pat rest ih =>
      intro A
      simp only [List.foldl_cons, ih, addPattern, Pattern.qualified_eq, mem_targets_extend,
        mem_targets_overlay, initial_image, Regex.edge_eq_joint, List.mem_cons,
        exists_eq_or_imp]
      grind
  simp only [merged, hfold, not_mem_targets_ofInitial, false_or]

/-- The accepting states of a merged automaton are those of the copies. -/
theorem mem_accepting_merged : x ∈ (merged patterns).accepting ↔
    ∃ pat ∈ patterns, ∃ q ∈ pat.automaton.accepting, pat.label q = x := by
  have hfold : ∀ A : Regex, x ∈ (patterns.foldl addPattern A).accepting ↔
      x ∈ A.accepting ∨ ∃ pat ∈ patterns, ∃ q ∈ pat.automaton.accepting, pat.label q = x := by
    induction patterns with
    | nil => simp
    | cons pat rest ih =>
      intro A
      simp only [List.foldl_cons, ih, addPattern, Pattern.qualified_eq, mem_accepting_extend,
        mem_accepting_overlay, Std.ExtTreeSet.mem_toList, mem_accepting_image, List.mem_cons,
        exists_eq_or_imp, or_assoc]
  simp only [merged, hfold, not_mem_accepting_ofInitial, false_or]

theorem initial_merged (patterns : List Pattern) : (merged patterns).initial = mergedInitial := by
  have hfold : ∀ A : Regex, (patterns.foldl addPattern A).initial = A.initial := by
    induction patterns with
    | nil => exact fun _ => rfl
    | cons pat rest ih =>
      intro A
      rw [List.foldl_cons, ih, addPattern, initial_extend, initial_overlay]
  rw [merged, hfold, initial_ofInitial]

theorem tidy_merged (patterns : List Pattern) : (merged patterns).Tidy := by
  have hfold : ∀ A : Regex, A.Tidy → (patterns.foldl addPattern A).Tidy := by
    induction patterns with
    | nil => exact fun _ h => h
    | cons pat rest ih =>
      intro A h
      exact ih _ ((h.extend _ _ _).extend _ _ _)
  exact hfold _ (tidy_ofInitial _)

end Edges

/-! ## Paths -/

namespace ValidTable

variable {patterns : List Pattern} {p : Pattern} {w : List UInt8} {q x : String}

/-- The copy of a pattern is a region that nothing leaves. -/
theorem region (h : ValidTable patterns) (hp : p ∈ patterns) :
    Region (fun _ => True) p.label p.automaton (merged patterns) fun _ => False := by
  refine Regex.region_of_targets (fun _ _ => Pattern.label_injective) fun q s x => ?_
  rw [mem_targets_merged]
  constructor
  · intro hx
    rcases hx with ⟨p', hp', hx⟩ | ⟨hinit, _⟩
    · -- the label belongs to the copy of one pattern only
      obtain ⟨q', _, _, hl, _⟩ := mem_targets_image.mp hx
      obtain ⟨rfl, _⟩ := h.eq_of_label_eq hp' hp hl
      exact .inl hx
    · exact absurd hinit (p.label_ne_mergedInitial q)
  · intro hx
    rcases hx with hx | ⟨_, _, hx⟩
    · exact .inl ⟨p, hp, hx⟩
    · exact hx.elim

/-- A path from the initial state stays there, or it is a path of one pattern. -/
theorem path_merged_iff (h : ValidTable patterns) :
    (merged patterns).Path mergedInitial w x ↔
      (w = [] ∧ x = mergedInitial) ∨
      ∃ p ∈ patterns, ∃ t, p.label t = x ∧ p.automaton.Path p.automaton.initial w t := by
  have hstart : ∀ s r, r ∈ (merged patterns).targets mergedInitial s ↔
      s = Symbol.epsilon ∧ ∃ p ∈ patterns, r = p.label p.automaton.initial := by
    intro s r
    rw [mem_targets_merged]
    constructor
    · intro hr
      rcases hr with ⟨p, _, hr⟩ | ⟨_, hs, hr⟩
      · obtain ⟨q, _, _, hl, _⟩ := mem_targets_image.mp hr
        exact absurd hl (p.label_ne_mergedInitial q)
      · exact ⟨hs, hr⟩
    · intro hand
      obtain ⟨hs, hr⟩ := hand
      exact .inr ⟨rfl, hs, hr⟩
  constructor
  · intro hpath
    generalize hq : mergedInitial = q at hpath
    cases hpath with
    | nil => exact .inl ⟨rfl, rfl⟩
    | silent hr htail =>
      rw [← hq] at hr
      obtain ⟨_, p, hp, hpr⟩ := (hstart _ _).mp hr
      rw [hpr, (h.region hp).path_iff trivial] at htail
      obtain ⟨t, ht, hpath⟩ := htail
      exact .inr ⟨p, hp, t, ht, hpath⟩
    | byte hr _ =>
      rw [← hq] at hr
      cases ((hstart _ _).mp hr).1
  · intro hcase
    rcases hcase with ⟨hw, hx⟩ | ⟨p, hp, t, ht, hpath⟩
    · rw [hw, hx]
      exact .nil _
    · rw [← ht]
      exact .silent ((hstart _ _).mpr ⟨rfl, p, hp, rfl⟩)
        (((h.region hp).path_iff trivial).mpr ⟨t, rfl, hpath⟩)

/-- A word is viable in the merged automaton if it is so in some pattern. -/
theorem viable_merged_iff (h : ValidTable patterns) :
    (merged patterns).Viable w ↔ ∃ p ∈ patterns, p.automaton.Viable w := by
  simp only [Viable, initial_merged, h.path_merged_iff]
  constructor
  · intro hex
    obtain ⟨x, hx⟩ := hex
    rcases hx with ⟨hw, _⟩ | ⟨p, hp, t, _, hpath⟩
    · obtain ⟨p, hp⟩ := List.exists_mem_of_ne_nil patterns h.nonempty
      rw [hw]
      exact ⟨p, hp, p.automaton.viable_nil⟩
    · exact ⟨p, hp, t, hpath⟩
  · intro hex
    obtain ⟨p, hp, t, hpath⟩ := hex
    exact ⟨p.label t, .inr ⟨p, hp, t, rfl, hpath⟩⟩

/-- The accepting states that a word leads to are the copies of those that it leads to in the
    patterns. -/
theorem path_accepting_merged_iff (h : ValidTable patterns) :
    (merged patterns).Path mergedInitial w x ∧ x ∈ (merged patterns).accepting ↔
      ∃ p ∈ patterns, ∃ t, p.label t = x ∧ p.automaton.Path p.automaton.initial w t ∧
        t ∈ p.automaton.accepting := by
  rw [h.path_merged_iff, mem_accepting_merged]
  constructor
  · intro hand
    obtain ⟨hpath, p, hp, q, hq, hl⟩ := hand
    rcases hpath with ⟨_, hx⟩ | ⟨p', hp', t, ht, hpath⟩
    · rw [hx] at hl
      exact absurd hl (p.label_ne_mergedInitial q)
    · obtain ⟨rfl, rfl⟩ := h.eq_of_label_eq hp hp' (hl.trans ht.symm)
      exact ⟨p, hp, q, hl, hpath, hq⟩
  · intro hex
    obtain ⟨p, hp, t, ht, hpath, hacc⟩ := hex
    exact ⟨.inr ⟨p, hp, t, ht, hpath⟩, p, hp, t, hacc, ht⟩

/-- A word is accepted by the merged automaton if some pattern accepts it. -/
theorem accepts_merged_iff (h : ValidTable patterns) :
    (merged patterns).Accepts w ↔ ∃ p ∈ patterns, p.automaton.Accepts w := by
  simp only [Accepts, initial_merged, h.path_accepting_merged_iff]
  constructor
  · intro hex
    obtain ⟨x, p, hp, t, _, hpath, hacc⟩ := hex
    exact ⟨p, hp, t, hpath, hacc⟩
  · intro hex
    obtain ⟨p, hp, t, hpath, hacc⟩ := hex
    exact ⟨p.label t, p, hp, t, rfl, hpath, hacc⟩

end ValidTable

end ByteLexer
