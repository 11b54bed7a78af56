import ByteLexer.Proofs.Lexer.Compiled

/-! # What is wrong with a table

    A table is checked from its first kind on, and each kind in two ways: is it well formed, and is
    it new? The check stops at the first fault, whatever comes behind it.

    - **Faults.** Places in a list of kinds, and the error that the first of them calls for.
    - **The check** goes on as long as there is no fault, and ends with this error otherwise.
    - **Indexes.** In a table that passes, a kind and its index determine each other.
-/

namespace ByteLexer

open Std (TransOrd LawfulEqOrd)

variable {kind : String} {kinds : List String} {i j : Nat} {e e' : TableError}

/-! ## Faults -/

/-- A kind that cannot stand in front of a label: it is empty, or holds a dot. -/
def Malformed (kind : String) : Prop :=
  kind = "" ∨ '.' ∈ kind.toList

theorem isValidKind_eq_true_iff : isValidKind kind = true ↔ ¬Malformed kind := by
  simp [isValidKind, Malformed, separator]

/-- At a place of a list there is a malformed kind, or one that stands further in front too. -/
def FaultAt (kinds : List String) (i : Nat) : Prop :=
  ∃ kind, kinds[i]? = some kind ∧ (Malformed kind ∨ kind ∈ kinds.take i)

/-- The first fault of a list. -/
structure FirstFault (kinds : List String) (i : Nat) : Prop where
  fault : FaultAt kinds i
  first : ∀ j < i, ¬FaultAt kinds j

theorem FirstFault.unique (h : FirstFault kinds i) (h' : FirstFault kinds j) : i = j := by
  rcases Nat.lt_trichotomy i j with hlt | heq | hlt
  · exact absurd h.fault (h'.first i hlt)
  · exact heq
  · exact absurd h'.fault (h.first j hlt)

/-- The error that a list of kinds calls for. It is about the first fault, and of a kind that is
    malformed it says so, even if the kind stands further in front too. -/
inductive TableError.CalledFor (kinds : List String) : TableError → Prop
  | noPatterns (h : kinds = []) : CalledFor kinds .noPatterns
  | invalidKind {i : Nat} {kind : String} (hfault : FirstFault kinds i)
      (hkind : kinds[i]? = some kind) (h : Malformed kind) : CalledFor kinds (.invalidKind kind)
  | duplicateKind {i : Nat} {kind : String} (hfault : FirstFault kinds i)
      (hkind : kinds[i]? = some kind) (h : ¬Malformed kind) : CalledFor kinds (.duplicateKind kind)

namespace TableError

/-- A list that is not empty calls for an error at its first fault only. -/
theorem CalledFor.exists_firstFault (h : e.CalledFor kinds) (hne : kinds ≠ []) :
    ∃ i kind, FirstFault kinds i ∧ kinds[i]? = some kind ∧
      (Malformed kind ∧ e = .invalidKind kind ∨ ¬Malformed kind ∧ e = .duplicateKind kind) := by
  cases h with
  | noPatterns h => exact absurd h hne
  | invalidKind hfault hkind h => exact ⟨_, _, hfault, hkind, .inl ⟨h, rfl⟩⟩
  | duplicateKind hfault hkind h => exact ⟨_, _, hfault, hkind, .inr ⟨h, rfl⟩⟩

/-- It calls for one error at most. -/
theorem CalledFor.unique (h : e.CalledFor kinds) (h' : e'.CalledFor kinds) : e = e' := by
  by_cases hne : kinds = []
  · subst hne
    have hnone : ∀ {e : TableError}, e.CalledFor [] → e = .noPatterns := by
      intro e he
      cases he with
      | noPatterns => rfl
      | invalidKind _ hkind => cases hkind
      | duplicateKind _ hkind => cases hkind
    rw [hnone h, hnone h']
  · obtain ⟨i, kind, hfault, hkind, hcases⟩ := h.exists_firstFault hne
    obtain ⟨j, kind', hfault', hkind', hcases'⟩ := h'.exists_firstFault hne
    rw [hfault.unique hfault', hkind'] at hkind
    obtain rfl := Option.some.inj hkind
    rcases hcases with ⟨hm, he⟩ | ⟨hm, he⟩
    · rcases hcases' with ⟨_, he'⟩ | ⟨hm', _⟩
      · rw [he, he']
      · exact absurd hm hm'
    · rcases hcases' with ⟨hm', _⟩ | ⟨_, he'⟩
      · exact absurd hm' hm
      · rw [he, he']

end TableError

/-! ## The check -/

/-- If what is declared are the kinds in front, among which there is no fault, the check of the
    others either finds no fault in the whole list, or ends with the error that it calls for. -/
theorem checkKinds_cases {declared : OrdSet String} {before : List String}
    (hdeclared : ∀ k, k ∈ declared ↔ k ∈ before)
    (hbefore : ∀ i < before.length, ¬FaultAt (before ++ kinds) i) :
    (checkKinds declared kinds = .ok () ∧ ∀ i, ¬FaultAt (before ++ kinds) i) ∨
      ∃ e, checkKinds declared kinds = .error e ∧ e.CalledFor (before ++ kinds) := by
  induction kinds generalizing declared before with
  | nil =>
    refine .inl ⟨rfl, fun i hi => ?_⟩
    obtain ⟨kind, hkind, _⟩ := id hi
    rw [List.append_nil] at hkind
    obtain ⟨hlt, _⟩ := List.getElem?_eq_some_iff.mp hkind
    exact hbefore i hlt hi
  | cons kind rest ih =>
    have hhere : (before ++ kind :: rest)[before.length]? = some kind := by
      rw [List.getElem?_append_right (Nat.le_refl _), Nat.sub_self, List.getElem?_cons_zero]
    have hfault : FaultAt (before ++ kind :: rest) before.length ↔
        Malformed kind ∨ kind ∈ before := by
      unfold FaultAt
      rw [hhere, List.take_left]
      simp only [Option.some.injEq, exists_eq_left']
    by_cases hm : Malformed kind
    · have hcheck : checkKinds declared (kind :: rest) = .error (.invalidKind kind) := by
        have hinvalid : isValidKind kind = false :=
          Bool.eq_false_iff.mpr fun hvalid => isValidKind_eq_true_iff.mp hvalid hm
        rw [checkKinds, hinvalid]
        rfl
      exact .inr ⟨_, hcheck, .invalidKind ⟨hfault.mpr (.inl hm), hbefore⟩ hhere hm⟩
    · have hcheck : checkKinds declared (kind :: rest) =
          if kind ∈ declared then .error (.duplicateKind kind)
          else checkKinds (declared.insert kind) rest := by
        rw [checkKinds, isValidKind_eq_true_iff.mpr hm]
        rfl
      rw [hcheck]
      by_cases hd : kind ∈ declared
      · rw [if_pos hd]
        have hfirst : FirstFault (before ++ kind :: rest) before.length :=
          ⟨hfault.mpr (.inr ((hdeclared kind).mp hd)), hbefore⟩
        exact .inr ⟨_, rfl, .duplicateKind hfirst hhere hm⟩
      · -- there is no fault here either, and the kind is in front of the others
        have hinserted : ∀ k, k ∈ declared.insert kind ↔ k ∈ before ++ [kind] := by
          intro k
          rw [Std.ExtTreeSet.mem_insert, Std.LawfulEqCmp.compare_eq_iff_eq, hdeclared,
            List.mem_append, List.mem_singleton, or_comm, eq_comm]
        have hnext := ih hinserted
        rw [List.append_assoc, List.singleton_append] at hnext
        rw [if_neg hd]
        refine hnext fun i hi => ?_
        rw [List.length_append, List.length_singleton, Nat.lt_succ_iff_lt_or_eq] at hi
        rcases hi with hi | rfl
        · exact hbefore i hi
        · exact fun h => (hfault.mp h).elim hm fun hmem => hd ((hdeclared kind).mpr hmem)

namespace Lexer

variable {patterns : List Pattern}

/-- Either a table is faultless and compiles, or it does not compile, with the error that it calls
    for. -/
theorem compile_cases (patterns : List Pattern) :
    (compile patterns = .ok (ofPatterns patterns) ∧ patterns ≠ [] ∧
      ∀ i, ¬FaultAt (patterns.map Pattern.kind) i) ∨
    ∃ e, compile patterns = .error e ∧ e.CalledFor (patterns.map Pattern.kind) := by
  rcases patterns with _ | ⟨p, rest⟩
  · exact .inr ⟨_, rfl, .noPatterns rfl⟩
  · have hcompile : compile (p :: rest) = (do
        checkKinds ∅ ((p :: rest).map Pattern.kind)
        return ofPatterns (p :: rest)) := rfl
    have hcases := @checkKinds_cases ((p :: rest).map Pattern.kind) ∅ []
      (fun k => iff_of_false Std.ExtTreeSet.not_mem_empty List.not_mem_nil)
      fun i hi => absurd hi (Nat.not_lt_zero i)
    rw [hcompile]
    rcases hcases with ⟨hcheck, hnone⟩ | ⟨e, hcheck, he⟩
    · rw [hcheck]
      exact .inl ⟨rfl, List.cons_ne_nil _ _, hnone⟩
    · rw [hcheck]
      exact .inr ⟨e, rfl, he⟩

/-- A table that does not compile is refused with the error that it calls for. -/
theorem compile_eq_error_iff : compile patterns = .error e ↔
    e.CalledFor (patterns.map Pattern.kind) := by
  rcases compile_cases patterns with ⟨hok, hne, hnone⟩ | ⟨e', herror, he'⟩
  · rw [hok]
    refine iff_of_false (fun h => nomatch h) fun h => ?_
    obtain ⟨i, _, hfault, _⟩ := h.exists_firstFault fun hnil => hne (List.map_eq_nil_iff.mp hnil)
    exact hnone i hfault.fault
  · rw [herror, Except.error.injEq]
    constructor
    · intro heq
      rw [← heq]
      exact he'
    · exact he'.unique

end Lexer

/-! ## Indexes -/

/-- An index is looked up for the kind that stands there, and for no other one. -/
theorem ValidTable.kindIndex?_eq_some_iff {patterns : List Pattern} (h : ValidTable patterns) :
    (Lexer.ofPatterns patterns).kindIndex? kind = some i ↔
      (Lexer.ofPatterns patterns).kind? i = some kind := by
  show (patterns.map Pattern.kind).idxOf? kind = some i ↔
    (patterns.map Pattern.kind)[i]? = some kind
  rw [List.idxOf?_eq_some_iff, List.getElem?_eq_some_iff]
  refine exists_congr fun hi => and_iff_left_of_imp fun hkind j hj hsame => ?_
  -- it stands nowhere else
  have heq := h.distinct.getElem_inj_iff.mp (hsame.trans hkind.symm)
  exact absurd heq (Nat.ne_of_lt hj)

/-- The index that is skipped is that of the kind to be skipped. -/
theorem ValidTable.isSkip_eq_true_iff {patterns : List Pattern} (h : ValidTable patterns) :
    (Lexer.ofPatterns patterns).isSkip i = true ↔
      (Lexer.ofPatterns patterns).kind? i = some skipKind := by
  rw [← h.kindIndex?_eq_some_iff]
  exact beq_iff_eq

namespace Lexer

/-- A table compiles exactly if it is not empty, no kind in it is empty or holds a dot, and no two
    kinds in it are the same. It is refused with the error that its kinds call for: that there are
    none, or that the first kind at fault is malformed, or else declared twice. If it compiles, each
    place in it has a kind, each kind has the index of its place, and at most one index is skipped,
    that of the kind to be skipped. -/
theorem compile_exact (patterns : List Pattern) :
    ((∃ l, compile patterns = .ok l) ↔ patterns ≠ [] ∧
      (∀ p ∈ patterns, p.kind ≠ "" ∧ '.' ∉ p.kind.toList) ∧ (patterns.map Pattern.kind).Nodup) ∧
    (∀ e, compile patterns = .error e ↔ e.CalledFor (patterns.map Pattern.kind)) ∧
    ∀ l, compile patterns = .ok l →
      (∀ i, i < patterns.length → ∃ kind, l.kind? i = some kind ∧ l.kindIndex? kind = some i) ∧
      (∀ i, l.isSkip i = true ↔ l.kind? i = some skipKind) ∧
      ∀ i j, l.isSkip i = true → l.isSkip j = true → i = j := by
  refine ⟨?_, fun e => compile_eq_error_iff, fun l hl => ?_⟩
  · have hvalid : ∀ p : Pattern, isValidKind p.kind = true ↔ p.kind ≠ "" ∧ '.' ∉ p.kind.toList := by
      intro p
      rw [isValidKind_eq_true_iff, Malformed, not_or]
    simp only [compile_eq_ok_iff, exists_and_left, exists_eq, and_true, ← hvalid]
    constructor
    · intro h
      exact ⟨h.nonempty, h.valid, h.distinct⟩
    · intro h
      exact ⟨h.1, h.2.1, h.2.2⟩
  · obtain ⟨htable, rfl⟩ := compile_eq_ok_iff.mp hl
    refine ⟨fun i hi => ?_, fun i => htable.isSkip_eq_true_iff, fun i j hi hj => ?_⟩
    · have hkind := kind?_of_getElem? (List.getElem?_eq_getElem hi)
      exact ⟨_, hkind, htable.kindIndex?_eq_some_iff.mpr hkind⟩
    · rw [htable.isSkip_eq_true_iff, ← htable.kindIndex?_eq_some_iff] at hi hj
      rw [hi] at hj
      exact Option.some.inj hj

/-- Of two faults the first one counts. -/
theorem compile_exact_twice :
    let a : Pattern := ⟨"A", Regex.byte 97⟩
    let table : List Pattern := [⟨skipKind, Regex.byte 32⟩, a]
    compile (table ++ [a, ⟨"", Regex.byte 98⟩]) = .error (.duplicateKind "A") ∧
      ∃ l, compile table = .ok l ∧ l.kind? 1 = some "A" ∧ l.kindIndex? "A" = some 1 ∧
        l.isSkip 0 = true := by
  intro a table
  have hfirst : FirstFault ["SKIP", "A", "A", ""] 2 := by
    refine ⟨⟨"A", rfl, .inr (by decide)⟩, fun j hj hfault => ?_⟩
    obtain ⟨kind, hkind, hcases⟩ := hfault
    match j, hj with
    | 0, _ =>
      obtain rfl := Option.some.inj hkind
      exact absurd hcases (by unfold Malformed; decide)
    | 1, _ =>
      obtain rfl := Option.some.inj hkind
      exact absurd hcases (by unfold Malformed; decide)
  have hmalformed : ¬Malformed "A" := by
    unfold Malformed
    decide
  obtain ⟨_, herror, _⟩ := compile_exact (table ++ [a, ⟨"", Regex.byte 98⟩])
  obtain ⟨hok, _, hindexes⟩ := compile_exact table
  obtain ⟨l, hl⟩ := hok.mpr ⟨List.cons_ne_nil _ _, by decide, by decide⟩
  obtain ⟨hkinds, hskip, _⟩ := hindexes l hl
  obtain ⟨_, rfl⟩ := compile_eq_ok_iff.mp hl
  obtain ⟨kind, hkind, hindex⟩ := hkinds 1 (by decide)
  obtain rfl : "A" = kind := Option.some.inj hkind
  exact ⟨(herror _).mpr (.duplicateKind hfirst rfl hmalformed), _, hl, hkind, hindex,
    (hskip 0).mpr rfl⟩

end Lexer

end ByteLexer
