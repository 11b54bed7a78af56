import ByteLexer.Proofs.Session.MaximalMunch

/-! # Kinds that are never produced

    A compiled lexer warns of a kind that no accepting state has. Such a kind is first at no
    word, so no session returns a token of it. The converse fails in one way only: tokens are not
    empty, so a kind that is first at the empty word and at no other one is not returned either,
    though the initial state has it.

    - **Accepting states.** A kind is that of an accepting state if it is first at some word.
    - **The log.** Which kinds it warns of.
    - **Sessions.** A kind is returned by some session if it is first at some word that is not
      empty.
-/

namespace ByteLexer

open Automaton

variable {patterns : List Pattern} {p : Pattern} {w : List UInt8} {i : Nat} {kind : String}

namespace Lexer

/-! ## Accepting states -/

/-- A kind is that of some accepting state exactly if it is first at some word. -/
theorem exists_accepting_kind?_iff (h : ValidTable patterns) :
    (∃ q ∈ (ofPatterns patterns).automaton.accepting, q.kind? = some i) ↔
      ∃ w, FirstMatch patterns w i := by
  constructor
  · intro hex
    obtain ⟨q, hacc, hkind⟩ := hex
    -- an accepting state is known, so some word leads to it
    have himage := hacc
    rw [automaton_ofPatterns] at himage
    obtain ⟨T, hT, hq⟩ := mem_accepting_image.mp himage
    have hvisit := mem_visitOrder_of_mem (mem_of_mem_accepting_subsetConstruction hT)
    exact exists_firstMatch_of_mem h (mem_automaton_iff.mpr ⟨T, hvisit, hq⟩) hkind
  · intro hex
    obtain ⟨w, hw⟩ := hex
    obtain ⟨q, _, hpath⟩ := exists_path_of_matchedAt h hw.1
    refine ⟨q, (mem_accepting_iff_of_path h hpath).mpr (exists_matchedAt_iff.mp ⟨i, hw.1⟩), ?_⟩
    rw [kind?_of_path h hpath, h.winner_reached_eq_some_iff]
    exact hw

/-! ## The log -/

theorem mem_deadKinds_iff (l : Lexer) : kind ∈ l.deadKinds ↔
    ∃ i, l.kinds[i]? = some kind ∧ ¬∃ q ∈ l.automaton.accepting, q.kind? = some i := by
  simp only [deadKinds, List.mem_map, List.mem_filter, Prod.exists, List.mem_zipIdx_iff_getElem?,
    Bool.not_eq_true', ← Bool.not_eq_true, Std.ExtTreeSet.contains_iff_mem, OrdSet.mem_ofMembers,
    List.mem_filterMap, Std.ExtTreeSet.mem_toList]
  constructor
  · intro hex
    obtain ⟨k, i, ⟨hi, hno⟩, rfl⟩ := hex
    exact ⟨i, hi, hno⟩
  · intro hex
    obtain ⟨i, hi, hno⟩ := hex
    exact ⟨kind, i, ⟨hi, hno⟩, rfl⟩

theorem deadKindRecord_injective {kind' : String} (h : deadKindRecord kind = deadKindRecord kind') :
    kind = kind' := by
  have htext : "token kind `" ++ kind ++ "` can never be produced" =
      "token kind `" ++ kind' ++ "` can never be produced" := congrArg Record.text h
  exact (String.append_right_inj _).mp ((String.append_left_inj _).mp htext)

/-- The log warns of those kinds. Whatever else it reports is less important. -/
theorem deadKindRecord_mem_compilationLog_iff (l : Lexer) :
    deadKindRecord kind ∈ l.compilationLog ↔ kind ∈ l.deadKinds := by
  unfold compilationLog
  constructor
  · intro hmem
    rcases List.mem_append.mp hmem with hmem | hdead
    · have hdebug : (deadKindRecord kind).level = .debug := by
        rcases List.mem_append.mp hmem with hsize | hambiguity
        · rcases List.mem_cons.mp hsize with heq | hsize
          · rw [heq]
          · rw [List.mem_singleton.mp hsize]
        · obtain ⟨a, _, heq⟩ := List.mem_map.mp hambiguity
          rw [← heq]
          rfl
      cases hdebug
    · obtain ⟨k, hk, heq⟩ := List.mem_map.mp hdead
      rw [← deadKindRecord_injective heq]
      exact hk
  · intro hdead
    exact List.mem_append_right _ (List.mem_map_of_mem hdead)

/-- The log warns of a kind if it is not first at any word. -/
theorem deadKindRecord_logged_iff (h : ValidTable patterns) (hp : patterns[i]? = some p) :
    deadKindRecord p.kind ∈ (ofPatterns patterns).compilationLog ↔
      ∀ w, ¬FirstMatch patterns w i := by
  have hindex : ∀ j, (ofPatterns patterns).kinds[j]? = some p.kind ↔ j = i := fun j =>
    h.kind?_eq_some_iff hp
  rw [deadKindRecord_mem_compilationLog_iff, mem_deadKinds_iff]
  simp only [hindex, exists_eq_left, exists_accepting_kind?_iff h, not_exists]

/-! ## Sessions -/

/-- Some session of a lexer returns a token of a kind. -/
def Produces (l : Lexer) (kind : String) : Prop :=
  ∃ (m : Metrics) (input : List UInt8) (history : List Session.Call) (t : Token),
    ((Session.ofInput l m input).after history).nextRaw.answer = .ok (some t) ∧ t.kind = kind

/-- A token that a session returns is of the kind that is first at its lexeme. -/
theorem firstMatch_of_nextRaw (h : ValidTable patterns) {m : Metrics} {s : Session} {t : Token}
    (hs : Session.Consistent (ofPatterns patterns) m s) (ht : s.nextRaw.answer = .ok (some t)) :
    t.lexeme ≠ [] ∧ ∃ i p, patterns[i]? = some p ∧ t.kind = p.kind ∧
      FirstMatch patterns t.lexeme i := by
  have hread := Session.read_of_answer_nextRaw ht
  obtain ⟨i, u, span, _, hdue, hfirst, rfl⟩ := hs.longestViable_of_read h hread
  obtain ⟨p, hp, _⟩ := hfirst.1
  refine ⟨hdue.1, i, p, hp, ?_, hfirst⟩
  show (s.lexer.kind? i).getD "" = p.kind
  rw [hs.lexer, kind?_of_getElem? hp, Option.getD_some]

/-- A kind is produced exactly if it is first at a word that is not empty. Then this word is an
    input that produces it. -/
theorem produces_iff (h : ValidTable patterns) (hp : patterns[i]? = some p) :
    (ofPatterns patterns).Produces p.kind ↔ ∃ w, w ≠ [] ∧ FirstMatch patterns w i := by
  constructor
  · intro hex
    obtain ⟨m, input, history, t, ht, hkind⟩ := hex
    obtain ⟨hne, j, p', hj, hkind', hfirst⟩ :=
      firstMatch_of_nextRaw h (Session.consistent_after _ m input history) ht
    rw [hkind] at hkind'
    rw [← h.eq_of_kind_eq (List.mem_of_getElem? hp) (List.mem_of_getElem? hj) hkind'] at hj
    rw [h.index_unique hj hp] at hfirst
    exact ⟨t.lexeme, hne, hfirst⟩
  · intro hex
    obtain ⟨w, hne, hw⟩ := hex
    have hdue : TokenDue patterns w := ⟨hne, exists_matchedAt_iff.mp ⟨i, hw.1⟩⟩
    have hmeasures : ({} : Metrics).Measures (latin1 w) := fun _ => by decide
    obtain ⟨j, span, s', hj, _, hraw⟩ := Session.exists_nextRaw_of_tokenDue h hdue hmeasures
    obtain rfl := hj.unique hw
    refine ⟨{}, w, [], _, congrArg Session.Reply.answer hraw, ?_⟩
    show ((ofPatterns patterns).kind? j).getD "" = p.kind
    rw [kind?_of_getElem? hp, Option.getD_some]

/-- The log of a compiled lexer warns of a kind exactly if no session returns a token of it, in
    whatever metrics, on whatever input and after whatever history of calls, and it is not the
    first kind to match the empty word either. -/
theorem deadKind_logged_iff {l : Lexer} (h : compile patterns = .ok l)
    (hp : patterns[i]? = some p) :
    deadKindRecord p.kind ∈ l.compilationLog ↔
      ¬l.Produces p.kind ∧ ¬FirstMatch patterns [] i := by
  obtain ⟨htable, rfl⟩ := compile_eq_ok_iff.mp h
  rw [deadKindRecord_logged_iff htable hp, produces_iff htable hp]
  constructor
  · intro hno
    refine ⟨fun hex => ?_, hno []⟩
    obtain ⟨w, _, hw⟩ := hex
    exact hno w hw
  · intro hand w hw
    obtain ⟨hno, hempty⟩ := hand
    by_cases hnil : w = []
    · rw [hnil] at hw
      exact hempty hw
    · exact hno ⟨w, hnil, hw⟩

/-- A kind is warned of if an earlier one matches the same words. -/
theorem deadKind_logged_iff_shadowed :
    let patterns : List Pattern := [⟨"A", Regex.word [97]⟩, ⟨"B", Regex.word [97]⟩]
    let l := ofPatterns patterns
    compile patterns = .ok l ∧ patterns[1]? = some ⟨"B", Regex.word [97]⟩ ∧
    deadKindRecord "B" ∈ l.compilationLog ∧ ¬l.Produces "B" := by
  intro patterns l
  have htable : ValidTable patterns := ⟨List.cons_ne_nil _ _, by decide, by decide⟩
  have hcompile : compile patterns = .ok l := compile_eq_ok_iff.mpr ⟨htable, rfl⟩
  have hB : patterns[1]? = some ⟨"B", Regex.word [97]⟩ := rfl
  have hlogged : deadKindRecord "B" ∈ l.compilationLog := by
    refine (deadKindRecord_logged_iff htable hB).mpr fun w hw => ?_
    obtain ⟨b, hb, hrecognized⟩ := hw.1
    rw [hB] at hb
    rw [← Option.some.inj hb] at hrecognized
    -- the first pattern recognizes the same word
    exact hw.2 0 Nat.one_pos ⟨_, rfl, hrecognized⟩
  exact ⟨hcompile, hB, hlogged, ((deadKind_logged_iff hcompile hB).mp hlogged).1⟩

/-- A kind that matches the empty word and no other one is not warned of, though no session returns
    a token of it. -/
theorem deadKind_not_logged_empty :
    let patterns : List Pattern := [⟨"E", Regex.epsilon⟩]
    let l := ofPatterns patterns
    compile patterns = .ok l ∧ l.kinds = ["E"] ∧
    ¬(deadKindRecord "E" ∈ l.compilationLog ↔ ¬l.Produces "E") := by
  intro patterns l
  have htable : ValidTable patterns := ⟨List.cons_ne_nil _ _, by decide, by decide⟩
  have hcompile : compile patterns = .ok l := compile_eq_ok_iff.mpr ⟨htable, rfl⟩
  have hE : patterns[0]? = some ⟨"E", Regex.epsilon⟩ := rfl
  have hmatch : ∀ w, MatchedAt patterns w 0 ↔ w = [] := by
    intro w
    simp [MatchedAt, patterns, recognizes_iff_accepts, Regex.accepts_epsilon_iff]
  have hempty : FirstMatch patterns [] 0 :=
    ⟨(hmatch []).mpr rfl, fun j hj => absurd hj (Nat.not_lt_zero j)⟩
  have hnotLogged : deadKindRecord "E" ∉ l.compilationLog := fun hlogged =>
    (deadKindRecord_logged_iff htable hE).mp hlogged [] hempty
  have hnever : ¬l.Produces "E" := by
    intro hproduces
    obtain ⟨w, hne, hw⟩ := (produces_iff htable hE).mp hproduces
    exact hne ((hmatch w).mp hw.1)
  exact ⟨hcompile, rfl, fun hiff => hnotLogged (hiff.mpr hnever)⟩

end Lexer

end ByteLexer
