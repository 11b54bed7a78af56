import ByteLexer.Proofs.Session.LexicalErrors

/-! # What cannot happen

    The run of a session can meet an automaton that does not say where to go, a state can be of a
    kind with any index, and what is read next is cut out of the input by offsets. None of this goes
    wrong with a lexer that has been compiled, whatever is called.

    - **States.** The kind of a known state is a kind of the table.
    - **Reading.** Wherever a call reads, the run starts in the initial state, comes to a known
      state, and stays within the input.
    - **Calls.** What is answered: tokens of the kinds of the table, and errors that say something.
-/

namespace ByteLexer

variable {patterns : List Pattern} {l : Lexer} {m : Metrics}

/-! ## States -/

/-- The index of the kind of a known state is that of a kind of the table. -/
theorem ValidTable.kind?_lt_of_mem (h : ValidTable patterns) {q : LexerState} {i : Nat}
    (hq : q ∈ (Lexer.ofPatterns patterns).automaton) (hkind : q.kind? = some i) :
    i < (Lexer.ofPatterns patterns).kinds.length := by
  obtain ⟨w, hfirst⟩ := Lexer.exists_firstMatch_of_mem h hq hkind
  obtain ⟨p, hp, _⟩ := hfirst.1
  obtain ⟨hlt, _⟩ := List.getElem?_eq_some_iff.mp hp
  show i < (patterns.map Pattern.kind).length
  rw [List.length_map]
  exact hlt

namespace Session

variable {s u : Session} {t : Token} {f : Failure} {tokens : List Token}

/-! ## Reading -/

/-- Reading is safe in a session of a lexer if its run has read nothing, if it follows what is left
    of the input without an error, up to a state that is known, and if what it consumes is a part of
    the input. -/
structure ReadsSafely (l : Lexer) (s : Session) : Prop where
  run : s.run = Run.ofAutomaton l.automaton
  offset_le : s.offset ≤ s.input.length
  rest : s.rest = s.input.drop s.offset
  error : (s.run.restart.follow s.rest).error = none
  state : (s.run.restart.follow s.rest).run.state ∈ l.automaton
  within : s.offset + (s.run.restart.follow s.rest).consumed.length ≤ s.input.length
  consumed : (s.run.restart.follow s.rest).consumed =
    (s.input.drop s.offset).take (s.run.restart.follow s.rest).consumed.length

/-- At rest, the run of a session has read nothing. -/
theorem AtRest.run_eq (h : AtRest s) (hs : Consistent l m s) :
    s.run = Run.ofAutomaton l.automaton := by
  have hrun : s.run.restart = s.run := h
  rw [← hrun]
  unfold Run.restart Run.ofAutomaton
  rw [hs.automaton]

/-- So is reading in every session of a lexer that has been compiled. -/
theorem Consistent.readsSafely (h : ValidTable patterns)
    (hs : Consistent (Lexer.ofPatterns patterns) m s) (hrest : AtRest s) :
    ReadsSafely (Lexer.ofPatterns patterns) s := by
  obtain ⟨herror, _, hpath⟩ := h.follow_spec hs.automaton s.rest
  obtain ⟨hwithin, hconsumed, _⟩ := hs.part (s.run.restart.consumed_append_rest s.rest)
  exact ⟨hrest.run_eq hs, hs.offset_le, hs.rest, herror, Lexer.mem_of_path h hpath, hwithin,
    hconsumed⟩

/-! ## Calls -/

/-- A token that a call answers has been read where skipping ends. -/
theorem exists_skips_of_call_token (c : Call) (ht : (s.call c).answer.result = some (.ok t)) :
    ∃ tokens u, Skips s tokens u ∧ u.read.1 = .ok (some t) := by
  cases c with
  | next => exact exists_skips_of_next_token (Outcome.eq_ok_of_result ht)
  | peek => exact exists_skips_of_next_token (Outcome.eq_ok_of_result ht)
  | nextRaw =>
    refine ⟨[], s, .nil s, ?_⟩
    rw [← answer_nextRaw]
    exact Outcome.eq_ok_of_result ht
  | consume kind =>
    exact exists_skips_of_next_token (consume_eq_ok_iff.mp (Option.some.inj ht)).1
  | iterate =>
    obtain ⟨_, hresult⟩ := result_next_of_iterate ht
    exact exists_skips_of_next_token (Outcome.eq_ok_of_result hresult)
  | rebind input => cases ht

/-- The kind of a token that is read is the one with its index. -/
theorem Consistent.kind?_of_read (h : ValidTable patterns)
    (hs : Consistent (Lexer.ofPatterns patterns) m s) (hread : s.read.1 = .ok (some t)) :
    (Lexer.ofPatterns patterns).kind? t.index = some t.kind := by
  obtain ⟨i, v, span, _, _, hfirst, rfl⟩ := hs.longestViable_of_read h (Prod.ext hread rfl)
  obtain ⟨p, hp, _⟩ := hfirst.1
  have hkind : (Lexer.ofPatterns patterns).kind? i = some p.kind := Lexer.kind?_of_getElem? hp
  show _ = some ((s.lexer.kind? i).getD "")
  rw [hs.lexer]
  show (Lexer.ofPatterns patterns).kind? i = _
  rw [hkind, Option.getD_some]

/-- A compiled lexer fails to read only with a lexical error, of a lexeme or of a byte that was
    found, where it can be told where that is. -/
theorem Consistent.lexical_of_read_error (h : ValidTable patterns)
    (hs : Consistent (Lexer.ofPatterns patterns) m s) (hread : s.read.1 = .error f) :
    f = .unmeasurable ∨ ∃ lexeme found span,
      f = .located ⟨.lexical lexeme found, span⟩ ∧ (lexeme ≠ [] ∨ found ≠ none) := by
  have hpair : s.read = (.error f, s.read.2) := Prod.ext hread rfl
  obtain ⟨hne, _, _⟩ := readFails_of_read hpair
  rcases hs.lexical_of_read h hpair with hunmeasurable | ⟨lexeme, span, _, _, hlexical⟩
  · exact .inl hunmeasurable
  · refine .inr ⟨lexeme, _, span, hlexical, ?_⟩
    by_cases hnil : lexeme = []
    · -- nothing has been read of what is left, so there is a byte after it
      right
      rw [hnil]
      show s.rest.head? ≠ none
      rw [ne_eq, List.head?_eq_none_iff]
      exact hne
    · exact .inl hnil

/-- So a failure that any call answers is such an error, or about a token that was not expected, or
    else a tab would have to be measured with a tab stop of zero. -/
theorem Placed.failure_of_call (h : ValidTable patterns)
    (hs : Placed (Lexer.ofPatterns patterns) m s) (c : Call)
    (hf : (s.call c).answer.result = some (.error f)) :
    (f = .unmeasurable ∧ m.tabStop = 0) ∨
    (∃ lexeme found span,
      f = .located ⟨.lexical lexeme found, span⟩ ∧ (lexeme ≠ [] ∨ found ≠ none)) ∨
    ∃ expected found span, f = .located ⟨.unexpected expected found, span⟩ := by
  rcases f with ⟨e, span⟩ | _
  · right
    by_cases he : ∃ expected found, e = .unexpected expected found
    · obtain ⟨expected, found, rfl⟩ := he
      exact .inr ⟨expected, found, span, rfl⟩
    · -- whatever else is answered has been met by reading
      left
      obtain ⟨u, hu, _, _, hread⟩ := hs.toConsistent.exists_read_of_call c
        (fun expected found heq => he ⟨expected, found, heq⟩) hf
      rcases hu.lexical_of_read_error h hread with hunmeasurable | hlexical
      · cases hunmeasurable
      · exact hlexical
  · exact .inl ⟨rfl, ((hs.answer_call c).2 _ hf).unmeasurable rfl⟩

/-! ## Safety -/

/-- Let a table compile, let the tab stop not be zero, and take any session that a history of calls
    leads to. Its run has read nothing. Wherever a call may read, that is in this session and after
    each token that it skips, the run follows the input without an error, and what it consumes is a
    part of the input. The kind of the state that it comes to, as that of any known state, is a kind
    of the table, and the kind of a token that is answered is the one with its index. A failure that
    is answered is a lexical error, which has a lexeme or a byte that was found, or it is about a
    token that was not expected. -/
theorem calls_safe {l : Lexer} (h : Lexer.compile patterns = .ok l) (hm : m.tabStop ≠ 0)
    (input : List UInt8) (history : List Call) :
    let s := (ofInput l m input).after history
    s.run = Run.ofAutomaton l.automaton ∧
    (∀ tokens u, Skips s tokens u → ReadsSafely l u) ∧
    (∀ q ∈ l.automaton, ∀ i, q.kind? = some i → i < l.kinds.length) ∧
    (∀ c t, (s.call c).answer.result = some (.ok t) → l.kind? t.index = some t.kind) ∧
    ∀ c f, (s.call c).answer.result = some (.error f) →
      (∃ lexeme found span,
        f = .located ⟨.lexical lexeme found, span⟩ ∧ (lexeme ≠ [] ∨ found ≠ none)) ∨
      ∃ expected found span, f = .located ⟨.unexpected expected found, span⟩ := by
  intro s
  obtain ⟨htable, rfl⟩ := Lexer.compile_eq_ok_iff.mp h
  have hs : Placed (Lexer.ofPatterns patterns) m s := (placed_ofInput _ m input).after history
  have hrest : AtRest s := atRest_after _ m input history
  refine ⟨hrest.run_eq hs.toConsistent, fun tokens u hskips => ?_,
    fun q hq i hkind => htable.kind?_lt_of_mem hq hkind, fun c t ht => ?_, fun c f hf => ?_⟩
  · exact (hskips.consistent hs.toConsistent).readsSafely htable (hskips.atRest hrest)
  · obtain ⟨tokens, u, hskips, hread⟩ := exists_skips_of_call_token c ht
    exact (hskips.consistent hs.toConsistent).kind?_of_read htable hread
  · rcases hs.failure_of_call htable c hf with ⟨_, hzero⟩ | hcases
    · -- every tab has a width
      exact absurd hzero hm
    · exact hcases

/-- Iteration meets a failure behind a blank. After this the run has read nothing, and it is safe to
    read on. -/
theorem calls_safe_blank :
    let l := Lexer.ofPatterns blankOnly
    let s := (ofInput l {} [32, 98]).after [.iterate]
    Lexer.compile blankOnly = .ok l ∧ ({} : Metrics).tabStop ≠ 0 ∧
      s.run = Run.ofAutomaton l.automaton ∧ ReadsSafely l s ∧
      ∃ span, (ofInput l {} [32, 98]).iterate.answer =
        some (.error (.located ⟨.lexical [] (some 98), span⟩)) := by
  intro l s
  have hcompile : Lexer.compile blankOnly = .ok l :=
    Lexer.compile_eq_ok_iff.mpr ⟨validTable_blankOnly, rfl⟩
  have htab : ({} : Metrics).tabStop ≠ 0 := by decide
  obtain ⟨hrun, hreads, _⟩ := calls_safe hcompile htab [32, 98] [.iterate]
  obtain ⟨span, hanswer, _⟩ := iterate_blankOnly (c := 98) (by decide)
  exact ⟨hcompile, htab, hrun, hreads [] s (.nil s), span, hanswer⟩

end Session

end ByteLexer
