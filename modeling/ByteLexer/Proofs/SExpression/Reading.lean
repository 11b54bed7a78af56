import ByteLexer.Proofs.SExpression.Patterns
import ByteLexer.Proofs.Session.Lines

/-! # Reading S-expressions

    The sessions of the built-in lexer read the longest lexeme of what is left. They never go
    back, and with this table they need not: what lies between two lexemes is a lexeme.

    - **Longest lexemes.** If some lexeme is there, the patterns can be followed to the end of
      the longest one, and no further.
    - **The next token** is the longest lexeme.
    - **Lines.** The table breaks lines, so that an input can be read line by line.
-/

namespace ByteLexer.SExpression

open Session (Consistent Call ofInput)

variable {kind kind' : String} {r u v w : List UInt8} {m : Metrics} {s : Session}

/-! ## Longest lexemes -/

/-- The longest part of some bytes, from their start on, that is a lexeme, and its kind. -/
structure LongestLexeme (r : List UInt8) (kind : String) (u : List UInt8) : Prop where
  initial_part : u <+: r
  lexeme : Lexeme kind u
  longest : ∀ kind v, v <+: r → Lexeme kind v → v.length ≤ u.length

/-- There is at most one. -/
theorem LongestLexeme.unique (hu : LongestLexeme r kind u) (hv : LongestLexeme r kind' v) :
    kind = kind' ∧ u = v := by
  have hle := hv.longest kind u hu.initial_part hu.lexeme
  have hge := hu.longest kind' v hv.initial_part hv.lexeme
  obtain rfl := eq_of_parts hu.initial_part hv.initial_part (Nat.le_antisymm hle hge)
  exact ⟨hu.lexeme.kind_eq.trans hv.lexeme.kind_eq.symm, rfl⟩

theorem Lexeme.viable (h : Lexeme kind w) : ∃ p ∈ patterns, p.automaton.Viable w :=
  TokenDue.viable (tokenDue_patterns_iff.mpr ⟨kind, h⟩)

/-- If the longest viable part is a lexeme, it is the longest one. -/
theorem longestLexeme_of_longestViable (hu : LongestViable patterns r u) (h : Lexeme kind u) :
    LongestLexeme r kind u where
  initial_part := hu.initial_part
  lexeme := h
  longest _ v hv hlexeme := hu.longest v hv hlexeme.viable

/-- It is one if there is any lexeme, since it lies between this one and a longer one. -/
theorem exists_lexeme_of_longestViable (hu : LongestViable patterns r u) (hv : v <+: r)
    (h : Lexeme kind v) : ∃ kind, Lexeme kind u := by
  obtain ⟨kind', z, hlong⟩ := viable_patterns_iff.mp hu.viable
  have hvu : v <+: u :=
    List.prefix_of_prefix_length_le hv hu.initial_part (hu.longest v hv h.viable)
  exact h.between hvu (List.prefix_append u z) hlong

/-- A lexeme in front of a blank, which does not belong to it, is the longest one. -/
theorem longestLexeme_of_blank {c : UInt8} (h : Lexeme kind u) (hc : c ∈ blanks)
    (rest : List UInt8) : LongestLexeme (u ++ c :: rest) kind u where
  initial_part := List.prefix_append _ _
  lexeme := h
  longest kind' v hv hlexeme := by
    by_contra hlong
    have huv : u <+: v :=
      List.prefix_of_prefix_length_le (List.prefix_append _ _) hv (Nat.le_of_not_le hlong)
    obtain ⟨more, rfl⟩ := huv
    have hne : more ≠ [] := by
      rintro rfl
      exact hlong (by rw [List.append_nil])
    obtain ⟨d, more, rfl⟩ := List.exists_cons_of_ne_nil hne
    -- what is behind the lexeme begins with the blank
    obtain ⟨rfl, _⟩ := List.cons_prefix_cons.mp ((List.prefix_append_right_inj u).mp hv)
    exact h.not_mem_of_blank hlexeme (List.prefix_append _ _)
      (fun heq => hne (List.self_eq_append_right.mp heq)) hc
      (List.mem_append_right u List.mem_cons_self)

/-- A lexeme is the longest one of itself. -/
theorem longestLexeme_self (h : Lexeme kind u) : LongestLexeme u kind u :=
  ⟨List.prefix_refl u, h, fun _ _ hv _ => hv.length_le⟩

/-! ## The next token -/

/-- The longest lexeme of the rest is the next token, if it can be measured. If there is no lexeme,
    that is an error. -/
theorem nextRaw_lexeme_cases (hs : Consistent (Lexer.ofPatterns patterns) m s)
    (hne : s.rest ≠ []) :
    (∃ kind u, LongestLexeme s.rest kind u ∧
      ((m.Measures (latin1 u) ∧ ∃ t, s.nextRaw.answer = .ok (some t) ∧ t.kind = kind ∧
          t.lexeme = u ∧ t.offset = s.offset) ∨
        ¬m.Measures (latin1 u) ∧ s.nextRaw.answer = .error .unmeasurable)) ∨
    (∀ kind u, u <+: s.rest → ¬Lexeme kind u) ∧ ∃ f, s.nextRaw.answer = .error f := by
  obtain ⟨u, hu⟩ := validTable_patterns.exists_longestViable s.rest
  rw [Session.answer_nextRaw]
  by_cases hdue : TokenDue patterns u
  · obtain ⟨i, hfirst, hread⟩ := hs.read_of_tokenDue validTable_patterns hu hdue
    obtain ⟨p, hp, _⟩ := id hfirst.1
    refine .inl ⟨p.kind, u, longestLexeme_of_longestViable hu (lexeme_of_firstMatch hfirst hp), ?_⟩
    rw [hread]
    by_cases hm : m.Measures (latin1 u)
    · obtain ⟨span, hspan⟩ := Session.measure?_eq_some (s := s) (hs.metrics ▸ hm)
      rw [hspan]
      refine .inl ⟨hm, _, rfl, ?_, rfl, rfl⟩
      show (s.lexer.kind? i).getD "" = p.kind
      rw [hs.lexer, Lexer.kind?_of_getElem? hp]
      rfl
    · rw [Session.measure?_eq_none (s := s) (hs.metrics ▸ hm)]
      exact .inr ⟨hm, rfl⟩
  · rw [hs.read_of_not_tokenDue validTable_patterns hu hne hdue]
    refine .inr ⟨fun kind v hv hlexeme => hdue ?_, _, rfl⟩
    exact tokenDue_patterns_iff.mpr (exists_lexeme_of_longestViable hu hv hlexeme)

/-- The table compiles. In any session of its lexer that a history of calls leads to, where there
    are bytes left, the next token is the longest lexeme that they begin with, and it is of the
    kind of this lexeme. There is none, but a failure, exactly if they begin with no lexeme, or
    if a tab in the longest lexeme cannot be measured as it has no width. -/
theorem nextRaw_longest_lexeme :
    ∃ l, lexer? = .ok l ∧ ∀ (m : Metrics) (input : List UInt8) (history : List Call),
      let s := (ofInput l m input).after history
      s.rest ≠ [] →
      (∀ kind u, (∃ t, s.nextRaw.answer = .ok (some t) ∧ t.kind = kind ∧ t.lexeme = u ∧
          t.offset = s.offset) ↔
        LongestLexeme s.rest kind u ∧ m.Measures (latin1 u)) ∧
      ((∃ f, s.nextRaw.answer = .error f) ↔
        (∀ kind u, u <+: s.rest → ¬Lexeme kind u) ∨
        ∃ kind u, LongestLexeme s.rest kind u ∧ ¬m.Measures (latin1 u)) := by
  refine ⟨_, Lexer.compile_eq_ok_iff.mpr ⟨validTable_patterns, rfl⟩,
    fun m input history => ?_⟩
  intro s hne
  have hs : Consistent (Lexer.ofPatterns patterns) m s := Session.consistent_after _ _ _ _
  rcases nextRaw_lexeme_cases hs hne with
    ⟨kind, u, hu, ⟨hm, t, ht, hkind, hlexeme, hoffset⟩ | ⟨hm, herror⟩⟩ | ⟨hno, f, herror⟩
  · -- a token
    simp only [ht]
    refine ⟨fun kind' v => ⟨fun hex => ?_, fun hand => ?_⟩, ⟨fun hex => ?_, fun hor => ?_⟩⟩
    · obtain ⟨t', heq, rfl, rfl, _⟩ := hex
      obtain rfl := Option.some.inj (Except.ok.inj heq)
      rw [hkind, hlexeme]
      exact ⟨hu, hm⟩
    · obtain ⟨rfl, rfl⟩ := hu.unique hand.1
      exact ⟨t, rfl, hkind, hlexeme, hoffset⟩
    · obtain ⟨f, heq⟩ := hex
      cases heq
    · rcases hor with hno | ⟨kind', v, hv, hnot⟩
      · exact absurd hu.lexeme (hno kind u hu.initial_part)
      · obtain ⟨_, rfl⟩ := hu.unique hv
        exact absurd hm hnot
  · -- a lexeme that cannot be measured
    simp only [herror]
    refine ⟨fun kind' v => ⟨fun hex => ?_, fun hand => ?_⟩, fun _ => .inr ⟨kind, u, hu, hm⟩,
      fun _ => ⟨_, rfl⟩⟩
    · obtain ⟨_, heq, _⟩ := hex
      cases heq
    · obtain ⟨_, rfl⟩ := hu.unique hand.1
      exact absurd hand.2 hm
  · -- no lexeme
    simp only [herror]
    refine ⟨fun kind' v => ⟨fun hex => ?_, fun hand => ?_⟩, fun _ => .inl hno, fun _ => ⟨f, rfl⟩⟩
    · obtain ⟨_, heq, _⟩ := hex
      cases heq
    · exact absurd hand.1.lexeme (hno kind' v hand.1.initial_part)

/-- A reserved word up to a blank, a name that begins with one, a sign that begins with another one,
    and a string that has no end. -/
theorem nextRaw_longest_lexeme_words :
    let reads (l : Lexer) (input kind text : String) : Prop :=
      ∃ t, (ofInput l {} (bytesOf input)).nextRaw.answer = .ok (some t) ∧ t.kind = kind ∧
        t.lexeme = bytesOf text
    ∃ l, lexer? = .ok l ∧ (ofInput l {} (bytesOf "if x")).rest ≠ [] ∧ reads l "if x" "IF" "if" ∧
      reads l "iffy" "ID" "iffy" ∧ reads l "->" "ARROW" "->" ∧
      ∃ f, (ofInput l {} (bytesOf "\x22->")).nextRaw.answer = .error f := by
  intro reads
  obtain ⟨l, hl, hall⟩ := nextRaw_longest_lexeme
  have hreads : ∀ input kind text, bytesOf input ≠ [] →
      LongestLexeme (bytesOf input) kind (bytesOf text) →
      ({} : Metrics).Measures (latin1 (bytesOf text)) → reads l input kind text := by
    intro input kind text hne hlongest hm
    obtain ⟨htoken, _⟩ := hall {} (bytesOf input) [] hne
    obtain ⟨t, ht, hkind, hlexeme, _⟩ := (htoken kind (bytesOf text)).mpr ⟨hlongest, hm⟩
    exact ⟨t, ht, hkind, hlexeme⟩
  have hword : Lexeme "IF" (bytesOf "if") := .keyword (by decide)
  have hif : LongestLexeme (bytesOf "if x") "IF" (bytesOf "if") :=
    longestLexeme_of_blank (c := 0x20) hword (by decide) (bytesOf "x")
  have hiffy : LongestLexeme (bytesOf "iffy") "ID" (bytesOf "iffy") :=
    longestLexeme_self (.identifier (by decide) (by decide))
  have harrow : LongestLexeme (bytesOf "->") "ARROW" (bytesOf "->") :=
    longestLexeme_self (.punctuation (by decide))
  obtain ⟨_, hfailure⟩ := hall {} (bytesOf "\x22->") [] (List.cons_ne_nil _ _)
  refine ⟨l, hl, List.cons_ne_nil _ _, hreads _ _ _ (by decide) hif (by decide),
    hreads _ _ _ (by decide) hiffy (by decide), hreads _ _ _ (by decide) harrow (by decide),
    hfailure.mpr (.inl fun kind u hu => ?_)⟩
  have hopen : (0x22, 0x22) ∈ delimiters := by decide
  exact not_lexeme_of_unclosed hopen (by decide) hu

/-! ## Lines -/

/-- The patterns cannot follow what begins with a lexeme and holds a blank after it. -/
theorem not_viable_of_blank (hv : Lexeme kind v) (h : v <+: u) (hne : v ≠ u) {c : UInt8}
    (hc : c ∈ blanks) (hmem : c ∈ u) : ¬∃ p ∈ patterns, p.automaton.Viable u := by
  intro hviable
  obtain ⟨kind', z, hw⟩ := viable_patterns_iff.mp hviable
  have hlong : v ≠ u ++ z := by
    intro heq
    rw [heq] at h
    exact hne (heq.trans (h.eq_of_length_le (by simp)))
  exact hv.not_mem_of_blank hw (h.trans (List.prefix_append u z)) hlong hc
    (List.mem_append_left z hmem)

theorem newline_mem_blanks : newline ∈ blanks := by
  decide

/-- An end of line outside of a lexeme is a blank, and no lexeme goes on with it. -/
theorem breaksLines_patterns : BreaksLines patterns where
  skipped := by
    have hmatch : skipped.recognizes [newline] = true :=
      Automaton.recognizes_iff_accepts.mpr
        (accepts_skipped_iff.mpr (.inl ⟨newline, newline_mem_blanks, rfl⟩))
    have hfirst : FirstMatch patterns [newline] 0 :=
      ⟨⟨⟨skipKind, skipped⟩, rfl, hmatch⟩, fun j hj => absurd hj (Nat.not_lt_zero j)⟩
    exact ⟨0, hfirst, rfl⟩
  separates u hdue := by
    obtain ⟨kind, hu⟩ := tokenDue_patterns_iff.mp hdue
    refine not_viable_of_blank hu (List.prefix_append u _) (fun heq => ?_) newline_mem_blanks
      (List.mem_append_right u List.mem_cons_self)
    exact List.cons_ne_nil _ _ (List.self_eq_append_right.mp heq)
  alone c := by
    have hblank : Lexeme skipKind [newline] := .blank newline_mem_blanks
    exact not_viable_of_blank hblank ⟨[c], rfl⟩ (fun heq => by cases heq) newline_mem_blanks
      List.mem_cons_self

/-- A lexeme that is not skipped is read as one token if it stands alone. -/
theorem drain_lexeme (h : Lexeme kind w) (hkind : kind ≠ skipKind) (hm : m.Measures (latin1 w)) :
    ∃ t, (ofInput (Lexer.ofPatterns patterns) m w).drain.answer = ⟨[t], none⟩ ∧ t.kind = kind ∧
      t.lexeme = w := by
  obtain ⟨i, span, e, hfirst, hnil, hraw⟩ := Session.exists_nextRaw_of_tokenDue
    validTable_patterns (tokenDue_patterns_iff.mpr ⟨kind, h⟩) hm
  obtain ⟨p, hp, _⟩ := id hfirst.1
  have ht : ((ofInput (Lexer.ofPatterns patterns) m w).token i w span).kind = kind := by
    show ((Lexer.ofPatterns patterns).kind? i).getD "" = kind
    rw [Lexer.kind?_of_getElem? hp, (lexeme_of_firstMatch hfirst hp).kind_eq, h.kind_eq]
    rfl
  have hdrained := Session.Drained.token hraw (.done (Session.nextRaw_of_rest_eq_nil hnil))
  refine ⟨_, ?_, ht, rfl⟩
  rw [Session.drain_ofInput validTable_patterns,
    ((Session.drained_drainRaw _).unique hdrained).1, Session.Stream.unskipped_cons (by rwa [ht])]
  rfl

/-- Let iteration over some bytes come to their end without a failure. Iteration over these bytes,
    an end of line and other bytes then gives the tokens of the first bytes, and after them what
    it gives for the other bytes alone, the failure included: as many bytes further on as stand
    before them, and as many lines further down. -/
theorem drain_line_by_line :
    ∃ l, lexer? = .ok l ∧ ∀ (m : Metrics) (a b : List UInt8),
      let first := (ofInput l m a).drain.answer
      let second := (ofInput l m b).drain.answer
      let whole := (ofInput l m (a ++ newline :: b)).drain.answer
      first.failure = none →
      whole.tokens = first.tokens ++
        second.tokens.map (Token.relocate (a.length + 1) (a.count newline + 1)) ∧
      whole.failure = second.failure.map (Failure.down (a.count newline + 1)) := by
  refine ⟨_, Lexer.compile_eq_ok_iff.mpr ⟨validTable_patterns, rfl⟩, fun m a b => ?_⟩
  intro first second whole hfirst
  have hwhole : whole = first.append (second.relocate (a.length + 1) (a.count newline + 1)) :=
    Session.drain_append_newline validTable_patterns breaksLines_patterns m b hfirst
  rw [hwhole]
  exact ⟨rfl, rfl⟩

/-- A name and a keyword on two lines. -/
theorem drain_line_by_line_two :
    ∃ l t u, lexer? = .ok l ∧ t.kind = "ID" ∧ u.kind = "IF" ∧
      (ofInput l {} (ascii "x")).drain.answer = ⟨[t], none⟩ ∧
      (ofInput l {} (ascii "if")).drain.answer = ⟨[u], none⟩ ∧
      (ofInput l {} (ascii "x" ++ newline :: ascii "if")).drain.answer =
        ⟨[t, u.relocate 2 1], none⟩ := by
  obtain ⟨l, hl, hall⟩ := drain_line_by_line
  obtain ⟨_, rfl⟩ := Lexer.compile_eq_ok_iff.mp hl
  have hname : Lexeme "ID" (ascii "x") := .identifier (by decide) (by decide)
  have hword : Lexeme "IF" (bytesOf "if") := .keyword (by decide)
  rw [← ascii_eq_bytesOf] at hword
  obtain ⟨t, ht, htkind, _⟩ := drain_lexeme (m := {}) hname (by decide) (by decide)
  obtain ⟨u, hu, hukind, _⟩ := drain_lexeme (m := {}) hword (by decide) (by decide)
  obtain ⟨htokens, hfailure⟩ := hall {} (ascii "x") (ascii "if") (by rw [ht])
  rw [ht, hu] at htokens
  rw [hu] at hfailure
  exact ⟨_, t, u, hl, htkind, hukind, ht, hu, congrArg₂ Session.Stream.mk htokens hfailure⟩

end ByteLexer.SExpression
