import ByteLexer.Proofs.Lexer.Compiled
import ByteLexer.Proofs.Session.Reading

/-! # Tokens are longest matches

    What a session reads next is determined by the table alone: as many bytes as some
    pattern can follow, which are a token of the first pattern that recognizes them,
    or an error.

    - **Longest viable parts.** How far the patterns of a table can follow a word.
    - **Following.** The run of a compiled lexer consumes this part, and ends in a state
      that tells whether a token is due.
    - **Reading.** What `read` and `nextRaw` answer, and where they leave the session.
-/

namespace ByteLexer

open Automaton

variable {patterns : List Pattern} {r u v w : List UInt8} {b : UInt8} {i : Nat}

/-! ## Longest viable parts -/

/-- Parts of the same length, from the start on, are the same. -/
theorem eq_of_parts (hu : u <+: r) (hv : v <+: r) (h : u.length = v.length) : u = v :=
  (List.prefix_of_prefix_length_le hu hv (Nat.le_of_eq h)).eq_of_length h

/-- The longest part of some bytes, from their start on, that is viable in some pattern. -/
structure LongestViable (patterns : List Pattern) (r u : List UInt8) : Prop where
  initial_part : u <+: r
  viable : ∃ p ∈ patterns, p.automaton.Viable u
  longest : ∀ v, v <+: r → (∃ p ∈ patterns, p.automaton.Viable v) → v.length ≤ u.length

/-- There is only one. -/
theorem LongestViable.unique (hu : LongestViable patterns r u) (hv : LongestViable patterns r v) :
    u = v := by
  have hle := hv.longest u hu.initial_part hu.viable
  have hge := hu.longest v hv.initial_part hv.viable
  exact eq_of_parts hu.initial_part hv.initial_part (Nat.le_antisymm hle hge)

/-- Of no bytes there is only the empty part. -/
theorem LongestViable.eq_nil (h : LongestViable patterns r u) (hr : r = []) : u = [] := by
  have hpart := h.initial_part
  rw [hr, List.prefix_nil] at hpart
  exact hpart

/-- Bytes that are viable as a whole are their own longest viable part. -/
theorem LongestViable.refl (h : ∃ p ∈ patterns, p.automaton.Viable w) :
    LongestViable patterns w w :=
  ⟨List.prefix_refl w, h, fun _ hv _ => hv.length_le⟩

/-- A viable part is the longest one if the patterns cannot follow the byte after it. -/
theorem LongestViable.of_stuck (hpart : u <+: r) (hviable : ∃ p ∈ patterns, p.automaton.Viable u)
    (hstuck : ∀ b, u ++ [b] <+: r → ¬∃ p ∈ patterns, p.automaton.Viable (u ++ [b])) :
    LongestViable patterns r u where
  initial_part := hpart
  viable := hviable
  longest v hv hex := by
    by_contra hlonger
    obtain ⟨w, rfl⟩ := List.prefix_of_prefix_length_le hpart hv (by omega)
    rcases w with _ | ⟨b, more⟩
    · rw [List.append_nil] at hlonger
      exact hlonger (Nat.le_refl _)
    · -- a longer part would go on with this byte
      have hcut : u ++ b :: more = u ++ [b] ++ more := List.append_cons u b more
      rw [hcut] at hv hex
      obtain ⟨p, hp, hpv⟩ := hex
      exact hstuck b ((List.prefix_append _ _).trans hv) ⟨p, hp, hpv.of_append⟩

/-- The patterns cannot follow the byte after the longest viable part. -/
theorem LongestViable.stuck (h : LongestViable patterns r u) (hb : u ++ [b] <+: r) :
    ¬∃ p ∈ patterns, p.automaton.Viable (u ++ [b]) := by
  intro hviable
  have hlength := h.longest _ hb hviable
  rw [List.length_append, List.length_singleton] at hlength
  omega

/-- If it is not all there is, it stays the same whatever else comes. -/
theorem LongestViable.append (h : LongestViable patterns r u) (hne : u ≠ r) (y : List UInt8) :
    LongestViable patterns (r ++ y) u := by
  refine .of_stuck (h.initial_part.trans (List.prefix_append r y)) h.viable fun b hb => ?_
  have hlt : u.length < r.length :=
    Nat.lt_of_le_of_ne h.initial_part.length_le fun heq => hne (h.initial_part.eq_of_length heq)
  -- the byte after it is one of those before the new ones
  have hlength : (u ++ [b]).length ≤ r.length := by
    rw [List.length_append, List.length_singleton]
    exact hlt
  exact h.stuck (List.prefix_of_prefix_length_le hb (List.prefix_append r y) hlength)

/-- A token is due if there are some bytes and a pattern recognizes them. -/
def TokenDue (patterns : List Pattern) (u : List UInt8) : Prop :=
  u ≠ [] ∧ ∃ p ∈ patterns, p.automaton.recognizes u = true

/-- A token is viable. -/
theorem TokenDue.viable (h : TokenDue patterns u) : ∃ p ∈ patterns, p.automaton.Viable u := by
  obtain ⟨_, p, hp, hw⟩ := h
  exact ⟨p, hp, (recognizes_iff_accepts.mp hw).viable⟩

/-! ## Following -/

/-- The run of a compiled lexer consumes the longest viable part of a word, without an error. -/
theorem ValidTable.follow_spec (h : ValidTable patterns) {run : Run LexerState}
    (hrun : run.automaton = (Lexer.ofPatterns patterns).automaton) (w : List UInt8) :
    (run.restart.follow w).error = none ∧
    LongestViable patterns w (run.restart.follow w).consumed ∧
    (Lexer.ofPatterns patterns).automaton.Path (Lexer.ofPatterns patterns).automaton.initial
      (run.restart.follow w).consumed (run.restart.follow w).run.state := by
  have hstate : run.restart.state = (Lexer.ofPatterns patterns).automaton.initial := by
    rw [← hrun]
    rfl
  have hautomaton : run.restart.automaton = (Lexer.ofPatterns patterns).automaton := hrun
  obtain ⟨herr, hpath, hmax⟩ := run.restart.follow_spec
    (by rw [hautomaton]; exact Lexer.deterministic_automaton patterns) w
  rw [hautomaton, hstate] at hpath
  refine ⟨herr, ⟨?_, ?_, ?_⟩, hpath⟩
  · exact ⟨_, run.restart.consumed_append_rest w⟩
  · exact ((Lexer.path_automaton_iff h).mp hpath).1
  · intro v hv hviable
    -- a viable part is spelled by a path, which the run would have followed
    have hv' := (Lexer.path_automaton_iff h).mpr ⟨hviable, rfl⟩
    rw [← hstate, ← hautomaton] at hv'
    exact hmax v _ hv hv'

/-- It ends in the state that this part leads to, with the rest of the word left. -/
theorem ValidTable.follow_longest (h : ValidTable patterns) {run : Run LexerState}
    (hrun : run.automaton = (Lexer.ofPatterns patterns).automaton) (hu : LongestViable patterns w u) :
    (run.restart.follow w).error = none ∧ (run.restart.follow w).consumed = u ∧
    (run.restart.follow w).rest = w.drop u.length ∧
    (Lexer.ofPatterns patterns).automaton.Path (Lexer.ofPatterns patterns).automaton.initial
      u (run.restart.follow w).run.state := by
  obtain ⟨herr, hlongest, hpath⟩ := h.follow_spec hrun w
  have hconsumed : (run.restart.follow w).consumed = u := hlongest.unique hu
  rw [hconsumed] at hpath
  exact ⟨herr, hconsumed, by rw [Run.rest_follow, hconsumed], hpath⟩

/-- There is always such a part. -/
theorem ValidTable.exists_longestViable (h : ValidTable patterns) (w : List UInt8) :
    ∃ u, LongestViable patterns w u := by
  have hrun : (Run.ofAutomaton (Lexer.ofPatterns patterns).automaton).automaton =
      (Lexer.ofPatterns patterns).automaton := rfl
  exact ⟨_, (h.follow_spec hrun w).2.1⟩

/-- If a token is due after a word, the state that the word leads to is of its kind. -/
theorem ValidTable.kind?_of_tokenDue (h : ValidTable patterns) {q : LexerState}
    (hq : (Lexer.ofPatterns patterns).automaton.Path
      (Lexer.ofPatterns patterns).automaton.initial u q) (hdue : TokenDue patterns u) :
    ∃ i, q.kind? = some i ∧ FirstMatch patterns u i := by
  have hkind := Lexer.kind?_of_path h hq
  rcases hwinner : q.kind? with _ | i
  · rw [hwinner] at hkind
    exact absurd hdue.2 (h.winner_reached_eq_none_iff.mp hkind.symm)
  · rw [hwinner] at hkind
    exact ⟨i, rfl, h.winner_reached_eq_some_iff.mp hkind.symm⟩

/-- If none is due, the state has no kind, or nothing has been read. -/
theorem ValidTable.kind?_of_not_tokenDue (h : ValidTable patterns) {q : LexerState}
    (hq : (Lexer.ofPatterns patterns).automaton.Path
      (Lexer.ofPatterns patterns).automaton.initial u q) (hdue : ¬TokenDue patterns u) :
    q.kind? = none ∨ u = [] := by
  by_cases hu : u = []
  · exact .inr hu
  · rw [Lexer.kind?_of_path h hq, h.winner_reached_eq_none_iff]
    exact .inl fun hw => hdue ⟨hu, hw⟩

/-! ## Reading -/

namespace Session

variable {m : Metrics} {s : Session}

/-- The byte after a part of the rest, if there is one. -/
def byteAfter (s : Session) (u : List UInt8) : Option UInt8 :=
  (s.rest.drop u.length).head?

/-- If a token is due, it is read, provided that it can be measured. -/
theorem Consistent.read_of_tokenDue (h : ValidTable patterns)
    (hs : Consistent (Lexer.ofPatterns patterns) m s) (hu : LongestViable patterns s.rest u)
    (hdue : TokenDue patterns u) :
    ∃ i, FirstMatch patterns u i ∧ s.read = match s.measure? u with
      | some span => (.ok (some (s.token i u span)),
          s.restarted.pass (s.token i u span) (s.rest.drop u.length))
      | none => (.error .unmeasurable, s.restarted) := by
  obtain ⟨herr, hconsumed, hrest, hpath⟩ := h.follow_longest hs.automaton hu
  obtain ⟨i, hkind, hfirst⟩ := h.kind?_of_tokenDue hpath hdue
  have hne : s.rest ≠ [] := fun hnil => hdue.1 (hu.eq_nil hnil)
  refine ⟨i, hfirst, ?_⟩
  have hstate : (s.moved s.rest).run.state.kind? = some i := hkind
  rw [read_of_rest_ne_nil hne, settle_of_kind herr hstate (by rw [hconsumed]; exact hdue.1),
    restarted_moved, hconsumed, hrest]
  rfl

/-- If none is due, that is an error. -/
theorem Consistent.read_of_not_tokenDue (h : ValidTable patterns)
    (hs : Consistent (Lexer.ofPatterns patterns) m s) (hu : LongestViable patterns s.rest u)
    (hne : s.rest ≠ []) (hdue : ¬TokenDue patterns u) :
    s.read = (.error (s.failure (.lexical u (s.byteAfter u)) (u ++ (s.byteAfter u).toList)),
      s.restarted) := by
  obtain ⟨herr, hconsumed, hrest, hpath⟩ := h.follow_longest hs.automaton hu
  have hno : (s.moved s.rest).run.state.kind? = none ∨
      (s.run.restart.follow s.rest).consumed = [] := by
    rw [hconsumed]
    exact h.kind?_of_not_tokenDue hpath hdue
  rw [read_of_rest_ne_nil hne, settle_of_no_token herr hno, restarted_moved, hconsumed, hrest]
  rfl

/-- Where there is a rest, its longest viable part is read as a token, or there is a lexical error
    after it, or something cannot be measured. -/
theorem Consistent.read_longest (h : ValidTable patterns)
    (hs : Consistent (Lexer.ofPatterns patterns) m s) (hu : LongestViable patterns s.rest u)
    (hne : s.rest ≠ []) :
    (∃ i span, TokenDue patterns u ∧ FirstMatch patterns u i ∧
      s.read.1 = .ok (some (s.token i u span))) ∨
    (¬TokenDue patterns u ∧
      ∃ span, s.read.1 = .error (.located ⟨.lexical u (s.byteAfter u), span⟩)) ∨
    s.read.1 = .error .unmeasurable := by
  by_cases hdue : TokenDue patterns u
  · obtain ⟨i, hfirst, hread⟩ := hs.read_of_tokenDue h hu hdue
    rw [hread]
    rcases s.measure? u with _ | span
    · exact .inr (.inr rfl)
    · exact .inl ⟨i, span, hdue, hfirst, rfl⟩
  · rw [hs.read_of_not_tokenDue h hu hne hdue]
    unfold failure
    rcases s.measure? (u ++ (s.byteAfter u).toList) with _ | span
    · exact .inr (.inr rfl)
    · exact .inr (.inl ⟨hdue, span, rfl⟩)

/-- A token that has been read is the longest viable part of the rest, of the kind that is first at
    it. -/
theorem Consistent.longestViable_of_read {t : Token} {s' : Session} (h : ValidTable patterns)
    (hs : Consistent (Lexer.ofPatterns patterns) m s) (hread : s.read = (.ok (some t), s')) :
    ∃ i u span, LongestViable patterns s.rest u ∧ TokenDue patterns u ∧ FirstMatch patterns u i ∧
      t = s.token i u span := by
  obtain ⟨_, hlexeme, _, v, hrest, _⟩ := token_of_read hread
  have hne : s.rest ≠ [] := by
    rw [← hrest]
    exact List.append_ne_nil_of_left_ne_nil hlexeme v
  obtain ⟨u, hu⟩ := h.exists_longestViable s.rest
  have hcases := hs.read_longest h hu hne
  rw [hread] at hcases
  rcases hcases with ⟨i, span, hdue, hfirst, htoken⟩ | ⟨_, span, herror⟩ | herror
  · exact ⟨i, u, span, hu, hdue, hfirst, Option.some.inj (Except.ok.inj htoken)⟩
  · cases herror
  · cases herror

/-- A compiled lexer fails to read only with a lexical error after the longest viable part of the
    rest, where it can be told where that is. -/
theorem Consistent.lexical_of_read {f : Failure} {s' : Session} (h : ValidTable patterns)
    (hs : Consistent (Lexer.ofPatterns patterns) m s) (hread : s.read = (.error f, s')) :
    f = .unmeasurable ∨ ∃ u span, LongestViable patterns s.rest u ∧ ¬TokenDue patterns u ∧
      f = .located ⟨.lexical u (s.byteAfter u), span⟩ := by
  obtain ⟨hne, _, _⟩ := readFails_of_read hread
  obtain ⟨u, hu⟩ := h.exists_longestViable s.rest
  have hcases := hs.read_longest h hu hne
  rw [hread] at hcases
  rcases hcases with ⟨i, span, _, _, htoken⟩ | ⟨hno, span, herror⟩ | herror
  · cases htoken
  · exact .inr ⟨u, span, hu, hno, Except.error.inj herror⟩
  · exact .inl (Except.error.inj herror)

/-- An input that is a token as a whole is read as one token, and nothing is left. -/
theorem exists_nextRaw_of_tokenDue (h : ValidTable patterns) (hdue : TokenDue patterns w)
    (hm : m.Measures (latin1 w)) :
    ∃ i span s', FirstMatch patterns w i ∧ s'.rest = [] ∧
      (ofInput (Lexer.ofPatterns patterns) m w).nextRaw =
        ⟨.ok (some ((ofInput (Lexer.ofPatterns patterns) m w).token i w span)), [], s'⟩ := by
  have hs := consistent_ofInput (Lexer.ofPatterns patterns) m w
  have hu : LongestViable patterns (ofInput (Lexer.ofPatterns patterns) m w).rest w :=
    LongestViable.refl hdue.viable
  obtain ⟨i, hfirst, hread⟩ := hs.read_of_tokenDue h hu hdue
  have hmeasured : ∃ span, (ofInput (Lexer.ofPatterns patterns) m w).measure? w = some span :=
    measure?_eq_some hm
  obtain ⟨span, hspan⟩ := hmeasured
  rw [hspan] at hread
  exact ⟨i, span, _, hfirst, List.drop_length, nextRaw_of_read_token hread⟩

/-! ## The next token -/

/-- The next token, in any session that a history of calls leads to. Where the longest viable
    part of the rest is a token of the table, it is returned, with its place and the kind that
    is declared first, and the session moves on by as many bytes. Where it is not, that is a
    lexical error and the session does not move. The one thing that can come in between is a
    tab in bytes that are to be measured with a tab stop of zero. -/
theorem nextRaw_longest_match {l : Lexer} (h : Lexer.compile patterns = .ok l) (m : Metrics)
    (input : List UInt8) (history : List Call) :
    let s := (ofInput l m input).after history
    let reply := s.nextRaw
    s.rest = s.input.drop s.offset ∧
    ∃ u, LongestViable patterns s.rest u ∧
      (reply.answer = .ok none ↔ s.rest = []) ∧
      ((∃ t, reply.answer = .ok (some t)) ↔ TokenDue patterns u ∧ m.Measures (latin1 u)) ∧
      (∀ t, reply.answer = .ok (some t) →
        t.lexeme = u ∧ t.offset = s.offset ∧ FirstMatch patterns u t.index) ∧
      ((∃ span, reply.answer = .error (.located ⟨.lexical u (s.byteAfter u), span⟩)) ↔
        s.rest ≠ [] ∧ ¬TokenDue patterns u ∧
          m.Measures (latin1 (u ++ (s.byteAfter u).toList))) ∧
      (∀ f, reply.answer = .error f → (f = .unmeasurable ∧ m.tabStop = 0) ∨
        ∃ span, f = .located ⟨.lexical u (s.byteAfter u), span⟩) ∧
      (∀ x, reply.answer = .ok x → reply.session.offset = s.offset + u.length ∧
        reply.session.rest = s.rest.drop u.length) ∧
      (∀ f, reply.answer = .error f → reply.session.offset = s.offset ∧
        reply.session.rest = s.rest) := by
  intro s reply
  obtain ⟨htable, rfl⟩ := Lexer.compile_eq_ok_iff.mp h
  have hs : Consistent (Lexer.ofPatterns patterns) m s := consistent_after _ _ _ _
  obtain ⟨u, hu⟩ := htable.exists_longestViable s.rest
  refine ⟨hs.rest, u, hu, ?_⟩
  by_cases hnil : s.rest = []
  · -- at the end nothing is due
    obtain rfl := hu.eq_nil hnil
    have hnone : ¬TokenDue patterns [] := fun hdue => hdue.1 rfl
    have hreply : reply = ⟨.ok none, [], s⟩ := nextRaw_of_rest_eq_nil hnil
    simp [hreply, hnil, hnone]
  · by_cases hdue : TokenDue patterns u
    · -- a token is due, and it is returned if its span can be told
      obtain ⟨i, hfirst, hread⟩ := hs.read_of_tokenDue htable hu hdue
      by_cases hm : m.Measures (latin1 u)
      · obtain ⟨span, hspan⟩ := measure?_eq_some (s := s) (hs.metrics ▸ hm)
        rw [hspan] at hread
        have hreply := nextRaw_of_read_token hread
        simp [reply, hreply, hnil, hdue, hm, token, pass, hfirst, restarted]
      · have hspan := measure?_eq_none (s := s) (hs.metrics ▸ hm)
        rw [hspan] at hread
        have hreply := nextRaw_of_read_error hread
        simp [reply, hreply, hnil, hdue, hm, restarted, tabStop_eq_zero_of_not_measures hm]
    · -- the span of the error also covers the byte that was found
      have hread := hs.read_of_not_tokenDue htable hu hnil hdue
      have hreply := nextRaw_of_read_error hread
      by_cases hm : m.Measures (latin1 (u ++ (s.byteAfter u).toList))
      · obtain ⟨span, hspan⟩ := measure?_eq_some (s := s) (hs.metrics ▸ hm)
        simp [reply, hreply, hnil, hdue, hm, failure, hspan, restarted]
      · have hspan := measure?_eq_none (s := s) (hs.metrics ▸ hm)
        simp [reply, hreply, hnil, hdue, hm, failure, hspan, restarted,
          tabStop_eq_zero_of_not_measures hm]

/-- After a change of the input, a word of the only pattern is the next token. -/
theorem nextRaw_longest_match_rebound :
    let patterns : List Pattern := [⟨"A", Regex.word [97]⟩]
    let s := (ofInput (Lexer.ofPatterns patterns) {} []).after [.rebind [97]]
    Lexer.compile patterns = .ok (Lexer.ofPatterns patterns) ∧
    ∃ t, s.nextRaw.answer = .ok (some t) ∧ t.lexeme = [97] ∧ t.offset = 0 ∧
      s.nextRaw.session.rest = [] := by
  intro patterns s
  have htable : ValidTable patterns := ⟨List.cons_ne_nil _ _, by decide, by decide⟩
  have hcompile : Lexer.compile patterns = .ok (Lexer.ofPatterns patterns) :=
    Lexer.compile_eq_ok_iff.mpr ⟨htable, rfl⟩
  have hmatch : (Regex.word [97]).recognizes [97] = true :=
    recognizes_iff_accepts.mpr (Regex.accepts_word_iff.mpr rfl)
  have hrecognizes : ∃ p ∈ patterns, p.automaton.recognizes [97] = true :=
    ⟨_, List.mem_cons_self, hmatch⟩
  obtain ⟨_, u, hu, _, htoken, hfields, _, _, hmoved, _⟩ :=
    nextRaw_longest_match hcompile {} [] [.rebind [97]]
  -- the longest viable part is the whole input, which is one byte
  have hword : u = [97] := by
    obtain ⟨p, hp, hw⟩ := hrecognizes
    have hlength := hu.longest [97] (List.prefix_refl _)
      ⟨p, hp, (recognizes_iff_accepts.mp hw).viable⟩
    exact hu.initial_part.eq_of_length_le hlength
  subst hword
  obtain ⟨t, ht⟩ := htoken.mpr ⟨⟨List.cons_ne_nil _ _, hrecognizes⟩, by decide⟩
  obtain ⟨hlexeme, hoffset, _⟩ := hfields t ht
  exact ⟨hcompile, t, ht, hlexeme, hoffset, (hmoved _ ht).2⟩

end Session

end ByteLexer
