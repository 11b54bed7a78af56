import ByteLexer.Proofs.Lexer.States
import ByteLexer.Proofs.Session.Skipping

/-! # What lexical errors say

    A lexical error says of its lexeme that it is the beginning of some token but no token,
    and of what was found after it that no token goes on like this. For a table that is
    built by combinators this is true, because its automata have no dead ends.

    - **The automaton.** If the patterns are trim, so is the automaton of their lexer.
    - **Reading.** What is true of a lexical error where it arises.
    - **Calls.** Every failure of a call arises where it has read.
-/

namespace ByteLexer

open Automaton

variable {patterns : List Pattern} {w : List UInt8}

/-! ## The automaton -/

/-- The automaton of a lexer has no dead ends if those of the patterns have none. -/
theorem ValidTable.trim_automaton (h : ValidTable patterns)
    (htrim : ∀ p ∈ patterns, p.automaton.Trim) : (Lexer.ofPatterns patterns).automaton.Trim := by
  intro w q hpath
  obtain ⟨p, hp, hviable⟩ := ((Lexer.path_automaton_iff h).mp hpath).1
  obtain ⟨v, hv⟩ := (htrim p hp).exists_accepts hviable
  obtain ⟨t, ht, hacc⟩ := (Lexer.accepts_automaton_iff h).mpr ⟨p, hp, hv⟩
  obtain ⟨r, hr, hrest⟩ := ht.cut
  -- the word leads to one state only
  rw [(Lexer.deterministic_automaton patterns).path_unique hr hpath] at hrest
  exact ⟨v, t, hrest, hacc⟩

/-! ## Reading -/

/-- A lexical error is true of what is left of an input. Its lexeme is the beginning of a token,
    but no token itself unless it is empty. If a byte was found after it, no token goes on with
    this byte. If none was, the lexeme is all that is left, and there is more to come of some
    token. -/
structure TruthfulAt (patterns : List Pattern) (rest lexeme : List UInt8) (found : Option UInt8) :
    Prop where
  begins : ∃ p ∈ patterns, ∃ v, p.automaton.recognizes (lexeme ++ v) = true
  no_token : lexeme ≠ [] → ¬∃ p ∈ patterns, p.automaton.recognizes lexeme = true
  stuck : ∀ b, found = some b →
    ¬∃ p ∈ patterns, ∃ v, p.automaton.recognizes (lexeme ++ [b] ++ v) = true
  at_end : found = none → lexeme ≠ [] ∧ lexeme = rest ∧
    ∃ p ∈ patterns, ∃ v, v ≠ [] ∧ p.automaton.recognizes (lexeme ++ v) = true

namespace Session

variable {m : Metrics} {l : Lexer} {s : Session} {u : List UInt8} {f : Failure}

/-- Where no token is due at the longest viable part of the rest, that is a true lexical error. -/
theorem truthfulAt_of_longestViable (htrim : ∀ p ∈ patterns, p.automaton.Trim)
    (hu : LongestViable patterns s.rest u) (hne : s.rest ≠ []) (hno : ¬TokenDue patterns u) :
    TruthfulAt patterns s.rest u (s.byteAfter u) := by
  have hbegins : ∃ p ∈ patterns, ∃ v, p.automaton.recognizes (u ++ v) = true := by
    obtain ⟨p, hp, hviable⟩ := hu.viable
    obtain ⟨v, hv⟩ := (htrim p hp).exists_accepts hviable
    exact ⟨p, hp, v, recognizes_iff_accepts.mpr hv⟩
  have hnot : u ≠ [] → ¬∃ p ∈ patterns, p.automaton.recognizes u = true :=
    fun hnil hrec => hno ⟨hnil, hrec⟩
  obtain ⟨after, hafter⟩ := hu.initial_part
  have hdrop : s.rest.drop u.length = after := by
    rw [← hafter, List.drop_left]
  refine ⟨hbegins, hnot, fun b hb hex => ?_, fun hnone => ?_⟩
  · -- a token that goes on with the byte would make a longer part viable
    obtain ⟨p, hp, v, hrec⟩ := hex
    have hviable : p.automaton.Viable (u ++ [b]) :=
      (recognizes_iff_accepts.mp hrec).viable.of_append
    have hpart : u ++ [b] <+: s.rest := by
      rw [byteAfter, hdrop, List.head?_eq_some_iff] at hb
      obtain ⟨more, rfl⟩ := hb
      exact ⟨more, by rw [← hafter, List.append_assoc]; rfl⟩
    exact hu.stuck hpart ⟨p, hp, hviable⟩
  · rw [byteAfter, hdrop, List.head?_eq_none_iff] at hnone
    rw [hnone, List.append_nil] at hafter
    rw [← hafter] at hne
    refine ⟨hne, hafter, ?_⟩
    obtain ⟨p, hp, v, hrec⟩ := hbegins
    refine ⟨p, hp, v, fun hnil => hnot hne ⟨p, hp, ?_⟩, hrec⟩
    rw [hnil, List.append_nil] at hrec
    exact hrec

/-- A lexical error that reading answers is true. -/
theorem Consistent.truthfulAt_of_read (h : ValidTable patterns)
    (htrim : ∀ p ∈ patterns, p.automaton.Trim)
    (hs : Consistent (Lexer.ofPatterns patterns) m s) {found : Option UInt8} {span : Span}
    (hread : s.read.1 = .error (.located ⟨.lexical u found, span⟩)) :
    TruthfulAt patterns s.rest u found := by
  have hpair : s.read = (.error (.located ⟨.lexical u found, span⟩), s.read.2) :=
    Prod.ext hread rfl
  obtain ⟨hne, _, _⟩ := readFails_of_read hpair
  rcases hs.lexical_of_read h hpair with hunmeasurable | ⟨v, span', hv, hno, hlexical⟩
  · cases hunmeasurable
  · cases hlexical
    exact truthfulAt_of_longestViable htrim hv hne hno

/-! ## Calls -/

/-- A failure of `next` arises where reading stops. -/
theorem Consistent.exists_read_of_next (hs : Consistent l m s) (hf : s.next.answer = .error f) :
    ∃ s', Consistent l m s' ∧ s'.input = s.input ∧ s'.offset = s.next.session.offset ∧
      s'.read.1 = .error f := by
  obtain ⟨_, e, hskips, hoffset, hread⟩ := exists_skips_of_next_error hf
  exact ⟨e, hskips.consistent hs, hskips.input_eq, hoffset, hread⟩

/-- A failure of any call arises where the call stops to read, unless a token of another kind was
    expected there. -/
theorem Consistent.exists_read_of_call (hs : Consistent l m s) (c : Call) {e : SessionError}
    {span : Span} (he : ∀ expected found, e ≠ .unexpected expected found)
    (hf : (s.call c).answer.result = some (.error (.located ⟨e, span⟩))) :
    ∃ s', Consistent l m s' ∧ s'.input = s.input ∧ s'.offset = s.stopOffset c ∧
      s'.read.1 = .error (.located ⟨e, span⟩) := by
  cases c with
  | next => exact hs.exists_read_of_next (Outcome.eq_error_of_result hf)
  | peek => exact hs.exists_read_of_next (Outcome.eq_error_of_result hf)
  | nextRaw =>
    have hanswer : s.nextRaw.answer = .error (.located ⟨e, span⟩) := Outcome.eq_error_of_result hf
    have hread := read_of_answer_nextRaw hanswer
    obtain ⟨_, _, hsame⟩ := readFails_of_read hread
    refine ⟨s, hs, rfl, ?_, congrArg Prod.fst hread⟩
    show s.offset = s.nextRaw.session.offset
    rw [nextRaw_of_read_error hread, hsame]
    rfl
  | consume kind =>
    -- an unexpected token is the only failure that `next` has not answered
    have hkind : ∀ expected found span',
        Failure.located ⟨e, span⟩ ≠ .located ⟨.unexpected expected found, span'⟩ := by
      intro expected found span' heq
      cases heq
      exact he expected found rfl
    exact hs.exists_read_of_next (next_of_consume_error hkind (Option.some.inj hf))
  | iterate =>
    obtain ⟨hfailed, hresult⟩ := result_next_of_iterate hf
    have hnext := Outcome.eq_error_of_result hresult
    have hoffset : s.iterate.session.offset = s.next.session.offset := by
      rw [iterate_of_error hfailed hnext]
    obtain ⟨s', hs', hinput, hsame, hread⟩ := hs.exists_read_of_next hnext
    exact ⟨s', hs', hinput, hsame.trans hoffset.symm, hread⟩
  | rebind input => cases hf

/-! ## True errors -/

/-- Let the patterns of a table that compiles be built by combinators only, none of which chooses
    from no bytes. Then every known state of the automaton leads to an accepting one. Whatever
    call fails with a lexical error, in any session that a history of calls leads to: its lexeme is
    the beginning of a word that some pattern recognizes, and unless it is empty no pattern
    recognizes the lexeme itself. If a byte was found after it, no pattern recognizes a word that
    begins with the lexeme and this byte. If none was, the lexeme is not empty, it is the rest of
    the input from where the call stops to read, and some pattern recognizes a longer word that
    begins with it. -/
theorem lexical_errors_truthful {l : Lexer} (h : Lexer.compile patterns = .ok l)
    (hcombined : ∀ p ∈ patterns, ∃ e : Regex.Expr, e.Combined ∧ p.automaton = e.build) :
    (∀ q ∈ l.automaton, ∃ v, l.automaton.AcceptsFrom q v) ∧
    ∀ (m : Metrics) (input : List UInt8) (history : List Call) (c : Call) (lexeme : List UInt8)
      (found : Option UInt8) (span : Span),
      let s := (ofInput l m input).after history
      (s.call c).answer.result = some (.error (.located ⟨.lexical lexeme found, span⟩)) →
      (∃ p ∈ patterns, ∃ v, p.automaton.recognizes (lexeme ++ v) = true) ∧
      (lexeme ≠ [] → ¬∃ p ∈ patterns, p.automaton.recognizes lexeme = true) ∧
      (∀ b, found = some b →
        ¬∃ p ∈ patterns, ∃ v, p.automaton.recognizes (lexeme ++ [b] ++ v) = true) ∧
      (found = none → lexeme ≠ [] ∧ lexeme = s.input.drop (s.stopOffset c) ∧
        ∃ p ∈ patterns, ∃ v, v ≠ [] ∧ p.automaton.recognizes (lexeme ++ v) = true) := by
  obtain ⟨htable, rfl⟩ := Lexer.compile_eq_ok_iff.mp h
  have htrim : ∀ p ∈ patterns, p.automaton.Trim := by
    intro p hp
    obtain ⟨e, he, hbuild⟩ := hcombined p hp
    rw [hbuild]
    exact he.trim
  refine ⟨fun q hq => ?_, fun m input history c lexeme found span => ?_⟩
  · obtain ⟨w, hpath⟩ := Lexer.exists_path_of_mem htable hq
    exact htable.trim_automaton htrim w q hpath
  · intro s hf
    have hs : Consistent (Lexer.ofPatterns patterns) m s := consistent_after _ _ _ _
    have hlexical : ∀ expected found',
        SessionError.lexical lexeme found ≠ .unexpected expected found' := by
      intro _ _ heq
      cases heq
    obtain ⟨s', hs', hinput, hoffset, hread⟩ := hs.exists_read_of_call c hlexical hf
    have htrue := hs'.truthfulAt_of_read htable htrim hread
    refine ⟨htrue.begins, htrue.no_token, htrue.stuck, fun hnone => ?_⟩
    obtain ⟨hne, hrest, hmore⟩ := htrue.at_end hnone
    rw [hs'.rest, hinput, hoffset] at hrest
    exact ⟨hne, hrest, hmore⟩

/-- The first byte of a word of two bytes is the beginning of a token, and the input ends in the
    middle of it. -/
theorem lexical_errors_truthful_unfinished :
    let patterns : List Pattern := [⟨"AB", Regex.word [97, 98]⟩]
    let s := ofInput (Lexer.ofPatterns patterns) {} [97]
    Lexer.compile patterns = .ok (Lexer.ofPatterns patterns) ∧
    (∀ p ∈ patterns, ∃ e : Regex.Expr, e.Combined ∧ p.automaton = e.build) ∧
    (∃ span, (s.call .nextRaw).answer.result =
      some (.error (.located ⟨.lexical [97] none, span⟩))) ∧
    ∃ p ∈ patterns, ∃ v, v ≠ [] ∧ p.automaton.recognizes ([97] ++ v) = true := by
  intro patterns s
  have htable : ValidTable patterns := ⟨List.cons_ne_nil _ _, by decide, by decide⟩
  have hcompile : Lexer.compile patterns = .ok (Lexer.ofPatterns patterns) :=
    Lexer.compile_eq_ok_iff.mpr ⟨htable, rfl⟩
  have hcombined : ∀ p ∈ patterns, ∃ e : Regex.Expr, e.Combined ∧ p.automaton = e.build := by
    intro p hp
    obtain rfl := List.mem_singleton.mp hp
    exact ⟨.word [97, 98], trivial, rfl⟩
  have hword : ∀ w, (Regex.word [97, 98]).Accepts w ↔ w = [97, 98] := fun w =>
    Regex.accepts_word_iff
  have hviable : ∃ p ∈ patterns, p.automaton.Viable [97] := by
    have haccepts : (Regex.word [97, 98]).Accepts ([97] ++ [98]) := (hword _).mpr rfl
    exact ⟨_, List.mem_cons_self, haccepts.viable.of_append⟩
  have hno : ¬TokenDue patterns [97] := by
    simp [TokenDue, patterns, recognizes_iff_accepts, hword]
  have hs : Consistent (Lexer.ofPatterns patterns) {} s := consistent_ofInput _ _ _
  have hu : LongestViable patterns s.rest [97] := LongestViable.refl hviable
  -- nothing comes after the byte
  have hread : s.read = (.error (s.failure (.lexical [97] none) [97]), s.restarted) :=
    hs.read_of_not_tokenDue htable hu (List.cons_ne_nil _ _) hno
  have hmeasured : ∃ span, s.measure? [97] = some span := measure?_eq_some (by decide)
  obtain ⟨span, hspan⟩ := hmeasured
  have hfailed : (s.call .nextRaw).answer.result =
      some (.error (.located ⟨.lexical [97] none, span⟩)) := by
    show s.nextRaw.answer.result = _
    rw [answer_nextRaw, hread, failure, hspan]
    rfl
  obtain ⟨_, hall⟩ := lexical_errors_truthful hcompile hcombined
  obtain ⟨_, _, _, hend⟩ := hall {} [97] [] .nextRaw [97] none span hfailed
  exact ⟨hcompile, hcombined, ⟨span, hfailed⟩, (hend rfl).2.2⟩

end Session

end ByteLexer
