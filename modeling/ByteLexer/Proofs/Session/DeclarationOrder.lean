import ByteLexer.Proofs.Lexer.Ambiguities
import ByteLexer.Proofs.Session.Tiling

/-! # The order of declaration

    In which order the patterns of a table are declared does not matter for where the tokens
    of an input begin and end, nor for the error after them. It only decides of which kind a
    token is that several patterns recognize.

    - **Tables.** What patterns in another order have in common with them.
    - **Alike.** What two lexers may answer without showing more than such a decision.
    - **Reading.** Sessions of two such tables that are abreast answer alike and stay abreast.
    - **Draining.** So everything that they are drained of is alike.
-/

namespace ByteLexer

open Automaton

variable {patterns patterns' : List Pattern} {r u w : List UInt8} {i j : Nat} {m : Metrics}

/-! ## Tables -/

theorem ValidTable.perm (h : ValidTable patterns) (hperm : patterns.Perm patterns') :
    ValidTable patterns' where
  nonempty hnil := by
    rw [hnil, List.perm_nil] at hperm
    exact h.nonempty hperm
  valid p hp := h.valid p (hperm.mem_iff.mpr hp)
  distinct := (hperm.map Pattern.kind).nodup_iff.mp h.distinct

theorem ValidTable.ambiguous_perm_iff (h : ValidTable patterns) (hperm : patterns.Perm patterns') :
    Ambiguous patterns w ↔ Ambiguous patterns' w := by
  simp only [h.ambiguous_iff, (h.perm hperm).ambiguous_iff, hperm.mem_iff]

theorem LongestViable.perm (hu : LongestViable patterns r u) (hperm : patterns.Perm patterns') :
    LongestViable patterns' r u where
  initial_part := hu.initial_part
  viable := by
    obtain ⟨p, hp, hviable⟩ := hu.viable
    exact ⟨p, hperm.mem_iff.mp hp, hviable⟩
  longest v hv hex := by
    obtain ⟨p, hp, hviable⟩ := hex
    exact hu.longest v hv ⟨p, hperm.mem_iff.mpr hp, hviable⟩

theorem tokenDue_perm_iff (hperm : patterns.Perm patterns') :
    TokenDue patterns u ↔ TokenDue patterns' u := by
  simp only [TokenDue, hperm.mem_iff]

/-- The first patterns of two orders have the same kind, unless there are several to choose
    from. -/
theorem ValidTable.kind?_eq_or_ambiguous (h : ValidTable patterns)
    (hperm : patterns.Perm patterns') (hi : FirstMatch patterns u i)
    (hj : FirstMatch patterns' u j) :
    (Lexer.ofPatterns patterns').kind? j = (Lexer.ofPatterns patterns).kind? i ∨
      Ambiguous patterns u := by
  obtain ⟨p, hp, hw⟩ := hi.1
  obtain ⟨p', hp', hw'⟩ := hj.1
  rw [Lexer.kind?_of_getElem? hp, Lexer.kind?_of_getElem? hp']
  by_cases heq : p'.kind = p.kind
  · rw [heq]
    exact .inl rfl
  · exact .inr (h.ambiguous_iff.mpr ⟨p', hperm.mem_iff.mpr (List.mem_of_getElem? hp'), p,
      List.mem_of_getElem? hp, heq, hw', hw⟩)

/-! ## Alike -/

/-- Two tokens are alike if they are the same bytes at the same place, and of the same kind unless
    the bytes are ambiguous. -/
structure Token.Alike (patterns : List Pattern) (t t' : Token) : Prop where
  lexeme : t'.lexeme = t.lexeme
  offset : t'.offset = t.offset
  span : t'.span = t.span
  kind : t'.kind = t.kind ∨ Ambiguous patterns t.lexeme

namespace Session

/-- Two outcomes are alike if they are tokens that are alike, or the same. -/
inductive Outcome.Alike (patterns : List Pattern) : Outcome → Outcome → Prop
  | token {t t' : Token} : t.Alike patterns t' → Alike patterns (.ok (some t)) (.ok (some t'))
  | done : Alike patterns (.ok none) (.ok none)
  | failed (f : Failure) : Alike patterns (.error f) (.error f)

/-- Two streams are alike if their tokens are, one by one, and the same failure ends both, or
    none does. -/
structure Stream.Alike (patterns : List Pattern) (x x' : Stream) : Prop where
  tokens : List.Forall₂ (Token.Alike patterns) x.tokens x'.tokens
  failure : x'.failure = x.failure

theorem Stream.Alike.cons {x x' : Stream} {t t' : Token} (hx : x.Alike patterns x')
    (ht : t.Alike patterns t') : (x.cons t).Alike patterns (x'.cons t') :=
  ⟨.cons ht hx.tokens, hx.failure⟩

/-- Where no bytes are ambiguous, the kinds are the same. -/
theorem Stream.Alike.kinds_eq {x x' : Stream} (hx : x.Alike patterns x')
    (hno : ∀ w, ¬Ambiguous patterns w) :
    x.tokens.map Token.kind = x'.tokens.map Token.kind := by
  have hkinds : List.Forall₂ (fun t t' : Token => t.kind = t'.kind) x.tokens x'.tokens :=
    hx.tokens.imp fun t t' ht => (ht.kind.resolve_right (hno _)).symm
  rw [← List.forall₂_eq_eq_eq, List.forall₂_map_left_iff, List.forall₂_map_right_iff]
  exact hkinds

/-! ## Reading -/

variable {s s' e : Session} {x : Stream}

/-- Sessions that are abreast read alike and stay abreast. -/
theorem Abreast.read (h : ValidTable patterns) (hperm : patterns.Perm patterns')
    (hs : Consistent (Lexer.ofPatterns patterns) m s)
    (hs' : Consistent (Lexer.ofPatterns patterns') m s') (habreast : Abreast s s') :
    Outcome.Alike patterns s.read.1 s'.read.1 ∧ Abreast s.read.2 s'.read.2 := by
  have h' := h.perm hperm
  by_cases hnil : s.rest = []
  · rw [read_of_rest_eq_nil hnil, read_of_rest_eq_nil (habreast.rest.trans hnil)]
    exact ⟨.done, habreast⟩
  · obtain ⟨u, hu⟩ := h.exists_longestViable s.rest
    have hu' : LongestViable patterns' s'.rest u := by
      rw [habreast.rest]
      exact hu.perm hperm
    have hrestarted : Abreast s.restarted s'.restarted :=
      ⟨habreast.metrics, habreast.rest, habreast.offset, habreast.position⟩
    -- the longest viable part is the same, and so is whether a token is due there
    by_cases hdue : TokenDue patterns u
    · obtain ⟨i, hi, hread⟩ := hs.read_of_tokenDue h hu hdue
      obtain ⟨j, hj, hread'⟩ := hs'.read_of_tokenDue h' hu' ((tokenDue_perm_iff hperm).mp hdue)
      rw [hread, hread', habreast.measure?]
      rcases s.measure? u with _ | span
      · exact ⟨.failed _, hrestarted⟩
      · refine ⟨.token ⟨rfl, habreast.offset, rfl, ?_⟩, ?_⟩
        · -- the kind is that of the pattern which is declared first
          rcases h.kind?_eq_or_ambiguous hperm hi hj with hkind | hambiguous
          · left
            show (s'.lexer.kind? j).getD "" = (s.lexer.kind? i).getD ""
            rw [hs.lexer, hs'.lexer, hkind]
          · exact .inr hambiguous
        · refine ⟨habreast.metrics, ?_, ?_, rfl⟩
          · show s'.rest.drop u.length = s.rest.drop u.length
            rw [habreast.rest]
          · show s'.offset + u.length = s.offset + u.length
            rw [habreast.offset]
    · have hno : ¬TokenDue patterns' u := fun hdue' => hdue ((tokenDue_perm_iff hperm).mpr hdue')
      have hnil' : s'.rest ≠ [] := by
        rw [habreast.rest]
        exact hnil
      have hbyte : s'.byteAfter u = s.byteAfter u := by
        unfold byteAfter
        rw [habreast.rest]
      rw [hs.read_of_not_tokenDue h hu hnil hdue, hs'.read_of_not_tokenDue h' hu' hnil' hno,
        hbyte, habreast.failure]
      exact ⟨.failed _, hrestarted⟩

/-- What has been returned does not matter to that. -/
theorem Abreast.setCurrent (habreast : Abreast s s') (c c' : Option Token) :
    Abreast { s with current := c } { s' with current := c' } :=
  ⟨habreast.metrics, habreast.rest, habreast.offset, habreast.position⟩

theorem Abreast.nextRaw (h : ValidTable patterns) (hperm : patterns.Perm patterns')
    (hs : Consistent (Lexer.ofPatterns patterns) m s)
    (hs' : Consistent (Lexer.ofPatterns patterns') m s') (habreast : Abreast s s') :
    Outcome.Alike patterns s.nextRaw.answer s'.nextRaw.answer ∧
      Abreast s.nextRaw.session s'.nextRaw.session := by
  obtain ⟨halike, hafter⟩ := habreast.read h hperm hs hs'
  obtain ⟨current, hsession⟩ := s.exists_session_nextRaw
  obtain ⟨current', hsession'⟩ := s'.exists_session_nextRaw
  rw [answer_nextRaw, answer_nextRaw, hsession, hsession']
  exact ⟨halike, hafter.setCurrent current current'⟩

/-! ## Draining -/

/-- By induction on the calls: sessions that are abreast are drained of streams that are alike. -/
theorem Drained.alike (h : ValidTable patterns) (hperm : patterns.Perm patterns')
    (hx : Drained Session.nextRaw s x e) (hs : Consistent (Lexer.ofPatterns patterns) m s)
    (hs' : Consistent (Lexer.ofPatterns patterns') m s') (habreast : Abreast s s') :
    ∃ x' e', Drained Session.nextRaw s' x' e' ∧ x.Alike patterns x' := by
  induction hx generalizing s' with
  | done hraw =>
    obtain ⟨halike, _⟩ := habreast.nextRaw h hperm hs hs'
    rcases hraw' : s'.nextRaw with ⟨answer', reported', u'⟩
    rw [hraw, hraw'] at halike
    cases halike
    exact ⟨_, _, .done hraw', .nil, rfl⟩
  | failed hraw =>
    obtain ⟨halike, _⟩ := habreast.nextRaw h hperm hs hs'
    rcases hraw' : s'.nextRaw with ⟨answer', reported', u'⟩
    rw [hraw, hraw'] at halike
    cases halike
    exact ⟨_, _, .failed hraw', .nil, rfl⟩
  | token hraw _ ih =>
    obtain ⟨halike, hafter⟩ := habreast.nextRaw h hperm hs hs'
    have hmid := hs.nextRaw
    have hmid' := hs'.nextRaw
    rcases hraw' : s'.nextRaw with ⟨answer', reported', u'⟩
    rw [hraw, hraw'] at halike hafter
    rw [hraw] at hmid
    rw [hraw'] at hmid'
    cases halike with
    | token ht =>
      obtain ⟨x', e', hx', hrest⟩ := ih hmid hmid' hafter
      exact ⟨_, e', .token hraw' hx', hrest.cons ht⟩

/-- The patterns of a table that compiles may be declared in any other order. Then the new table
    compiles as well, and either both have ambiguities or none has. Every input is divided into
    the same lexemes at the same places, and the same lexical error ends both streams, or none
    does. A token is of another kind only if several patterns recognize it, and so without
    ambiguities the kinds are the same. -/
theorem drainRaw_perm {l : Lexer} (h : Lexer.compile patterns = .ok l)
    (hperm : patterns.Perm patterns') :
    ∃ l', Lexer.compile patterns' = .ok l' ∧ (l.ambiguities = [] ↔ l'.ambiguities = []) ∧
      ∀ (m : Metrics) (input : List UInt8),
        let x := (ofInput l m input).drainRaw.answer
        let x' := (ofInput l' m input).drainRaw.answer
        List.Forall₂ (fun t t' : Token => t'.lexeme = t.lexeme ∧ t'.offset = t.offset ∧
          t'.span = t.span ∧ (t'.kind ≠ t.kind → Ambiguous patterns t.lexeme))
          x.tokens x'.tokens ∧
        x'.failure = x.failure ∧
        (∀ f, x.failure = some f → (f = .unmeasurable ∧ m.tabStop = 0) ∨
          ∃ lexeme found span, f = .located ⟨.lexical lexeme found, span⟩) ∧
        (l.ambiguities = [] → x.tokens.map Token.kind = x'.tokens.map Token.kind) := by
  obtain ⟨htable, rfl⟩ := Lexer.compile_eq_ok_iff.mp h
  have htable' := htable.perm hperm
  refine ⟨_, Lexer.compile_eq_ok_iff.mpr ⟨htable', rfl⟩, ?_, fun m input => ?_⟩
  · simp only [Lexer.ambiguities_eq_nil_iff htable, Lexer.ambiguities_eq_nil_iff htable',
      htable.ambiguous_perm_iff hperm]
  · intro x x'
    have hx : Drained Session.nextRaw _ x _ := drained_drainRaw _
    have hs := placed_ofInput (Lexer.ofPatterns patterns) m input
    obtain ⟨y, e', hy, halike⟩ := hx.alike htable hperm hs.toConsistent
      (consistent_ofInput _ m input) ⟨rfl, rfl, rfl, rfl⟩
    -- the other session is drained of one stream only
    obtain rfl : y = x' := (hy.unique (drained_drainRaw _)).1
    refine ⟨halike.tokens.imp fun t t' ht => ?_, halike.failure, fun f hf => ?_, fun hno => ?_⟩
    · exact ⟨ht.lexeme, ht.offset, ht.span, ht.kind.resolve_left⟩
    · rcases hx.stops htable hs with ⟨hnone, _⟩ | ⟨g, hsome, _, hfailure⟩
      · rw [hnone] at hf
        cases hf
      · rw [hsome] at hf
        obtain rfl := Option.some.inj hf
        rcases hfailure with hunmeasurable | ⟨lexeme, found, span, heq, _⟩
        · exact .inl hunmeasurable
        · exact .inr ⟨lexeme, found, span, heq⟩
    · exact halike.kinds_eq ((Lexer.ambiguities_eq_nil_iff htable).mp hno)

/-- A byte that both patterns recognize is one token in either order, of the kind that is declared
    first. -/
theorem drainRaw_perm_swapped :
    let a : Pattern := ⟨"A", Regex.word [97]⟩
    let b : Pattern := ⟨"B", Regex.oneOf [97, 98]⟩
    let l := Lexer.ofPatterns [a, b]
    Lexer.compile [a, b] = .ok l ∧ [a, b].Perm [b, a] ∧
    ∃ l', Lexer.compile [b, a] = .ok l' ∧
      ∃ t t', (ofInput l {} [97]).drainRaw.answer = ⟨[t], none⟩ ∧
        (ofInput l' {} [97]).drainRaw.answer = ⟨[t'], none⟩ ∧
        t'.lexeme = t.lexeme ∧ t'.span = t.span ∧ t.kind = "A" ∧ t'.kind = "B" := by
  intro a b l
  have hword : (Regex.word [97]).recognizes [97] = true :=
    recognizes_iff_accepts.mpr (Regex.accepts_word_iff.mpr rfl)
  have hbyte : (Regex.oneOf [97, 98]).recognizes [97] = true :=
    recognizes_iff_accepts.mpr (Regex.accepts_oneOf_iff.mpr ⟨97, by decide, rfl⟩)
  have htable : ValidTable [a, b] := ⟨List.cons_ne_nil _ _, by decide, by decide⟩
  have hcompile : Lexer.compile [a, b] = .ok l := Lexer.compile_eq_ok_iff.mpr ⟨htable, rfl⟩
  have hperm : [a, b].Perm [b, a] := List.Perm.swap b a []
  -- whichever pattern comes first, the byte is a token of its kind
  have hfirst : ∀ p p' : Pattern, ValidTable [p, p'] → p.automaton.recognizes [97] = true →
      ∃ t, (ofInput (Lexer.ofPatterns [p, p']) {} [97]).drainRaw.answer = ⟨[t], none⟩ ∧
        t.kind = p.kind := by
    intro p p' hvalid hp
    have hdue : TokenDue [p, p'] [97] := ⟨List.cons_ne_nil _ _, p, List.mem_cons_self, hp⟩
    obtain ⟨i, span, s', hi, hnil, hraw⟩ := exists_nextRaw_of_tokenDue (m := {}) hvalid hdue
      (by decide)
    have hx := Drained.token hraw (.done (nextRaw_of_rest_eq_nil hnil))
    refine ⟨_, (hx.unique (drained_drainRaw _)).1.symm, ?_⟩
    rcases i with _ | i
    · rfl
    · exact absurd ⟨p, rfl, hp⟩ (hi.2 0 (Nat.succ_pos i))
  obtain ⟨l', hcompile', _, hall⟩ := drainRaw_perm hcompile hperm
  obtain ⟨hvalid', rfl⟩ := Lexer.compile_eq_ok_iff.mp hcompile'
  obtain ⟨t, ht, hkind⟩ := hfirst a b htable hword
  obtain ⟨t', ht', hkind'⟩ := hfirst b a hvalid' hbyte
  obtain ⟨htokens, _⟩ := hall {} [97]
  rw [ht, ht', List.forall₂_cons] at htokens
  obtain ⟨⟨hlexeme, _, hspan, _⟩, _⟩ := htokens
  exact ⟨hcompile, hperm, _, hcompile', t, t', ht, ht', hlexeme, hspan, hkind, hkind'⟩

end Session

end ByteLexer
