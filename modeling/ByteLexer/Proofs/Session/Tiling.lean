import ByteLexer.Proofs.Session.Place
import ByteLexer.Proofs.Session.Streams

/-! # Tokens tile the input

    Nothing of an input gets lost between its tokens, and nothing is read twice. When
    no token is skipped, the lexemes one after the other are the input, up to the
    lexical error that may end them.

    - **`Tiles`** says that each token starts where the one before it ends, and **`Covers`** that
      some tokens are tiles that make up what lies between two sessions.
    - **Draining.** What a session is drained of covers what it has read since.
    - **The end.** Where it stops, the input is at its end or there is a lexical error.
-/

namespace ByteLexer.Session

variable {patterns : List Pattern} {l : Lexer} {m : Metrics} {s e : Session} {x : Stream}
  {t : Token} {f : Failure} {k : Nat} {p : Position} {tokens before after : List Token}

/-! ## Tiles -/

/-- Some tokens tile an input from an offset and a position on: none is empty, and each one starts
    where the one before it ends. -/
inductive Tiles : Nat → Position → List Token → Prop
  | nil {k : Nat} {p : Position} : Tiles k p []
  | cons {t : Token} {tokens : List Token} : t.lexeme ≠ [] →
      Tiles (t.offset + t.lexeme.length) t.span.stop tokens →
      Tiles t.offset t.span.start (t :: tokens)

/-- Where a token of a tiling is, by the tokens before it. -/
theorem Tiles.place (h : Tiles k p (before ++ t :: after)) :
    t.lexeme ≠ [] ∧ t.offset = k + (before.flatMap Token.lexeme).length ∧
      t.span.start = (before.getLast?.map fun u => u.span.stop).getD p := by
  induction before generalizing k p with
  | nil =>
    cases h with
    | cons hne _ => exact ⟨hne, rfl, rfl⟩
  | cons u before ih =>
    cases h with
    | cons _ hrest =>
      obtain ⟨hne, hoffset, hstart⟩ := ih hrest
      refine ⟨hne, ?_, ?_⟩
      · rw [List.flatMap_cons, List.length_append]
        omega
      · rw [hstart, List.getLast?_cons]
        rcases before.getLast? with _ | v
        · rfl
        · rfl

/-! ## Covering -/

/-- Some tokens cover what lies between two sessions: they tile the input from the place of the
    first one on, and what is left after them is left to the other one. -/
structure Covers (s : Session) (tokens : List Token) (e : Session) : Prop where
  tiles : Tiles s.offset s.position tokens
  parts : tokens.flatMap Token.lexeme ++ e.rest = s.rest
  offset : e.offset = s.offset + (tokens.flatMap Token.lexeme).length

theorem covers_nil (hrest : e.rest = s.rest) (hoffset : e.offset = s.offset) : Covers s [] e :=
  ⟨.nil, hrest, hoffset⟩

/-- A token that is read first goes in front of the tokens that cover what is left. -/
theorem Covers.of_read {mid : Session} (hread : s.read = (.ok (some t), mid))
    (h : Covers mid tokens e) : Covers s (t :: tokens) e := by
  obtain ⟨ht, hne, hspan, v, hrest, rfl⟩ := token_of_read hread
  have hat : t.offset = s.offset := by
    rw [ht]
    rfl
  have hstart : t.span.start = s.position := by
    rw [eq_ofText_of_measure? hspan, Span.start_ofText]
  have hv : tokens.flatMap Token.lexeme ++ e.rest = v := h.parts
  have hmoved : e.offset = s.offset + t.lexeme.length + (tokens.flatMap Token.lexeme).length :=
    h.offset
  refine ⟨?_, ?_, ?_⟩
  · rw [← hat, ← hstart]
    apply Tiles.cons hne
    rw [hat]
    exact h.tiles
  · rw [List.flatMap_cons, List.append_assoc, hv, hrest]
  · rw [List.flatMap_cons, List.length_append]
    omega

/-! ## Draining -/

/-- What a session is drained of covers what it reads. -/
theorem Drained.tiles (hx : Drained nextRaw s x e) : Covers s x.tokens e := by
  induction hx with
  | done hraw =>
    obtain ⟨_, rfl⟩ := rest_eq_nil_of_nextRaw hraw
    exact covers_nil rfl rfl
  | failed hraw =>
    obtain ⟨_, _, rfl⟩ := readFails_of_read (read_of_nextRaw_error hraw)
    exact covers_nil rfl rfl
  | token hraw _ ih =>
    obtain ⟨mid, hread, rfl⟩ := read_of_nextRaw_token hraw
    -- which token was returned last does not matter for what is left
    exact Covers.of_read hread ⟨ih.tiles, ih.parts, ih.offset⟩

/-! ## The end -/

/-- Where a session is drained, nothing is left, or there is a lexical error just there, or a tab
    would have to be measured with a tab stop of zero. -/
theorem Drained.stops (h : ValidTable patterns) (hx : Drained nextRaw s x e)
    (hs : Placed (Lexer.ofPatterns patterns) m s) :
    (x.failure = none ∧ e.rest = []) ∨ ∃ f, x.failure = some f ∧ e.rest ≠ [] ∧
      ((f = .unmeasurable ∧ m.tabStop = 0) ∨
        ∃ lexeme found span, f = .located ⟨.lexical lexeme found, span⟩ ∧
          LexicalAt m s.input e.offset lexeme found span) := by
  have hkeep : ∀ u : Session, Placed (Lexer.ofPatterns patterns) m u ∧ u.input = s.input →
      Placed (Lexer.ofPatterns patterns) m u.nextRaw.session ∧
        u.nextRaw.session.input = s.input := by
    intro u hu
    exact ⟨hu.1.nextRaw.session, hu.1.nextRaw.input_eq.trans hu.2⟩
  obtain ⟨u, _, ⟨hu, hinput⟩, hlast⟩ := hx.exists_last hkeep ⟨hs, rfl⟩
  rcases hlast with ⟨hnone, hraw⟩ | ⟨f, hsome, hraw⟩
  · obtain ⟨hnil, rfl⟩ := rest_eq_nil_of_nextRaw hraw
    exact .inl ⟨hnone, hnil⟩
  · have hread := read_of_nextRaw_error hraw
    obtain ⟨_, hoffset, hlies⟩ := hu.read_error hread
    rw [hinput, ← hoffset] at hlies
    have hlexical := hu.lexical_of_read h hread
    obtain ⟨hne, _, rfl⟩ := readFails_of_read hread
    refine .inr ⟨f, hsome, hne, ?_⟩
    rcases hlexical with rfl | ⟨lexeme, span, _, _, rfl⟩
    · exact .inl ⟨rfl, hlies.unmeasurable rfl⟩
    · exact .inr ⟨lexeme, _, span, rfl, hlies.lexical _ _ _ rfl⟩

/-- Repeated calls for all tokens of an input come to an end. The tokens are not empty, and each
    one starts where the one before it ends, both in bytes and in lines and columns. Their lexemes
    make up the input as far as it has been read, which is all of it exactly if there is no failure
    in the end. A failure is a lexical error just there, or else a tab would have to be measured
    with a tab stop of zero. -/
theorem drained_nextRaw_tiles (h : Lexer.compile patterns = .ok l) (m : Metrics)
    (input : List UInt8) :
    let s := ofInput l m input
    (∃ x e, Drained nextRaw s x e) ∧ ∀ x e, Drained nextRaw s x e →
      (∀ before t after, x.tokens = before ++ t :: after →
        t.lexeme ≠ [] ∧ t.offset = (before.flatMap Token.lexeme).length ∧
          t.span.start = (before.getLast?.map fun u => u.span.stop).getD {}) ∧
      x.tokens.flatMap Token.lexeme = input.take e.offset ∧
      (x.tokens.flatMap Token.lexeme = input ↔ x.failure = none) ∧
      ∀ f, x.failure = some f → (f = .unmeasurable ∧ m.tabStop = 0) ∨
        ∃ lexeme found span, f = .located ⟨.lexical lexeme found, span⟩ ∧
          LexicalAt m input e.offset lexeme found span := by
  intro s
  obtain ⟨htable, rfl⟩ := Lexer.compile_eq_ok_iff.mp h
  have hs : Placed (Lexer.ofPatterns patterns) m s := placed_ofInput _ m input
  refine ⟨⟨_, _, s.drained_drainRaw⟩, fun x e hx => ?_⟩
  obtain ⟨htiles, hparts, hoffset⟩ := hx.tiles
  have hinput : x.tokens.flatMap Token.lexeme ++ e.rest = input := hparts
  have hlength : e.offset = (x.tokens.flatMap Token.lexeme).length := by
    rw [hoffset]
    exact Nat.zero_add _
  refine ⟨fun before t after htokens => ?_, ?_, ?_⟩
  · rw [htokens] at htiles
    obtain ⟨hne, hat, hstart⟩ := htiles.place
    refine ⟨hne, ?_, hstart⟩
    rw [hat]
    exact Nat.zero_add _
  · rw [hlength, ← hinput, List.take_left]
  · have hwhole : x.tokens.flatMap Token.lexeme = input ↔ e.rest = [] := by
      rw [← hinput]
      exact List.self_eq_append_right
    rw [hwhole]
    rcases hx.stops htable hs with ⟨hnone, hnil⟩ | ⟨f, hsome, hne, hfailure⟩
    · refine ⟨iff_of_true hnil hnone, fun f hf => ?_⟩
      rw [hnone] at hf
      cases hf
    · rw [hsome]
      refine ⟨iff_of_false hne (Option.some_ne_none f), fun g hg => ?_⟩
      obtain rfl := Option.some.inj hg
      exact hfailure

/-- After the byte of the only pattern comes another one: one token, then a lexical error at the
    other byte. -/
theorem drained_nextRaw_tiles_failed :
    let patterns : List Pattern := [⟨"A", Regex.oneOf [97]⟩]
    let s := ofInput (Lexer.ofPatterns patterns) {} [97, 98]
    Lexer.compile patterns = .ok (Lexer.ofPatterns patterns) ∧
    ∃ x e, Drained nextRaw s x e ∧ x.tokens.flatMap Token.lexeme = [97] ∧
      ∃ lexeme found span, x.failure = some (.located ⟨.lexical lexeme found, span⟩) ∧
        LexicalAt {} [97, 98] 1 lexeme found span := by
  intro patterns s
  have htable : ValidTable patterns := ⟨List.cons_ne_nil _ _, by decide, by decide⟩
  have hcompile : Lexer.compile patterns = .ok (Lexer.ofPatterns patterns) :=
    Lexer.compile_eq_ok_iff.mpr ⟨htable, rfl⟩
  have htoken : ∀ u, TokenDue patterns u ↔ u ≠ [] ∧ u = [97] := by
    intro u
    simp [TokenDue, patterns, Automaton.recognizes_iff_accepts, Regex.accepts_oneOf_iff]
  have hstuck : ¬(Regex.oneOf [97]).Viable [97, 98] := by
    intro hviable
    obtain ⟨q, hq⟩ := hviable
    -- the first byte leads to the final state, which no edge leaves
    obtain ⟨_, t, _, hedge, htail⟩ := hq.cut_byte
    obtain ⟨_, rfl, _⟩ := Regex.mem_targets_oneOf.mp hedge
    rw [Automaton.path_of_stuck fun _ _ => Regex.not_mem_targets_oneOf_final] at htail
    cases htail.1
  -- the first byte is read as a token
  have hs : Consistent (Lexer.ofPatterns patterns) {} s := consistent_ofInput _ _ _
  have hdue : TokenDue patterns [97] := (htoken [97]).mpr (by decide)
  have hu : LongestViable patterns s.rest [97] := by
    refine ⟨⟨[98], rfl⟩, hdue.viable, fun v hv hviable => ?_⟩
    obtain ⟨p, hp, hviable⟩ := hviable
    obtain rfl := List.mem_singleton.mp hp
    have hparts : v <+: [97] ++ [98] := hv
    rcases List.prefix_concat_iff.mp hparts with rfl | hv
    · exact absurd hviable hstuck
    · exact hv.length_le
  obtain ⟨i, _, hread⟩ := hs.read_of_tokenDue htable hu hdue
  have hmeasured : ∃ span, s.measure? [97] = some span := measure?_eq_some (by decide)
  obtain ⟨span, hspan⟩ := hmeasured
  rw [hspan] at hread
  have hraw := nextRaw_of_read_token hread
  -- the second one begins no token
  have hmid := hs.nextRaw
  rw [hraw] at hmid
  obtain ⟨v, hv⟩ := htable.exists_longestViable [98]
  have hno : ¬TokenDue patterns v := by
    intro hdue
    have hpart := hv.initial_part
    rw [((htoken v).mp hdue).2] at hpart
    exact absurd hpart (by decide)
  have hread' := hmid.read_of_not_tokenDue htable hv (List.cons_ne_nil _ _) hno
  have hx := Drained.token hraw (.failed (nextRaw_of_read_error hread'))
  obtain ⟨_, hall⟩ := drained_nextRaw_tiles hcompile {} [97, 98]
  obtain ⟨_, hparts, _, hfailure⟩ := hall _ _ hx
  refine ⟨hcompile, _, _, hx, hparts, ?_⟩
  rcases hfailure _ rfl with ⟨_, hzero⟩ | ⟨lexeme, found, span, hf, hlies⟩
  · cases hzero
  · exact ⟨lexeme, found, span, congrArg some hf, hlies⟩

end ByteLexer.Session
