import ByteLexer.Proofs.Regex.Trim
import ByteLexer.Proofs.Session.Streams

/-! # More input

    When more bytes follow, what a session has answered so far stays true, except that the last
    lexeme may turn out to be longer if nothing came after it. For a session looks no further
    than to the byte after a lexeme.

    - **`Extended`** sessions have what another one has left, and more after it. They answer
      alike where a lexeme ends before what the other one has left.
    - **Streams.** What is settled in the stream of an input, by induction on the stream.
-/

namespace ByteLexer

variable {patterns : List Pattern} {m : Metrics} {u y : List UInt8} {b : UInt8}

namespace Session

variable {s s' e : Session} {x : Stream} {t : Token} {f : Failure}

/-- The next token is the longest viable part of the rest. -/
theorem Consistent.longestViable_of_nextRaw (h : ValidTable patterns)
    (hs : Consistent (Lexer.ofPatterns patterns) m s) {reported : List Token} {mid : Session}
    (hraw : s.nextRaw = ⟨.ok (some t), reported, mid⟩) :
    LongestViable patterns s.rest t.lexeme ∧ TokenDue patterns t.lexeme := by
  obtain ⟨after, hread, _⟩ := read_of_nextRaw_token hraw
  obtain ⟨i, u, span, hu, hdue, _, rfl⟩ := hs.longestViable_of_read h hread
  exact ⟨hu, hdue⟩

/-! ## Extended sessions -/

/-- The second session is at the same place as the first one, and has some more bytes left. -/
structure Extended (y : List UInt8) (s s' : Session) : Prop where
  metrics : s'.metrics = s.metrics
  rest : s'.rest = s.rest ++ y
  offset : s'.offset = s.offset
  position : s'.position = s.position

theorem extended_ofInput (l : Lexer) (m : Metrics) (x y : List UInt8) :
    Extended y (ofInput l m x) (ofInput l m (x ++ y)) :=
  ⟨rfl, rfl, rfl, rfl⟩

namespace Extended

theorem restarted (h : Extended y s s') : Extended y s.restarted s'.restarted :=
  ⟨h.metrics, h.rest, h.offset, h.position⟩

theorem setCurrent (h : Extended y s s') (c c' : Option Token) :
    Extended y { s with current := c } { s' with current := c' } :=
  ⟨h.metrics, h.rest, h.offset, h.position⟩

/-- If a part of the rest is followed by a byte, that byte stays. -/
theorem byteAfter (h : Extended y s s') (hpart : u <+: s.rest) (hne : u ≠ s.rest) :
    s'.byteAfter u = s.byteAfter u := by
  obtain ⟨v, hv⟩ := hpart
  have hv' : v ≠ [] := by
    intro hnil
    rw [hnil, List.append_nil] at hv
    exact hne hv
  unfold Session.byteAfter
  rw [h.rest, ← hv, List.append_assoc, List.drop_left, List.drop_left,
    List.head?_append_of_ne_nil v hv']

/-- A token that is due in both sessions is read alike, and they are at the same place after
    it. -/
theorem read_of_tokenDue (h : ValidTable patterns) (hext : Extended y s s')
    (hs : Consistent (Lexer.ofPatterns patterns) m s)
    (hs' : Consistent (Lexer.ofPatterns patterns) m s') (hu : LongestViable patterns s.rest u)
    (hu' : LongestViable patterns s'.rest u) (hdue : TokenDue patterns u) :
    s'.read.1 = s.read.1 ∧ Extended y s.read.2 s'.read.2 := by
  obtain ⟨i, hi, hread⟩ := hs.read_of_tokenDue h hu hdue
  obtain ⟨j, hj, hread'⟩ := hs'.read_of_tokenDue h hu' hdue
  have htoken : ∀ span, s'.token i u span = s.token i u span := by
    intro span
    unfold Session.token
    rw [hs.lexer, hs'.lexer, hext.offset]
  rw [hread, hread', measure?_congr hext.metrics hext.position, hj.unique hi]
  rcases s.measure? u with _ | span
  · exact ⟨rfl, hext.restarted⟩
  · refine ⟨congrArg (fun t => Except.ok (some t)) (htoken span), hext.metrics, ?_, ?_, rfl⟩
    · show s'.rest.drop u.length = s.rest.drop u.length ++ y
      rw [hext.rest, List.drop_append_of_le_length hu.initial_part.length_le]
    · show s'.offset + u.length = s.offset + u.length
      rw [hext.offset]

/-- An error after a part that ends before what the first session has left is read alike. -/
theorem read_of_not_tokenDue (h : ValidTable patterns) (hext : Extended y s s')
    (hs : Consistent (Lexer.ofPatterns patterns) m s)
    (hs' : Consistent (Lexer.ofPatterns patterns) m s') (hu : LongestViable patterns s.rest u)
    (hne : u ≠ s.rest) (hdue : ¬TokenDue patterns u) : s'.read.1 = s.read.1 := by
  have hu' : LongestViable patterns s'.rest u := by
    rw [hext.rest]
    exact hu.append hne y
  have hrest : s.rest ≠ [] := fun hnil => hne ((hu.eq_nil hnil).trans hnil.symm)
  have hrest' : s'.rest ≠ [] := by
    rw [hext.rest]
    exact List.append_ne_nil_of_left_ne_nil hrest y
  rw [hs.read_of_not_tokenDue h hu hrest hdue, hs'.read_of_not_tokenDue h hu' hrest' hdue,
    hext.byteAfter hu.initial_part hne, failure_congr hext.metrics hext.position]

/-- If the next token of the first session is the longest viable part in the second one too, it
    is the next token of both. -/
theorem nextRaw_token (h : ValidTable patterns) (hext : Extended y s s')
    (hs : Consistent (Lexer.ofPatterns patterns) m s)
    (hs' : Consistent (Lexer.ofPatterns patterns) m s') {reported : List Token} {mid : Session}
    (hraw : s.nextRaw = ⟨.ok (some t), reported, mid⟩)
    (hu' : LongestViable patterns s'.rest t.lexeme) :
    ∃ mid', s'.nextRaw = ⟨.ok (some t), [], mid'⟩ ∧ Extended y mid mid' := by
  obtain ⟨after, hread, rfl⟩ := read_of_nextRaw_token hraw
  obtain ⟨i, u, span, hu, hdue, _, rfl⟩ := hs.longestViable_of_read h hread
  obtain ⟨hanswer, hafter⟩ := hext.read_of_tokenDue h hs hs' hu hu' hdue
  rw [hread] at hanswer hafter
  have hread' : s'.read = (.ok (some (s.token i u span)), s'.read.2) := Prod.ext hanswer rfl
  exact ⟨_, nextRaw_of_read_token hread', hafter.setCurrent _ _⟩

/-- A lexical error at a byte is the answer of both sessions. -/
theorem nextRaw_stuck (h : ValidTable patterns) (hext : Extended y s s')
    (hs : Consistent (Lexer.ofPatterns patterns) m s)
    (hs' : Consistent (Lexer.ofPatterns patterns) m s') {reported : List Token} {mid : Session}
    {lexeme : List UInt8} {span : Span}
    (hraw : s.nextRaw = ⟨.error (.located ⟨.lexical lexeme (some b), span⟩), reported, mid⟩) :
    s'.nextRaw.answer = .error (.located ⟨.lexical lexeme (some b), span⟩) := by
  have hread := read_of_nextRaw_error hraw
  rcases hs.lexical_of_read h hread with hunmeasurable | ⟨u, span', hu, hdue, hlexical⟩
  · cases hunmeasurable
  · obtain ⟨⟨rfl, hfound⟩, _⟩ : (lexeme = u ∧ some b = s.byteAfter u) ∧ span = span' := by
      simpa using hlexical
    -- the byte comes after the lexeme, which is not all there is
    have hne : lexeme ≠ s.rest := by
      intro heq
      rw [Session.byteAfter, heq, List.drop_length] at hfound
      cases hfound
    rw [answer_nextRaw, hext.read_of_not_tokenDue h hs hs' hu hne hdue, hread]

end Extended

/-! ## Streams -/

/-- What is settled in the stream of an input, if more bytes may follow: the tokens but for the
    last one, all tokens if there is a failure after them, and everything if that is a lexical
    error at a byte. -/
structure Stream.Settled (x x' : Stream) : Prop where
  tokens : x.tokens.dropLast <+: x'.tokens
  tokens_of_failure : x.failure ≠ none → x.tokens <+: x'.tokens
  eq_of_found : ∀ lexeme b span,
    x.failure = some (.located ⟨.lexical lexeme (some b), span⟩) → x' = x

/-- A token in front is settled if some more comes after it. -/
theorem Stream.Settled.cons {x x' : Stream} (h : x.Settled x') (t : Token) :
    (x.cons t).Settled (x'.cons t) where
  tokens := by
    have hdrop : (t :: x.tokens).dropLast <+: t :: x.tokens.dropLast := by
      rcases x.tokens with _ | ⟨t', rest⟩
      · exact List.nil_prefix
      · exact List.prefix_refl _
    exact hdrop.trans (List.cons_prefix_cons.mpr ⟨rfl, h.tokens⟩)
  tokens_of_failure hne := List.cons_prefix_cons.mpr ⟨rfl, h.tokens_of_failure hne⟩
  eq_of_found lexeme b span heq := congrArg (Stream.cons t) (h.eq_of_found lexeme b span heq)

/-- A session that has nothing left is drained of nothing. -/
theorem Drained.eq_of_rest_eq_nil (hx : Drained Session.nextRaw s x e) (hnil : s.rest = []) :
    x = ⟨[], none⟩ :=
  (hx.unique (.done (nextRaw_of_rest_eq_nil hnil))).1

/-- By induction on the stream: what it settles is found in the stream of every session that has
    more bytes left. -/
theorem Drained.settled (h : ValidTable patterns) (hx : Drained Session.nextRaw s x e)
    (hs : Consistent (Lexer.ofPatterns patterns) m s)
    (hs' : Consistent (Lexer.ofPatterns patterns) m s') (hext : Extended y s s') :
    x.Settled s'.drainRaw.answer := by
  induction hx generalizing s' with
  | done hraw =>
    exact ⟨List.nil_prefix, fun hne => absurd rfl hne, fun _ _ _ heq => by cases heq⟩
  | failed hraw =>
    refine ⟨List.nil_prefix, fun _ => List.nil_prefix, fun lexeme b span heq => ?_⟩
    rw [Option.some.inj heq] at hraw ⊢
    -- the other session fails at the same byte
    have hanswer := hext.nextRaw_stuck h hs hs' hraw
    have hstuck : Drained Session.nextRaw s' ⟨[], some (.located ⟨.lexical lexeme (some b), span⟩)⟩
        s'.nextRaw.session := .failed (Reply.ext hanswer rfl rfl)
    exact (s'.drained_drainRaw.unique hstuck).1
  | @token s mid e reported t x hraw htail ih =>
    by_cases hwhole : t.lexeme = s.rest
    · -- nothing is left after the token
      have hnil : mid.rest = [] := by
        obtain ⟨after, hread, rfl⟩ := read_of_nextRaw_token hraw
        obtain ⟨_, _, _, v, hrest, rfl⟩ := token_of_read hread
        rw [hwhole] at hrest
        exact List.append_right_eq_self.mp hrest
      rw [htail.eq_of_rest_eq_nil hnil]
      exact ⟨List.nil_prefix, fun hne => absurd rfl hne, fun _ _ _ heq => by cases heq⟩
    · have hu' : LongestViable patterns s'.rest t.lexeme := by
        rw [hext.rest]
        exact (hs.longestViable_of_nextRaw h hraw).1.append hwhole y
      obtain ⟨mid', hraw', hmid⟩ := hext.nextRaw_token h hs hs' hraw hu'
      have hcons := hs.nextRaw
      have hcons' := hs'.nextRaw
      rw [hraw] at hcons
      rw [hraw'] at hcons'
      have hx' : Drained Session.nextRaw s' (mid'.drainRaw.answer.cons t) _ :=
        .token hraw' mid'.drained_drainRaw
      rw [(s'.drained_drainRaw.unique hx').1]
      exact (ih hcons hcons' hmid).cons t

/-- Whatever bytes are appended to an input of a lexer: all tokens of the input but for the last
    one are the first tokens of the longer input, the same in everything. So is the last one, if
    the input ends in a failure. If that is a lexical error at some byte, nothing changes at
    all. -/
theorem drainRaw_append {l : Lexer} (h : Lexer.compile patterns = .ok l) (m : Metrics)
    (x y : List UInt8) :
    let short := (ofInput l m x).drainRaw.answer
    let long := (ofInput l m (x ++ y)).drainRaw.answer
    short.tokens.dropLast <+: long.tokens ∧
    (short.failure ≠ none → short.tokens <+: long.tokens) ∧
    ∀ lexeme b span, short.failure = some (.located ⟨.lexical lexeme (some b), span⟩) →
      long = short := by
  intro short long
  obtain ⟨htable, rfl⟩ := Lexer.compile_eq_ok_iff.mp h
  have hx : Drained Session.nextRaw _ short _ := drained_drainRaw _
  have hsettled := hx.settled htable (consistent_ofInput _ m x) (consistent_ofInput _ m (x ++ y))
    (extended_ofInput _ m x y)
  exact ⟨hsettled.tokens, hsettled.tokens_of_failure, hsettled.eq_of_found⟩

/-- After the byte of the only pattern comes another one, at which there is a lexical error. What
    comes after that does not matter. -/
theorem drainRaw_append_stuck :
    let patterns : List Pattern := [⟨"A", Regex.oneOf [97]⟩]
    let l := Lexer.ofPatterns patterns
    Lexer.compile patterns = .ok l ∧ ∃ t span,
      (ofInput l {} [97, 98]).drainRaw.answer =
        ⟨[t], some (.located ⟨.lexical [] (some 98), span⟩)⟩ ∧
      (ofInput l {} ([97, 98] ++ [97])).drainRaw.answer =
        ⟨[t], some (.located ⟨.lexical [] (some 98), span⟩)⟩ := by
  intro patterns l
  have htable : ValidTable patterns := ⟨List.cons_ne_nil _ _, by decide, by decide⟩
  have hcompile : Lexer.compile patterns = .ok l := Lexer.compile_eq_ok_iff.mpr ⟨htable, rfl⟩
  have hviable : ∀ u, (∃ p ∈ patterns, p.automaton.Viable u) ↔ ∃ v, u ++ v = [97] := by
    intro u
    simp [patterns, (Regex.trim_oneOf (List.cons_ne_nil 97 [])).viable_iff,
      Regex.accepts_oneOf_iff]
  have hdue : TokenDue patterns [97] := by
    simp [TokenDue, patterns, Automaton.recognizes_iff_accepts, Regex.accepts_oneOf_iff]
  -- the first byte is a token
  have hs : Consistent l {} (ofInput l {} [97, 98]) := consistent_ofInput l _ _
  have hu : LongestViable patterns [97, 98] [97] := by
    refine .of_stuck ⟨[98], rfl⟩ hdue.viable fun b _ hb => ?_
    simp [hviable] at hb
  obtain ⟨i, _, hread⟩ := hs.read_of_tokenDue htable hu hdue
  obtain ⟨span, hspan⟩ : ∃ span, (ofInput l {} [97, 98]).measure? [97] = some span :=
    measure?_eq_some (by decide)
  rw [hspan] at hread
  obtain ⟨t, mid, hraw, hrest⟩ : ∃ t mid, (ofInput l {} [97, 98]).nextRaw = ⟨.ok (some t), [], mid⟩ ∧
      mid.rest = [98] := ⟨_, _, nextRaw_of_read_token hread, rfl⟩
  -- the second one is none
  have hmid := hs.nextRaw
  rw [hraw] at hmid
  have hnil : LongestViable patterns mid.rest [] := by
    refine .of_stuck List.nil_prefix ((hviable []).mpr ⟨[97], rfl⟩) fun b hpart hb => ?_
    obtain rfl : b = 98 := by simpa [hrest] using hpart
    simp [hviable] at hb
  have hne : mid.rest ≠ [] := by
    rw [hrest]
    exact List.cons_ne_nil _ _
  have hbyte : mid.byteAfter [] = some 98 := by
    rw [byteAfter, hrest]
    rfl
  have hstuck := hmid.read_of_not_tokenDue htable hnil hne fun h => h.1 rfl
  have hmeasures : mid.metrics.Measures (latin1 [98]) := by
    rw [hmid.metrics]
    decide
  obtain ⟨span', hspan'⟩ := measure?_eq_some hmeasures
  rw [hbyte, failure, List.nil_append, Option.toList_some, hspan'] at hstuck
  have hx := Drained.token hraw (.failed (nextRaw_of_read_error hstuck))
  have hshort := ((drained_drainRaw _).unique hx).1
  obtain ⟨_, _, hsame⟩ := drainRaw_append hcompile {} [97, 98] [97]
  refine ⟨hcompile, t, span', hshort, ?_⟩
  rw [hsame [] 98 span' (by rw [hshort]; rfl), hshort]
  rfl

end Session

end ByteLexer
