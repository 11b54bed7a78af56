import ByteLexer.Proofs.Session.Invariant

/-! # What a session answers

    Every call reads lexemes one after the other, so what it answers is known from what
    reading answers.

    - **Measuring.** Which bytes can be measured, and what span they get.
    - **Reading.** What is known of a token that has been read, and of a failure to read one.
    - **The next token.** One equation for each way in which reading can end.
    - **Places.** Sessions with the same bytes left at the same place measure alike. With the
      same lexer and input they also answer alike, whatever they have returned before.
-/

namespace ByteLexer.Session

variable {s s' : Session} {m : Metrics} {t : Token} {f : Failure} {bytes : List UInt8}
  {span : Span}

/-! ## Measuring -/

theorem measure?_eq_some (h : s.metrics.Measures (latin1 bytes)) :
    ∃ span, s.measure? bytes = some span :=
  ⟨_, if_pos h⟩

theorem measure?_eq_none (h : ¬s.metrics.Measures (latin1 bytes)) : s.measure? bytes = none :=
  if_neg h

/-- What has been measured starts at the position of the session. -/
theorem eq_ofText_of_measure? (h : s.measure? bytes = some span) :
    span = Span.ofText s.metrics s.position (latin1 bytes) := by
  unfold measure? at h
  split at h
  · exact (Option.some.inj h).symm
  · cases h

/-- Only the metrics and the position matter. -/
theorem measure?_congr (hm : s'.metrics = s.metrics) (hp : s'.position = s.position)
    (bytes : List UInt8) : s'.measure? bytes = s.measure? bytes := by
  unfold measure?
  rw [hm, hp]

theorem failure_congr (hm : s'.metrics = s.metrics) (hp : s'.position = s.position)
    (e : SessionError) (bytes : List UInt8) : s'.failure e bytes = s.failure e bytes := by
  unfold failure
  rw [measure?_congr hm hp]

/-- Without a tab stop of zero, all bytes can be measured. -/
theorem tabStop_eq_zero_of_not_measures {text : List Char} (h : ¬m.Measures text) :
    m.tabStop = 0 := by
  by_cases hzero : m.tabStop = 0
  · exact hzero
  · exact absurd (fun _ => hzero) h

theorem tabStop_eq_zero_of_measure? (h : s.measure? bytes = none) : s.metrics.tabStop = 0 := by
  have hm : ¬s.metrics.Measures (latin1 bytes) := by
    intro hm
    obtain ⟨span, hspan⟩ := measure?_eq_some hm
    rw [h] at hspan
    cases hspan
  exact tabStop_eq_zero_of_not_measures hm

/-- So a session whose tab stop is not zero can measure any bytes. -/
theorem Consistent.measure?_eq_some_of_tabStop {l : Lexer} (hs : Consistent l m s)
    (hm : m.tabStop ≠ 0) (bytes : List UInt8) : ∃ span, s.measure? bytes = some span := by
  apply measure?_eq_some
  intro _
  rw [hs.metrics]
  exact hm

/-! ## Reading -/

/-- Where nothing has been read, the input is at its end. -/
theorem rest_eq_nil_of_read (h : s.read = (.ok none, s')) : s.rest = [] ∧ s' = s := by
  rcases s.read_cases with ⟨hrest, hread⟩ | ⟨_, _, _, _, _, _, _, hread⟩ | ⟨_, _, _, hread⟩
  · rw [hread] at h
    exact ⟨hrest, (Prod.mk.inj h).2.symm⟩
  · rw [hread] at h
    cases h
  · rw [hread] at h
    cases h

/-- A token that has been read is a part of the rest, measured from the position of the session
    on, and the session goes on after it. -/
theorem token_of_read (h : s.read = (.ok (some t), s')) :
    t = s.token t.index t.lexeme t.span ∧ t.lexeme ≠ [] ∧ s.measure? t.lexeme = some t.span ∧
      ∃ v, t.lexeme ++ v = s.rest ∧ s' = s.restarted.pass t v := by
  rcases s.read_cases with ⟨_, hread⟩ | ⟨i, u, v, span, hrest, hne, hspan, hread⟩ | ⟨_, _, _, hread⟩
  · rw [hread] at h
    cases h
  · rw [hread] at h
    obtain ⟨ht, hs⟩ := Prod.mk.inj h
    obtain rfl := Option.some.inj (Except.ok.inj ht)
    exact ⟨rfl, hne, hspan, v, hrest, hs.symm⟩
  · rw [hread] at h
    cases h

/-- A failure to read a token leaves the session where it is. -/
theorem readFails_of_read (h : s.read = (.error f, s')) :
    s.rest ≠ [] ∧ s.ReadFails f ∧ s' = s.restarted := by
  rcases s.read_cases with ⟨_, hread⟩ | ⟨_, _, _, _, _, _, _, hread⟩ | ⟨g, hrest, hfails, hread⟩
  · rw [hread] at h
    cases h
  · rw [hread] at h
    cases h
  · rw [hread] at h
    obtain ⟨hf, hs⟩ := Prod.mk.inj h
    rw [← Except.error.inj hf]
    exact ⟨hrest, hfails, hs.symm⟩

theorem tabStop_eq_zero_of_read (h : s.read = (.error .unmeasurable, s')) :
    s.metrics.tabStop = 0 := by
  obtain ⟨_, hfails, _⟩ := readFails_of_read h
  cases hfails with
  | unmeasurable hspan => exact tabStop_eq_zero_of_measure? hspan

/-! ## The next token -/

theorem answer_nextRaw (s : Session) : s.nextRaw.answer = s.read.1 := by
  unfold nextRaw
  split
  · rename_i hread
    rw [hread]
  · rename_i hread
    rw [hread]

theorem read_of_answer_nextRaw {answer : Outcome} (h : s.nextRaw.answer = answer) :
    s.read = (answer, s.read.2) := by
  rw [← h, answer_nextRaw]

theorem nextRaw_of_rest_eq_nil (h : s.rest = []) : s.nextRaw = ⟨.ok none, [], s⟩ := by
  rw [nextRaw, read_of_rest_eq_nil h]

theorem nextRaw_of_read_token (h : s.read = (.ok (some t), s')) :
    s.nextRaw = ⟨.ok (some t), [], { s' with current := some t }⟩ := by
  rw [nextRaw, h]

theorem nextRaw_of_read_error (h : s.read = (.error f, s')) : s.nextRaw = ⟨.error f, [], s'⟩ := by
  rw [nextRaw, h]

/-- Where there is no next token, the input is at its end. -/
theorem rest_eq_nil_of_nextRaw {reported : List Token}
    (h : s.nextRaw = ⟨.ok none, reported, s'⟩) : s.rest = [] ∧ s' = s := by
  have hread := congrArg Reply.answer h
  rw [answer_nextRaw] at hread
  obtain ⟨hnil, _⟩ := rest_eq_nil_of_read (Prod.ext hread rfl)
  rw [nextRaw_of_rest_eq_nil hnil] at h
  exact ⟨hnil, ((Reply.mk.injEq ..).mp h).2.2.symm⟩

theorem read_of_nextRaw_error {reported : List Token}
    (h : s.nextRaw = ⟨.error f, reported, s'⟩) : s.read = (.error f, s') := by
  have hread := congrArg Reply.answer h
  rw [answer_nextRaw] at hread
  rw [nextRaw_of_read_error (Prod.ext hread rfl)] at h
  exact Prod.ext hread ((Reply.mk.injEq ..).mp h).2.2

/-- The next token has been read, and recorded as the last one. -/
theorem read_of_nextRaw_token {reported : List Token}
    (h : s.nextRaw = ⟨.ok (some t), reported, s'⟩) :
    ∃ mid, s.read = (.ok (some t), mid) ∧ s' = { mid with current := some t } := by
  have hread := congrArg Reply.answer h
  rw [answer_nextRaw] at hread
  rw [nextRaw_of_read_token (Prod.ext hread rfl)] at h
  exact ⟨_, Prod.ext hread rfl, ((Reply.mk.injEq ..).mp h).2.2.symm⟩

/-- The next token by what is read first, without the proof that the recursion ends. -/
theorem next_eq (s : Session) : s.next = match s.read with
    | (.ok (some t), s') =>
      if s.lexer.isSkip t.index = true then { s'.next with reported := t :: s'.next.reported }
      else ⟨.ok (some t), [t], { s' with current := some t }⟩
    | (answer, s') => ⟨answer, [], s'⟩ := by
  rw [next]
  split
  · rename_i hread
    conv => rhs; rw [hread]
  · rename_i hne hread
    rw [hread]
    split
    · rename_i heq
      exact absurd (Prod.mk.inj heq).1 (hne _)
    · rename_i heq
      obtain ⟨ha, hs⟩ := Prod.mk.inj heq
      rw [ha, hs]

theorem next_of_rest_eq_nil (h : s.rest = []) : s.next = ⟨.ok none, [], s⟩ := by
  rw [next_eq, read_of_rest_eq_nil h]

theorem next_of_read_error (h : s.read = (.error f, s')) : s.next = ⟨.error f, [], s'⟩ := by
  rw [next_eq, h]

/-- A token of another kind than the one to skip is the next one. -/
theorem next_of_read_token (h : s.read = (.ok (some t), s'))
    (hskip : s.lexer.isSkip t.index = false) :
    s.next = ⟨.ok (some t), [t], { s' with current := some t }⟩ := by
  rw [next_eq, h]
  exact if_neg (Bool.eq_false_iff.mp hskip)

/-- After a token to skip, the next one is that of the session after it. -/
theorem next_of_read_skipped (h : s.read = (.ok (some t), s'))
    (hskip : s.lexer.isSkip t.index = true) :
    s.next = { s'.next with reported := t :: s'.next.reported } := by
  rw [next_eq, h]
  exact if_pos hskip

/-! ## Places -/

/-- Two sessions, with whatever lexers, are abreast if the same bytes are left to them, from the
    same place on, and they measure alike. -/
structure Abreast (s s' : Session) : Prop where
  metrics : s'.metrics = s.metrics
  rest : s'.rest = s.rest
  offset : s'.offset = s.offset
  position : s'.position = s.position

namespace Abreast

theorem measure? (h : Abreast s s') (bytes : List UInt8) :
    s'.measure? bytes = s.measure? bytes :=
  measure?_congr h.metrics h.position bytes

theorem failure (h : Abreast s s') (e : SessionError) (bytes : List UInt8) :
    s'.failure e bytes = s.failure e bytes :=
  failure_congr h.metrics h.position e bytes

end Abreast

/-- Two sessions are at the same place if they differ in nothing that reading looks at. -/
structure SamePlace (s s' : Session) : Prop where
  lexer : s'.lexer = s.lexer
  metrics : s'.metrics = s.metrics
  input : s'.input = s.input
  rest : s'.rest = s.rest
  offset : s'.offset = s.offset
  position : s'.position = s.position
  automaton : s'.run.automaton = s.run.automaton

namespace SamePlace

variable {u : Session}

theorem refl (s : Session) : SamePlace s s :=
  ⟨rfl, rfl, rfl, rfl, rfl, rfl, rfl⟩

/-- What has been returned does not belong to the place. -/
theorem setCurrent (h : SamePlace s s') (c c' : Option Token) :
    SamePlace { s with current := c } { s' with current := c' } :=
  ⟨h.lexer, h.metrics, h.input, h.rest, h.offset, h.position, h.automaton⟩

theorem pass (h : SamePlace s s') (t : Token) (rest : List UInt8) :
    SamePlace (s.pass t rest) (s'.pass t rest) := by
  refine ⟨h.lexer, h.metrics, h.input, rfl, ?_, rfl, h.automaton⟩
  show s'.offset + t.lexeme.length = s.offset + t.lexeme.length
  rw [h.offset]

theorem abreast (h : SamePlace s s') : Abreast s s' :=
  ⟨h.metrics, h.rest, h.offset, h.position⟩

theorem measure? (h : SamePlace s s') (bytes : List UInt8) :
    s'.measure? bytes = s.measure? bytes :=
  h.abreast.measure? bytes

theorem failure (h : SamePlace s s') (e : SessionError) (bytes : List UInt8) :
    s'.failure e bytes = s.failure e bytes :=
  h.abreast.failure e bytes

theorem token (h : SamePlace s s') (i : Nat) (lexeme : List UInt8) (span : Span) :
    s'.token i lexeme span = s.token i lexeme span := by
  unfold Session.token
  rw [h.lexer, h.offset]

theorem restarted (h : SamePlace s s') : SamePlace s.restarted s'.restarted :=
  ⟨h.lexer, h.metrics, h.input, h.rest, h.offset, h.position, h.automaton⟩

theorem settle (h : SamePlace s s') (hstate : s'.run.state = s.run.state)
    (x : Run.Stretch LexerState) :
    (s'.settle x).1 = (s.settle x).1 ∧ SamePlace (s.settle x).2 (s'.settle x).2 := by
  unfold Session.settle
  simp only [h.measure?, h.failure, h.token, hstate]
  split
  · exact ⟨rfl, h.restarted⟩
  · split
    · split
      · exact ⟨rfl, h.restarted.pass _ _⟩
      · exact ⟨rfl, h.restarted⟩
    · exact ⟨rfl, h.restarted⟩

/-- Sessions at the same place read the same, and are at the same place afterwards. -/
theorem read (h : SamePlace s s') : s'.read.1 = s.read.1 ∧ SamePlace s.read.2 s'.read.2 := by
  by_cases hrest : s.rest = []
  · have hrest' : s'.rest = [] := h.rest.trans hrest
    rw [read_of_rest_eq_nil hrest, read_of_rest_eq_nil hrest']
    exact ⟨rfl, h⟩
  · have hrest' : s'.rest ≠ [] := by
      rw [h.rest]
      exact hrest
    -- the state in which the run has been left does not matter
    have hrun : s'.run.restart = s.run.restart := by
      unfold Run.restart
      rw [h.automaton]
    have hmoved : (s'.moved s.rest).run = (s.moved s.rest).run := by
      unfold moved
      rw [hrun]
    have hplace : SamePlace (s.moved s.rest) (s'.moved s.rest) :=
      ⟨h.lexer, h.metrics, h.input, h.rest, h.offset, h.position, congrArg Run.automaton hmoved⟩
    rw [read_of_rest_ne_nil hrest, read_of_rest_ne_nil hrest', hrun, h.rest]
    exact hplace.settle (congrArg Run.state hmoved) _

theorem exists_read {answer : Outcome} (h : SamePlace s s') (hread : s.read = (answer, u)) :
    ∃ u', s'.read = (answer, u') ∧ SamePlace u u' := by
  obtain ⟨hanswer, hafter⟩ := h.read
  rw [hread] at hanswer hafter
  have hread' : s'.read = (answer, s'.read.2) := Prod.ext hanswer rfl
  exact ⟨_, hread', hafter⟩

end SamePlace

end ByteLexer.Session
