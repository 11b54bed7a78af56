import ByteLexer.Session.Call

/-! # What calls keep

    All calls read lexemes in the same way, so what a session keeps through any
    history follows from what reading one lexeme can do.

    - **`read`** passes a token, or leaves the session where it is.
    - **Histories** keep what every call keeps.
    - **`Consistent`** sessions stay with their lexer and their metrics, and the rest
      is the input from the offset on.
    - **Calls.** Every call keeps a session consistent, and so does a history.
-/

namespace ByteLexer.Session

variable {l : Lexer} {m : Metrics} {s : Session}

/-! ## Settling -/

/-- Where a kind has been reached by some bytes, the token of this kind is settled, provided
    that it can be measured. -/
theorem settle_of_kind {x : Run.Stretch LexerState} {i : Nat} (herr : x.error = none)
    (hkind : s.run.state.kind? = some i) (hne : x.consumed ≠ []) :
    s.settle x = match s.measure? x.consumed with
      | some span => (.ok (some (s.token i x.consumed span)),
          s.restarted.pass (s.token i x.consumed span) x.rest)
      | none => (.error .unmeasurable, s.restarted) := by
  obtain ⟨b, more, hcons⟩ := List.exists_cons_of_ne_nil hne
  rw [hcons]
  rcases hspan : s.measure? (b :: more) with _ | span
  · simp only [settle, herr, hkind, hcons, hspan]
  · simp only [settle, herr, hkind, hcons, hspan]

/-- Otherwise an error is settled: the bytes that have been read, and the one after them. -/
theorem settle_of_no_token {x : Run.Stretch LexerState} (herr : x.error = none)
    (hno : s.run.state.kind? = none ∨ x.consumed = []) :
    s.settle x = (.error (s.failure (.lexical x.consumed x.rest.head?)
      (x.consumed ++ x.rest.head?.toList)), s.restarted) := by
  rcases hno with hkind | hnil
  · simp only [settle, herr, hkind]
  · rcases hkind : s.run.state.kind? with _ | i
    · simp only [settle, herr, hkind]
    · simp only [settle, herr, hkind, hnil]

/-- How reading can fail at the place of a session: some bytes cannot be measured, or an error
    is located that covers a part of the rest. A lexical error also covers the byte after its
    lexeme. -/
inductive ReadFails (s : Session) : Failure → Prop
  | unmeasurable {bytes : List UInt8} : s.measure? bytes = none → ReadFails s .unmeasurable
  | lexical {u v : List UInt8} {span : Span} : u ++ v = s.rest →
      s.measure? (u ++ v.head?.toList) = some span →
      ReadFails s (.located ⟨.lexical u v.head?, span⟩)
  | automaton {e : Nondeterminism} {u v : List UInt8} {span : Span} : u ++ v = s.rest →
      s.measure? u = some span → ReadFails s (.located ⟨.automaton e, span⟩)

/-- Settling passes a token of the bytes that have been consumed, or fails without moving. The run
    is restarted in both cases. -/
theorem settle_cases {x : Run.Stretch LexerState} (hx : x.consumed ++ x.rest = s.rest) :
    (∃ i span, x.consumed ≠ [] ∧ s.measure? x.consumed = some span ∧
      s.settle x = (.ok (some (s.token i x.consumed span)),
        s.restarted.pass (s.token i x.consumed span) x.rest)) ∨
    ∃ f, s.ReadFails f ∧ s.settle x = (.error f, s.restarted) := by
  -- wherever no token is settled, that is a lexical error
  have hlexical : x.error = none → s.run.state.kind? = none ∨ x.consumed = [] →
      ∃ f, s.ReadFails f ∧ s.settle x = (.error f, s.restarted) := by
    intro herr hno
    refine ⟨_, ?_, settle_of_no_token herr hno⟩
    unfold failure
    rcases hspan : s.measure? (x.consumed ++ x.rest.head?.toList) with _ | span
    · exact .unmeasurable hspan
    · exact .lexical hx hspan
  rcases herr : x.error with _ | e
  · rcases hkind : s.run.state.kind? with _ | i
    · exact .inr (hlexical herr (.inl hkind))
    · by_cases hnil : x.consumed = []
      · exact .inr (hlexical herr (.inr hnil))
      · have hsettle := settle_of_kind (s := s) herr hkind hnil
        rcases hspan : s.measure? x.consumed with _ | span
        · rw [hspan] at hsettle
          exact .inr ⟨_, .unmeasurable hspan, hsettle⟩
        · rw [hspan] at hsettle
          exact .inl ⟨i, span, hnil, rfl, hsettle⟩
  · have hsettle : s.settle x = (.error (s.failure (.automaton e) x.consumed), s.restarted) := by
      rw [settle, herr]
    refine .inr ⟨_, ?_, hsettle⟩
    unfold failure
    rcases hspan : s.measure? x.consumed with _ | span
    · exact .unmeasurable hspan
    · exact .automaton hx hspan

/-! ## Reading -/

/-- The session whose run has got stuck somewhere on the way through some bytes. -/
def moved (s : Session) (bytes : List UInt8) : Session :=
  { s with run := (s.run.restart.follow bytes).run }

/-- Restarting takes it back. -/
theorem restarted_moved (s : Session) (bytes : List UInt8) :
    (s.moved bytes).restarted = s.restarted := by
  have hrun : (s.moved bytes).run.restart = s.run.restart :=
    s.run.restart.restart_run_follow bytes
  unfold restarted
  rw [hrun]
  rfl

theorem read_of_rest_eq_nil (h : s.rest = []) : s.read = (.ok none, s) := by
  rw [read, atEnd, h]
  rfl

theorem read_of_rest_ne_nil (h : s.rest ≠ []) :
    s.read = (s.moved s.rest).settle (s.run.restart.follow s.rest) := by
  have hend : s.atEnd = false := by
    rw [atEnd, List.isEmpty_eq_false_iff]
    exact h
  rw [read, hend]
  rfl

/-- Reading a lexeme does one of three things: nothing at the end of the input, it passes a
    token, or it fails without moving. -/
theorem read_cases (s : Session) :
    (s.rest = [] ∧ s.read = (.ok none, s)) ∨
    (∃ i u v span, u ++ v = s.rest ∧ u ≠ [] ∧ s.measure? u = some span ∧
      s.read = (.ok (some (s.token i u span)), s.restarted.pass (s.token i u span) v)) ∨
    ∃ f, s.rest ≠ [] ∧ s.ReadFails f ∧ s.read = (.error f, s.restarted) := by
  by_cases hrest : s.rest = []
  · exact .inl ⟨hrest, read_of_rest_eq_nil hrest⟩
  · rw [read_of_rest_ne_nil hrest]
    -- whatever the run has consumed and left makes up the rest
    have hparts := Run.consumed_append_rest s.run.restart s.rest
    rcases settle_cases (s := s.moved s.rest) hparts with
      ⟨i, span, hne, hspan, hsettle⟩ | ⟨f, hfails, hsettle⟩
    · rw [restarted_moved] at hsettle
      exact .inr (.inl ⟨i, _, _, span, hparts, hne, hspan, hsettle⟩)
    · rw [restarted_moved] at hsettle
      refine .inr (.inr ⟨f, hrest, ?_, hsettle⟩)
      -- where the run is changes nothing that can be measured
      cases hfails with
      | unmeasurable hspan => exact .unmeasurable hspan
      | lexical hu hspan => exact .lexical hu hspan
      | automaton hu hspan => exact .automaton hu hspan

/-- To return the next token is to read it and to record it as the last one. -/
theorem exists_session_nextRaw (s : Session) :
    ∃ current, s.nextRaw.session = { s.read.2 with current } := by
  unfold nextRaw
  split
  · rename_i t mid hread
    rw [hread]
    exact ⟨some t, rfl⟩
  · rename_i mid _ hread
    rw [hread]
    exact ⟨mid.current, rfl⟩

/-- Reading stays with the input. -/
theorem input_read (s : Session) : s.read.2.input = s.input := by
  rcases s.read_cases with ⟨_, hread⟩ | ⟨_, _, _, _, _, _, _, hread⟩ | ⟨_, _, _, hread⟩
  · rw [hread]
  · rw [hread]
    rfl
  · rw [hread]
    rfl

/-- So does the next token, by induction on the tokens that are skipped. -/
theorem input_next (s : Session) : s.next.session.input = s.input := by
  fun_induction next s with
  | case1 s t mid hread hskip hlt r ih =>
    have hmid := s.input_read
    rw [hread] at hmid
    exact ih.trans hmid
  | case2 s t mid hread hskip =>
    have hmid := s.input_read
    rw [hread] at hmid
    exact hmid
  | case3 s answer mid hne hread =>
    have hmid := s.input_read
    rw [hread] at hmid
    exact hmid

/-! ## Histories -/

/-- What every call keeps, a history of calls keeps. -/
theorem after_of_call {P : Session → Prop} (hkeep : ∀ c s, P s → P (s.call c).session) (hs : P s)
    (history : List Call) : P (s.after history) := by
  unfold after
  induction history generalizing s with
  | nil => exact hs
  | cons c history ih => exact ih (hkeep c s hs)

/-! ## Consistent sessions -/

/-- A session is consistent with a lexer and a metrics if it works with these, and its rest is
    what its input holds from the offset on. -/
structure Consistent (l : Lexer) (m : Metrics) (s : Session) : Prop where
  lexer : s.lexer = l
  metrics : s.metrics = m
  automaton : s.run.automaton = l.automaton
  offset_le : s.offset ≤ s.input.length
  rest : s.rest = s.input.drop s.offset

theorem consistent_ofInput (l : Lexer) (m : Metrics) (input : List UInt8) :
    Consistent l m (ofInput l m input) :=
  ⟨rfl, rfl, rfl, Nat.zero_le _, rfl⟩

namespace Consistent

theorem restarted (h : Consistent l m s) : Consistent l m s.restarted :=
  ⟨h.lexer, h.metrics, h.automaton, h.offset_le, h.rest⟩

/-- What has been returned does not matter. -/
theorem setCurrent (h : Consistent l m s) (current : Option Token) :
    Consistent l m { s with current } :=
  ⟨h.lexer, h.metrics, h.automaton, h.offset_le, h.rest⟩

/-- Passing a token moves on by its lexeme. -/
theorem pass (h : Consistent l m s) {t : Token} {rest : List UInt8}
    (hrest : t.lexeme ++ rest = s.rest) : Consistent l m (s.pass t rest) where
  lexer := h.lexer
  metrics := h.metrics
  automaton := h.automaton
  offset_le := by
    -- the lexeme is a part of the rest, and so within the input
    have hlength : t.lexeme.length + rest.length = s.input.length - s.offset := by
      rw [← List.length_append, hrest, h.rest, List.length_drop]
    have hle := h.offset_le
    show s.offset + t.lexeme.length ≤ s.input.length
    omega
  rest := by
    show rest = s.input.drop (s.offset + t.lexeme.length)
    rw [← List.drop_drop, ← h.rest, ← hrest, List.drop_left]

theorem read (h : Consistent l m s) : Consistent l m s.read.2 := by
  rcases s.read_cases with ⟨_, hread⟩ | ⟨i, u, v, span, hrest, _, _, hread⟩ | ⟨f, _, _, hread⟩
  · rw [hread]
    exact h
  · rw [hread]
    exact h.restarted.pass hrest
  · rw [hread]
    exact h.restarted

/-! ## Calls -/

theorem nextRaw (h : Consistent l m s) : Consistent l m s.nextRaw.session := by
  obtain ⟨current, hsession⟩ := s.exists_session_nextRaw
  rw [hsession]
  exact h.read.setCurrent current

/-- The induction is on the tokens that are skipped. -/
theorem next (h : Consistent l m s) : Consistent l m s.next.session := by
  fun_induction Session.next s with
  | case1 s t mid hread hskip hlt r ih =>
    have hmid := h.read
    rw [hread] at hmid
    exact ih hmid
  | case2 s t mid hread hskip =>
    have hmid := h.read
    rw [hread] at hmid
    exact hmid.setCurrent _
  | case3 s answer mid hne hread =>
    have hmid := h.read
    rw [hread] at hmid
    exact hmid

/-- After `peek` the place is the old one, and the rest is as the next token has left it. -/
theorem peek (h : Consistent l m s) : Consistent l m s.peek.session := by
  have hnext := h.next
  refine ⟨hnext.lexer, hnext.metrics, hnext.automaton, ?_, ?_⟩
  · show s.offset ≤ s.next.session.input.length
    rw [input_next]
    exact h.offset_le
  · show s.rest = s.next.session.input.drop s.offset
    rw [input_next]
    exact h.rest

theorem iterate (h : Consistent l m s) : Consistent l m s.iterate.session := by
  have hnext := h.next
  unfold Session.iterate
  by_cases hfailed : s.failed = true
  · rw [if_pos hfailed]
    exact h
  · rw [if_neg hfailed]
    dsimp only
    split
    · exact hnext
    · exact hnext
    · exact ⟨hnext.lexer, hnext.metrics, hnext.automaton, hnext.offset_le, hnext.rest⟩

theorem rebind (h : Consistent l m s) (input : List UInt8) : Consistent l m (s.rebind input) :=
  ⟨h.lexer, h.metrics, h.automaton, Nat.zero_le _, rfl⟩

/-- Every call keeps a session consistent. -/
theorem call (h : Consistent l m s) (c : Call) : Consistent l m (s.call c).session := by
  cases c with
  | next => exact h.next
  | nextRaw => exact h.nextRaw
  | peek => exact h.peek
  | consume kind => exact h.next
  | iterate => exact h.iterate
  | rebind input => exact h.rebind input

/-- So does every history of calls. -/
theorem after (h : Consistent l m s) (history : List Call) : Consistent l m (s.after history) :=
  after_of_call (fun c _ hs => hs.call c) h history

end Consistent

/-- A session that a history leads to from the start of an input is consistent. -/
theorem consistent_after (l : Lexer) (m : Metrics) (input : List UInt8) (history : List Call) :
    Consistent l m ((ofInput l m input).after history) :=
  (consistent_ofInput l m input).after history

end ByteLexer.Session
